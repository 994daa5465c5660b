import Xv6.Fs.Owned

/-!
# `bmap`

`bmap` returns the block of a file, allocating it and the indirect block if they are
missing. What it changes is the slots that were 0: every other slot keeps its block, and
every file block its contents (`Grows`).
-/

namespace Xv6.Fs

open Fallible Words BlockMap Function

/-- Blocks were allocated: the inodes on the disk, the slots in use and the contents of
the file blocks are as before. -/
structure Grows (sb : Superblock) (img : Image) (T : Nat → Dinode) (img' : Image) (T' : Nat → Dinode) : Prop where
  inode : img'.inode = img.inode
  keeps : ∀ x, slots sb img.data T x ≠ 0 → slots sb img'.data T' x = slots sb img.data T x
  contents : ∀ x, x.2 ≠ NDIRECT → slots sb img.data T x ≠ 0 →
    img'.data (slots sb img.data T x) = img.data (slots sb img.data T x)

/-- The blocks `bmap` has to allocate. -/
def cost (data : Nat → Block) (d : Dinode) (bn : Nat) : Nat :=
  (if slot data d (key bn) = 0 then 1 else 0) + if NDIRECT ≤ bn ∧ d.addrs NDIRECT = 0 then 1 else 0

/-- `bmap(ip, bn)` returned `addr`, and the cached inode and the disk are `ip'` and
`img'`. -/
structure Mapping (sb : Superblock) (img : Image) (ip : Inode) (bn addr : Nat) (ip' : Inode) (img' : Image) : Prop where
  grows : Grows sb img (img.table ip) img' (img'.table ip')
  owned : Owned sb img' (img'.table ip')
  rest : ip' = { ip with addrs := ip'.addrs }
  beyond : ∀ i, NDIRECT < i → ip'.addrs i = ip.addrs i
  here : slot img'.data ip'.toDinode (key bn) = addr
  mapped : addr ≠ 0
  same : slot img.data ip.toDinode (key bn) ≠ 0 → ip' = ip ∧ img' = img
  free : free sb.size img'.used + cost img.data ip.toDinode bn = free sb.size img.used

variable {sb : Superblock} {dv : Dev} {img img' img'' : Image} {T T' T'' : Nat → Dinode} {ip : Inode} {k : Nat}

theorem Grows.refl : Grows sb img T img T := ⟨rfl, fun _ _ => rfl, fun _ _ _ => rfl⟩

theorem Grows.trans (first : Grows sb img T img' T') (second : Grows sb img' T' img'' T'') : Grows sb img T img'' T'' where
  inode := second.inode.trans first.inode
  keeps := by
    intro x mapped
    have eq := first.keeps x mapped
    rw [second.keeps x (by rw [eq]; exact mapped), eq]
  contents := by
    intro x file mapped
    have eq := first.keeps x mapped
    have later := second.contents x file (by rw [eq]; exact mapped)
    rw [eq] at later
    rw [later, first.contents x file mapped]

theorem table_self (img : Image) (ip : Inode) : img.table ip ip.inum = ip.toDinode := update_self ..

theorem table_of_ne (img : Image) {ip : Inode} {i : Nat} (other : i ≠ ip.inum) : img.table ip i = img.inode i :=
  update_of_ne other ..

theorem slots_self (img : Image) (data : Nat → Block) (inside : ip.inum < sb.ninodes) (live : ip.type ≠ 0) (k : Nat) :
    slots sb data (img.table ip) (ip.inum, k) = slot data ip.toDinode k := by
  rw [slots_live inside (by rw [table_self]; exact live), table_self]

/-! ## Pointers in the inode -/

/-- The inode with slot `k` set. -/
def Inode.setAddr (ip : Inode) (k b : Nat) : Inode := { ip with addrs := Function.update ip.addrs k b }

@[simp] theorem Inode.setAddr_self (ip : Inode) (k b : Nat) : (ip.setAddr k b).addrs k = b := update_self ..

theorem Inode.setAddr_of_ne (ip : Inode) {i : Nat} (b : Nat) (other : i ≠ k) : (ip.setAddr k b).addrs i = ip.addrs i :=
  update_of_ne other ..

theorem ensureAddr_present (dv : Dev) (present : ip.addrs k ≠ 0) : ensureAddr dv ip k = .ok (ip, dv) := by
  rw [ensureAddr, if_neg present]
  rfl

/-- A missing pointer is given a block that is not marked, or there is none. -/
theorem ensureAddr_missing (shows_ : Shows sb dv img) (owned : Owned sb img (img.table ip)) (missing : ip.addrs k = 0) :
    (∃ b dv', ensureAddr dv ip k = .ok (ip.setAddr k b, dv') ∧ b < sb.size ∧ img.used b = false ∧ Shows sb dv' (img.take b)) ∨
      ensureAddr dv ip k = .error (.panic "balloc: out of blocks") ∧ free sb.size img.used = 0 := by
  rw [ensureAddr, if_pos missing]
  rcases balloc_cases shows_ owned.data_area with ⟨b, dv', isOk, below, clear, shows'⟩ | ⟨isError, full⟩
  · left
    refine ⟨b, dv', ?_, below, clear, shows'⟩
    rw [isOk]
    rfl
  · right
    constructor
    · rw [isError]
      rfl
    · by_contra some_
      obtain ⟨b, below, clear⟩ := free_pos.1 (Nat.pos_of_ne_zero some_)
      rw [full b below] at clear
      cases clear

theorem take_table (img : Image) (ip : Inode) (k b : Nat) : (img.take b).table (ip.setAddr k b) =
    update (img.table ip) ip.inum
      { img.table ip ip.inum with addrs := update (img.table ip ip.inum).addrs k b } := by
  rw [table_self]
  exact (update_idem ..).symm

section Assign

variable (owned : Owned sb img (img.table ip)) (inside : ip.inum < sb.ninodes) (live : ip.type ≠ 0) {bn j : Nat}

include owned inside live

/-- The new pointer is the only change. -/
theorem setAddr_grows {b : Nat} (direct : k ≤ NDIRECT) (missing : ip.addrs k = 0) (below : b < sb.size)
    (clear : img.used b = false) :
    Grows sb img (img.table ip) (img.take b) ((img.take b).table (ip.setAddr k b)) ∧
      Owned sb (img.take b) ((img.take b).table (ip.setAddr k b)) ∧
      ∀ m, m ≠ k → slot (img.take b).data (ip.setAddr k b).toDinode m = slot img.data ip.toDinode m := by
  obtain ⟨pointers, owned'⟩ := owned.assign_addr (k := k) inside (by rw [table_self]; exact live) direct
    (by rw [table_self]; exact missing) below clear
  rw [← take_table] at pointers owned'
  refine ⟨⟨rfl, ?_, ?_⟩, owned', ?_⟩
  · intro x mapped
    rw [pointers]
    apply update_of_ne
    intro same
    rw [same, slots_self _ _ inside live, slot_direct direct] at mapped
    exact mapped missing
  · intro x _ _
    exact update_of_ne ((owned.fresh below clear).2 x) ..
  · intro m other
    have inside' : (ip.setAddr k b).inum < sb.ninodes := inside
    have live' : (ip.setAddr k b).type ≠ 0 := live
    rw [← slots_self img img.data inside live, ← slots_self (img.take b) (img.take b).data inside' live', pointers]
    exact update_of_ne (by simp [other]) ..

/-- The new entry of the indirect block is the only change. -/
theorem takeEntry_grows (wf : sb.Wf) {b : Nat} (entry : j < NINDIRECT) (present : ip.addrs NDIRECT ≠ 0)
    (missing : getWord (img.data (ip.addrs NDIRECT)) (4 * j) = 0) (below : b < sb.size) (clear : img.used b = false) :
    Grows sb img (img.table ip) (img.takeEntry (ip.addrs NDIRECT) j b) (img.table ip) ∧
      Owned sb (img.takeEntry (ip.addrs NDIRECT) j b) (img.table ip) ∧
      slot (img.takeEntry (ip.addrs NDIRECT) j b).data ip.toDinode (NDIRECT + 1 + j) = b := by
  have isIp := table_self img ip
  obtain ⟨pointers, owned'⟩ := owned.assign_entry wf inside (by rw [isIp]; exact live) entry (by rw [isIp]; exact present)
    (by rw [isIp]; exact missing) below clear
  rw [isIp] at pointers owned'
  refine ⟨⟨rfl, ?_, ?_⟩, owned', ?_⟩
  · intro x mapped
    rw [pointers]
    apply update_of_ne
    intro same
    rw [same, slots_self _ _ inside live, slot_indirect present entry] at mapped
    exact mapped missing
  · intro x file mapped
    have notPointer : slots sb img.data (img.table ip) x ≠ ip.addrs NDIRECT := by
      intro same
      have pointer := slots_self img img.data inside live NDIRECT
      rw [slot_direct (Nat.le_refl _)] at pointer
      have := owned.inj x _ mapped (same.trans pointer.symm)
      rw [this] at file
      exact file rfl
    exact (update_of_ne notPointer ..).trans (update_of_ne ((owned.fresh below clear).2 x) ..)
  · rw [← slots_self img _ inside live, pointers, update_self]

omit inside live in
/-- An entry of the indirect block that is 0 is given a block that is not marked. -/
theorem ensureEntry_missing (shows_ : Shows sb dv img) {addr : Nat} (isData : sb.nmeta ≤ addr)
    (missing : getWord (img.data addr) (4 * j) = 0) :
    (∃ b dv', ensureEntry dv addr j = .ok (b, dv') ∧ b < sb.size ∧ img.used b = false ∧ Shows sb dv' (img.takeEntry addr j b)) ∨
      ensureEntry dv addr j = .error (.panic "balloc: out of blocks") ∧ free sb.size img.used = 0 := by
  rw [ensureEntry, shows_.data _ isData]
  simp only [if_pos missing]
  rcases balloc_cases shows_ owned.data_area with ⟨b, dv', isOk, below, clear, shows'⟩ | ⟨isError, full⟩
  · left
    refine ⟨b, _, ?_, below, clear, shows'.writeData isData _⟩
    rw [isOk, ← shows'.data _ isData]
    rfl
  · right
    constructor
    · rw [isError]
      rfl
    · by_contra some_
      obtain ⟨b, below, clear⟩ := free_pos.1 (Nat.pos_of_ne_zero some_)
      rw [full b below] at clear
      cases clear

/-! ## The function -/

theorem bmap_mapped (small : bn < MAXFILE) (mapped : slot img.data ip.toDinode (key bn) ≠ 0) (shows_ : Shows sb dv img) :
    bmap dv ip bn = .ok (slot img.data ip.toDinode (key bn), ip, dv) := by
  rw [bmap]
  by_cases direct : bn < NDIRECT
  · have isKey : key bn = bn := if_pos direct
    rw [isKey, slot_direct (by omega)] at mapped ⊢
    rw [if_pos direct, ensureAddr_present dv mapped]
    rfl
  · obtain ⟨j, rfl⟩ : ∃ j, bn = NDIRECT + j := ⟨bn - NDIRECT, by omega⟩
    have short : j < NINDIRECT := by
      simp only [NDIRECT, NINDIRECT, MAXFILE] at *
      omega
    have isKey : key (NDIRECT + j) = NDIRECT + 1 + j := by
      rw [key, if_neg direct]
      omega
    rw [isKey] at mapped ⊢
    have present : ip.addrs NDIRECT ≠ 0 := fun zero => mapped (slot_beyond (by omega) (.inl zero))
    have isData : sb.nmeta ≤ ip.addrs NDIRECT := by
      have pointer := slots_self img img.data inside live NDIRECT
      rw [slot_direct (Nat.le_refl _)] at pointer
      rw [← pointer]
      exact (owned.area _ (by rw [pointer]; exact present)).1
    rw [slot_indirect present short] at mapped ⊢
    rw [if_neg direct, Nat.add_sub_cancel_left]
    simp only [if_pos short, ensureAddr_present dv present, ok_bind, ensureEntry, shows_.data _ isData, if_neg mapped]
    rfl

omit inside live in
/-- A mapped block costs nothing. -/
theorem Mapping.of_mapped (mapped : slot img.data ip.toDinode (key bn) ≠ 0) :
    Mapping sb img ip bn (slot img.data ip.toDinode (key bn)) ip img where
  grows := .refl
  owned := owned
  rest := rfl
  beyond := fun _ _ => rfl
  here := rfl
  mapped := mapped
  same := fun _ => ⟨rfl, rfl⟩
  free := by
    have nothing : cost img.data ip.toDinode bn = 0 := by
      rw [cost, if_neg mapped, if_neg]
      rintro ⟨indirect, zero⟩
      refine mapped (slot_beyond ?_ (.inl zero))
      rw [key, if_neg (by omega)]
      omega
    rw [nothing, Nat.add_zero]

/-- A direct block that is missing. -/
theorem bmap_direct (direct : bn < NDIRECT) (missing : ip.addrs bn = 0) (shows_ : Shows sb dv img) :
    (∃ addr ip' dv' img', bmap dv ip bn = .ok (addr, ip', dv') ∧ Shows sb dv' img' ∧ Mapping sb img ip bn addr ip' img') ∨
      bmap dv ip bn = .error (.panic "balloc: out of blocks") ∧ free sb.size img.used < cost img.data ip.toDinode bn := by
  have isKey : key bn = bn := if_pos direct
  have one : cost img.data ip.toDinode bn = 1 := by
    rw [cost, isKey, slot_direct (by omega), if_pos missing, if_neg (by omega)]
  rw [bmap, if_pos direct]
  rcases ensureAddr_missing shows_ owned missing with ⟨b, dv', isOk, below, clear, shows'⟩ | ⟨isError, full⟩
  · left
    obtain ⟨grows, owned', _⟩ := setAddr_grows owned inside live (by omega) missing below clear
    refine ⟨b, ip.setAddr bn b, dv', img.take b, ?_, shows', grows, owned', rfl, ?_, ?_, ?_, ?_, ?_⟩
    · simp only [isOk, ok_bind, Inode.setAddr_self]
      rfl
    · intro i beyond
      exact ip.setAddr_of_ne b (by omega)
    · rw [isKey, slot_direct (by omega), Inode.setAddr_self]
    · have := (owned.fresh below clear).1
      have := owned.pos
      omega
    · intro mapped
      rw [isKey, slot_direct (by omega)] at mapped
      exact absurd missing mapped
    · rw [one]
      exact free_assign below clear
  · right
    rw [isError, one]
    exact ⟨rfl, by omega⟩

/-- What the first half of `bmap` on an indirect block leaves: the pointer is set. -/
theorem ensureAddr_pointer (shows_ : Shows sb dv img) :
    (∃ ip' dv' img', ensureAddr dv ip NDIRECT = .ok (ip', dv') ∧ Shows sb dv' img' ∧ ip'.addrs NDIRECT ≠ 0 ∧
      Grows sb img (img.table ip) img' (img'.table ip') ∧ Owned sb img' (img'.table ip') ∧ ip' = { ip with addrs := ip'.addrs } ∧
      (∀ i, NDIRECT < i → ip'.addrs i = ip.addrs i) ∧
      (∀ m, m ≠ NDIRECT → slot img'.data ip'.toDinode m = slot img.data ip.toDinode m) ∧
      free sb.size img'.used + (if ip.addrs NDIRECT = 0 then 1 else 0) = free sb.size img.used) ∨
    ensureAddr dv ip NDIRECT = .error (.panic "balloc: out of blocks") ∧ ip.addrs NDIRECT = 0 ∧ free sb.size img.used = 0 := by
  by_cases missing : ip.addrs NDIRECT = 0
  · rcases ensureAddr_missing shows_ owned missing with ⟨b, dv', isOk, below, clear, shows'⟩ | ⟨isError, full⟩
    · left
      obtain ⟨grows, owned', others⟩ := setAddr_grows owned inside live (Nat.le_refl _) missing below clear
      refine ⟨_, dv', img.take b, isOk, shows', ?_, grows, owned', rfl, ?_, others, ?_⟩
      · have := (owned.fresh below clear).1
        have := owned.pos
        rw [Inode.setAddr_self]
        omega
      · intro i beyond
        exact ip.setAddr_of_ne b (by omega)
      · rw [if_pos missing]
        exact free_assign below clear
    · exact .inr ⟨isError, missing, full⟩
  · left
    refine ⟨ip, dv, img, ensureAddr_present dv missing, shows_, missing, .refl, owned, rfl, fun _ _ => rfl, fun _ _ => rfl, ?_⟩
    rw [if_neg missing, Nat.add_zero]

/-- A missing block that is named in the indirect block. -/
theorem bmap_indirect (entry : j < NINDIRECT) (missing : slot img.data ip.toDinode (NDIRECT + 1 + j) = 0)
    (shows_ : Shows sb dv img) :
    (∃ addr ip' dv' img', bmap dv ip (NDIRECT + j) = .ok (addr, ip', dv') ∧ Shows sb dv' img' ∧
      Mapping sb img ip (NDIRECT + j) addr ip' img') ∨
    bmap dv ip (NDIRECT + j) = .error (.panic "balloc: out of blocks") ∧
      free sb.size img.used < cost img.data ip.toDinode (NDIRECT + j) := by
  have isKey : key (NDIRECT + j) = NDIRECT + 1 + j := by
    rw [key, if_neg (by omega)]
    omega
  have isCost : cost img.data ip.toDinode (NDIRECT + j) = 1 + if ip.addrs NDIRECT = 0 then 1 else 0 := by
    rw [cost, isKey, if_pos missing]
    simp
  rw [bmap, if_neg (by omega), Nat.add_sub_cancel_left]
  simp only [if_pos entry]
  rcases ensureAddr_pointer owned inside live shows_ with
    ⟨ip1, dv1, img1, isOk, shows1, present, grows1, owned1, rest, beyond, others, free1⟩ | ⟨isError, zero, full⟩
  · have sameInum : ip1.inum = ip.inum := by rw [rest]
    have sameType : ip1.type = ip.type := by rw [rest]
    have inside1 : ip1.inum < sb.ninodes := by rw [sameInum]; exact inside
    have live1 : ip1.type ≠ 0 := by rw [sameType]; exact live
    have pointer := slots_self img1 img1.data inside1 live1 NDIRECT
    rw [slot_direct (Nat.le_refl _)] at pointer
    have isData : sb.nmeta ≤ ip1.addrs NDIRECT := by
      rw [← pointer]
      exact (owned1.area _ (by rw [pointer]; exact present)).1
    have stillMissing : getWord (img1.data (ip1.addrs NDIRECT)) (4 * j) = 0 := by
      rw [← slot_indirect present entry, others _ (by omega), missing]
    rw [isOk, ok_bind]
    rcases ensureEntry_missing owned1 shows1 isData stillMissing with ⟨b, dv2, isOk2, below, clear, shows2⟩ | ⟨isError, full⟩
    · left
      obtain ⟨grows2, owned2, new⟩ := takeEntry_grows owned1 inside1 live1 shows_.wf entry present stillMissing below clear
      refine ⟨b, ip1, dv2, _, ?_, shows2, grows1.trans grows2, owned2, rest, beyond, ?_, ?_, ?_, ?_⟩
      · simp only [isOk2, ok_bind]
        rfl
      · rw [isKey, new]
      · have := (owned1.fresh below clear).1
        have := owned1.pos
        omega
      · intro mapped
        rw [isKey] at mapped
        exact absurd missing mapped
      · have := free_assign below clear
        rw [isCost]
        simp only [Image.takeEntry, Image.take]
        omega
    · right
      constructor
      · simp only [isError]
        rfl
      · rw [isCost]
        omega
  · right
    rw [isError, isCost, if_pos zero]
    exact ⟨rfl, by omega⟩

/-- `bmap` returns the block of the file, or the disk is full. -/
theorem bmap_cases (small : bn < MAXFILE) (shows_ : Shows sb dv img) :
    (∃ addr ip' dv' img', bmap dv ip bn = .ok (addr, ip', dv') ∧ Shows sb dv' img' ∧ Mapping sb img ip bn addr ip' img') ∨
      bmap dv ip bn = .error (.panic "balloc: out of blocks") ∧ free sb.size img.used < cost img.data ip.toDinode bn := by
  by_cases missing : slot img.data ip.toDinode (key bn) = 0
  · by_cases direct : bn < NDIRECT
    · rw [key, if_pos direct, slot_direct (by omega)] at missing
      exact bmap_direct owned inside live direct missing shows_
    · obtain ⟨j, rfl⟩ : ∃ j, bn = NDIRECT + j := ⟨bn - NDIRECT, by omega⟩
      have entry : j < NINDIRECT := by
        simp only [NDIRECT, NINDIRECT, MAXFILE] at *
        omega
      rw [key, if_neg direct, show NDIRECT + j + 1 = NDIRECT + 1 + j by omega] at missing
      exact bmap_indirect owned inside live entry missing shows_
  · left
    exact ⟨_, ip, dv, img, bmap_mapped owned inside live small missing shows_, shows_, .of_mapped owned missing⟩

end Assign

end Xv6.Fs
