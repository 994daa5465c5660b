import Xv6.Fs.Bmap

/-!
# Files as byte strings (`readi`, `writei`)

The bytes of a file are those of its blocks. The loops of `readi` and `writei` go from
block to block; one round of the loop of `writei` changes the bytes of one piece of one
block (`Written`), and pieces that follow each other make one write. On whole calls the
two functions are `Xv6.readi` and `Xv6.writei` of the file contents, which is the view
the swap files are modelled with.
-/

namespace Xv6.Fs

open Fallible Words BlockMap Function Finset

/-- Byte `o` of the file `d`. -/
def fileByte (data : Nat → Block) (d : Dinode) (o : Nat) : UInt8 := data (slot data d (key (o / BSIZE))) (o % BSIZE)

/-- The contents of a file. -/
def contents (data : Nat → Block) (d : Dinode) : Xv6.Inode where
  size := d.size
  data := fun o => if o < d.size then fileByte data d o else 0

variable {sb : Superblock} {dv : Dev} {img img' img'' : Image} {ip ip' ip'' : Inode} {src : Bytes} {off n : Nat}
  {f : Xv6.Inode}

/-- A write to a byte string that is not refused. -/
theorem writei_some {f' : Xv6.Inode} (done : Xv6.writei f src off n = some f') :
    off ≤ f.size ∧ off + n ≤ MAXFILE_BYTES ∧ f'.size = max f.size (off + n) ∧
      ∀ o, f'.data o = if off ≤ o ∧ o < off + n then src (o - off) else f.data o := by
  rw [Xv6.writei] at done
  split at done
  · cases done
  · split at done
    · cases done
    · cases done
      refine ⟨by omega, by omega, ?_, fun _ => rfl⟩
      show (if 0 < n ∧ f.size < off + n then off + n else f.size) = _
      split
      · omega
      · omega

/-- The requests that are refused. -/
theorem writei_none : Xv6.writei f src off n = none ↔ f.size < off ∨ 2 ^ 32 ≤ off + n ∨ MAXFILE * BSIZE < off + n := by
  have limit : MAXFILE_BYTES = MAXFILE * BSIZE := rfl
  rw [Xv6.writei]
  by_cases first : f.size < off ∨ 2 ^ 32 ≤ off + n
  · rw [if_pos first]
    simp only [true_iff]
    omega
  · rw [if_neg first]
    by_cases long : MAXFILE_BYTES < off + n
    · rw [if_pos long]
      simp only [true_iff]
      omega
    · rw [if_neg long]
      simp only [reduceCtorEq, false_iff]
      omega

theorem writei_congr {src' : Bytes} (same : ∀ j < n, src j = src' j) : Xv6.writei f src off n = Xv6.writei f src' off n := by
  have data : (fun o => if off ≤ o ∧ o < off + n then src (o - off) else f.data o) =
      fun o => if off ≤ o ∧ o < off + n then src' (o - off) else f.data o := by
    funext o
    split
    · exact same _ (by omega)
    · rfl
  rw [Xv6.writei, Xv6.writei, data]

/-- A file has at most `MAXFILE` blocks. -/
theorem lt_of_slot {data : Nat → Block} {d : Dinode} {bn : Nat} (mapped : slot data d (key bn) ≠ 0) : bn < MAXFILE := by
  by_contra beyond
  apply mapped
  have large : NDIRECT + NINDIRECT ≤ bn := Nat.not_lt.1 beyond
  rw [key_indirect (by omega)]
  exact slot_beyond (by omega) (.inr (by omega))

theorem Mapped.size_le {data : Nat → Block} {d : Dinode} {size : Nat} (mapped : Mapped data d size) : size ≤ MAXFILE * BSIZE := by
  by_contra large
  exact absurd (lt_of_slot (mapped MAXFILE (by omega))) (Nat.lt_irrefl _)

theorem Mapped.of_lt {data : Nat → Block} {d : Dinode} {size o : Nat} (mapped : Mapped data d size) (inside : o < size) :
    slot data d (key (o / BSIZE)) ≠ 0 := by
  apply mapped
  simp only [BSIZE]
  omega

/-! ## Reading -/

theorem readiLoop_ok (shows_ : Shows sb dv img) (owned : Owned sb img (img.table ip)) (inside : ip.inum < sb.ninodes)
    (live : ip.type ≠ 0) (mapped : Mapped img.data ip.toDinode ip.size) {fuel tot : Nat} (dst : Bytes) (enough : n - tot < fuel)
    (room : off + (n - tot) ≤ ip.size) :
    readiLoop n fuel dv ip dst tot off = .ok (blit dst tot (fun j => fileByte img.data ip.toDinode (off + j)) (n - tot), ip, dv) := by
  induction fuel generalizing dst tot off with
  | zero => omega
  | succ fuel ih =>
    rw [readiLoop]
    by_cases more : tot < n
    · have here : slot img.data ip.toDinode (key (off / BSIZE)) ≠ 0 := mapped.of_lt (by omega)
      have isData : sb.nmeta ≤ slot img.data ip.toDinode (key (off / BSIZE)) := by
        have pointer := slots_self img img.data inside live (key (off / BSIZE))
        rw [← pointer]
        exact (owned.area _ (by rw [pointer]; exact here)).1
      rw [if_pos more, bmap_mapped owned inside live (lt_of_slot here) here shows_, ok_bind]
      generalize isM : min (n - tot) (BSIZE - off % BSIZE) = m
      have pos : 0 < m := by
        simp only [BSIZE] at isM
        omega
      show readiLoop n fuel dv ip _ (tot + m) (off + m) = _
      rw [ih _ (by omega) (by omega)]
      -- the bytes before the next round come from this block
      congr 2
      funext o
      simp only [blit]
      by_cases later : tot + m ≤ o ∧ o < tot + m + (n - (tot + m))
      · rw [if_pos later, if_pos (by omega), show off + m + (o - (tot + m)) = off + (o - tot) by omega]
      · rw [if_neg later]
        by_cases now : tot ≤ o ∧ o < tot + m
        · rw [if_pos now, if_pos (by omega), fileByte, shows_.data _ isData]
          have block : (off + (o - tot)) / BSIZE = off / BSIZE := by
            simp only [BSIZE] at *
            omega
          have rest : (off + (o - tot)) % BSIZE = off % BSIZE + (o - tot) := by
            simp only [BSIZE] at *
            omega
          rw [block, rest]
        · rw [if_neg now, if_neg (by omega)]
    · rw [if_neg more, show n - tot = 0 by omega]
      congr 2
      funext o
      simp only [blit]
      rw [if_neg (by omega)]

/-- `readi` on a file that is not a device reads the file as `Xv6.readi` does and
changes nothing. -/
theorem readi_eq (devsw : Devsw) (shows_ : Shows sb dv img) (owned : Owned sb img (img.table ip)) (inside : ip.inum < sb.ninodes)
    (live : ip.type ≠ 0) (mapped : Mapped img.data ip.toDinode ip.size) (file : ip.type ≠ T_DEV) (dst : Bytes)
    (word : off < 2 ^ 32) (wordN : n < 2 ^ 32) :
    readi devsw dv ip dst off n = match Xv6.readi (contents img.data ip.toDinode) off n with
      | none => .ok (-1, dst, ip, dv)
      | some r => .ok (r, (contents img.data ip.toDinode).fill off r dst, ip, dv) := by
  have wraps : add32 off n < off ↔ 2 ^ 32 ≤ off + n := by
    simp only [add32]
    omega
  rw [readi, if_neg file, Xv6.readi]
  simp only [wraps]
  by_cases bad : ip.size < off ∨ 2 ^ 32 ≤ off + n
  · rw [if_pos bad]
    have bad' : (contents img.data ip.toDinode).size < off ∨ 2 ^ 32 ≤ off + n := bad
    rw [if_pos bad']
    rfl
  · have bad' : ¬ ((contents img.data ip.toDinode).size < off ∨ 2 ^ 32 ≤ off + n) := bad
    rw [if_neg bad, if_neg bad']
    have sum : add32 off n = off + n := Nat.mod_eq_of_lt (by omega)
    have count : (if ip.size < add32 off n then ip.size - off else n) = min n (ip.size - off) := by
      rw [sum]
      split
      · omega
      · omega
    have filled : blit dst 0 (fun j => fileByte img.data ip.toDinode (off + j)) (min n (ip.size - off)) =
        (contents img.data ip.toDinode).fill off (min n (ip.size - off)) dst := by
      funext o
      simp only [blit, Inode.fill]
      by_cases copied : o < min n (ip.size - off)
      · have isByte : (contents img.data ip.toDinode).data (off + o) = fileByte img.data ip.toDinode (off + o) :=
          if_pos (by show off + o < ip.size; omega)
        rw [if_pos (by omega), if_pos copied, Nat.sub_zero, isByte]
      · rw [if_neg (by omega), if_neg copied]
    simp only [count]
    rw [readiLoop_ok shows_ owned inside live mapped dst (by omega) (by omega), ok_bind, Nat.sub_zero, filled]
    rfl

/-! ## Writing -/

/-- The bytes `[off, off + len)` of the file `ip` were replaced by the first `len` of
`src`, with blocks allocated where there were none; `ip'` and `img'` are the cached inode
and the disk afterwards. -/
structure Written (sb : Superblock) (img : Image) (ip : Inode) (src : Bytes) (off len : Nat) (ip' : Inode) (img' : Image) :
    Prop where
  inode : img'.inode = img.inode
  keeps : ∀ x, slots sb img.data (img.table ip) x ≠ 0 →
    slots sb img'.data (img'.table ip') x = slots sb img.data (img.table ip) x
  owned : Owned sb img' (img'.table ip')
  rest : ip' = { ip with addrs := ip'.addrs }
  beyond : ∀ i, NDIRECT < i → ip'.addrs i = ip.addrs i
  grown : ip' = ip ∨ ip.size < off + len
  others : ∀ x, x.2 ≠ NDIRECT → x.1 ≠ ip.inum → slots sb img.data (img.table ip) x ≠ 0 →
    img'.data (slots sb img.data (img.table ip) x) = img.data (slots sb img.data (img.table ip) x)
  old : ∀ o, slot img.data ip.toDinode (key (o / BSIZE)) ≠ 0 → ¬ (off ≤ o ∧ o < off + len) →
    fileByte img'.data ip'.toDinode o = fileByte img.data ip.toDinode o
  new : ∀ o, off ≤ o → o < off + len →
    slot img'.data ip'.toDinode (key (o / BSIZE)) ≠ 0 ∧ fileByte img'.data ip'.toDinode o = src (o - off)

namespace Written

variable {len len' : Nat}

theorem inum (written : Written sb img ip src off len ip' img') : ip'.inum = ip.inum := by rw [written.rest]

theorem type (written : Written sb img ip src off len ip' img') : ip'.type = ip.type := by rw [written.rest]

theorem size (written : Written sb img ip src off len ip' img') : ip'.size = ip.size := by rw [written.rest]

theorem refl (owned : Owned sb img (img.table ip)) : Written sb img ip src off 0 ip img where
  inode := rfl
  keeps := fun _ _ => rfl
  owned := owned
  rest := rfl
  beyond := fun _ _ => rfl
  grown := .inl rfl
  others := fun _ _ _ _ => rfl
  old := fun _ _ _ => rfl
  new := fun o low high => absurd high (by omega)

/-- The slots of the file that have a block keep it. -/
theorem slot_eq (written : Written sb img ip src off len ip' img') (inside : ip.inum < sb.ninodes) (live : ip.type ≠ 0) {k : Nat}
    (mapped : slot img.data ip.toDinode k ≠ 0) : slot img'.data ip'.toDinode k = slot img.data ip.toDinode k := by
  have kept := written.keeps (ip.inum, k)
  rw [slots_self _ _ inside live] at kept
  have inside' : ip'.inum < sb.ninodes := by rw [written.inum]; exact inside
  have live' : ip'.type ≠ 0 := by rw [written.type]; exact live
  rw [← slots_self img' img'.data inside' live', written.inum]
  exact kept mapped

theorem mapped (written : Written sb img ip src off len ip' img') (inside : ip.inum < sb.ninodes) (live : ip.type ≠ 0) {size : Nat}
    (before : Mapped img.data ip.toDinode size) : Mapped img'.data ip'.toDinode size := by
  intro bn below
  rw [written.slot_eq inside live (before bn below)]
  exact before bn below

/-- Two writes that follow each other. -/
theorem trans (first : Written sb img ip src off len ip' img')
    (second : Written sb img' ip' (fun j => src (len + j)) (off + len) len' ip'' img'')
    (inside : ip.inum < sb.ninodes) (live : ip.type ≠ 0) : Written sb img ip src off (len + len') ip'' img'' where
  inode := second.inode.trans first.inode
  keeps := by
    intro x mapped
    have eq := first.keeps x mapped
    rw [second.keeps x (by rw [eq]; exact mapped), eq]
  owned := second.owned
  rest := by rw [second.rest, first.rest]
  beyond := by
    intro i beyond
    rw [second.beyond i beyond, first.beyond i beyond]
  grown := by
    have size := first.size
    rcases second.grown with same | more
    · rcases first.grown with same' | more'
      · exact .inl (same.trans same')
      · right
        omega
    · right
      omega
  others := by
    intro x file other mapped
    have eq := first.keeps x mapped
    have later := second.others x file (by rw [first.inum]; exact other) (by rw [eq]; exact mapped)
    rw [eq] at later
    rw [later, first.others x file other mapped]
  old := by
    intro o mapped outside
    rw [second.old o (by rw [first.slot_eq inside live mapped]; exact mapped) (by omega), first.old o mapped (by omega)]
  new := by
    intro o low high
    by_cases early : o < off + len
    · obtain ⟨mapped, byte⟩ := first.new o low early
      have inside' : ip'.inum < sb.ninodes := by rw [first.inum]; exact inside
      have live' : ip'.type ≠ 0 := by rw [first.type]; exact live
      rw [second.slot_eq inside' live' mapped, second.old o mapped (by omega)]
      exact ⟨mapped, byte⟩
    · obtain ⟨mapped, byte⟩ := second.new o (by omega) (by omega)
      refine ⟨mapped, ?_⟩
      rw [byte, show len + (o - (off + len)) = o - off by omega]

end Written

/-- One round of the loop: the block of `off` is found and `m` of its bytes replaced. -/
theorem Mapping.written {addr m : Nat} (mapping : Mapping sb img ip (off / BSIZE) addr ip' img') (src : Bytes) (inside : ip.inum < sb.ninodes)
    (live : ip.type ≠ 0) (mapped : Mapped img.data ip.toDinode ip.size) (pos : 0 < m) (fits : off % BSIZE + m ≤ BSIZE) :
    Written sb img ip src off m ip'
      { img' with data := update img'.data addr (blit (img'.data addr) (off % BSIZE) src m) } := by
  have inum : ip'.inum = ip.inum := by rw [mapping.rest]
  have inside' : ip'.inum < sb.ninodes := by rw [inum]; exact inside
  have live' : ip'.type ≠ 0 := by
    rw [mapping.rest]
    exact live
  have own := slots_self img img.data inside live
  have own' := slots_self img' img'.data inside' live'
  have isAddr : slots sb img'.data (img'.table ip') (ip.inum, key (off / BSIZE)) = addr := by
    rw [← inum, own', mapping.here]
  have sameSlots := mapping.owned.slots_write (x := (ip.inum, key (off / BSIZE))) (key_ne _)
    (by rw [isAddr]; exact mapping.mapped) (blit (img'.data addr) (off % BSIZE) src m)
  rw [isAddr] at sameSlots
  have sameSlot : ∀ k, slot (update img'.data addr (blit (img'.data addr) (off % BSIZE) src m)) ip'.toDinode k =
      slot img'.data ip'.toDinode k := by
    intro k
    have eq := congrFun sameSlots (ip'.inum, k)
    rw [own', slots_self img' _ inside' live'] at eq
    exact eq
  -- only the slot of this block names it
  have onlyHere : ∀ x, slots sb img.data (img.table ip) x ≠ 0 → slots sb img.data (img.table ip) x = addr →
      x = (ip.inum, key (off / BSIZE)) := by
    intro x some_ eq
    have kept := mapping.grows.keeps x some_
    apply mapping.owned.inj x _ (by rw [kept]; exact some_)
    rw [kept, eq, isAddr]
  refine ⟨mapping.grows.inode, ?_, ?_, mapping.rest, mapping.beyond, ?_, ?_, ?_, ?_⟩
  · intro x some_
    exact (congrFun sameSlots x).trans (mapping.grows.keeps x some_)
  · exact mapping.owned.congr (fun x => congrFun sameSlots x) (fun _ _ => rfl)
  · by_cases present : slot img.data ip.toDinode (key (off / BSIZE)) = 0
    · right
      by_contra small
      exact mapped.of_lt (o := off) (by omega) present
    · exact .inl (mapping.same present).1
  · intro x file other some_
    have elsewhere : slots sb img.data (img.table ip) x ≠ addr := by
      intro eq
      have := onlyHere x some_ eq
      exact other (by rw [this])
    exact (update_of_ne elsewhere ..).trans (mapping.grows.contents x file some_)
  · intro o some_ outside
    have kept := mapping.grows.keeps (ip.inum, key (o / BSIZE)) (by rw [own]; exact some_)
    rw [own, ← inum, own'] at kept
    rw [fileByte, fileByte]
    simp only [sameSlot]
    rw [kept]
    by_cases block : o / BSIZE = off / BSIZE
    · rw [block] at some_ kept ⊢
      rw [← mapping.here, kept, (mapping.same some_).2, update_self]
      apply blit_outside
      simp only [BSIZE] at *
      omega
    · have elsewhere : slot img.data ip.toDinode (key (o / BSIZE)) ≠ addr := by
        intro eq
        have := onlyHere (ip.inum, key (o / BSIZE)) (by rw [own]; exact some_) (by rw [own]; exact eq)
        exact block (key_inj (congrArg Prod.snd this))
      rw [update_of_ne elsewhere]
      have contents := mapping.grows.contents (ip.inum, key (o / BSIZE)) (key_ne _) (by rw [own]; exact some_)
      rw [own] at contents
      rw [contents]
  · intro o low high
    have block : o / BSIZE = off / BSIZE := by
      simp only [BSIZE] at *
      omega
    have rest : o % BSIZE = off % BSIZE + (o - off) := by
      simp only [BSIZE] at *
      omega
    rw [fileByte, block, rest]
    simp only [sameSlot]
    rw [mapping.here, update_self]
    exact ⟨mapping.mapped, blit_inside (by omega)⟩

/-- The blocks of the range `[off, off + len)` of a file that are not allocated. -/
def missing (data : Nat → Block) (d : Dinode) (off len : Nat) : Finset Nat :=
  (Finset.range MAXFILE).filter fun bn => off < (bn + 1) * BSIZE ∧ bn * BSIZE < off + len ∧ slot data d (key bn) = 0

/-- The blocks a write of `len` bytes at `off` has to allocate. -/
def need (data : Nat → Block) (d : Dinode) (off len : Nat) : Nat :=
  (missing data d off len).card + if 0 < len ∧ NDIRECT * BSIZE < off + len ∧ d.addrs NDIRECT = 0 then 1 else 0

theorem mem_missing {data : Nat → Block} {d : Dinode} {len bn : Nat} :
    bn ∈ missing data d off len ↔
      bn < MAXFILE ∧ off < (bn + 1) * BSIZE ∧ bn * BSIZE < off + len ∧ slot data d (key bn) = 0 := by
  rw [missing, mem_filter, mem_range]

/-- The block of `off` is in the range. -/
theorem first_missing {data : Nat → Block} {d : Dinode} {len : Nat} (pos : 0 < len) (room : off + len ≤ MAXFILE * BSIZE)
    (none_ : slot data d (key (off / BSIZE)) = 0) : off / BSIZE ∈ missing data d off len := by
  rw [mem_missing]
  refine ⟨?_, ?_, ?_, none_⟩
  · simp only [MAXFILE, BSIZE] at *
    omega
  · simp only [BSIZE]
    omega
  · simp only [BSIZE]
    omega

section Need

variable {data data' : Nat → Block} {d d' : Dinode} {len : Nat} (pos : 0 < len) (room : off + len ≤ MAXFILE * BSIZE)

include pos room

theorem cost_le_need : cost data d (off / BSIZE) ≤ need data d off len := by
  rw [cost, need]
  apply Nat.add_le_add
  · split
    · rename_i none_
      exact card_pos.2 ⟨_, first_missing pos room none_⟩
    · exact Nat.zero_le _
  · split
    · rename_i now
      have reaches : NDIRECT * BSIZE < off + len := by
        simp only [NDIRECT, BSIZE] at *
        omega
      rw [if_pos ⟨pos, reaches, now.2⟩]
    · exact Nat.zero_le _

/-- What the block of `off` costs is no longer needed for the rest. -/
theorem cost_add_need {m : Nat} (le : m ≤ len) (keeps : ∀ k, slot data d k ≠ 0 → slot data' d' k ≠ 0)
    (here : slot data' d' (key (off / BSIZE)) ≠ 0) :
    cost data d (off / BSIZE) + need data' d' (off + m) (len - m) ≤ need data d off len := by
  have blocks : (if slot data d (key (off / BSIZE)) = 0 then 1 else 0) + (missing data' d' (off + m) (len - m)).card ≤
      (missing data d off len).card := by
    have later : missing data' d' (off + m) (len - m) ⊆ missing data d off len := by
      intro bn mem
      rw [mem_missing] at mem ⊢
      refine ⟨mem.1, by omega, by omega, ?_⟩
      by_contra some_
      exact keeps _ some_ mem.2.2.2
    by_cases none_ : slot data d (key (off / BSIZE)) = 0
    · have fresh : off / BSIZE ∉ missing data' d' (off + m) (len - m) := fun mem => here (mem_missing.1 mem).2.2.2
      rw [if_pos none_, Nat.add_comm, ← card_insert_of_notMem fresh]
      apply card_le_card
      exact insert_subset (first_missing pos room none_) later
    · rw [if_neg none_, Nat.zero_add]
      exact card_le_card later
  have pointer : (if NDIRECT ≤ off / BSIZE ∧ d.addrs NDIRECT = 0 then 1 else 0) +
      (if 0 < len - m ∧ NDIRECT * BSIZE < off + m + (len - m) ∧ d'.addrs NDIRECT = 0 then 1 else 0) ≤
      if 0 < len ∧ NDIRECT * BSIZE < off + len ∧ d.addrs NDIRECT = 0 then 1 else 0 := by
    have stays : d.addrs NDIRECT ≠ 0 → d'.addrs NDIRECT ≠ 0 := by
      have := keeps NDIRECT
      rwa [slot_direct (Nat.le_refl _), slot_direct (Nat.le_refl _)] at this
    by_cases now : NDIRECT ≤ off / BSIZE ∧ d.addrs NDIRECT = 0
    · have present : d'.addrs NDIRECT ≠ 0 := by
        intro zero
        apply here
        rw [key_indirect now.1]
        exact slot_beyond (by omega) (.inl zero)
      have reaches : NDIRECT * BSIZE < off + len := by
        simp only [NDIRECT, BSIZE] at *
        omega
      rw [if_pos now, if_neg (fun late => present late.2.2), if_pos ⟨pos, reaches, now.2⟩]
    · rw [if_neg now, Nat.zero_add]
      split
      · rename_i late
        have zero : d.addrs NDIRECT = 0 := by
          by_contra some_
          exact stays some_ late.2.2
        rw [if_pos ⟨pos, by omega, zero⟩]
      · exact Nat.zero_le _
  simp only [cost, need]
  omega

end Need

/-- The loop of `writei` writes all bytes, or the disk has fewer free blocks than it
needs. -/
theorem writeiLoop_cases (src : Bytes) (shows_ : Shows sb dv img) (owned : Owned sb img (img.table ip)) (inside : ip.inum < sb.ninodes)
    (live : ip.type ≠ 0) (mapped : Mapped img.data ip.toDinode ip.size) {fuel tot : Nat} (enough : n - tot < fuel)
    (room : off + (n - tot) ≤ MAXFILE * BSIZE) :
    (∃ ip' dv' img', writeiLoop src n fuel dv ip tot off = .ok (off + (n - tot), ip', dv') ∧ Shows sb dv' img' ∧
      Written sb img ip (fun j => src (tot + j)) off (n - tot) ip' img') ∨
    writeiLoop src n fuel dv ip tot off = .error (.panic "balloc: out of blocks") ∧
      free sb.size img.used < need img.data ip.toDinode off (n - tot) := by
  induction fuel generalizing dv img ip tot off with
  | zero => omega
  | succ fuel ih =>
    rw [writeiLoop]
    by_cases more : tot < n
    · have small : off / BSIZE < MAXFILE := by
        simp only [BSIZE, MAXFILE] at *
        omega
      rw [if_pos more]
      rcases bmap_cases owned inside live small shows_ with ⟨addr, ip1, dv1, img1, isOk, shows1, mapping⟩ | ⟨isError, short⟩
      · rw [isOk, ok_bind]
        generalize isM : min (n - tot) (BSIZE - off % BSIZE) = m
        have bounds : 0 < m ∧ m ≤ n - tot ∧ off % BSIZE + m ≤ BSIZE := by
          simp only [BSIZE] at isM ⊢
          omega
        obtain ⟨pos, le, fits⟩ := bounds
        have chunk := mapping.written (fun j => src (tot + j)) inside live mapped pos fits
        have inside1 : ip1.inum < sb.ninodes := by rw [chunk.inum]; exact inside
        have live1 : ip1.type ≠ 0 := by rw [chunk.type]; exact live
        have isData : sb.nmeta ≤ addr := by
          have own := slots_self img1 img1.data inside1 live1 (key (off / BSIZE))
          rw [mapping.here] at own
          rw [← own]
          exact (mapping.owned.area _ (by rw [own]; exact mapping.mapped)).1
        have shows2 := shows1.writeData isData (blit (img1.data addr) (off % BSIZE) (fun j => src (tot + j)) m)
        have mapped1 := chunk.mapped inside live mapped
        rw [← chunk.size] at mapped1
        have keeps : ∀ k, slot img.data ip.toDinode k ≠ 0 →
            slot (update img1.data addr (blit (img1.data addr) (off % BSIZE) (fun j => src (tot + j)) m)) ip1.toDinode k ≠ 0 := by
          intro k some_
          rw [chunk.slot_eq inside live some_]
          exact some_
        have lessNeed := cost_add_need (by omega) room le keeps (chunk.new off (Nat.le_refl _) (by omega)).1
        have later := @ih _ _ _ (off + m) shows2 chunk.owned inside1 live1 mapped1 (tot + m) (by omega) (by omega)
        rw [show n - (tot + m) = n - tot - m by omega] at later
        show (∃ ip' dv' img', writeiLoop src n fuel (dv1.logWrite addr (blit (dv1.bread addr) (off % BSIZE) (fun j => src (tot + j)) m))
          ip1 (tot + m) (off + m) = _ ∧ _) ∨ writeiLoop src n fuel (dv1.logWrite addr _) ip1 (tot + m) (off + m) = _ ∧ _
        rw [shows1.data addr isData]
        rcases later with ⟨ip2, dv2, img2, isOk2, shows2, written⟩ | ⟨isError, short⟩
        · left
          refine ⟨ip2, dv2, img2, ?_, shows2, ?_⟩
          · rw [isOk2]
            congr 2
            omega
          · simp only [Nat.add_assoc] at written
            have both := chunk.trans written inside live
            rwa [show m + (n - tot - m) = n - tot by omega] at both
        · right
          refine ⟨isError, ?_⟩
          have spent := mapping.free
          simp only at short
          omega
      · right
        rw [isError]
        exact ⟨rfl, Nat.lt_of_lt_of_le short (cost_le_need (by omega) room)⟩
    · left
      rw [if_neg more, show n - tot = 0 by omega]
      exact ⟨ip, dv, img, rfl, shows_, .refl owned⟩

end Xv6.Fs
