import Xv6.Fs.Inode

/-!
# Which blocks an inode owns

Slot `k` of an inode is one of its block pointers: the direct ones, the pointer to the
indirect block (`NDIRECT`) and then the entries of the indirect block. `Owned` is
`BlockMap.Owns` for the slots of all allocated inodes. While an inode is being changed its
copy in the cache counts and not the one on the disk, so the inodes are a parameter `T`.
-/

namespace Xv6.Fs

open Fallible Words BlockMap Function

/-- Slot `k` of the inode `d`; 0 when there is no block. -/
def slot (data : Nat → Block) (d : Dinode) (k : Nat) : Nat :=
  if k ≤ NDIRECT then d.addrs k
  else if d.addrs NDIRECT = 0 ∨ NDIRECT + NINDIRECT < k then 0
  else getWord (data (d.addrs NDIRECT)) (4 * (k - NDIRECT - 1))

/-- The slot of block `bn` of a file. -/
def key (bn : Nat) : Nat := if bn < NDIRECT then bn else bn + 1

/-- The slots of all allocated inodes. -/
def slots (sb : Superblock) (data : Nat → Block) (T : Nat → Dinode) (x : Nat × Nat) : Nat :=
  if x.1 < sb.ninodes ∧ (T x.1).type ≠ 0 then slot data (T x.1) x.2 else 0

/-- No block is used twice, and the bitmap is exact. -/
def Owned (sb : Superblock) (img : Image) (T : Nat → Dinode) : Prop :=
  Owns sb.nmeta sb.size (slots sb img.data T) img.used

/-- The first `bytes` bytes of a file have blocks. -/
def Mapped (data : Nat → Block) (d : Dinode) (bytes : Nat) : Prop :=
  ∀ bn, bn * BSIZE < bytes → slot data d (key bn) ≠ 0

/-- The inodes with the copy `ip` in place of the one on the disk. -/
def Image.table (img : Image) (ip : Inode) : Nat → Dinode := Function.update img.inode ip.inum ip.toDinode

variable {sb : Superblock} {dv : Dev} {img : Image} {T : Nat → Dinode} {ip : Inode}
  {data : Nat → Block} {d : Dinode} {k i : Nat} {data' : Nat → Block} {j b : Nat}

/-! ## Slots -/

theorem key_indirect {bn : Nat} (indirect : NDIRECT ≤ bn) : key bn = bn + 1 := if_neg (Nat.not_lt.2 indirect)

theorem key_ne (bn : Nat) : key bn ≠ NDIRECT := by
  rw [key]
  split
  · omega
  · omega

theorem key_inj {m n : Nat} (same : key m = key n) : m = n := by
  rw [key, key] at same
  split at same
  · split at same
    · omega
    · omega
  · split at same
    · omega
    · omega

theorem slot_direct (direct : k ≤ NDIRECT) : slot data d k = d.addrs k :=
  if_pos direct

theorem slot_indirect (present : d.addrs NDIRECT ≠ 0) (inside : j < NINDIRECT) :
    slot data d (NDIRECT + 1 + j) = getWord (data (d.addrs NDIRECT)) (4 * j) := by
  rw [slot, if_neg (by omega), if_neg (by simp only [NDIRECT, NINDIRECT] at *; omega),
    show NDIRECT + 1 + j - NDIRECT - 1 = j by omega]

theorem slot_beyond (indirect : NDIRECT < k) (missing : d.addrs NDIRECT = 0 ∨ NDIRECT + NINDIRECT < k) : slot data d k = 0 := by
  rw [slot, if_neg (by omega), if_pos missing]

/-- The slots of an inode read no block but its indirect block. -/
theorem slot_congr (same : d.addrs NDIRECT ≠ 0 → data' (d.addrs NDIRECT) = data (d.addrs NDIRECT)) (k : Nat) :
    slot data' d k = slot data d k := by
  by_cases direct : k ≤ NDIRECT
  · rw [slot_direct direct, slot_direct direct]
  · by_cases missing : d.addrs NDIRECT = 0 ∨ NDIRECT + NINDIRECT < k
    · rw [slot_beyond (by omega) missing, slot_beyond (by omega) missing]
    · rw [slot, slot, if_neg direct, if_neg missing, if_neg direct, if_neg missing]
      rw [same (fun zero => missing (.inl zero))]

theorem slots_live (inside : i < sb.ninodes) (live : (T i).type ≠ 0) :
    slots sb data T (i, k) = slot data (T i) k := if_pos ⟨inside, live⟩

theorem slots_free (free : (T i).type = 0) : slots sb data T (i, k) = 0 :=
  if_neg fun live => live.2 free

/-- The slots depend on the indirect blocks only. -/
theorem slots_congr
    (same : ∀ i, slots sb data T (i, NDIRECT) ≠ 0 → data' (slots sb data T (i, NDIRECT)) = data (slots sb data T (i, NDIRECT))) :
    slots sb data' T = slots sb data T := by
  funext x
  obtain ⟨i, k⟩ := x
  by_cases live : i < sb.ninodes ∧ (T i).type ≠ 0
  · have pointer : slots sb data T (i, NDIRECT) = (T i).addrs NDIRECT := by
      rw [slots_live live.1 live.2, slot_direct (Nat.le_refl _)]
    have here := same i
    rw [pointer] at here
    rw [slots_live live.1 live.2, slots_live live.1 live.2]
    exact slot_congr here k
  · rw [slots, slots, if_neg live, if_neg live]

/-- Changing one inode changes its own slots only. -/
theorem slots_update (other : j ≠ i) : slots sb data (update T i d) (j, k) = slots sb data T (j, k) := by
  simp only [slots]
  rw [update_of_ne other]

/-- Writing the contents of a file block changes no slot. -/
theorem Owned.slots_write (owned : Owned sb img T) {x : Nat × Nat} (file : x.2 ≠ NDIRECT)
    (mapped : slots sb img.data T x ≠ 0) (c : Block) :
    slots sb (update img.data (slots sb img.data T x) c) T = slots sb img.data T := by
  apply slots_congr
  intro i _
  apply update_of_ne
  intro same
  have key := owned.inj _ _ mapped same.symm
  rw [key] at file
  exact file rfl

/-- A block that is not marked holds no slots. -/
theorem Owned.slots_fresh (owned : Owned sb img T) (inside : b < sb.size) (clear : img.used b = false) (c : Block) :
    slots sb (update img.data b c) T = slots sb img.data T := by
  apply slots_congr
  intro i _
  exact update_of_ne ((owned.fresh inside clear).2 _) ..

theorem Owned.data_area (owned : Owned sb img T) : ∀ b < sb.size, img.used b = false → sb.nmeta ≤ b :=
  fun _ inside clear => (owned.fresh inside clear).1

/-! ## Giving an inode a block -/

/-- A pointer in the inode itself. -/
theorem Owned.assign_addr (owned : Owned sb img T) (inside : i < sb.ninodes) (live : (T i).type ≠ 0) (direct : k ≤ NDIRECT)
    (none_ : (T i).addrs k = 0) (below : b < sb.size) (clear : img.used b = false) :
    let T' := update T i { T i with addrs := update (T i).addrs k b }
    slots sb (img.take b).data T' = update (slots sb img.data T) (i, k) b ∧ Owned sb (img.take b) T' := by
  intro T'
  have pointers : slots sb (img.take b).data T' = update (slots sb img.data T) (i, k) b := by
    rw [← owned.slots_fresh below clear (zeroed (img.data b))]
    funext x
    obtain ⟨j, m⟩ := x
    by_cases other : j ≠ i
    · rw [slots_update other, update_of_ne (by simp [other])]
      rfl
    · push Not at other
      subst other
      have isNew : T' j = { T j with addrs := update (T j).addrs k b } := update_self ..
      have liveNew : (T' j).type ≠ 0 := by rw [isNew]; exact live
      rw [slots_live inside liveNew, isNew]
      by_cases here : m = k
      · rw [here, update_self, slot_direct direct]
        exact update_self ..
      · rw [update_of_ne (by simp [here]), slots_live inside live]
        by_cases isDirect : m ≤ NDIRECT
        · rw [slot_direct isDirect, slot_direct isDirect]
          exact update_of_ne here ..
        · by_cases pointer : k = NDIRECT
          · -- the new indirect block is all zeros
            subst pointer
            rw [slot_beyond (by omega) (.inl none_)]
            by_cases entry : NDIRECT + NINDIRECT < m
            · exact slot_beyond (by omega) (.inr entry)
            · rw [slot, if_neg isDirect]
              split
              · rfl
              · show getWord (update img.data b (zeroed (img.data b)) (update (T j).addrs NDIRECT b NDIRECT)) _ = 0
                rw [update_self, update_self]
                apply getWord_zeroed
                simp only [NDIRECT, NINDIRECT, BSIZE] at *
                omega
          · have same : update (T j).addrs k b NDIRECT = (T j).addrs NDIRECT :=
              update_of_ne (fun eq => pointer eq.symm) ..
            simp only [slot, same, if_neg isDirect]
            rfl
  refine ⟨pointers, ?_⟩
  rw [Owned, pointers]
  apply owned.assign below clear
  rw [slots_live inside live, slot_direct direct, none_]

/-- The image after entry `j` of the indirect block `a` was set to a new block `b`. -/
def Image.takeEntry (img : Image) (a j b : Nat) : Image :=
  { img.take b with data := Function.update (img.take b).data a (putWord ((img.take b).data a) (4 * j) b) }

/-- An entry of the indirect block. -/
theorem Owned.assign_entry (owned : Owned sb img T) (wf : sb.Wf) (inside : i < sb.ninodes) (live : (T i).type ≠ 0)
    (entry : j < NINDIRECT) (present : (T i).addrs NDIRECT ≠ 0)
    (none_ : getWord (img.data ((T i).addrs NDIRECT)) (4 * j) = 0) (below : b < sb.size) (clear : img.used b = false) :
    let img' := img.takeEntry ((T i).addrs NDIRECT) j b
    slots sb img'.data T = update (slots sb img.data T) (i, NDIRECT + 1 + j) b ∧ Owned sb img' T := by
  intro img'
  have pointer : slots sb img.data T (i, NDIRECT) = (T i).addrs NDIRECT := by
    rw [slots_live inside live, slot_direct (Nat.le_refl _)]
  have apart : (T i).addrs NDIRECT ≠ b := by
    rw [← pointer]
    exact (owned.fresh below clear).2 _
  have taken : ∀ c, c ≠ (T i).addrs NDIRECT → c ≠ b → img'.data c = img.data c := by
    intro c notPointer notNew
    exact (update_of_ne notPointer ..).trans (update_of_ne notNew ..)
  have block : img'.data ((T i).addrs NDIRECT) = putWord (img.data ((T i).addrs NDIRECT)) (4 * j) b := by
    refine (update_self ..).trans ?_
    exact congrArg (putWord · (4 * j) b) (update_of_ne apart ..)
  have pointers : slots sb img'.data T = update (slots sb img.data T) (i, NDIRECT + 1 + j) b := by
    funext x
    obtain ⟨i', k⟩ := x
    by_cases dead : ¬ (i' < sb.ninodes ∧ (T i').type ≠ 0)
    · have other : (i', k) ≠ (i, NDIRECT + 1 + j) := by
        intro same
        cases same
        exact dead ⟨inside, live⟩
      rw [update_of_ne other, slots, slots, if_neg dead, if_neg dead]
    · push Not at dead
      by_cases other : i' ≠ i
      · rw [update_of_ne (by simp [other]), slots_live dead.1 dead.2, slots_live dead.1 dead.2]
        apply slot_congr
        intro some_
        have pointer' : slots sb img.data T (i', NDIRECT) = (T i').addrs NDIRECT := by
          rw [slots_live dead.1 dead.2, slot_direct (Nat.le_refl _)]
        apply taken
        · rw [← pointer, ← pointer']
          intro same
          have := owned.inj _ _ (by rw [pointer']; exact some_) same
          cases this
          exact other rfl
        · rw [← pointer']
          exact (owned.fresh below clear).2 _
      · push Not at other
        subst other
        rw [slots_live inside live]
        by_cases direct : k ≤ NDIRECT
        · rw [slot_direct direct, update_of_ne (by simp; omega), slots_live inside live, slot_direct direct]
        · by_cases beyond : NDIRECT + NINDIRECT < k
          · rw [slot_beyond (by omega) (.inr beyond), update_of_ne (by simp; omega), slots_live inside live,
              slot_beyond (by omega) (.inr beyond)]
          · obtain ⟨m, rfl⟩ : ∃ m, k = NDIRECT + 1 + m := ⟨k - NDIRECT - 1, by omega⟩
            have short : m < NINDIRECT := by omega
            rw [slot_indirect present short, block]
            by_cases here : m = j
            · rw [here, update_self, getWord_putWord]
              have := wf.size
              omega
            · rw [update_of_ne (by simp [here]), slots_live inside live, slot_indirect present short,
                getWord_putWord_disjoint _ _ (by omega)]
  refine ⟨pointers, ?_⟩
  rw [Owned, pointers]
  apply owned.assign below clear
  rw [slots_live inside live, slot_indirect present entry, none_]

end Xv6.Fs
