import Xv6.Fs.Sound

/-!
# Freeing a file (`itrunc`)

`itrunc` gives back the blocks of an inode one by one. While it runs, the inode still
names blocks that are free already, so the ownership is followed on the slots themselves:
each `bfree` sets one of them to 0.
-/

namespace Xv6.Fs

open Fallible Words BlockMap Function List

variable {sb : Superblock} {dv : Dev} {img : Image} {ip : Inode} {σ : Nat × Nat → Nat} {used : Nat → Bool} {κ : Type}

/-- The blocks `vals x`, `x` in the list, are freed where there is one. -/
def freeEach {κ : Type} (vals : κ → Nat) (l : List κ) (dv : Dev) : Res Dev :=
  l.foldlM (fun dv x => if vals x ≠ 0 then bfree dv (vals x) else pure dv) dv

/-- The slots `f x`, `x` in the list, are set to 0. -/
def dropped {κ : Type} (σ : Nat × Nat → Nat) (f : κ → Nat × Nat) (l : List κ) (y : Nat × Nat) : Nat :=
  if y ∈ l.map f then 0 else σ y

theorem dropped_notMem {f : κ → Nat × Nat} {l : List κ} {y : Nat × Nat} (out : y ∉ l.map f) :
    dropped σ f l y = σ y := if_neg out

theorem dropped_mem {f : κ → Nat × Nat} {l : List κ} {y : Nat × Nat} (mem : y ∈ l.map f) :
    dropped σ f l y = 0 := if_pos mem

/-- Slots that own their blocks are freed without a panic. -/
theorem freeEach_ok (vals : κ → Nat) (f : κ → Nat × Nat) (l : List κ) (shows_ : Shows sb dv img)
    (owns : Owns sb.nmeta sb.size σ img.used) (nodup : (l.map f).Nodup) (values : ∀ x ∈ l, σ (f x) = vals x) :
    ∃ dv' used', freeEach vals l dv = .ok dv' ∧ Shows sb dv' { img with used := used' } ∧
      Owns sb.nmeta sb.size (dropped σ f l) used' := by
  induction l generalizing dv img σ with
  | nil => exact ⟨dv, img.used, rfl, shows_, owns.congr (fun x => dropped_notMem (by simp)) (fun _ _ => rfl)⟩
  | cons x l ih =>
    rw [map_cons, nodup_cons] at nodup
    have value := values x (mem_cons_self ..)
    rw [freeEach, foldlM_cons]
    by_cases none_ : vals x = 0
    · rw [if_neg (fun some_ => some_ none_)]
      obtain ⟨dv', used', isOk, shows', owns'⟩ := ih shows_ owns nodup.2 fun y mem => values y (mem_cons_of_mem _ mem)
      refine ⟨dv', used', isOk, shows', owns'.congr (fun y => ?_) (fun _ _ => rfl)⟩
      by_cases here : y = f x
      · rw [here, dropped_mem (by simp), dropped_notMem nodup.1, value, none_]
      · simp only [dropped, map_cons, mem_cons, here, false_or]
    · have mapped : σ (f x) ≠ 0 := by rw [value]; exact none_
      obtain ⟨dv1, isOk, shows1⟩ := bfree_ok shows_ (owns.area _ mapped).2 (owns.used_of_owner mapped)
      rw [value] at isOk
      rw [if_pos none_, isOk, ok_bind]
      have owns1 := owns.release mapped
      have rest : ∀ y ∈ l, update σ (f x) 0 (f y) = vals y := by
        intro y mem
        have other : f y ≠ f x := fun same => nodup.1 (by rw [← same]; exact mem_map_of_mem mem)
        rw [update_of_ne other]
        exact values y (mem_cons_of_mem _ mem)
      obtain ⟨dv', used', isOk', shows', owns'⟩ := ih shows1 owns1 nodup.2 rest
      refine ⟨dv', used', isOk', shows', owns'.congr (fun y => ?_) (fun _ _ => rfl)⟩
      by_cases here : y = f x
      · rw [here, dropped_mem (by simp), dropped_notMem nodup.1, update_self]
      · simp only [dropped, map_cons, mem_cons, here, false_or, update_of_ne here]

/-- The inode with the pointers of the list set to 0. -/
def Inode.clear (ip : Inode) (l : List Nat) : Inode := { ip with addrs := fun k => if k ∈ l then 0 else ip.addrs k }

/-- The first loop of `itrunc` frees the direct blocks and clears their pointers. -/
theorem itruncDirect_loop {l : List Nat} {vals : Nat → Nat} (nodup : l.Nodup) (same : ∀ i ∈ l, ip.addrs i = vals i) (dv : Dev) :
    (l.foldlM (fun (ip, dv) i =>
      if ip.addrs i ≠ 0 then do
        let dv ← bfree dv (ip.addrs i)
        pure ({ ip with addrs := update ip.addrs i 0 }, dv)
      else pure (ip, dv)) (ip, dv) : Res (Inode × Dev)) =
    (freeEach vals l dv >>= fun dv => .ok (ip.clear l, dv)) := by
  induction l generalizing ip dv with
  | nil =>
    show Except.ok (ip, dv) = Except.ok (ip.clear [], dv)
    simp [Inode.clear]
  | cons i l ih =>
    rw [nodup_cons] at nodup
    have value := same i (mem_cons_self ..)
    rw [freeEach, foldlM_cons, foldlM_cons]
    simp only [value]
    by_cases none_ : vals i = 0
    · rw [if_neg (fun some_ => some_ none_), if_neg (fun some_ => some_ none_)]
      have later := ih nodup.2 (fun j mem => same j (mem_cons_of_mem _ mem)) dv
      refine later.trans ?_
      congr 1
      funext dv'
      congr 2
      simp only [Inode.clear]
      congr 2
      funext k
      by_cases here : k = i
      · simp [here, nodup.1, value, none_]
      · simp [here]
    · rw [if_pos none_, if_pos none_]
      cases isFree : bfree dv (vals i) with
      | error e => rfl
      | ok dv1 =>
        simp only [ok_bind]
        have later := @ih { ip with addrs := update ip.addrs i 0 } nodup.2 (by
          intro j mem
          have other : j ≠ i := fun eq => nodup.1 (eq ▸ mem)
          show update ip.addrs i 0 j = vals j
          rw [update_of_ne other]
          exact same j (mem_cons_of_mem _ mem)) dv1
        refine later.trans ?_
        congr 1
        funext dv'
        congr 2
        simp only [Inode.clear]
        congr 2
        funext k
        by_cases here : k = i
        · simp [here, nodup.1]
        · simp [here]

/-- The inode after `itrunc`. -/
def Inode.emptied (ip : Inode) : Inode := { ip with size := 0, addrs := fun _ => 0 }

/-- The inode `iput` writes when it frees it. -/
def Inode.freed (ip : Inode) : Inode := { ip.emptied with type := 0 }

theorem slot_emptied (data : Nat → Block) (ip : Inode) (k : Nat) : slot data ip.emptied.toDinode k = 0 := by
  by_cases direct : k ≤ NDIRECT
  · exact slot_direct direct
  · exact slot_beyond (by omega) (.inl rfl)

/-- The slots of `ip` are all 0 and those of the others as before. -/
theorem Owned.emptied (img : Image) (ip : Inode) {τ : Nat × Nat → Nat} (owns : Owns sb.nmeta sb.size τ used)
    (others : ∀ j k, j ≠ ip.inum → τ (j, k) = slots sb img.data (img.table ip) (j, k)) (own : ∀ k, τ (ip.inum, k) = 0) :
    Owned sb { img with used := used } (img.table ip.emptied) := by
  refine owns.congr (fun x => ?_) (fun _ _ => rfl)
  obtain ⟨j, k⟩ := x
  by_cases here : j = ip.inum
  · subst here
    rw [own]
    show (if _ then slot img.data (img.table ip.emptied ip.emptied.inum) k else 0) = 0
    rw [table_self, slot_emptied, ite_self]
  · rw [others j k here]
    rw [Image.table, Image.table, slots_update (show j ≠ ip.emptied.inum from here), slots_update here]

/-- The second half of `itrunc`: the indirect block and the blocks it names. `σ` is what
the slots are after the first half. -/
theorem itrunc_indirect {dv1 : Dev} (shows1 : Shows sb dv1 { img with used := used }) (owns : Owns sb.nmeta sb.size σ used)
    (pointer : ip.addrs NDIRECT ≠ 0) (same : ∀ k, NDIRECT ≤ k → σ (ip.inum, k) = slot img.data ip.toDinode k) :
    ∃ dv3 used3, (itruncIndirect dv1 (dv1.bread (ip.addrs NDIRECT)) >>= fun dv => bfree dv (ip.addrs NDIRECT)) = .ok dv3 ∧
      Shows sb dv3 { img with used := used3 } ∧ ∃ τ, Owns sb.nmeta sb.size τ used3 ∧
        (∀ j k, j ≠ ip.inum → τ (j, k) = σ (j, k)) ∧ (∀ k < NDIRECT, τ (ip.inum, k) = σ (ip.inum, k)) ∧
        ∀ k, NDIRECT ≤ k → τ (ip.inum, k) = 0 := by
  have isPointer : σ (ip.inum, NDIRECT) = ip.addrs NDIRECT := by rw [same _ (Nat.le_refl _), slot_direct (Nat.le_refl _)]
  have isData : sb.nmeta ≤ ip.addrs NDIRECT := by
    rw [← isPointer]
    exact (owns.area _ (by rw [isPointer]; exact pointer)).1
  rw [shows1.data _ isData]
  have entries : ∀ k, k ≠ NDIRECT + 1 + (k - NDIRECT - 1) ∨ ¬ k - NDIRECT - 1 < NINDIRECT →
      (ip.inum, k) ∉ (range NINDIRECT).map fun j => (ip.inum, NDIRECT + 1 + j) := by
    intro k out mem
    obtain ⟨j, below, eq⟩ := mem_map.1 mem
    rw [mem_range] at below
    have := congrArg Prod.snd eq
    simp only at this
    omega
  have values : ∀ j ∈ range NINDIRECT, σ (ip.inum, NDIRECT + 1 + j) = getWord (img.data (ip.addrs NDIRECT)) (4 * j) := by
    intro j mem
    rw [same _ (by omega), slot_indirect pointer (mem_range.1 mem)]
  have distinct : ((range NINDIRECT).map fun j => (ip.inum, NDIRECT + 1 + j)).Nodup := by
    apply Nodup.map _ nodup_range
    intro a b eq
    have := congrArg Prod.snd eq
    simp only at this
    omega
  obtain ⟨dv2, used2, isOk, shows2, owns2⟩ := freeEach_ok _ _ _ shows1 owns distinct values
  have stays := dropped_notMem (σ := σ) (entries NDIRECT (by omega))
  rw [isPointer] at stays
  have mapped : dropped σ (fun j => (ip.inum, NDIRECT + 1 + j)) (range NINDIRECT) (ip.inum, NDIRECT) ≠ 0 := by
    rw [stays]
    exact pointer
  have owns3 := owns2.release mapped
  obtain ⟨dv3, isOk3, shows3⟩ := bfree_ok shows2 (owns2.area _ mapped).2 (owns2.used_of_owner mapped)
  rw [stays] at isOk3 shows3 owns3
  refine ⟨dv3, _, ?_, shows3, _, owns3, ?_, ?_, ?_⟩
  · show (freeEach (fun j => getWord (img.data (ip.addrs NDIRECT)) (4 * j)) (range NINDIRECT) dv1 >>= _) = _
    rw [isOk, ok_bind, isOk3]
  · intro j k other
    rw [update_of_ne (by simp [other])]
    apply dropped_notMem
    intro mem
    obtain ⟨_, _, eq⟩ := mem_map.1 mem
    exact other (congrArg Prod.fst eq).symm
  · intro k direct
    rw [update_of_ne (by simp; omega)]
    exact dropped_notMem (entries k (by omega))
  · intro k above
    by_cases here : k = NDIRECT
    · rw [here, update_self]
    · rw [update_of_ne (by simp [here])]
      by_cases entry : k - NDIRECT - 1 < NINDIRECT
      · exact dropped_mem (mem_map.2 ⟨k - NDIRECT - 1, mem_range.2 entry, by
          rw [show NDIRECT + 1 + (k - NDIRECT - 1) = k by omega]⟩)
      · rw [dropped_notMem (entries k (.inr entry)), same k above]
        exact slot_beyond (by omega) (.inr (by omega))

/-- `itrunc` frees every block of the inode, and only these. -/
theorem itrunc_ok (shows_ : Shows sb dv img) (owned : Owned sb img (img.table ip)) (inside : ip.inum < sb.ninodes)
    (live : ip.type ≠ 0) (wf : ip.toDinode.Wf) :
    ∃ dv' used', itrunc dv ip = .ok (ip.emptied, dv') ∧
      Shows sb dv' { img with used := used', inode := img.table ip.emptied } ∧
      Owned sb { img with used := used' } (img.table ip.emptied) := by
  have own := slots_self img img.data inside live
  have values : ∀ k ∈ range NDIRECT, slots sb img.data (img.table ip) (ip.inum, k) = ip.addrs k := by
    intro k mem
    have := mem_range.1 mem
    rw [own, slot_direct (by omega)]
  have distinct : ((range NDIRECT).map fun k => (ip.inum, k)).Nodup :=
    Nodup.map (Prod.mk_right_injective _) nodup_range
  obtain ⟨dv1, used1, isOk1, shows1, owns1⟩ := freeEach_ok _ _ _ shows_ owned distinct values
  have loop : itruncDirect dv ip = .ok (ip.clear (range NDIRECT), dv1) := by
    refine (itruncDirect_loop nodup_range (fun _ _ => rfl) dv).trans ?_
    rw [isOk1]
    rfl
  have untouched : ∀ j k, j ≠ ip.inum ∨ NDIRECT ≤ k → (j, k) ∉ (range NDIRECT).map fun k => (ip.inum, k) := by
    intro j k out mem
    obtain ⟨m, below, eq⟩ := mem_map.1 mem
    rw [mem_range] at below
    cases eq
    omega
  have cleared : ∀ k < NDIRECT, (ip.inum, k) ∈ (range NDIRECT).map fun k => (ip.inum, k) :=
    fun k below => mem_map.2 ⟨k, mem_range.2 below, rfl⟩
  have wf' : ip.emptied.toDinode.Wf :=
    ⟨wf.type, wf.major, wf.minor, wf.nlink, by show 0 < 2 ^ 32; decide, fun _ => by show 0 < 2 ^ 32; decide, fun _ _ => rfl⟩
  have kept : (ip.clear (range NDIRECT)).addrs NDIRECT = ip.addrs NDIRECT := by simp [Inode.clear]
  -- the final inode has no pointers, whichever branch was taken
  have final : ∀ addrs : Nat → Nat, (∀ k ≤ NDIRECT, addrs k = 0) → (∀ k, NDIRECT < k → addrs k = ip.addrs k) →
      ({ ip with size := 0, addrs := addrs } : Inode) = ip.emptied := by
    intro addrs low high
    have zero : addrs = fun _ => 0 := by
      funext k
      by_cases direct : k ≤ NDIRECT
      · exact low k direct
      · rw [high k (by omega), wf.length k (by omega)]
    rw [zero]
    rfl
  rw [itrunc, loop, ok_bind]
  simp only [kept]
  by_cases pointer : ip.addrs NDIRECT = 0
  · rw [if_neg (fun some_ => some_ pointer)]
    have isFinal := final (ip.clear (range NDIRECT)).addrs (by
      intro k direct
      by_cases last : k = NDIRECT
      · rw [last, kept, pointer]
      · have below : k < NDIRECT := by omega
        simp [Inode.clear, below]) (by
      intro k above
      simp [Inode.clear, Nat.le_of_lt above])
    have owned' := Owned.emptied img ip owns1 (by
      intro j k other
      exact dropped_notMem (untouched j k (.inl other))) (by
      intro k
      by_cases direct : k < NDIRECT
      · exact dropped_mem (cleared k direct)
      · rw [dropped_notMem (untouched _ k (.inr (by omega))), own]
        by_cases last : k = NDIRECT
        · rw [last, slot_direct (Nat.le_refl _), pointer]
        · exact slot_beyond (by omega) (.inl pointer))
    refine ⟨iupdate dv1 ip.emptied, used1, ?_, iupdate_shows shows1 inside wf', owned'⟩
    exact congrArg (fun ip : Inode => (.ok (ip, iupdate dv1 ip) : Res (Inode × Dev))) isFinal
  · rw [if_pos pointer]
    obtain ⟨dv3, used3, isOk3, shows3, τ, owns3, others, direct, indirect⟩ := itrunc_indirect shows1 owns1 pointer (by
      intro k above
      rw [dropped_notMem (untouched _ k (.inr above)), own])
    have isFinal := final (update (ip.clear (range NDIRECT)).addrs NDIRECT 0) (by
      intro k low
      by_cases last : k = NDIRECT
      · rw [last, update_self]
      · have below : k < NDIRECT := by omega
        rw [update_of_ne last]
        simp [Inode.clear, below]) (by
      intro k above
      rw [update_of_ne (by omega)]
      simp [Inode.clear, Nat.le_of_lt above])
    have owned' := Owned.emptied img ip owns3 (by
      intro j k other
      rw [others j k other]
      exact dropped_notMem (untouched j k (.inl other))) (by
      intro k
      by_cases low : k < NDIRECT
      · rw [direct k low]
        exact dropped_mem (cleared k low)
      · exact indirect k (by omega))
    refine ⟨iupdate dv3 ip.emptied, used3, ?_, iupdate_shows shows3 inside wf', owned'⟩
    rw [bind_ok] at isOk3
    obtain ⟨dv2, isOk2, isOk3⟩ := isOk3
    simp only [isOk2, isOk3, ok_bind]
    exact congrArg (fun ip : Inode => (.ok (ip, iupdate dv3 ip) : Res (Inode × Dev))) isFinal

end Xv6.Fs
