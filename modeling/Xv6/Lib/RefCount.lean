import Mathlib.Algebra.BigOperators.Pi
import Mathlib.Tactic.Abel

/-!
# Reference counting

The references that a part of a system holds are a `Use`: for each cell, how many shared
and how many exclusive ones there are. Uses add up, so a statement about one component
leaves the use of the others as a variable. `Counted U cnt` says that the counter of
every cell in use is the number of references to it, and that an exclusive reference is
the only one. Cells that no reference leads to may have any counter.
-/

namespace RefCount
open Function

variable {ι : Type}

/-- Shared and exclusive references to each cell. -/
abbrev Use (ι : Type) := ι → Nat × Nat

/-- All references to a cell. -/
def total (U : Use ι) (f : ι) : Nat := (U f).1 + (U f).2

@[simp] theorem total_zero (f : ι) : total (0 : Use ι) f = 0 := rfl

@[simp] theorem total_add (U V : Use ι) (f : ι) : total (U + V) f = total U f + total V f := by
  simp only [total, Pi.add_apply, Prod.fst_add, Prod.snd_add]
  omega

theorem total_sum {κ : Type} (s : Finset κ) (U : κ → Use ι) (f : ι) :
    total (∑ k ∈ s, U k) f = ∑ k ∈ s, total (U k) f := by
  simp [total, Finset.sum_apply, Prod.fst_sum, Prod.snd_sum, Finset.sum_add_distrib]

theorem total_eq_zero {U : Use ι} {f : ι} : total U f = 0 ↔ U f = 0 := by
  rw [Prod.ext_iff, Prod.fst_zero, Prod.snd_zero, total]
  omega

section Ref

variable [DecidableEq ι]

/-- One reference to `f`. -/
def ref (f : ι) (exclusive : Bool) : Use ι := Pi.single f (if exclusive then (0, 1) else (1, 0))

theorem ref_self (f : ι) (x : Bool) : ref f x f = if x then (0, 1) else (1, 0) := by
  simp [ref]

theorem ref_of_ne {f g : ι} (ne : g ≠ f) (x : Bool) : ref f x g = 0 := by
  simp [ref, ne]

@[simp] theorem total_ref_self (f : ι) (x : Bool) : total (ref f x) f = 1 := by
  cases x <;> simp [total, ref_self]

theorem total_ref (f g : ι) (x : Bool) : total (ref f x) g = if g = f then 1 else 0 := by
  by_cases same : g = f
  · subst same; simp
  · simp [total, ref_of_ne same, same]

end Ref

/-- The counters agree with the references. -/
structure Counted (U : Use ι) (cnt : ι → Nat) : Prop where
  count : ∀ f, 0 < total U f → cnt f = total U f
  alone : ∀ f, 0 < (U f).2 → total U f = 1

namespace Counted

variable {U V : Use ι} {cnt : ι → Nat} {f : ι} {x : Bool}

/-- A cell with counter 0 is not in use. -/
theorem unused (c : Counted U cnt) (zero : cnt f = 0) : total U f = 0 := by
  have := c.count f
  omega

variable [DecidableEq ι]

theorem count_ref (c : Counted (U + ref f x) cnt) : cnt f = total U f + 1 := by
  have := c.count f
  rw [total_add, total_ref_self] at this
  omega

/-- An exclusive reference is the only one. -/
theorem exclusive (c : Counted (U + ref f true) cnt) : total U f = 0 := by
  have := c.alone f (by simp [ref_self])
  rw [total_add, total_ref_self] at this
  omega

/-- What is known of the other references to `f` when one is set aside. -/
theorem rest_alone (c : Counted (U + ref f x) cnt) : (U f).2 = 0 := by
  by_contra pos
  have := c.alone f (by simp only [Pi.add_apply, Prod.snd_add]; omega)
  rw [total_add, total_ref_self, total] at this
  omega

/-- Rule for a change that concerns one cell only. -/
theorem change (f : ι) {cnt' : ι → Nat} (c : Counted U cnt) (other : ∀ g, g ≠ f → V g = U g ∧ cnt' g = cnt g)
    (count : 0 < total V f → cnt' f = total V f) (alone : 0 < (V f).2 → total V f = 1) : Counted V cnt' := by
  constructor <;> intro g <;> by_cases same : g = f
  · subst same
    exact count
  · rw [total, (other g same).1, (other g same).2]
    exact c.count g
  · subst same
    exact alone
  · rw [total, (other g same).1]
    exact c.alone g

/-- A fresh cell gets its first reference. -/
theorem take (c : Counted U cnt) (zero : cnt f = 0) (x : Bool) :
    Counted (U + ref f x) (update cnt f 1) := by
  have unused := c.unused zero
  refine c.change f (fun g ne => ⟨by simp [ref_of_ne ne], by simp [ne]⟩) (fun _ => ?_) fun _ => ?_
  · simp [unused]
  · simp [unused]

/-- A fresh cell is counted although nothing refers to it. -/
theorem lose (c : Counted U cnt) (zero : cnt f = 0) : Counted U (update cnt f 1) := by
  have unused := c.unused zero
  refine c.change f (fun g ne => ⟨rfl, by simp [ne]⟩) (fun pos => ?_) (c.alone f)
  omega

/-- A reference is given up. -/
theorem drop (c : Counted (U + ref f x) cnt) : Counted U (update cnt f (cnt f - 1)) := by
  refine c.change f (fun g ne => ⟨by simp [ref_of_ne ne], by simp [ne]⟩) (fun _ => ?_) fun pos => ?_
  · rw [update_self, c.count_ref]
    rfl
  · rw [c.rest_alone] at pos
    omega

/-- The only reference to a cell can be forgotten. -/
theorem forget (c : Counted (U + ref f true) cnt) : Counted U cnt := by
  have unused := c.exclusive
  refine c.change f (fun g ne => ⟨by simp [ref_of_ne ne], rfl⟩) (fun pos => ?_) fun pos => ?_
  · omega
  · rw [total] at unused
    omega

/-- A reference that is not exclusive is copied. -/
theorem share (c : Counted (U + ref f false) cnt) :
    Counted (U + ref f false + ref f false) (update cnt f (cnt f + 1)) := by
  refine c.change f (fun g ne => ⟨by simp [ref_of_ne ne], by simp [ne]⟩) (fun _ => ?_) fun pos => ?_
  · simp [c.count_ref]
  · simp [ref_self, c.rest_alone] at pos

/-- A reference can stop being exclusive. -/
theorem weaken (c : Counted (U + ref f x) cnt) : Counted (U + ref f false) cnt := by
  refine c.change f (fun g ne => ⟨by simp [ref_of_ne ne], rfl⟩) (fun _ => ?_) fun pos => ?_
  · simp [c.count_ref]
  · simp [ref_self, c.rest_alone] at pos

/-- The only reference can become exclusive. -/
theorem strengthen (c : Counted (U + ref f x) cnt) (one : cnt f = 1) : Counted (U + ref f true) cnt := by
  have count := c.count_ref
  have unused : total U f = 0 := by omega
  refine c.change f (fun g ne => ⟨by simp [ref_of_ne ne], rfl⟩) (fun _ => ?_) fun _ => ?_
  · simp [count]
  · simp [unused]

end Counted

/-- As `Counted`, and a cell that no reference leads to has counter 0. -/
structure Exact (U : Use ι) (cnt : ι → Nat) : Prop where
  counted : Counted U cnt
  unused : ∀ f, total U f = 0 → cnt f = 0

namespace Exact

variable {U : Use ι} {cnt : ι → Nat} {f : ι} {x : Bool}

theorem count (e : Exact U cnt) (f : ι) : cnt f = total U f := by
  by_cases pos : 0 < total U f
  · exact e.counted.count f pos
  · have zero : total U f = 0 := by omega
    rw [zero]
    exact e.unused f zero

variable [DecidableEq ι]

theorem take (e : Exact U cnt) (zero : cnt f = 0) (x : Bool) : Exact (U + ref f x) (update cnt f 1) := by
  refine ⟨e.counted.take zero x, fun g none_ => ?_⟩
  rw [total_add, total_ref] at none_
  split at none_
  · omega
  · rename_i ne
    rw [update_of_ne ne]
    exact e.unused g none_

theorem drop (e : Exact (U + ref f x) cnt) : Exact U (update cnt f (cnt f - 1)) := by
  refine ⟨e.counted.drop, fun g none_ => ?_⟩
  by_cases here : g = f
  · subst here
    rw [update_self, e.counted.count_ref, none_]
  · rw [update_of_ne here]
    exact e.unused g (by rw [total_add, total_ref, if_neg here, none_])

theorem share (e : Exact U cnt) (only : (U f).2 = 0) :
    Exact (U + ref f false) (update cnt f (cnt f + 1)) := by
  constructor
  · refine e.counted.change f (fun g ne => ⟨by simp [ref_of_ne ne], by simp [ne]⟩) (fun _ => ?_) fun pos => ?_
    · rw [update_self, e.count, total_add, total_ref_self]
    · simp [ref_self, only] at pos
  · intro g none_
    rw [total_add, total_ref] at none_
    split at none_
    · omega
    · rename_i ne
      rw [update_of_ne ne]
      exact e.unused g none_

theorem weaken (e : Exact (U + ref f x) cnt) : Exact (U + ref f false) cnt := by
  refine ⟨e.counted.weaken, fun g none_ => e.unused g ?_⟩
  rw [total_add, total_ref] at none_ ⊢
  exact none_

end Exact

end RefCount
