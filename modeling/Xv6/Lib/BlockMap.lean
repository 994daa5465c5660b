import Xv6.Lib.Tables

/-!
# Ownership of numbered blocks

Blocks have numbers below `hi`; those below `lo` are reserved. A pointer `σ x` holds the
number of the block it owns, or 0. `Owns` says that no block is owned twice and that the
bitmap `used` marks the reserved blocks and the owned ones, and no others. A block that
is not marked may be given to a pointer that has none, and a pointer may give its block
back.
-/

namespace BlockMap
open Function

variable {ι : Type} {lo hi : Nat} {σ : ι → Nat} {used : Nat → Bool}

structure Owns (lo hi : Nat) (σ : ι → Nat) (used : Nat → Bool) : Prop where
  pos : 0 < lo
  area : ∀ x, σ x ≠ 0 → lo ≤ σ x ∧ σ x < hi
  inj : ∀ x y, σ x ≠ 0 → σ x = σ y → x = y
  marked : ∀ b < hi, used b = true ↔ b < lo ∨ ∃ x, σ x = b

namespace Owns

theorem congr {τ : ι → Nat} {used' : Nat → Bool} (owns : Owns lo hi σ used) (pointers : ∀ x, τ x = σ x)
    (bits : ∀ b < hi, used' b = used b) : Owns lo hi τ used' := by
  have same : τ = σ := funext pointers
  subst same
  refine ⟨owns.pos, owns.area, owns.inj, ?_⟩
  intro b inside
  rw [bits b inside]
  exact owns.marked b inside

theorem used_of_owner (owns : Owns lo hi σ used) {x : ι} (mapped : σ x ≠ 0) : used (σ x) = true :=
  (owns.marked _ (owns.area x mapped).2).2 (.inr ⟨x, rfl⟩)

/-- A block that is not marked is not reserved and has no owner. -/
theorem fresh (owns : Owns lo hi σ used) {b : Nat} (inside : b < hi) (free : used b = false) :
    lo ≤ b ∧ ∀ x, σ x ≠ b := by
  have notMarked : ¬ (b < lo ∨ ∃ x, σ x = b) := by
    rw [← owns.marked b inside, free]
    simp
  push Not at notMarked
  exact notMarked

variable [DecidableEq ι]

theorem assign (owns : Owns lo hi σ used) {b : Nat} {x : ι} (inside : b < hi) (free : used b = false) (none_ : σ x = 0) :
    Owns lo hi (update σ x b) (update used b true) := by
  obtain ⟨area, unowned⟩ := owns.fresh inside free
  refine ⟨owns.pos, ?_, ?_, ?_⟩
  · intro y mapped
    by_cases same : y = x
    · rw [same, update_self]
      exact ⟨area, inside⟩
    · rw [update_of_ne same] at mapped ⊢
      exact owns.area y mapped
  · intro y z mapped eq
    by_cases atY : y = x
    · by_cases atZ : z = x
      · rw [atY, atZ]
      · rw [atY, update_self, update_of_ne atZ] at eq
        exact absurd eq.symm (unowned z)
    · rw [update_of_ne atY] at mapped eq
      by_cases atZ : z = x
      · rw [atZ, update_self] at eq
        exact absurd eq (unowned y)
      · rw [update_of_ne atZ] at eq
        exact owns.inj y z mapped eq
  · intro c below
    by_cases here : c = b
    · rw [here, update_self]
      exact ⟨fun _ => .inr ⟨x, update_self ..⟩, fun _ => rfl⟩
    · rw [update_of_ne here, owns.marked c below]
      apply or_congr_right'
      intro above
      constructor
      · rintro ⟨y, rfl⟩
        have other : y ≠ x := by
          rintro rfl
          have := owns.pos
          omega
        exact ⟨y, update_of_ne other ..⟩
      · rintro ⟨y, eq⟩
        have other : y ≠ x := by
          rintro rfl
          rw [update_self] at eq
          exact here eq.symm
        rw [update_of_ne other] at eq
        exact ⟨y, eq⟩

theorem release (owns : Owns lo hi σ used) {x : ι} (mapped : σ x ≠ 0) :
    Owns lo hi (update σ x 0) (update used (σ x) false) := by
  have onlyOwner : ∀ y, y ≠ x → σ y ≠ σ x := fun y other eq => other (owns.inj y x (by rw [eq]; exact mapped) eq)
  have kept : ∀ y, update σ x 0 y ≠ 0 → y ≠ x ∧ update σ x 0 y = σ y := by
    intro y some_
    have other : y ≠ x := by
      rintro rfl
      exact some_ (update_self ..)
    exact ⟨other, update_of_ne other ..⟩
  refine ⟨owns.pos, ?_, ?_, ?_⟩
  · intro y some_
    obtain ⟨_, eq⟩ := kept y some_
    rw [eq] at some_ ⊢
    exact owns.area y some_
  · intro y z some_ same
    obtain ⟨_, eqY⟩ := kept y some_
    obtain ⟨_, eqZ⟩ := kept z (by rw [← same]; exact some_)
    rw [eqY, eqZ] at same
    rw [eqY] at some_
    exact owns.inj y z some_ same
  · intro c below
    by_cases here : c = σ x
    · rw [here, update_self]
      constructor
      · intro no
        cases no
      · rintro (reserved | ⟨y, eq⟩)
        · have := (owns.area x mapped).1
          omega
        · obtain ⟨other, eqY⟩ := kept y (by rw [eq]; exact mapped)
          exact absurd (eqY ▸ eq) (onlyOwner y other)
    · rw [update_of_ne here, owns.marked c below]
      apply or_congr_right'
      intro above
      constructor
      · rintro ⟨y, rfl⟩
        have other : y ≠ x := fun same => here (by rw [same])
        exact ⟨y, update_of_ne other ..⟩
      · rintro ⟨y, eq⟩
        have := owns.pos
        obtain ⟨_, eqY⟩ := kept y (by omega)
        exact ⟨y, eqY ▸ eq⟩

end Owns

/-- How many blocks are not marked. -/
def free (hi : Nat) (used : Nat → Bool) : Nat := Tables.tally used hi false

theorem free_assign {b : Nat} (inside : b < hi) (clear : used b = false) :
    free hi (update used b true) + 1 = free hi used := by
  have := Tables.tally_update (t := used) (a := false) inside true
  rw [if_pos clear, if_neg (by simp)] at this
  exact this

theorem free_pos : 0 < free hi used ↔ ∃ b < hi, used b = false := Tables.tally_pos

end BlockMap
