import Mathlib.Algebra.BigOperators.Group.Finset.Basic

/-!
# Fixed-size tables

A table of `n` entries is a function on indices, of which those below `n` count.
`first p n` is the loop that looks for the first entry that satisfies `p`, and `tally`
counts the entries of a table that have a given value.
-/

namespace Tables
open Function Finset

/-- The loop over `n` indices from `i` on that breaks at the first one with `p`. -/
def firstFrom (p : Nat → Bool) : Nat → Nat → Option Nat
  | 0, _ => none
  | n + 1, i => if p i then some i else firstFrom p n (i + 1)

/-- The first index below `n` that satisfies `p`. -/
def first (p : Nat → Bool) (n : Nat) : Option Nat := firstFrom p n 0

variable {p : Nat → Bool} {n i : Nat}

theorem firstFrom_some {k : Nat} (found : firstFrom p n k = some i) :
    k ≤ i ∧ i < k + n ∧ p i = true ∧ ∀ j, k ≤ j → j < i → p j = false := by
  induction n generalizing k with
  | zero => cases found
  | succ n ih =>
    rw [firstFrom] at found
    split at found
    · rename_i here
      cases found
      refine ⟨Nat.le_refl _, by omega, here, ?_⟩
      intro j low high
      omega
    · rename_i passed
      obtain ⟨low, high, sat, before⟩ := ih found
      refine ⟨by omega, by omega, sat, ?_⟩
      intro j from_ upto
      by_cases start : j = k
      · rw [start]
        simpa using passed
      · exact before j (by omega) upto

theorem firstFrom_none {k : Nat} (missing : firstFrom p n k = none) : ∀ j, k ≤ j → j < k + n → p j = false := by
  induction n generalizing k with
  | zero => intro j low high; omega
  | succ n ih =>
    intro j low high
    rw [firstFrom] at missing
    split at missing
    · cases missing
    · rename_i passed
      by_cases start : j = k
      · rw [start]
        simpa using passed
      · exact ih missing j (by omega) (by omega)

theorem first_some (found : first p n = some i) : i < n ∧ p i = true ∧ ∀ j < i, p j = false := by
  obtain ⟨_, high, sat, before⟩ := firstFrom_some found
  exact ⟨by omega, sat, fun j below => before j (Nat.zero_le j) below⟩

theorem first_none (missing : first p n = none) : ∀ i < n, p i = false :=
  fun i inside => firstFrom_none missing i (Nat.zero_le i) (by omega)

/-- Two sums over a table that differ in one entry. -/
theorem sum_change {f g : Nat → Nat} (inside : i < n) (others : ∀ j, j ≠ i → f j = g j) :
    ∑ j ∈ Finset.range n, f j + g i = ∑ j ∈ Finset.range n, g j + f i := by
  have mem : i ∈ Finset.range n := mem_range.2 inside
  have rest : ∑ j ∈ (Finset.range n).erase i, f j = ∑ j ∈ (Finset.range n).erase i, g j :=
    sum_congr rfl fun j apart => others j (ne_of_mem_erase apart)
  have withF := add_sum_erase _ f mem
  have withG := add_sum_erase _ g mem
  omega

section Tally

variable {α β : Type} [DecidableEq α]

/-- How many of the `n` entries of `t` are `a`. -/
def tally (t : Nat → α) (n : Nat) (a : α) : Nat := ((Finset.range n).filter fun i => t i = a).card

variable {t : Nat → α} {a : α}

theorem tally_pos : 0 < tally t n a ↔ ∃ i < n, t i = a := by
  rw [tally, card_pos]
  constructor
  · rintro ⟨i, mem⟩
    rw [mem_filter, mem_range] at mem
    exact ⟨i, mem⟩
  · rintro ⟨i, inside, here⟩
    exact ⟨i, mem_filter.2 ⟨mem_range.2 inside, here⟩⟩

theorem tally_eq_zero : tally t n a = 0 ↔ ∀ i < n, t i ≠ a := by
  have := tally_pos (t := t) (n := n) (a := a)
  constructor
  · intro zero i inside here
    have := this.2 ⟨i, inside, here⟩
    omega
  · intro never
    by_contra some_
    obtain ⟨i, inside, here⟩ := this.1 (Nat.pos_of_ne_zero some_)
    exact never i inside here

theorem tally_congr {u : Nat → α} (same : ∀ i < n, t i = u i) : tally t n a = tally u n a := by
  unfold tally
  congr 1
  apply filter_congr
  intro i mem
  rw [same i (mem_range.1 mem)]

theorem tally_eq_countP (t : Nat → α) (n : Nat) (a : α) : tally t n a = (List.range n).countP fun i => t i = a := by
  rw [List.countP_eq_length_filter]
  rfl

/-- One entry is replaced. -/
theorem tally_update (inside : i < n) (b : α) :
    tally (update t i b) n a + (if t i = a then 1 else 0) = tally t n a + if b = a then 1 else 0 := by
  have split : ∀ u : Nat → α, tally u n a =
      (((Finset.range n).erase i).filter fun j => u j = a).card + if u i = a then 1 else 0 := by
    intro u
    rw [tally, ← insert_erase (mem_range.2 inside), filter_insert]
    split
    · rw [card_insert_of_notMem (by simp), erase_insert (by simp)]
    · rw [erase_insert (by simp), Nat.add_zero]
  have rest : ((Finset.range n).erase i).filter (fun j => update t i b j = a) =
      ((Finset.range n).erase i).filter fun j => t j = a := by
    apply filter_congr
    intro j mem
    rw [update_of_ne (ne_of_mem_erase mem)]
  rw [split, split t, rest, update_self]
  omega

/-- An entry equal to `a` is the only one when the count is 1. -/
theorem tally_one (one : tally t n a = 1) {j : Nat} (inside : i < n) (insideJ : j < n) (here : t i = a) (there : t j = a) :
    i = j := by
  rw [tally, card_eq_one] at one
  obtain ⟨k, only⟩ := one
  have isK : ∀ m < n, t m = a → m = k := by
    intro m below eq
    rw [← mem_singleton, ← only, mem_filter, mem_range]
    exact ⟨below, eq⟩
  rw [isK i inside here, isK j insideJ there]

end Tally

end Tables
