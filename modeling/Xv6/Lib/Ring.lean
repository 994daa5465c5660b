import Mathlib.Data.Nat.ModEq

/-!
# Ring buffers with free-running counters

`N` cells and two counters, how many items were put and how many were taken, both kept
modulo `M`. The cell of an item is its number modulo `N`. When `N` divides `M` the
counters may wrap: `Holds b xs` says that the buffer holds the items `xs`, oldest first,
and `put` and `take` are the operations of a queue on them.
-/

namespace Ring
open Function List

/-- The cells, the number of items taken and the number of items put. -/
structure Buf (α : Type) where
  data : Nat → α
  r : Nat
  w : Nat

variable {α : Type} {M N : Nat} {b : Buf α} {x : α} {xs : List α}

def Buf.put (M N : Nat) (b : Buf α) (x : α) : Buf α :=
  { b with data := Function.update b.data (b.w % N) x, w := (b.w + 1) % M }

def Buf.take (M : Nat) (b : Buf α) : Buf α := { b with r := (b.r + 1) % M }

/-- The item put last is taken back. -/
def Buf.unput (M : Nat) (b : Buf α) : Buf α := { b with w := (b.w + M - 1) % M }

/-- The number of items, from the counters. -/
def Buf.used (M : Nat) (b : Buf α) : Nat := (b.w + M - b.r) % M

/-- The items, oldest first. -/
def Buf.items (M N : Nat) (b : Buf α) : List α := (List.range (b.used M)).map fun j => b.data ((b.r + j) % N)

/-- The buffer holds `xs`. -/
structure Holds (M N : Nat) (b : Buf α) (xs : List α) : Prop where
  counter : b.r < M
  put : b.w = (b.r + xs.length) % M
  fits : xs.length ≤ N
  cells : ∀ j (inside : j < xs.length), b.data ((b.r + j) % N) = xs[j]

theorem Holds.empty (counter : b.r < M) (same : b.r = b.w) : Holds M N b [] where
  counter := counter
  put := by rw [← same, length_nil, Nat.add_zero, Nat.mod_eq_of_lt counter]
  fits := Nat.zero_le _
  cells := fun _ inside => absurd inside (Nat.not_lt_zero _)

/-- Two sums that agree modulo `m` and differ by less than `m` are equal. -/
theorem add_mod_cancel {m a i j : Nat} (same : (a + i) % m = (a + j) % m) (le : i ≤ j) (near : j < i + m) : i = j := by
  have modEq : i ≡ j [MOD m] := Nat.ModEq.add_left_cancel' a same
  have divides := (Nat.modEq_iff_dvd' le).1 modEq
  have zero := Nat.eq_zero_of_dvd_of_lt divides (by omega)
  omega

section

variable (holds : Holds M N b xs) (less : N < M)
include holds less

theorem Holds.used_eq : b.used M = xs.length := by
  have fits := holds.fits
  have counter := holds.counter
  rw [Buf.used, holds.put]
  by_cases wraps : b.r + xs.length < M
  · rw [Nat.mod_eq_of_lt wraps, show b.r + xs.length + M - b.r = xs.length + M by omega, Nat.add_mod_right,
      Nat.mod_eq_of_lt (by omega)]
  · have once : (b.r + xs.length) % M = b.r + xs.length - M := by
      rw [Nat.mod_eq_sub_mod (by omega), Nat.mod_eq_of_lt (by omega)]
    rw [once, show b.r + xs.length - M + M - b.r = xs.length by omega, Nat.mod_eq_of_lt (by omega)]

theorem Holds.items_eq : b.items M N = xs := by
  rw [Buf.items, holds.used_eq less]
  apply ext_getElem
  · simp
  · intro j _ inside
    simp [holds.cells j inside]

/-- The counters are equal when the buffer is empty. -/
theorem Holds.empty_iff : b.r = b.w ↔ xs = [] := by
  have fits := holds.fits
  constructor
  · intro same
    rw [holds.put] at same
    have zero := add_mod_cancel (m := M) (a := b.r) (i := 0) (j := xs.length)
      (by rw [Nat.add_zero, Nat.mod_eq_of_lt holds.counter]; exact same) (Nat.zero_le _) (by omega)
    exact length_eq_zero_iff.1 zero.symm
  · rintro rfl
    rw [holds.put, length_nil, Nat.add_zero, Nat.mod_eq_of_lt holds.counter]

/-- They are `N` apart when it is full. -/
theorem Holds.full_iff : b.w = (b.r + N) % M ↔ xs.length = N := by
  rw [holds.put]
  constructor
  · intro same
    exact add_mod_cancel same holds.fits (by omega)
  · intro full
    rw [full]

end

theorem Holds.push (holds : Holds M N b xs) (divides : N ∣ M) (room : xs.length < N) :
    Holds M N (b.put M N x) (xs ++ [x]) := by
  have cell : b.w % N = (b.r + xs.length) % N := by rw [holds.put, Nat.mod_mod_of_dvd _ divides]
  refine ⟨holds.counter, ?_, ?_, ?_⟩
  · show (b.w + 1) % M = (b.r + (xs ++ [x]).length) % M
    rw [holds.put, Nat.mod_add_mod, length_append, length_singleton, Nat.add_assoc]
  · rw [length_append, length_singleton]
    exact room
  · intro j inside
    show update b.data (b.w % N) x ((b.r + j) % N) = (xs ++ [x])[j]
    rw [length_append, length_singleton] at inside
    by_cases last : j = xs.length
    · subst last
      rw [cell, update_self]
      simp
    · have before : j < xs.length := by omega
      have other : (b.r + j) % N ≠ b.w % N := by
        intro same
        rw [cell] at same
        exact last (add_mod_cancel same (Nat.le_of_lt before) (by omega))
      rw [update_of_ne other, holds.cells j before, getElem_append_left before]

theorem Holds.pop (holds : Holds M N b (x :: xs)) (divides : N ∣ M) :
    b.data (b.r % N) = x ∧ Holds M N (b.take M) xs := by
  constructor
  · have first := holds.cells 0 (Nat.succ_pos _)
    rwa [Nat.add_zero] at first
  · have pos : 0 < M := Nat.lt_of_le_of_lt (Nat.zero_le _) holds.counter
    have fits := holds.fits
    rw [length_cons] at fits
    refine ⟨Nat.mod_lt _ pos, ?_, by omega, ?_⟩
    · show b.w = ((b.r + 1) % M + xs.length) % M
      rw [holds.put, Nat.mod_add_mod, length_cons, Nat.add_assoc, Nat.add_comm 1]
    · intro j inside
      show b.data (((b.r + 1) % M + j) % N) = xs[j]
      have next := holds.cells (j + 1) (by rw [length_cons]; omega)
      rw [← Nat.mod_mod_of_dvd (((b.r + 1) % M + j)) divides, Nat.mod_add_mod, Nat.mod_mod_of_dvd _ divides,
        Nat.add_assoc, Nat.add_comm 1, next, getElem_cons_succ]

/-- The first items are held up to their own counter. -/
theorem Holds.front {ys : List α} (holds : Holds M N b (xs ++ ys)) :
    Holds M N { b with w := (b.r + xs.length) % M } xs where
  counter := holds.counter
  put := rfl
  fits := by
    have fits := holds.fits
    rw [length_append] at fits
    omega
  cells := fun j inside => by
    have cell := holds.cells j (by rw [length_append]; omega)
    rwa [getElem_append_left inside] at cell

/-- The last items are held from there on. -/
theorem Holds.back {ys : List α} (holds : Holds M N b (xs ++ ys)) (divides : N ∣ M) :
    Holds M N { b with r := (b.r + xs.length) % M } ys where
  counter := Nat.mod_lt _ (Nat.lt_of_le_of_lt (Nat.zero_le _) holds.counter)
  put := by
    show b.w = ((b.r + xs.length) % M + ys.length) % M
    rw [holds.put, Nat.mod_add_mod, length_append, Nat.add_assoc]
  fits := by
    have fits := holds.fits
    rw [length_append] at fits
    omega
  cells := fun j inside => by
    have cell := holds.cells (xs.length + j) (by rw [length_append]; omega)
    rw [getElem_append_right (Nat.le_add_right _ _)] at cell
    simp only [Nat.add_sub_cancel_left] at cell
    rw [← cell]
    show b.data (((b.r + xs.length) % M + j) % N) = b.data ((b.r + (xs.length + j)) % N)
    rw [← Nat.mod_mod_of_dvd ((b.r + xs.length) % M + j) divides, Nat.mod_add_mod, Nat.mod_mod_of_dvd _ divides, Nat.add_assoc]

theorem Holds.unput (holds : Holds M N b (xs ++ [x])) (divides : N ∣ M) :
    b.data ((b.unput M).w % N) = x ∧ Holds M N (b.unput M) xs := by
  have pos : 0 < M := Nat.lt_of_le_of_lt (Nat.zero_le _) holds.counter
  have last : (b.unput M).w = (b.r + xs.length) % M := by
    show (b.w + M - 1) % M = _
    have count := holds.put
    rw [length_append, length_singleton, ← Nat.add_assoc] at count
    rw [count, Nat.add_sub_assoc pos, Nat.mod_add_mod, show b.r + xs.length + 1 + (M - 1) = b.r + xs.length + M by omega,
      Nat.add_mod_right]
  constructor
  · have cell := holds.cells xs.length (by simp)
    rw [getElem_concat_length rfl] at cell
    rw [last, Nat.mod_mod_of_dvd _ divides, cell]
  · have front := holds.front
    rw [← last] at front
    exact front

end Ring
