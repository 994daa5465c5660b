import Mathlib.Tactic.Common

/-!
# Peeling computations that may stop

A fallible step is an `Except` computation. A proof about a successful run takes the
sequence apart with `bind_ok` instead of unfolding it, and a proof that a run
succeeds puts it together the other way round.
-/

namespace Fallible

variable {ε α β : Type} {f : α → Except ε β} {x : Except ε α}

/-- A sequence succeeds exactly when its first part does and hands on to the rest. -/
theorem bind_ok {b : β} : (x >>= f) = .ok b ↔ ∃ a, x = .ok a ∧ f a = .ok b := by
  cases x with
  | error e => simp [bind, Except.bind]
  | ok a => simp [bind, Except.bind]

/-- A sequence stops in its first part, or in the rest. -/
theorem bind_error {e : ε} : (x >>= f) = .error e ↔ x = .error e ∨ ∃ a, x = .ok a ∧ f a = .error e := by
  cases x with
  | error e' => simp [bind, Except.bind]
  | ok a => simp [bind, Except.bind]

theorem ok_bind (a : α) (f : α → Except ε β) : ((.ok a : Except ε α) >>= f) = f a := rfl

/-- If the computation stops, it is for a reason in `P`. -/
def StopsIn (P : ε → Prop) (x : Except ε α) : Prop := ∀ e, x = .error e → P e

namespace StopsIn

variable {P : ε → Prop}

theorem ok (a : α) : StopsIn P (.ok a) := by
  rintro _ ⟨⟩

theorem error {e : ε} (h : P e) : StopsIn P (.error e : Except ε α) := by
  intro e' same
  cases same
  exact h

theorem bind (first : StopsIn P x) (rest : ∀ a, x = .ok a → StopsIn P (f a)) : StopsIn P (x >>= f) := by
  cases x with
  | error e => exact error (first e rfl)
  | ok a => exact rest a rfl

end StopsIn

end Fallible
