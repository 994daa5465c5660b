import Mathlib.Tactic.Common

/-!
# Bounded C strings

A string is a function from offsets to bytes. Its text within a bound `n` is its bytes up
to the first NUL, at most `n` of them. `strncmp` compares the texts of two strings, and
`strncpy` copies a text and fills the rest with NULs.
-/

namespace CString
open Function List

/-- The text of at most `n` bytes from `i` on. -/
def textFrom (s : Nat → UInt8) : Nat → Nat → List UInt8
  | 0, _ => []
  | n + 1, i => if s i = 0 then [] else s i :: textFrom s n (i + 1)

/-- The text of at most `n` bytes. -/
def text (s : Nat → UInt8) (n : Nat) : List UInt8 := textFrom s n 0

/-- The loop of `strncmp`, `n` bytes from `i` on. -/
def strncmpFrom (p q : Nat → UInt8) : Nat → Nat → Int
  | 0, _ => 0
  | n + 1, i => if p i ≠ 0 ∧ p i = q i then strncmpFrom p q n (i + 1) else (p i).toNat - (q i).toNat

/-- `strncmp(p, q, n)`. -/
def strncmp (p q : Nat → UInt8) (n : Nat) : Int := strncmpFrom p q n 0

/-- The second loop of `strncpy`. -/
def padFrom : Nat → Nat → (Nat → UInt8) → Nat → UInt8
  | 0, _, s => s
  | n + 1, i, s => padFrom n (i + 1) (Function.update s i 0)

/-- The first loop of `strncpy`, which ends after a NUL was copied. -/
def strncpyFrom (t : Nat → UInt8) : Nat → Nat → (Nat → UInt8) → Nat → UInt8
  | 0, _, s => s
  | n + 1, i, s =>
    let s := Function.update s i (t i)
    if t i ≠ 0 then strncpyFrom t n (i + 1) s else padFrom n (i + 1) s

/-- `strncpy(s, t, n)`. -/
def strncpy (s t : Nat → UInt8) (n : Nat) : Nat → UInt8 := strncpyFrom t n 0 s

/-- The bytes `l` are written at `a`. -/
def put (s : Nat → UInt8) (a : Nat) (l : List UInt8) : Nat → UInt8 := fun j =>
  if a ≤ j then (l[j - a]?).getD (s j) else s j

variable {p q s t : Nat → UInt8} {l : List UInt8} {n i a : Nat} {j : Nat}

theorem textFrom_congr (same : ∀ j, i ≤ j → j < i + n → p j = q j) : textFrom p n i = textFrom q n i := by
  induction n generalizing i with
  | zero => rfl
  | succ n ih =>
    rw [textFrom, textFrom, same i (Nat.le_refl _) (by omega), ih fun j low high => same j (by omega) (by omega)]

/-- A string depends on its first `n` bytes only. -/
theorem text_congr (same : ∀ j < n, p j = q j) : text p n = text q n :=
  textFrom_congr fun j _ high => same j (by omega)

theorem strncmpFrom_eq_zero : strncmpFrom p q n i = 0 ↔ textFrom p n i = textFrom q n i := by
  induction n generalizing i with
  | zero => simp [strncmpFrom, textFrom]
  | succ n ih =>
    rw [strncmpFrom, textFrom, textFrom]
    by_cases goes : p i ≠ 0 ∧ p i = q i
    · have alsoQ : q i ≠ 0 := by rw [← goes.2]; exact goes.1
      rw [if_pos goes, if_neg goes.1, if_neg alsoQ, ih, goes.2]
      simp
    · rw [if_neg goes]
      -- the loop stops at the end of `p` or at the first difference
      have diff : ((p i).toNat : Int) - (q i).toNat = 0 ↔ p i = q i := by
        rw [Int.sub_eq_zero, Int.natCast_inj, UInt8.toNat_inj]
      rw [diff]
      by_cases ended : p i = 0
      · rw [if_pos ended, ended]
        by_cases endedQ : q i = 0
        · simp [endedQ]
        · simp [endedQ, Ne.symm endedQ]
      · have differ : p i ≠ q i := fun same => goes ⟨ended, same⟩
        rw [if_neg ended]
        by_cases endedQ : q i = 0
        · simp [endedQ, ended]
        · simp [endedQ, differ]

/-- `strncmp` returns 0 exactly for equal texts. -/
theorem strncmp_eq_zero : strncmp p q n = 0 ↔ text p n = text q n := strncmpFrom_eq_zero

theorem padFrom_byte : padFrom n i s j = if i ≤ j ∧ j < i + n then 0 else s j := by
  induction n generalizing i s with
  | zero => rw [padFrom, if_neg (by omega)]
  | succ n ih =>
    rw [padFrom, ih]
    by_cases here : j = i
    · rw [here, if_neg (by omega), update_self, if_pos (by omega)]
    · by_cases inside : i ≤ j ∧ j < i + (n + 1)
      · rw [if_pos (by omega), if_pos inside]
      · rw [if_neg (by omega), if_neg inside, update_of_ne here]

theorem strncpyFrom_outside (outside : j < i ∨ i + n ≤ j) : strncpyFrom t n i s j = s j := by
  induction n generalizing i s with
  | zero => rfl
  | succ n ih =>
    simp only [strncpyFrom]
    split
    · rw [ih (by omega), update_of_ne (by omega)]
    · rw [padFrom_byte, if_neg (by omega), update_of_ne (by omega)]

/-- The bytes written do not depend on what was there. -/
theorem strncpyFrom_inside {s' : Nat → UInt8} (low : i ≤ j) (high : j < i + n) :
    strncpyFrom t n i s j = strncpyFrom t n i s' j := by
  induction n generalizing i s s' with
  | zero => omega
  | succ n ih =>
    simp only [strncpyFrom]
    by_cases here : j = i
    · split
      · rw [strncpyFrom_outside (by omega), strncpyFrom_outside (by omega), here, update_self, update_self]
      · rw [padFrom_byte, padFrom_byte, if_neg (by omega), if_neg (by omega), here, update_self, update_self]
    · split
      · exact ih (by omega) (by omega)
      · rw [padFrom_byte, padFrom_byte, if_pos (by omega), if_pos (by omega)]

theorem put_outside (outside : j < a ∨ a + l.length ≤ j) : put s a l j = s j := by
  simp only [put]
  split
  · rw [getElem?_eq_none (by omega)]
    rfl
  · rfl

theorem put_inside {o : Nat} (inside : o < l.length) : put s a l (a + o) = l[o] := by
  rw [put, if_pos (Nat.le_add_right a o), Nat.add_sub_cancel_left, getElem?_eq_getElem inside]
  rfl

/-- Bytes written next to each other. -/
theorem put_append (l m : List UInt8) : put s a (l ++ m) = put (put s (a + l.length) m) a l := by
  funext j
  by_cases low : j < a + l.length
  · by_cases before : j < a
    · rw [put_outside (.inl before), put_outside (.inl before), put_outside (.inl low)]
    · obtain ⟨o, rfl⟩ := Nat.exists_eq_add_of_le (Nat.le_of_not_lt before)
      have inside : o < l.length := by omega
      rw [put_inside inside, put_inside (by rw [length_append]; omega), getElem_append_left inside]
  · rw [put_outside (s := put s (a + l.length) m) (.inr (by omega))]
    simp only [put]
    rw [if_pos (by omega), if_pos (by omega), getElem?_append_right (by omega)]
    congr 2
    omega

/-- Bytes written behind others. -/
theorem put_put (l m : List UInt8) : put (put s a l) (a + l.length) m = put s a (l ++ m) := by
  rw [put_append]
  funext j
  by_cases behind : a + l.length ≤ j
  · have kept : put s a l j = s j := put_outside (.inr behind)
    rw [put_outside (s := put s (a + l.length) m) (.inr behind)]
    simp only [put, if_pos behind] at kept ⊢
    rw [kept]
  · rw [put_outside (.inl (Nat.lt_of_not_le behind))]
    simp only [put, if_neg behind]

theorem put_singleton (c : UInt8) : put s a [c] = update s a c := by
  funext j
  by_cases here : j = a
  · rw [here, update_self]
    exact put_inside (o := 0) (l := [c]) Nat.one_pos
  · rw [update_of_ne here]
    apply put_outside
    simp only [length_singleton]
    omega

theorem update_put {o : Nat} (inside : o < l.length) (c : UInt8) :
    update (put s a l) (a + o) c = put s a (l.set o c) := by
  funext j
  by_cases here : j = a + o
  · rw [here, update_self, put_inside (by rwa [length_set]), getElem_set_self]
  · rw [update_of_ne here, put, put]
    split
    · rw [getElem?_set_ne (by omega)]
    · rfl

/-- A string that starts with the bytes `l` has the text `l` up to its bound. -/
theorem textFrom_bytes (bytes : ∀ o (inside : o < l.length), s (i + o) = l[o]) (text : ∀ c ∈ l, c ≠ 0)
    (ends : l.length < n → s (i + l.length) = 0) : textFrom s n i = l.take n := by
  induction n generalizing i l with
  | zero => rw [take_zero, textFrom]
  | succ n ih =>
    rw [textFrom]
    cases l with
    | nil =>
      have ended : s i = 0 := ends (Nat.succ_pos n)
      rw [if_pos ended, take_nil]
    | cons c l =>
      have first : s i = c := bytes 0 (Nat.succ_pos _)
      rw [first, if_neg (text c mem_cons_self), take_succ_cons]
      have rest := ih (i := i + 1) (l := l) (fun o inside => ?_) (fun c mem => text c (mem_cons_of_mem _ mem)) fun short => ?_
      · rw [rest]
      · have byte := bytes (o + 1) (Nat.succ_lt_succ inside)
        rw [Nat.add_right_comm]
        exact byte
      · rw [Nat.add_right_comm]
        exact ends (Nat.succ_lt_succ short)

/-- The text of a string whose bytes and NUL have been written. -/
theorem text_put (s : Nat → UInt8) (bytes : ∀ c ∈ l, c ≠ 0) (fits : l.length < n) : text (put s 0 (l ++ [0])) n = l := by
  have len : (l ++ [0]).length = l.length + 1 := by simp
  have whole := textFrom_bytes (s := put s 0 (l ++ [0])) (n := n) (i := 0) (l := l) (fun o inside => ?_) bytes fun _ => ?_
  · rw [text, whole, take_of_length_le (Nat.le_of_lt fits)]
  · rw [put_inside (by omega), getElem_append_left inside]
  · rw [put_inside (by omega)]
    simp

end CString
