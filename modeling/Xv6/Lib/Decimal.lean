import Mathlib.Tactic.Common
import Mathlib.Algebra.Group.Nat.Defs

/-!
# Decimal numerals as bytes

The ASCII digits of a number, most significant first. A numeral has no NUL and no sign,
its length tells the size of the number, and it determines the number.
-/

namespace Decimal
open List

variable {n k : Nat}

/-- The character of a digit. -/
def digit (d : Nat) : UInt8 := UInt8.ofNat (48 + d)

/-- The digits of `n`. -/
def decimal (n : Nat) : List UInt8 := (Nat.toDigits 10 n).map fun c => UInt8.ofNat c.toNat

/-- The number whose digits are `l`. -/
def value (l : List UInt8) : Nat := l.foldl (fun n c => n * 10 + (c.toNat - 48)) 0

theorem digit_char {d : Nat} (small : d < 10) : UInt8.ofNat (Nat.digitChar d).toNat = digit d := by
  have all : ∀ e < 10, UInt8.ofNat (Nat.digitChar e).toNat = digit e := by decide
  exact all d small

theorem digit_toNat {d : Nat} (small : d < 10) : (digit d).toNat = 48 + d := by
  have all : ∀ e < 10, (digit e).toNat = 48 + e := by decide
  exact all d small

theorem decimal_small (small : n < 10) : decimal n = [digit n] := by
  rw [decimal, Nat.toDigits_of_lt_base small, map_singleton, digit_char small]

theorem decimal_step (large : 10 ≤ n) : decimal n = decimal (n / 10) ++ [digit (n % 10)] := by
  rw [decimal, Nat.toDigits_of_base_le (by decide) large, map_append, map_singleton,
    digit_char (Nat.mod_lt n (by decide))]
  rfl

/-- Induction on the digits, the last one first. -/
theorem decimal_induction {P : Nat → Prop} (small : ∀ n < 10, P n) (step : ∀ n, 10 ≤ n → P (n / 10) → P n) (n : Nat) : P n := by
  induction n using Nat.strongRecOn with
  | ind n ih =>
    by_cases h : n < 10
    · exact small n h
    · exact step n (by omega) (ih (n / 10) (by omega))

/-- The bytes of a numeral are digits. -/
theorem mem_decimal {c : UInt8} (mem : c ∈ decimal n) : 48 ≤ c.toNat ∧ c.toNat < 58 := by
  induction n using decimal_induction with
  | small n small =>
    rw [decimal_small small, mem_singleton] at mem
    rw [mem, digit_toNat small]
    omega
  | step n large ih =>
    rw [decimal_step large, mem_append, mem_singleton] at mem
    rcases mem with mem | mem
    · exact ih mem
    · rw [mem, digit_toNat (Nat.mod_lt n (by decide))]
      omega

theorem value_decimal (n : Nat) : value (decimal n) = n := by
  induction n using decimal_induction with
  | small n small =>
    simp only [decimal_small small, value, foldl_cons, foldl_nil, digit_toNat small]
    omega
  | step n large ih =>
    rw [value] at ih ⊢
    rw [decimal_step large, foldl_append, ih]
    simp only [foldl_cons, foldl_nil, digit_toNat (Nat.mod_lt n (by decide : 10 > 0))]
    omega

theorem decimal_injective {m : Nat} (same : decimal m = decimal n) : m = n := by
  rw [← value_decimal m, same, value_decimal]

theorem decimal_length_pos (n : Nat) : 0 < (decimal n).length := by
  induction n using decimal_induction with
  | small n small => simp [decimal_small small]
  | step n large ih => simp [decimal_step large]

theorem decimal_length_le (pos : 0 < k) (bound : n < 10 ^ k) : (decimal n).length ≤ k := by
  induction n using decimal_induction generalizing k with
  | small n small =>
    rw [decimal_small small]
    exact pos
  | step n large ih =>
    obtain _ | k := k
    · omega
    have fewer : n / 10 < 10 ^ k := by
      rw [Nat.pow_succ] at bound
      omega
    have positive : 0 < k := by
      apply Nat.pos_of_ne_zero
      intro zero
      rw [zero] at bound
      omega
    rw [decimal_step large, length_append, length_singleton]
    exact Nat.succ_le_succ (ih positive fewer)

theorem lt_decimal_length (bound : 10 ^ k ≤ n) : k < (decimal n).length := by
  induction n using decimal_induction generalizing k with
  | small n small =>
    obtain _ | k := k
    · exact decimal_length_pos n
    · have := Nat.one_le_pow k 10 (by decide)
      rw [Nat.pow_succ] at bound
      omega
  | step n large ih =>
    obtain _ | k := k
    · exact decimal_length_pos n
    have fewer : 10 ^ k ≤ n / 10 := by
      rw [Nat.pow_succ] at bound
      omega
    rw [decimal_step large, length_append, length_singleton]
    exact Nat.succ_lt_succ (ih fewer)

/-- The first `k` digits of a number that has at most one more. -/
theorem decimal_take (pos : 0 < k) (bound : n < 10 ^ (k + 1)) :
    (decimal n).take k = decimal (if n < 10 ^ k then n else n / 10) := by
  split
  next short => exact take_of_length_le (decimal_length_le pos short)
  next long =>
    have large : 10 ≤ n := by
      have := Nat.pow_le_pow_right (show 0 < 10 by decide) pos
      omega
    have fewer : n / 10 < 10 ^ k := by
      rw [Nat.pow_succ] at bound
      omega
    have least : k ≤ (decimal (n / 10)).length := by
      have all := lt_decimal_length (Nat.le_of_not_lt long)
      rw [decimal_step large, length_append, length_singleton] at all
      omega
    have exactly : k = (decimal (n / 10)).length := Nat.le_antisymm least (decimal_length_le pos fewer)
    rw [decimal_step large, take_append_of_le_length least]
    exact take_of_length_le (Nat.le_of_eq exactly.symm)

end Decimal
