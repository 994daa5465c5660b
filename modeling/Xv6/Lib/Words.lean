import Mathlib.Tactic.Common
import Mathlib.Algebra.Group.Nat.Defs
import Mathlib.Algebra.Group.Int.Defs

/-!
# Little-endian words in byte buffers

A buffer is a function from offsets to bytes. A 32-bit word at `off` is the four bytes
from `off` on, least significant first, and a 16-bit one the two bytes. What is stored
is read back modulo `2 ^ 32` or `2 ^ 16`, and words that do not overlap do not see each
other.
-/

namespace Words

/-- The word at `off`. -/
def getWord (b : Nat → UInt8) (off : Nat) : Nat :=
  (b off).toNat + 256 * (b (off + 1)).toNat + 65536 * (b (off + 2)).toNat + 16777216 * (b (off + 3)).toNat

/-- The buffer with the word at `off` replaced. -/
def putWord (b : Nat → UInt8) (off v : Nat) : Nat → UInt8 := fun o =>
  if off ≤ o ∧ o < off + 4 then UInt8.ofNat (v / 256 ^ (o - off)) else b o

/-- `n` words stored one after the other from `off` on. -/
def putWords (b : Nat → UInt8) (off : Nat) (f : Nat → Nat) : Nat → Nat → UInt8
  | 0 => b
  | n + 1 => putWord (putWords b off f n) (off + 4 * n) (f n)

/-- The 16-bit word at `off`. -/
def getHalf (b : Nat → UInt8) (off : Nat) : Nat := (b off).toNat + 256 * (b (off + 1)).toNat

/-- The buffer with the 16-bit word at `off` replaced. -/
def putHalf (b : Nat → UInt8) (off v : Nat) : Nat → UInt8 := fun o =>
  if off ≤ o ∧ o < off + 2 then UInt8.ofNat (v / 256 ^ (o - off)) else b o

/-- The buffer after `n` bytes of `src` were copied to `off` (`memmove`). -/
def blit (b : Nat → UInt8) (off : Nat) (src : Nat → UInt8) (n : Nat) : Nat → UInt8 := fun o =>
  if off ≤ o ∧ o < off + n then src (o - off) else b o

/-- A word read as a signed `int`. -/
def toInt32 (w : Nat) : Int := if w < 2 ^ 31 then w else w - 2 ^ 32

/-- The word that stores a signed `int`. -/
def ofInt32 (i : Int) : Nat := (i % 2 ^ 32).toNat

variable {b : Nat → UInt8} {off off' v : Nat} {src c : Nat → UInt8} {o n : Nat}

theorem getWord_lt (b : Nat → UInt8) (off : Nat) : getWord b off < 2 ^ 32 := by
  have := (b off).toNat_lt
  have := (b (off + 1)).toNat_lt
  have := (b (off + 2)).toNat_lt
  have := (b (off + 3)).toNat_lt
  simp only [getWord]
  omega

theorem putWord_byte (v : Nat) {j : Nat} (inside : j < 4) :
    (putWord b off v (off + j)).toNat = v / 256 ^ j % 256 := by
  have range : off ≤ off + j ∧ off + j < off + 4 := by omega
  rw [putWord, if_pos range, Nat.add_sub_cancel_left]
  simp

@[simp] theorem getWord_putWord (b : Nat → UInt8) (off v : Nat) : getWord (putWord b off v) off = v % 2 ^ 32 := by
  have zero : (putWord b off v off).toNat = v / 256 ^ 0 % 256 := putWord_byte (j := 0) v (by decide)
  have one : (putWord b off v (off + 1)).toNat = v / 256 ^ 1 % 256 := putWord_byte v (by decide)
  have two : (putWord b off v (off + 2)).toNat = v / 256 ^ 2 % 256 := putWord_byte v (by decide)
  have three : (putWord b off v (off + 3)).toNat = v / 256 ^ 3 % 256 := putWord_byte v (by decide)
  rw [getWord, zero, one, two, three]
  omega

theorem putWord_outside (outside : o < off ∨ off + 4 ≤ o) : putWord b off v o = b o := by
  rw [putWord, if_neg (by omega)]

theorem getWord_putWord_disjoint (b : Nat → UInt8) (v : Nat) (apart : off' + 4 ≤ off ∨ off + 4 ≤ off') :
    getWord (putWord b off v) off' = getWord b off' := by
  simp only [getWord]
  rw [putWord_outside (by omega), putWord_outside (by omega), putWord_outside (by omega), putWord_outside (by omega)]

/-- A word depends on its four bytes only. -/
theorem getWord_congr (same : ∀ o, off ≤ o → o < off + 4 → b o = c o) : getWord b off = getWord c off := by
  simp only [getWord]
  rw [same off (by omega) (by omega), same (off + 1) (by omega) (by omega), same (off + 2) (by omega) (by omega),
    same (off + 3) (by omega) (by omega)]

theorem putWords_outside {f : Nat → Nat} (outside : o < off ∨ off + 4 * n ≤ o) : putWords b off f n o = b o := by
  induction n with
  | zero => rfl
  | succ n ih => rw [putWords, putWord_outside (by omega), ih (by omega)]

theorem getWord_putWords {f : Nat → Nat} {i : Nat} (inside : i < n) :
    getWord (putWords b off f n) (off + 4 * i) = f i % 2 ^ 32 := by
  induction n with
  | zero => omega
  | succ n ih =>
    rw [putWords]
    by_cases last : i = n
    · rw [last, getWord_putWord]
    · rw [getWord_putWord_disjoint _ _ (by omega), ih (by omega)]

theorem getHalf_lt (b : Nat → UInt8) (off : Nat) : getHalf b off < 2 ^ 16 := by
  have := (b off).toNat_lt
  have := (b (off + 1)).toNat_lt
  simp only [getHalf]
  omega

theorem getHalf_congr (same : ∀ o, off ≤ o → o < off + 2 → b o = c o) : getHalf b off = getHalf c off := by
  simp only [getHalf]
  rw [same off (by omega) (by omega), same (off + 1) (by omega) (by omega)]

theorem putHalf_outside (outside : o < off ∨ off + 2 ≤ o) : putHalf b off v o = b o := by
  rw [putHalf, if_neg (by omega)]

@[simp] theorem getHalf_putHalf (b : Nat → UInt8) (off v : Nat) : getHalf (putHalf b off v) off = v % 2 ^ 16 := by
  have zero : (putHalf b off v off).toNat = v % 256 := by
    rw [putHalf, if_pos (by omega)]
    simp
  have one : (putHalf b off v (off + 1)).toNat = v / 256 % 256 := by
    rw [putHalf, if_pos (by omega), Nat.add_sub_cancel_left]
    simp
  rw [getHalf, zero, one]
  omega

theorem blit_inside {j : Nat} (inside : j < n) : blit b off src n (off + j) = src j := by
  rw [blit, if_pos (by omega), Nat.add_sub_cancel_left]

theorem blit_outside (outside : o < off ∨ off + n ≤ o) : blit b off src n o = b o := by
  rw [blit, if_neg (by omega)]

theorem toInt32_ofInt32 {i : Int} (low : -2 ^ 31 ≤ i) (high : i < 2 ^ 31) : toInt32 (ofInt32 i) = i := by
  rw [toInt32, ofInt32]
  by_cases positive : 0 ≤ i
  · rw [if_pos (by omega)]
    omega
  · rw [if_neg (by omega)]
    omega

theorem ofInt32_lt (i : Int) : ofInt32 i < 2 ^ 32 := by
  simp only [ofInt32]
  omega

end Words
