import Mathlib.Data.Nat.Bitwise

/-!
# Bit arrays in byte buffers

Bit `i` of a buffer is bit `i % 8` of byte `i / 8`. It is tested, set and cleared with
the mask `1 << (i % 8)`; the other bits keep their values.
-/

namespace Bits
open Function

/-- `1 << (i % 8)`. -/
def mask (i : Nat) : UInt8 := 1 <<< UInt8.ofNat (i % 8)

def getBit (b : Nat → UInt8) (i : Nat) : Bool := b (i / 8) &&& mask i != 0

def setBit (b : Nat → UInt8) (i : Nat) : Nat → UInt8 := Function.update b (i / 8) (b (i / 8) ||| mask i)

def clearBit (b : Nat → UInt8) (i : Nat) : Nat → UInt8 := Function.update b (i / 8) (b (i / 8) &&& ~~~ mask i)

variable {b : Nat → UInt8} {i j : Nat}

theorem mask_toNat (i : Nat) : (mask i).toNat = 2 ^ (i % 8) := by
  have small : ∀ k : Fin 8, ((1 : UInt8) <<< UInt8.ofNat k.val).toNat = 2 ^ k.val := by decide
  exact small ⟨i % 8, Nat.mod_lt _ (by decide)⟩

/-- Testing with the mask reads one bit of the byte. -/
theorem and_mask (x : UInt8) (i : Nat) : (x &&& mask i != 0) = x.toNat.testBit (i % 8) := by
  have value : (x &&& mask i).toNat = (x.toNat.testBit (i % 8)).toNat * 2 ^ (i % 8) := by
    rw [UInt8.toNat_and, mask_toNat, Nat.and_two_pow]
  have pos : 0 < 2 ^ (i % 8) := Nat.two_pow_pos _
  have zero : (x &&& mask i = 0) ↔ (x &&& mask i).toNat = 0 := by
    rw [← UInt8.toNat_inj]
    exact Iff.rfl
  rw [Bool.eq_iff_iff, bne_iff_ne, ne_eq, zero, value]
  cases x.toNat.testBit (i % 8) with
  | false => simp
  | true => simp

theorem getBit_eq (b : Nat → UInt8) (i : Nat) : getBit b i = (b (i / 8)).toNat.testBit (i % 8) :=
  and_mask _ _

theorem testBit_or_mask (x : UInt8) (i k : Nat) : (x ||| mask i).toNat.testBit k = (x.toNat.testBit k || decide (i % 8 = k)) := by
  rw [UInt8.toNat_or, Nat.testBit_or, mask_toNat, Nat.testBit_two_pow]

theorem testBit_and_not_mask (x : UInt8) (i : Nat) {k : Nat} (small : k < 8) :
    (x &&& ~~~ mask i).toNat.testBit k = (x.toNat.testBit k && !decide (i % 8 = k)) := by
  have bits : (~~~ mask i).toNat.testBit k = !decide (i % 8 = k) := by
    have := BitVec.getLsbD_not (x := (mask i).toBitVec) (i := k)
    rw [BitVec.getLsbD, BitVec.getLsbD] at this
    show (~~~ (mask i).toBitVec).toNat.testBit k = _
    rw [this]
    show (decide (k < 8) && !(mask i).toNat.testBit k) = _
    rw [mask_toNat, Nat.testBit_two_pow, decide_eq_true small, Bool.true_and]
  rw [UInt8.toNat_and, Nat.testBit_and, bits]

theorem getBit_setBit (b : Nat → UInt8) (i j : Nat) : getBit (setBit b i) j = if j = i then true else getBit b j := by
  rw [getBit_eq, getBit_eq, setBit]
  by_cases byte : j / 8 = i / 8
  · rw [byte, update_self, testBit_or_mask]
    by_cases same : j = i
    · simp [same]
    · have other : i % 8 ≠ j % 8 := by omega
      simp [same, other]
  · have other : j ≠ i := fun same => byte (by rw [same])
    rw [update_of_ne byte, if_neg other]

theorem getBit_clearBit (b : Nat → UInt8) (i j : Nat) : getBit (clearBit b i) j = if j = i then false else getBit b j := by
  rw [getBit_eq, getBit_eq, clearBit]
  by_cases byte : j / 8 = i / 8
  · rw [byte, update_self, testBit_and_not_mask _ _ (Nat.mod_lt _ (by decide))]
    by_cases same : j = i
    · simp [same]
    · have other : i % 8 ≠ j % 8 := by omega
      simp [same, other]
  · have other : j ≠ i := fun same => byte (by rw [same])
    rw [update_of_ne byte, if_neg other]

end Bits
