import Xv6.Fs.Layout
import Xv6.Lib.BlockMap

/-!
# Block allocation (`balloc`, `bfree` of `fs.c`)

`balloc` takes the first block below `sb.size` whose bit is clear, marks it and fills it
with zeros; `bfree` clears the bit of a block and panics when it is clear already.
-/

namespace Xv6.Fs

open Words Bits Tables BlockMap

/-- The contents of a block after `bzero`. -/
def zeroed (b : Block) : Block := blit b 0 (fun _ => 0) BSIZE

/-- `bzero(dev, bno)`. -/
def bzero (dv : Dev) (bno : Nat) : Dev := dv.logWrite bno (zeroed (dv.bread bno))

/-- The outer loop of `balloc`, `n` blocks of the bitmap from that of block `b` on: the
values of `b` and `bi` at the first clear bit. -/
def ballocLoop (dv : Dev) : Nat → Nat → Option (Nat × Nat)
  | 0, _ => none
  | n + 1, b =>
    let bp := dv.bread (BBLOCK b dv.sb)
    match first (fun bi => !getBit bp bi) (min BPB (dv.sb.size - b)) with
    | some bi => some (b, bi)
    | none => ballocLoop dv n (b + BPB)

/-- `balloc(dev)`. -/
def balloc (dv : Dev) : Res (Nat × Dev) :=
  match ballocLoop dv ((dv.sb.size + BPB - 1) / BPB) 0 with
  | none => .error (.panic "balloc: out of blocks")
  | some (b, bi) =>
    let dv := dv.logWrite (BBLOCK b dv.sb) (setBit (dv.bread (BBLOCK b dv.sb)) bi)
    .ok (b + bi, bzero dv (b + bi))

/-- `bfree(dev, b)`, which reads the superblock again. -/
def bfree (dv : Dev) (b : Nat) : Res Dev :=
  let dv := { dv with sb := dv.readsb }
  let bp := dv.bread (BBLOCK b dv.sb)
  let bi := b % BPB
  if getBit bp bi = false then .error (.panic "freeing free block")
  else .ok (dv.logWrite (BBLOCK b dv.sb) (clearBit bp bi))

/-- The image after block `b` was taken. -/
def Image.take (img : Image) (b : Nat) : Image :=
  { img with used := Function.update img.used b true, data := Function.update img.data b (zeroed (img.data b)) }

/-- The image after block `b` was given back. -/
def Image.drop (img : Image) (b : Nat) : Image := { img with used := Function.update img.used b false }

variable {sb : Superblock} {dv : Dev} {img : Image}

theorem zeroed_byte (b : Block) {o : Nat} (inside : o < BSIZE) : zeroed b o = 0 := by
  rw [zeroed, blit, if_pos (by omega)]

theorem getWord_zeroed (b : Block) {o : Nat} (inside : o + 4 ≤ BSIZE) : getWord (zeroed b) o = 0 := by
  simp only [getWord]
  rw [zeroed_byte b (by omega), zeroed_byte b (by omega), zeroed_byte b (by omega), zeroed_byte b (by omega)]
  rfl

/-- Inside one block of the bitmap the bits are those of consecutive blocks. -/
theorem used_eq (shows_ : Shows sb dv img) {b : Nat} (aligned : b % BPB = 0) (bi : Nat) (short : bi < BPB) (inside : b + bi < sb.size) :
    img.used (b + bi) = getBit (dv.bread (BBLOCK b sb)) bi ∧ BBLOCK (b + bi) sb = BBLOCK b sb ∧ (b + bi) % BPB = bi := by
  have block : BBLOCK (b + bi) sb = BBLOCK b sb := by
    simp only [BBLOCK, BPB] at *
    omega
  have rest : (b + bi) % BPB = bi := by
    simp only [BPB] at *
    omega
  refine ⟨?_, block, rest⟩
  rw [← shows_.used _ inside, Dev.used, shows_.copy, block, rest]

theorem ballocLoop_some (shows_ : Shows sb dv img) {n b b' bi : Nat} (aligned : b % BPB = 0)
    (found : ballocLoop dv n b = some (b', bi)) :
    b' % BPB = 0 ∧ bi < BPB ∧ b' + bi < sb.size ∧ img.used (b' + bi) = false := by
  induction n generalizing b with
  | zero => cases found
  | succ n ih =>
    simp only [ballocLoop, shows_.copy] at found
    split at found
    · rename_i k isFirst
      cases found
      obtain ⟨inside, clear, _⟩ := first_some isFirst
      have here := used_eq shows_ aligned bi (by omega) (by omega)
      refine ⟨aligned, by omega, by omega, ?_⟩
      rw [here.1]
      simpa using clear
    · apply ih _ found
      simp only [BPB] at *
      omega

theorem ballocLoop_none (shows_ : Shows sb dv img) {n b : Nat} (aligned : b % BPB = 0) (missing : ballocLoop dv n b = none) :
    ∀ c, b ≤ c → c < b + n * BPB → c < sb.size → img.used c = true := by
  induction n generalizing b with
  | zero =>
    intro c low high
    omega
  | succ n ih =>
    simp only [ballocLoop, shows_.copy] at missing
    split at missing
    · cases missing
    · rename_i noneHere
      intro c low high inside
      by_cases here : c < b + BPB
      · have passed := first_none noneHere (c - b) (by omega)
        have bit := (used_eq shows_ aligned (c - b) (by omega) (by omega)).1
        rw [show b + (c - b) = c by omega] at bit
        rw [bit]
        simpa using passed
      · apply ih _ missing c (by omega) _ inside
        · simp only [BPB] at *
          omega
        · rw [Nat.add_mul, Nat.one_mul] at high
          omega

/-- `balloc` takes a block that is not marked, or finds that all are marked. -/
theorem balloc_cases (shows_ : Shows sb dv img) (bits : ∀ b < sb.size, img.used b = false → sb.nmeta ≤ b) :
    (∃ b dv', balloc dv = .ok (b, dv') ∧ b < sb.size ∧ img.used b = false ∧ Shows sb dv' (img.take b)) ∨
      balloc dv = .error (.panic "balloc: out of blocks") ∧ ∀ b < sb.size, img.used b = true := by
  rw [balloc]
  split
  · rename_i missing
    right
    refine ⟨rfl, ?_⟩
    intro b inside
    have all := ballocLoop_none shows_ (Nat.zero_mod _) missing b (Nat.zero_le b)
    rw [shows_.copy] at all
    apply all _ inside
    simp only [BPB]
    omega
  · rename_i b bi found
    left
    obtain ⟨aligned, short, inside, clear⟩ := ballocLoop_some shows_ (Nat.zero_mod _) found
    obtain ⟨_, block, rest⟩ := used_eq shows_ aligned bi short inside
    refine ⟨_, _, rfl, inside, clear, ?_⟩
    rw [shows_.copy, ← block]
    have marked := shows_.writeBit inside (x := setBit (dv.bread (BBLOCK (b + bi) sb)) bi) (v := true) (by
      intro j
      rw [getBit_setBit, rest])
    have isData := bits _ inside clear
    have filled := marked.writeData isData (zeroed (img.data (b + bi)))
    have contents := marked.data _ isData
    simp only [bzero, contents]
    exact filled

/-- `bfree` of a marked block succeeds. -/
theorem bfree_ok (shows_ : Shows sb dv img) {b : Nat} (inside : b < sb.size) (marked : img.used b = true) :
    ∃ dv', bfree dv b = .ok dv' ∧ Shows sb dv' (img.drop b) := by
  have bit : getBit (dv.bread (BBLOCK b sb)) (b % BPB) = true := by
    rw [← marked, ← shows_.used b inside, Dev.used, shows_.copy]
  have reread : ({ dv with sb := sb } : Dev) = dv := by
    rw [← shows_.copy]
  refine ⟨dv.logWrite (BBLOCK b sb) (clearBit (dv.bread (BBLOCK b sb)) (b % BPB)), ?_, ?_⟩
  · simp only [bfree, shows_.superblock, reread, bit]
    rfl
  · apply shows_.writeBit inside
    intro j
    rw [getBit_clearBit]

end Xv6.Fs
