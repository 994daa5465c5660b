import Xv6.Param
import Mathlib.Data.UInt

/-!
# The scan of the multiprocessor table

`mpinit` looks for the configuration table that the firmware left in memory and goes
through its entries. Memory is a byte for every kernel address.
-/

namespace Xv6.Mp

def NCPU : Nat := 8

/-- `sizeof(struct mp)` and `sizeof(struct mpconf)`. -/
def MPSIZE : Nat := 16

def CONFSIZE : Nat := 44

section Search

variable (mem : Nat → UInt8)

/-- A little-endian number of `n` bytes at `a`. -/
def field (a : Nat) : Nat → Nat
  | 0 => 0
  | n + 1 => (mem a).toNat + 256 * field (add32 a 1) n

/-- `sum`. -/
def sum (addr len : Nat) : UInt8 := ((List.range len).map fun i => mem (add32 addr i)).sum

/-- `memcmp(p, s, 4) == 0`. -/
def signed (p : Nat) (s : List UInt8) : Bool := (List.range 4).map (fun i => mem (add32 p i)) = s

/-- `mpsearch1`, whose lengths are multiples of 16: `"_MP_"` and the checksum. -/
def mpsearch1 (a len : Nat) : Option Nat :=
  ((List.range (len / MPSIZE)).map fun i => add32 (P2V a) (i * MPSIZE)).find? fun p =>
    signed mem p [95, 77, 80, 95] && sum mem p MPSIZE = 0

def mpsearch : Option Nat :=
  let bda := P2V 0x400
  let p := field mem (bda + 0x0E) 2 * 16
  let near := if p ≠ 0 then mpsearch1 mem p 1024 else mpsearch1 mem (sub32 (field mem (bda + 0x13) 2 * 1024) 1024) 1024
  near <|> mpsearch1 mem 0xF0000 0x10000

/-- `mpconfig`: the address of a table with `"PCMP"`, a version and a checksum that it accepts. -/
def mpconfig : Option Nat := do
  let mp ← mpsearch mem
  let physaddr := field mem (add32 mp 4) 4
  if physaddr = 0 then none
  else
    let conf := P2V physaddr
    if !signed mem conf [80, 67, 77, 80] then none
    else if mem (add32 conf 6) ≠ 1 ∧ mem (add32 conf 6) ≠ 4 then none
    else if sum mem conf (field mem (add32 conf 4) 2) ≠ 0 then none
    else some conf

end Search

/-- What the scan fills in. -/
structure Found where
  ncpu : Nat := 0
  apicid : Nat → UInt8 := fun _ => 0
  ioapicid : UInt8 := 0
  ismp : Bool := true

/-- One round of the loop of `mpinit`: `MPPROC` is 0, `MPIOAPIC` 2, and `MPBUS`, `MPIOINTR` and `MPLINTR` are
1, 3 and 4. The `break` of the other types leaves the `switch` only. -/
def round (mem : Nat → UInt8) (p : Nat) (s : Found) : Nat × Found :=
  match mem p with
  | 0 => (add32 p 20,
      if s.ncpu < NCPU then
        { s with apicid := Function.update s.apicid s.ncpu (mem (add32 p 1)), ncpu := s.ncpu + 1 }
      else s)
  | 2 => (add32 p 8, { s with ioapicid := mem (add32 p 1) })
  | 1 => (add32 p 8, s)
  | 3 => (add32 p 8, s)
  | 4 => (add32 p 8, s)
  | _ => (p, { s with ismp := false })

/-- The loop of `mpinit`, with a bound on its rounds; also where it stands at the end. -/
def scan (mem : Nat → UInt8) (e : Nat) : Nat → Nat → Found → Option (Nat × Found)
  | 0, _, _ => none
  | fuel + 1, p, s => if p < e then scan mem e fuel (round mem p s).1 (round mem p s).2 else some (p, s)

/-- The first entry of the table at `conf`, and its end. -/
def first (conf : Nat) : Nat := add32 conf CONFSIZE

def tableEnd (mem : Nat → UInt8) (conf : Nat) : Nat := add32 conf (field mem (add32 conf 4) 2)

/-- `mpinit` without the interrupt mode register it writes last. -/
def mpinit (mem : Nat → UInt8) (fuel : Nat) : Option (Res (Nat × Found)) :=
  match mpconfig mem with
  | none => some (.error (.panic "Expect to run on an SMP"))
  | some conf =>
    (scan mem (tableEnd mem conf) fuel (first conf) {}).map fun r =>
      if r.2.ismp then .ok r else .error (.panic "Didn't find a suitable machine")

/-! ## The entries -/

/-- The size of an entry of a type that is known. -/
def entrySize (t : UInt8) : Option Nat := if t = 0 then some 20 else if t ≤ 4 then some 8 else none

/-- Where the `i`-th entry is, by the sizes of those before it. -/
def entryAt (mem : Nat → UInt8) (p : Nat) : Nat → Nat
  | 0 => p
  | i + 1 => entryAt mem (add32 p ((entrySize (mem p)).getD 0)) i

/-- **A table that can be scanned**: entries of types that are known lead to its end. -/
def Scannable (mem : Nat → UInt8) (conf : Nat) : Prop :=
  ∃ n, tableEnd mem conf ≤ entryAt mem (first conf) n ∧ ∀ i < n, mem (entryAt mem (first conf) i) ≤ 4

/-- What the loop should end with: all entries consumed, or a report. -/
def Ends (mem : Nat → UInt8) (conf : Nat) : Res (Nat × Found) → Prop
  | .ok (p, s) => tableEnd mem conf ≤ p ∧ s.ncpu ≤ NCPU
  | .error e => e = .panic "Didn't find a suitable machine"

section Scan

variable {mem : Nat → UInt8} {e p conf fuel : Nat} {s : Found}

theorem known_cases {t : UInt8} (known : t ≤ 4) : t = 0 ∨ t = 1 ∨ t = 2 ∨ t = 3 ∨ t = 4 := by
  rw [UInt8.le_iff_toNat_le] at known
  simp only [← UInt8.toNat_inj]
  change t.toNat ≤ 4 at known
  change t.toNat = 0 ∨ t.toNat = 1 ∨ t.toNat = 2 ∨ t.toNat = 3 ∨ t.toNat = 4
  omega

/-- An entry of a known type is stepped over. -/
theorem round_next (known : mem p ≤ 4) : (round mem p s).1 = entryAt mem p 1 := by
  unfold round entryAt entryAt
  rcases known_cases known with is | is | is | is | is <;> rw [is] <;> rfl

theorem round_found (known : mem p ≤ 4) (few : s.ncpu ≤ NCPU) :
    (round mem p s).2.ismp = s.ismp ∧ (round mem p s).2.ncpu ≤ NCPU := by
  unfold round
  rcases known_cases known with is | is | is | is | is <;> rw [is]
  · show (if s.ncpu < NCPU then _ else s).ismp = s.ismp ∧ (if s.ncpu < NCPU then _ else s).ncpu ≤ NCPU
    split
    · rename_i room
      exact ⟨rfl, room⟩
    · exact ⟨rfl, few⟩
  all_goals exact ⟨rfl, few⟩

/-- **An unknown type is not stepped over.** -/
theorem round_unknown (unknown : ¬ mem p ≤ 4) : (round mem p s).1 = p := by
  unfold round
  split
  case h_6 => rfl
  all_goals
    rename_i is
    rw [is] at unknown
    exact absurd (by decide) unknown

/-- Known entries up to the end are scanned. -/
theorem scan_known (n : Nat) : ∀ {p : Nat} {s : Found}, e ≤ entryAt mem p n → (∀ i < n, mem (entryAt mem p i) ≤ 4) →
    s.ismp = true → s.ncpu ≤ NCPU → ∃ r, scan mem e (n + 1) p s = some r ∧ e ≤ r.1 ∧ r.2.ismp = true ∧ r.2.ncpu ≤ NCPU := by
  induction n with
  | zero =>
    intro p s ends _ ismp few
    exact ⟨(p, s), if_neg (Nat.not_lt.2 ends), ends, ismp, few⟩
  | succ n ih =>
    intro p s ends known ismp few
    rw [scan]
    split
    · have here : mem p ≤ 4 := known 0 (Nat.succ_pos n)
      obtain ⟨same, fewer⟩ := round_found here few
      rw [round_next here]
      exact ih ends (fun i less => known (i + 1) (Nat.succ_lt_succ less)) (same.trans ismp) fewer
    · rename_i past
      exact ⟨(p, s), rfl, Nat.not_lt.1 past, ismp, few⟩

/-- A scan that ends has gone over known entries only. -/
theorem scan_some : ∀ {fuel p : Nat} {s : Found} {r : Nat × Found}, scan mem e fuel p s = some r →
    ∃ n, e ≤ entryAt mem p n ∧ ∀ i < n, mem (entryAt mem p i) ≤ 4 := by
  intro fuel
  induction fuel with
  | zero =>
    intro p s r ends
    cases ends
  | succ fuel ih =>
    intro p s r ends
    rw [scan] at ends
    split at ends
    · by_cases known : mem p ≤ 4
      · rw [round_next known] at ends
        obtain ⟨n, past, all⟩ := ih ends
        refine ⟨n + 1, past, fun i less => ?_⟩
        cases i with
        | zero => exact known
        | succ i => exact all i (Nat.lt_of_succ_lt_succ less)
      · -- the loop comes back to the same place, so what it ends with is said by the rest of the run
        rw [round_unknown known] at ends
        exact ih ends
    · rename_i past
      exact ⟨0, Nat.not_lt.1 past, fun i less => absurd less (Nat.not_lt_zero i)⟩

/-- Each known entry moves on by its size, so the distance to the end goes down. -/
theorem known_to_end (inside : e + 20 ≤ 2 ^ 32) (d : Nat) : ∀ {p : Nat}, e ≤ p + d →
    (∀ i, (∀ j ≤ i, entryAt mem p j < e) → mem (entryAt mem p i) ≤ 4) →
    ∃ n, e ≤ entryAt mem p n ∧ ∀ i < n, mem (entryAt mem p i) ≤ 4 := by
  induction d with
  | zero =>
    intro p near _
    exact ⟨0, near, fun i less => absurd less (Nat.not_lt_zero i)⟩
  | succ d ih =>
    intro p near reached
    by_cases past : e ≤ p
    · exact ⟨0, past, fun i less => absurd less (Nat.not_lt_zero i)⟩
    have known : mem p ≤ 4 := reached 0 fun j le => by
      rw [Nat.le_zero.1 le]
      exact Nat.lt_of_not_le past
    have moves : p < entryAt mem p 1 := by
      show p < add32 p ((entrySize (mem p)).getD 0)
      rcases known_cases known with is | is | is | is | is <;> rw [is] <;>
        simp only [entrySize, add32] <;> simp <;> omega
    obtain ⟨n, ends, all⟩ := ih (p := entryAt mem p 1) (by omega) fun i below => by
      refine reached (i + 1) fun j le => ?_
      cases j with
      | zero => exact Nat.lt_of_not_le past
      | succ j => exact below j (Nat.le_of_succ_le_succ le)
    refine ⟨n + 1, ends, fun i less => ?_⟩
    cases i with
    | zero => exact known
    | succ i => exact all i (Nat.lt_of_succ_lt_succ less)

/-- For a table whose pointers do not wrap, it is enough that every entry reached has a known type. -/
theorem scannable_iff (inside : tableEnd mem conf + 20 ≤ 2 ^ 32) :
    Scannable mem conf ↔ ∀ i, (∀ j ≤ i, entryAt mem (first conf) j < tableEnd mem conf) → mem (entryAt mem (first conf) i) ≤ 4 := by
  constructor
  · rintro ⟨n, past, known⟩ i below
    refine known i (Nat.lt_of_not_le fun later => ?_)
    exact Nat.not_le_of_lt (below n later) past
  · exact known_to_end inside _ (Nat.le_add_left ..)

/-- **The scan of the table**: for every table that `mpconfig` accepts, `mpinit` ends as it should exactly when
entries of known types lead to the end of the table. -/
theorem mpinit_ends_iff (accepted : mpconfig mem = some conf) :
    (∃ fuel r, mpinit mem fuel = some r ∧ Ends mem conf r) ↔ Scannable mem conf := by
  constructor
  · rintro ⟨fuel, r, run, _⟩
    unfold mpinit at run
    rw [accepted] at run
    obtain ⟨_, ends, _⟩ := Option.map_eq_some_iff.1 run
    exact scan_some ends
  · rintro ⟨n, past, known⟩
    obtain ⟨r, run, consumed, ismp, few⟩ := scan_known n past known (s := {}) rfl (Nat.zero_le _)
    refine ⟨n + 1, .ok r, ?_, consumed, few⟩
    unfold mpinit
    rw [accepted]
    dsimp only
    rw [run, Option.map_some, if_pos ismp]

end Scan

/-- A memory with the given bytes, and 0 elsewhere. -/
def memOf (l : List (Nat × UInt8)) (a : Nat) : UInt8 := (l.lookup a).getD 0

/-- The floating pointer structure at 0x10000, found through the BIOS data area, points to a table at 0x20000. -/
def pointerBytes : List (Nat × UInt8) :=
  [(0x8000040F, 0x10), (0x80010000, 95), (0x80010001, 77), (0x80010002, 80), (0x80010003, 95), (0x80010006, 2), (0x8001000A, 163)]

/-- The header of a table of `len` bytes with a checksum. -/
def headerBytes (len checksum : UInt8) : List (Nat × UInt8) :=
  [(0x80020000, 80), (0x80020001, 67), (0x80020002, 77), (0x80020003, 80), (0x80020004, len), (0x80020006, 1), (0x80020007, checksum)]

/-- A table with one bus entry. -/
def busMem : Nat → UInt8 := memOf (pointerBytes ++ headerBytes 52 154 ++ [(0x8002002C, 1)])

/-- A table whose entry has type 5. -/
def oddMem : Nat → UInt8 := memOf (pointerBytes ++ headerBytes 45 157 ++ [(0x8002002C, 5)])

theorem mpinit_ends_iff_bus : ∃ fuel r, mpinit busMem fuel = some r ∧ Ends busMem 0x80020000 r :=
  (@mpinit_ends_iff busMem 0x80020000 (by decide +kernel)).2 ⟨1, by decide +kernel, by decide +kernel⟩

/-- The entry of type 5 is never left. -/
theorem mpinit_loops : mpconfig oddMem = some 0x80020000 ∧ ∀ fuel, mpinit oddMem fuel = none := by
  have accepted : mpconfig oddMem = some 0x80020000 := by decide +kernel
  refine ⟨accepted, fun fuel => ?_⟩
  have stuck : ∀ fuel s, scan oddMem 0x8002002D fuel 0x8002002C s = none := by
    intro fuel
    induction fuel with
    | zero => exact fun s => rfl
    | succ fuel ih =>
      intro s
      rw [scan, if_pos (by decide), round_unknown (by decide +kernel)]
      exact ih _
  have ends : tableEnd oddMem 0x80020000 = 0x8002002D := by decide +kernel
  unfold mpinit
  rw [accepted]
  dsimp only
  rw [ends, show first 0x80020000 = 0x8002002C from rfl, stuck, Option.map_none]

end Xv6.Mp
