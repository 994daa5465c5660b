import Xv6.Vm.Grow
import Xv6.Mem.QueueHolds

/-!
# Shrinking an address space

What `deallocuvm` does on the process's own table, for a range whose pages are all
resident or unmapped, and for one whose pages are all paged out or unmapped. The test for
the record of a resident page panics whether the record was found or not, and the branch
for a paged-out page returns from the function: only a range without any page is handled
as it should be.
-/

namespace Xv6
open Fallible

/-- The page at `a` is in memory. -/
def PgDir.present (d : PgDir) (a : Nat) : Bool :=
  match walkpgdir a d with
  | none => false
  | some e => e.p

/-- The page at `a` is in a swap file. -/
def PgDir.paged (d : PgDir) (a : Nat) : Bool :=
  match walkpgdir a d with
  | none => false
  | some e => !e.p && e.pg

/-- The pages between two sizes. -/
def shrinkRange (oldsz newsz : Nat) : List Nat := pageRange (PGROUNDUP newsz) oldsz

/-- Sizes for which the loop counter of `deallocuvm` stays below `2 ^ 32`, also when it jumps over
a missing table. -/
def SHRINK_TOP : Nat := 0xFFC00000

section Loop

variable {d : PgDir} {t : SlotTable} {km : Kmem} {hi : Nat}

/-- A page that is mapped has a table, so it is not jumped over. -/
theorem not_jumped {a b : Nat} (low : a ≤ b) (below : a < 2 ^ 32) (missing : walkpgdir a d = none)
    (mapped : walkpgdir b d ≠ none) : (PDX a + 1) * 0x400000 ≤ b := by
  by_contra under
  have sameTable : PDX b = PDX a := by
    simp only [PDX] at *
    omega
  apply mapped
  rw [walkpgdir] at missing ⊢
  rw [sameTable]
  cases table : d.pde (PDX a) with
  | none => rfl
  | some f =>
    rw [table] at missing
    cases missing

/-- Nothing is done for a range without pages. -/
theorem deallocLoop_skips (top : hi ≤ SHRINK_TOP) (fuel : Nat) :
    ∀ a, a % PGSIZE = 0 → (∀ b, a ≤ b → b < hi → b % PGSIZE = 0 → d.present b = false ∧ d.paged b = false) →
      deallocLoop true hi fuel a d t km = .ok (d, t, km) := by
  induction fuel with
  | zero => exact fun _ _ _ => rfl
  | succ fuel ih =>
    intro a aligned empty
    rw [deallocLoop]
    by_cases done : hi ≤ a
    · rw [if_pos done]
    · rw [if_neg done]
      obtain ⟨absent, kept⟩ := empty a (Nat.le_refl _) (by omega) aligned
      have next : a ≤ (PDX a + 1) * 0x400000 ∧ (PDX a + 1) * 0x400000 % PGSIZE = 0 := by
        simp only [PDX, PGSIZE, SHRINK_TOP] at *
        omega
      cases found : walkpgdir a d with
      | none => exact ih _ next.2 fun b low => empty b (by omega)
      | some e =>
        rw [PgDir.present, found] at absent
        rw [PgDir.paged, found] at kept
        dsimp only at absent kept ⊢
        rw [absent] at kept ⊢
        rw [Bool.not_false, Bool.true_and] at kept
        rw [kept, if_neg (by decide), if_neg (by decide)]
        apply ih
        · simp only [PGSIZE] at *
          omega
        · exact fun b low => empty b (by omega)

/-- A resident page makes the loop panic. -/
theorem deallocLoop_panics (t : SlotTable) (km : Kmem) (top : hi ≤ SHRINK_TOP) {b : Nat} (page : b % PGSIZE = 0) (high : b < hi) (resident : d.present b = true)
    (fuel : Nat) :
    ∀ a, a % PGSIZE = 0 → a ≤ b → hi ≤ a + fuel * PGSIZE →
      (∀ x, a ≤ x → x < hi → x % PGSIZE = 0 → d.paged x = false) →
      ∃ msg, deallocLoop true hi fuel a d t km = .error (.panic msg) := by
  induction fuel with
  | zero =>
    intro a _ low enough
    omega
  | succ fuel ih =>
    intro a aligned low enough kept
    rw [deallocLoop, if_neg (by omega)]
    have here := kept a (Nat.le_refl _) (by omega) aligned
    cases found : walkpgdir a d with
    | none =>
      have mapped : walkpgdir b d ≠ none := by
        intro missing
        rw [PgDir.present, missing] at resident
        cases resident
      have jump := not_jumped low (by simp only [SHRINK_TOP] at top; omega) found mapped
      apply ih
      · simp only [PGSIZE]
        omega
      · exact jump
      · simp only [PGSIZE, PDX, SHRINK_TOP] at *
        omega
      · intro x lowX
        apply kept x
        simp only [PDX, SHRINK_TOP] at *
        omega
    | some e =>
      dsimp only
      cases isPresent : e.p with
      | true =>
        rw [if_pos rfl]
        split
        · exact ⟨_, rfl⟩
        · exact ⟨_, rfl⟩
      | false =>
        rw [PgDir.paged, found] at here
        dsimp only at here
        rw [isPresent, Bool.not_false, Bool.true_and] at here
        rw [here, if_neg (by decide), if_neg (by decide)]
        have other : a ≠ b := by
          rintro rfl
          rw [PgDir.present, found] at resident
          dsimp only at resident
          rw [isPresent] at resident
          cases resident
        apply ih
        · simp only [PGSIZE] at *
          omega
        · simp only [PGSIZE] at *
          omega
        · simp only [PGSIZE] at *
          omega
        · intro x lowX
          exact kept x (by omega)

end Loop

section Shrink

variable {c c' : Ctx} {oldsz newsz : Nat}

/-- A range is empty, or it has a page that satisfies the test. -/
theorem mem_shrinkRange {a : Nat} : a ∈ shrinkRange oldsz newsz ↔ PGROUNDUP newsz ≤ a ∧ a < oldsz ∧ a % PGSIZE = 0 := by
  rw [shrinkRange, mem_pageRange]
  have aligned := PGROUNDUP_mod newsz
  constructor
  · rintro ⟨k, rfl, below⟩
    simp only [PGSIZE] at *
    omega
  · rintro ⟨low, below, page⟩
    refine ⟨(a - PGROUNDUP newsz) / PGSIZE, ?_, below⟩
    simp only [PGSIZE] at *
    omega

/-- `deallocuvm` with enough turns of its loop. -/
theorem shrink_fuel (newsz oldsz : Nat) : oldsz ≤ PGROUNDUP newsz + ((oldsz - PGROUNDUP newsz) / PGSIZE + 1) * PGSIZE := by
  simp only [PGSIZE]
  omega

/-- What the process has after the loop of `deallocuvm`. -/
theorem dealloc_own (shrinks : newsz < oldsz) : c.dealloc .cur oldsz newsz =
    (deallocLoop true oldsz ((oldsz - PGROUNDUP newsz) / PGSIZE + 1) (PGROUNDUP newsz) c.cur.pgdir c.cur.vtab c.km >>=
      fun (d, t, km) => .ok (newsz, { c with km := km, cur := { c.cur with pgdir := d, vtab := t } })) := by
  rw [Ctx.dealloc, deallocuvm, if_neg (by omega)]
  show (deallocLoop true oldsz _ _ c.cur.pgdir c.cur.vtab c.km >>= _) >>= _ = _
  cases deallocLoop true oldsz ((oldsz - PGROUNDUP newsz) / PGSIZE + 1) (PGROUNDUP newsz) c.cur.pgdir c.cur.vtab c.km with
  | error e => rfl
  | ok r => rfl

/-- A range without pages is left alone. -/
theorem dealloc_empty (shrinks : newsz < oldsz) (top : oldsz ≤ SHRINK_TOP)
    (empty : ∀ a ∈ shrinkRange oldsz newsz, c.cur.pgdir.present a = false ∧ c.cur.pgdir.paged a = false) :
    c.dealloc .cur oldsz newsz = .ok (newsz, c) := by
  rw [dealloc_own shrinks, deallocLoop_skips top _ _ (PGROUNDUP_mod newsz)
    fun b low high page => empty b (mem_shrinkRange.2 ⟨low, high, page⟩), ok_bind]

/-- The table is never changed. -/
theorem dealloc_keeps {r : Nat} (shrinks : newsz < oldsz) (call : c.dealloc .cur oldsz newsz = .ok (r, c')) :
    c'.cur.pgdir = c.cur.pgdir := by
  rw [dealloc_own shrinks, bind_ok] at call
  obtain ⟨⟨d, t, km⟩, loop, rest⟩ := call
  cases rest
  exact (deallocLoop_own loop).1

/-! ## Resident pages -/

/-- The resident pages of the range, lowest first. -/
def Ctx.residents (c : Ctx) (oldsz newsz : Nat) : List Nat := (shrinkRange oldsz newsz).filter fun a => c.cur.pgdir.present a

/-- Each page of a list is released with `kfree`. -/
def freeFrames : List Nat → Kmem → Res Kmem
  | [], km => .ok km
  | f :: fs, km => do
    let km ← kfree (P2V (f * PGSIZE)) km
    freeFrames fs km

/-- The resident pages of the range are released. -/
structure Released (oldsz newsz : Nat) (c c' : Ctx) : Prop where
  unmapped : ∀ a ∈ shrinkRange oldsz newsz, c'.cur.pgdir.present a = false ∧ c'.cur.pgdir.paged a = false
  outside : ∀ a, a / PGSIZE * PGSIZE ∉ shrinkRange oldsz newsz → walkpgdir a c'.cur.pgdir = walkpgdir a c.cur.pgdir
  frames : freeFrames ((c.residents oldsz newsz).map fun a => (c.cur.pgdir.pte (a / PGSIZE)).addr) c.km = .ok c'.km
  queue : ∀ vs, c.cur.mq.Holds vs → c'.cur.mq.Holds (vs.filter (· ∉ c.residents oldsz newsz))
  count : c'.cur.mq.num + (c.residents oldsz newsz).length = c.cur.mq.num

/-- Shrinking over pages that are resident or unmapped: `deallocuvm` releases them exactly when
there is none. -/
theorem shrink_resident_iff (shrinks : newsz < oldsz) (top : oldsz ≤ SHRINK_TOP)
    (domain : ∀ a ∈ shrinkRange oldsz newsz, c.cur.pgdir.paged a = false) :
    (∃ c', c.dealloc .cur oldsz newsz = .ok (newsz, c') ∧ Released oldsz newsz c c') ↔
      ∀ a ∈ shrinkRange oldsz newsz, c.cur.pgdir.present a = false := by
  constructor
  · rintro ⟨c', call, _⟩ a inRange
    rw [Bool.eq_false_iff]
    intro resident
    obtain ⟨low, high, page⟩ := mem_shrinkRange.1 inRange
    obtain ⟨msg, panics⟩ := deallocLoop_panics c.cur.vtab c.km top page high resident _ _ (PGROUNDUP_mod newsz) low
      (shrink_fuel newsz oldsz) fun x lowX highX pageX => domain x (mem_shrinkRange.2 ⟨lowX, highX, pageX⟩)
    rw [dealloc_own shrinks, panics] at call
    cases call
  · intro absent
    have none_ : c.residents oldsz newsz = [] := by
      rw [Ctx.residents, List.filter_eq_nil_iff]
      intro a inRange
      rw [absent a inRange]
      decide
    have empty : ∀ a ∈ shrinkRange oldsz newsz, c.cur.pgdir.present a = false ∧ c.cur.pgdir.paged a = false :=
      fun a inRange => ⟨absent a inRange, domain a inRange⟩
    refine ⟨c, dealloc_empty shrinks top empty, empty, fun _ _ => rfl, ?_, ?_, ?_⟩
    · rw [none_]
      rfl
    · intro vs holds
      rw [none_]
      simpa using holds
    · rw [none_]
      rfl

/-- A process with an empty address space. -/
def blankCtx : Ctx where
  km := Kmem.bss 0 0 fun _ _ => 0
  cur := {}

theorem shrink_resident_blank :
    ∃ c', blankCtx.dealloc .cur 0x3000 0x1000 = .ok (0x1000, c') ∧ Released 0x3000 0x1000 blankCtx c' :=
  (shrink_resident_iff (by decide) (by decide) (by decide)).2 (by decide)

/-- A process with one resident page at 0x1000 and its record. -/
def oneResident (mq : MemQueue) : Ctx where
  km := Kmem.bss 0 0 fun _ _ => 0
  cur := {
    sz := 0x2000
    mq := mq
    pgdir := { frame := 8, pde := fun i => if i = 0 then some 9 else none, pte := fun v => if v = 1 then Pte.fresh 10 else {} } }

/-- Giving back one resident page panics. -/
theorem shrink_resident_panics : ∃ mq : MemQueue, mq.Holds [0x1000] ∧
    (oneResident mq).cur.pgdir.present 0x1000 = true ∧
    (oneResident mq).dealloc .cur 0x2000 0x1000 = .error (.panic "Should have a slot.") := by
  have empty : ({ pages := List.range NUM_MEM_PAGES } : MemQueue).Holds [] := .fresh rfl
  obtain ⟨mq, _, holds⟩ := empty.add (show 0x1000 ≠ SLOT_USABLE by decide) (by decide)
  exact ⟨mq, holds, rfl, rfl⟩

/-! ## Paged-out pages -/

/-- The swap slots of the paged-out pages of the range are usable, and no entry of the range is
left that a fault would bring a page in for. -/
structure SlotsReleased (oldsz newsz : Nat) (c c' : Ctx) : Prop where
  slots : ∀ a ∈ shrinkRange oldsz newsz, c.cur.pgdir.paged a = true →
    ∀ j < c.cur.vtab.slots, c.cur.vtab.vaddr j = a → c'.cur.vtab.vaddr j = SLOT_USABLE
  cleared : ∀ a ∈ shrinkRange oldsz newsz, c'.cur.pgdir.present a = false ∧ c'.cur.pgdir.paged a = false

/-- Shrinking over pages that are paged out or unmapped: `deallocuvm` releases them exactly when
there is none. -/
theorem shrink_paged_iff (shrinks : newsz < oldsz) (top : oldsz ≤ SHRINK_TOP)
    (domain : ∀ a ∈ shrinkRange oldsz newsz, c.cur.pgdir.present a = false) :
    (∃ c', c.dealloc .cur oldsz newsz = .ok (newsz, c') ∧ SlotsReleased oldsz newsz c c') ↔
      ∀ a ∈ shrinkRange oldsz newsz, c.cur.pgdir.paged a = false := by
  constructor
  · rintro ⟨c', call, released⟩ a inRange
    rw [← dealloc_keeps shrinks call]
    exact (released.cleared a inRange).2
  · intro kept
    have empty : ∀ a ∈ shrinkRange oldsz newsz, c.cur.pgdir.present a = false ∧ c.cur.pgdir.paged a = false :=
      fun a inRange => ⟨domain a inRange, kept a inRange⟩
    refine ⟨c, dealloc_empty shrinks top empty, ?_, empty⟩
    intro a inRange paged
    rw [kept a inRange] at paged
    cases paged

theorem shrink_paged_blank :
    ∃ c', blankCtx.dealloc .cur 0x3000 0x1000 = .ok (0x1000, c') ∧ SlotsReleased 0x3000 0x1000 blankCtx c' :=
  (shrink_paged_iff (by decide) (by decide) (by decide)).2 (by decide)

/-- A process whose pages at 0x1000 and 0x2000 are in slots 0 and 1. -/
def twoPaged : Ctx where
  km := Kmem.bss 0 0 fun _ _ => 0
  cur := {
    sz := 0x3000
    vtab := { pages := [11], vaddr := fun j => if j = 0 then 0x1000 else if j = 1 then 0x2000 else SLOT_USABLE }
    pgdir := {
      frame := 8, pde := fun i => if i = 0 then some 9 else none
      pte := fun v => if v = 1 ∨ v = 2 then Pte.out else {} } }

/-- Giving back two paged-out pages: the call returns after the first slot, and both entries stay. -/
theorem shrink_paged_left : ∃ c', twoPaged.dealloc .cur 0x3000 0x1000 = .ok (0x1000, c') ∧
    c'.cur.vtab.vaddr 0 = SLOT_USABLE ∧ c'.cur.vtab.vaddr 1 = 0x2000 ∧
    c'.cur.pgdir.paged 0x1000 = true ∧ c'.cur.pgdir.paged 0x2000 = true :=
  ⟨_, rfl, rfl, rfl, rfl, rfl⟩

end Shrink

end Xv6
