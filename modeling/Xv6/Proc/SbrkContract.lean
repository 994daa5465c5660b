import Xv6.Proc.BootExec
import Xv6.Vm.GrowFailed

/-!
# The contract of `sbrk`

`growproc` stores the new size, and `sys_sbrk` adds the argument to it once more. The
contract (the break moves by `n` and the heap is mapped, or the call fails and changes
nothing) therefore holds for calls that are refused before they start, and for `n = 0`
on a heap without holes, and for no other call.
-/

namespace Xv6

open Fallible Runs

/-- What a caller of `sbrk(n)` relies on, when it has returned `r`. -/
structure SbrkContract (c : Ctx) (n r : Int) (c' : Ctx) : Prop where
  success : r ≠ -1 → r = c.cur.sz ∧ (c'.cur.sz : Int) = c.cur.sz + n ∧
    ∀ v, 1 ≤ v → v * PGSIZE < PGROUNDUP c'.cur.sz → (c'.cur.pgdir.pte v).Mapped
  failure : r = -1 → c'.cur.sz = c.cur.sz ∧ c'.cur.pgdir = c.cur.pgdir ∧ c'.cur.mq = c.cur.mq ∧
    c'.km.fpgn = c.km.fpgn

/-- Every heap page is present or paged out. -/
def Proc.HeapMapped (p : Proc) : Prop := ∀ v, 1 ≤ v → v * PGSIZE < PGROUNDUP p.sz → (p.pgdir.pte v).Mapped

/-- The calls that keep the contract: the new break is outside the process; or the break does not move; or the heap
would end at 0, which `growproc` takes for an error; or `stack_growing` is set and the heap is next to the stack. -/
def SbrkSafe (p : Proc) (n : Int) : Prop :=
  (p.sz + n < 0 ∨ (p.stackSpace : Int) < p.sz + n) ∨ (n = 0 ∧ p.HeapMapped) ∨ (n < 0 ∧ p.sz + n = 0) ∨
    (0 < n ∧ p.stackGrowing = true ∧ p.stackSpace < p.sz + PGSIZE)

section Contract

variable {c c' : Ctx} {n r : Int} {p : Proc}

theorem sz_add (layout : p.Layout) (low : -2 ^ 31 ≤ n) (high : n < 2 ^ 31) :
    (addInt32 p.sz n ≤ p.stackSpace → (addInt32 p.sz n : Int) = p.sz + n) ∧
      (p.stackSpace < addInt32 p.sz n ↔ p.sz + n < 0 ∨ (p.stackSpace : Int) < p.sz + n) := by
  have space := stackSpace_le layout
  have heap := layout.heap
  simp only [addInt32, PGSIZE, KERNBASE] at *
  constructor <;> omega

/-- With `stack_growing` clear, `allocuvm` refuses nothing that `growproc` lets through. -/
theorem growRefused_iff {newsz : Nat} (layout : p.Layout) (more : p.sz < newsz) (fits : newsz ≤ p.stackSpace) :
    growRefused p p.sz newsz ↔ p.stackGrowing = true ∧ p.stackSpace < p.sz + PGSIZE := by
  have space := stackSpace_le layout
  have stack := layout.stack
  have apart : sub32 p.stackSpace PGSIZE = p.stackSpace - PGSIZE := by
    simp only [sub32, PGSIZE, KERNBASE] at *
    omega
  unfold growRefused
  rw [apart]
  simp only [PGSIZE, KERNBASE] at *
  constructor
  · rintro (⟨growing, near⟩ | ⟨_, isTop, _⟩ | ⟨_, high⟩ | high)
    · exact ⟨growing, by omega⟩
    · omega
    · omega
    · omega
  · rintro ⟨growing, near⟩
    exact .inl ⟨growing, by omega⟩

/-- A call that refuses to start changes nothing. -/
theorem SbrkContract.refused (c : Ctx) (n : Int) : SbrkContract c n (-1) c :=
  ⟨fun isNot => absurd rfl isNot, fun _ => ⟨rfl, rfl, rfl, rfl⟩⟩

/-- After a change of the size by `n` the contract is broken, however `sys_sbrk` goes on: it adds `n` again, or it
returns -1. -/
theorem SbrkContract.moved {c1 : Ctx} (layout : c1.cur.Layout) (low : -2 ^ 31 ≤ n) (high : n < 2 ^ 31) (nonzero : n ≠ 0)
    (moved : (c1.cur.sz : Int) = c.cur.sz + n)
    (cases : (r = -1 ∧ c' = c1) ∨ (addInt32 c1.cur.sz n ≤ c1.cur.stackSpace ∧ r = c.cur.sz ∧
      c' = c1.resize (addInt32 c1.cur.sz n))) : ¬ SbrkContract c n r c' := by
  intro contract
  rcases cases with ⟨isError, rfl⟩ | ⟨fits, isSize, rfl⟩
  · have := (contract.failure isError).1
    omega
  · have again := (sz_add layout low high).1 fits
    have size := (contract.success (by omega)).2.1
    simp only [Ctx.resize] at size
    omega

/-- **The contract of one call.** -/
theorem SbrkContract.iff {kend kdata : Nat} (sane : c.Sane kend kdata 0) (low : -2 ^ 31 ≤ n) (high : n < 2 ^ 31)
    (call : sysSbrk n c = .ok (r, c')) : SbrkContract c n r c' ↔ SbrkSafe c.cur n := by
  have layout := sane.layout
  obtain ⟨sum, outside⟩ := sz_add layout low high
  obtain ⟨ok, c1, resized, result⟩ := sysSbrk_ok call
  have layout1 := resized.layout layout
  -- the call has failed, and gives back the state after `growproc`
  have failed : ok = false → r = -1 ∧ c' = c1 := by
    rintro rfl
    rcases result with ⟨_, isError, same⟩ | ⟨success, _⟩
    · exact ⟨isError, same⟩
    · cases success
  cases resized with
  | refused far =>
    obtain ⟨rfl, rfl⟩ := failed rfl
    exact iff_of_true (.refused _ n) (.inl (outside.1 far))
  | noGrowth fits pos alloc =>
    obtain ⟨rfl, rfl⟩ := failed rfl
    have value := sum fits
    rcases allocuvm_ok alloc with ⟨refused, _, rfl⟩ | ⟨_, less, _⟩ | ⟨accepted, _, top, _, loop⟩
    · have near := (growRefused_iff layout (by omega) fits).1 refused
      exact iff_of_true (.refused _ n) (.inr (.inr (.inr ⟨pos, near⟩)))
    · omega
    · refine iff_of_false (fun contract => ?_) ?_
      · obtain ⟨_, table, queue, _⟩ := contract.failure rfl
        rcases allocLoop_failed sane.growing top (by omega) loop with other | other
        · exact other queue
        · exact other table
      · rintro (far | ⟨zero, _⟩ | ⟨neg, _⟩ | ⟨_, near⟩)
        · exact absurd (outside.2 far) (by omega)
        · omega
        · omega
        · exact accepted ((growRefused_iff layout (by omega) fits).2 near)
  | @grown sz c2 fits pos alloc success =>
    have value := sum fits
    have accepted : ¬ growRefused c.cur c.cur.sz (addInt32 c.cur.sz n) := by
      rcases allocuvm_ok alloc with ⟨_, zero, _⟩ | ⟨accepted, _⟩ | ⟨accepted, _⟩
      · exact absurd zero success
      · exact accepted
      · exact accepted
    have size := (allocuvm_size alloc success).2
    refine iff_of_false (SbrkContract.moved layout1 low high (by omega) ?_ ?_) ?_
    · show (sz : Int) = c.cur.sz + n
      omega
    · exact result.imp And.right And.right
    · rintro (far | ⟨zero, _⟩ | ⟨neg, _⟩ | ⟨_, near⟩)
      · exact absurd (outside.2 far) (by omega)
      · omega
      · omega
      · exact accepted ((growRefused_iff layout (by omega) fits).2 near)
  | @emptied c2 fits neg dealloc =>
    obtain ⟨rfl, rfl⟩ := failed rfl
    have value := sum fits
    obtain ⟨t, rfl, zero, _⟩ := Ctx.dealloc_cur dealloc
    rw [if_neg (by omega)] at zero
    exact iff_of_true ⟨fun isNot => absurd rfl isNot, fun _ => ⟨rfl, rfl, rfl, rfl⟩⟩
      (.inr (.inr (.inl ⟨neg, by omega⟩)))
  | @shrunk sz c2 fits neg dealloc success =>
    have value := sum fits
    obtain ⟨t, rfl, size, _⟩ := Ctx.dealloc_cur dealloc
    rw [if_neg (by omega)] at size
    refine iff_of_false (SbrkContract.moved layout1 low high (by omega) ?_ ?_) ?_
    · show (sz : Int) = c.cur.sz + n
      omega
    · exact result.imp And.right And.right
    · rintro (far | ⟨zero, _⟩ | ⟨_, zero⟩ | ⟨pos, _⟩)
      · exact absurd (outside.2 far) (by omega)
      · omega
      · omega
      · omega
  | same fits zero =>
    subst zero
    have value := sum fits
    have unmoved : addInt32 c.cur.sz 0 = c.cur.sz := by omega
    rcases result with ⟨fails, _⟩ | ⟨_, _, isSize, rfl⟩
    · rcases fails with no | far
      · cases no
      · omega
    · rw [unmoved]
      constructor
      · intro contract
        exact .inr (.inl ⟨rfl, (contract.success (by omega)).2.2⟩)
      · rintro (far | ⟨_, mapped⟩ | ⟨neg, _⟩ | ⟨pos, _⟩)
        · exact absurd (outside.2 far) (by omega)
        · refine ⟨fun _ => ⟨isSize, ?_, mapped⟩, fun isError => by omega⟩
          show (c.cur.sz : Int) = c.cur.sz + 0
          omega
        · omega
        · omega

/-- **A heap of whole pages grows by one page**, when there is memory: the page is mapped, the break moves by two. -/
theorem sysSbrk_page {kend kdata lo m : Nat} {vs : List Nat} (sane : c.Sane kend kdata lo)
    (clear : c.cur.stackGrowing = false) (aligned : c.cur.sz % PGSIZE = 0)
    (fits : c.cur.sz + 2 * PGSIZE ≤ c.cur.stackSpace) (absent : (c.cur.pgdir.pte (c.cur.sz / PGSIZE)).p = false)
    (holds : c.cur.mq.Holds vs) (capacity : vs.length < MEM_CAPACITY) (room : Room (m + 1) c.cur.pgdir c.km) :
    ∃ c', sysSbrk 0x1000 c = .ok (c.cur.sz, c') ∧ c'.cur.sz = c.cur.sz + 2 * PGSIZE ∧
      (∃ f, c'.cur.pgdir.pte (c.cur.sz / PGSIZE) = Pte.fresh f) ∧
      ∀ v, v ≠ c.cur.sz / PGSIZE → c'.cur.pgdir.pte v = c.cur.pgdir.pte v := by
  have accepted : ¬ growRefused c.cur c.cur.sz (c.cur.sz + PGSIZE) := by
    rw [growRefused_iff sane.layout (by simp only [PGSIZE]; omega) (by omega)]
    rintro ⟨growing, _⟩
    exact Bool.false_ne_true (clear.symm.trans growing)
  have round : PGROUNDUP c.cur.sz = c.cur.sz := by
    simp only [PGROUNDUP, PGSIZE] at *
    omega
  have one : pageRange (PGROUNDUP c.cur.sz) (c.cur.sz + PGSIZE) = [c.cur.sz] := by
    rw [round, pageRange, Nat.add_sub_cancel_left]
    simp [PGSIZE, List.range_succ]
  have unmapped : ∀ v, PGROUNDUP c.cur.sz ≤ v * PGSIZE → v * PGSIZE < c.cur.sz + PGSIZE →
      ((c.table .cur).pte v).p = false := by
    intro v low high
    have here : v = c.cur.sz / PGSIZE := by
      rw [round] at low
      simp only [PGSIZE] at *
      omega
    rw [here]
    exact absent
  obtain ⟨c1, alloc, mapped, _⟩ := @allocuvm_room c .cur _ _ m _ accepted (Nat.le_add_right _ _) sane.table.wf unmapped
    holds (by rw [one]; exact capacity) (by rw [one]; exact room)
  rw [one] at mapped
  refine ⟨_, sysSbrk_grows sane.layout (by decide) fits alloc, rfl, mapped.new _ (List.mem_singleton_self _),
    fun v other => mapped.old v fun a mem here => other ?_⟩
  rw [← here, List.mem_singleton.1 mem]

end Contract

section Runs

variable {kend kdata size i : Nat} {mem : Nat → Nat → UInt8} {init : Bytes} {km0 : Kmem} {k0 k : Kernel} {ls : List Op}
  {n r : Int} {c : Ctx}

/-- **When `sbrk` keeps its contract**, for every process in every run. -/
theorem sbrk_contract_iff (boot : kinitMain kend kdata mem = .ok km0) (text : EXTMEM < kdata) (data : kdata ≤ kend)
    (page : kdata % PGSIZE = 0) (start : userinit init size (Kernel.blank km0) = .ok k0) (run : Trace Step k0 ls k)
    (bound : i < NPROC) (canRun : (k.proc i).canRun) (low : -2 ^ 31 ≤ n) (high : n < 2 ^ 31)
    (call : sysSbrk n (k.ctx i) = .ok (r, c)) :
    SbrkContract (k.ctx i) n r c ↔ SbrkSafe (k.proc i) n := by
  have symbols := Symbols.boot boot text data page
  have first := (Kernel.Sane.boot symbols boot start).mono fun _ => Nat.zero_le _
  exact SbrkContract.iff ((first.run symbols run).procs i bound canRun.1) low high call

/-- The first process asks for more than there is, and is refused. -/
theorem sbrk_contract_refused : ∃ km0 k0, bootKmem = .ok km0 ∧
    userinit (fun _ => 0) 0 (Kernel.blank km0) = .ok k0 ∧
      sysSbrk 0x7fffffff (k0.ctx 0) = .ok (-1, k0.ctx 0) ∧ SbrkContract (k0.ctx 0) 0x7fffffff (-1) (k0.ctx 0) := by
  obtain ⟨km0, k0, boot, start, started⟩ := boot_started
  have space := started.stackSpace
  have call : sysSbrk 0x7fffffff (k0.ctx 0) = .ok (-1, k0.ctx 0) := by
    have far : (k0.ctx 0).cur.stackSpace < addInt32 (k0.ctx 0).cur.sz 0x7fffffff := by
      show (k0.proc 0).stackSpace < addInt32 (k0.proc 0).sz 0x7fffffff
      rw [space, started.sz]
      decide
    rw [sysSbrk, growproc]
    simp only [if_pos far, ok_bind]
    rfl
  refine ⟨km0, k0, boot, start, call, ?_⟩
  refine (sbrk_contract_iff boot (by decide) (by decide) (by decide) start .nil (by decide) started.canRun (by decide) (by decide)
    call).2 (.inl (.inr ?_))
  rw [space, started.sz]
  decide

/-- The first process grows its heap by a page: the break moves by two pages, and the second is not mapped. -/
theorem sbrk_moves_twice : ∃ km0 k0 c, bootKmem = .ok km0 ∧
    userinit (fun _ => 0) 0 (Kernel.blank km0) = .ok k0 ∧ (k0.proc 0).sz = 0x1000 ∧
      sysSbrk 0x1000 (k0.ctx 0) = .ok (0x1000, c) ∧ c.cur.sz = 0x3000 ∧ c.cur.pgdir.pte 2 = {} := by
  obtain ⟨km0, k0, boot, start, started⟩ := boot_started
  have sane := (Kernel.Sane.boot bootSymbols boot start).procs 0 (by decide) started.canRun.1
  have size : (k0.ctx 0).cur.sz = 0x1000 := started.sz
  obtain ⟨c, call, size', _, others⟩ := @sysSbrk_page (k0.ctx 0) _ _ _ 0 _ sane started.stack.2 (by rw [size]; rfl)
    (by rw [size]; exact started.stackSpace.ge.trans' (by decide))
    (by rw [size]; show ((k0.proc 0).pgdir.pte 1).p = false; rw [started.empty 1 (by decide) (by decide)])
    started.queue (by decide) (started.room.mono (by decide))
  rw [size] at call size'
  refine ⟨km0, k0, c, boot, start, started.sz, call, size', ?_⟩
  rw [others 2 (by rw [size]; decide)]
  exact started.empty 2 (by decide) (by decide)

end Runs

end Xv6
