import Xv6.Proc.Effect

/-!
# Every run

What holds of the kernel in every run, whatever the processes do: page tables are well
formed, the resident queues are, and heap and stack do not overlap. Which pages may be
mapped at the bottom of a process is tracked along.
-/

namespace Xv6

open Fallible Runs Function

/-- Every process in use is in order; `lo i` is the first page that process `i` may have mapped. -/
structure Kernel.Sane (kend kdata : Nat) (lo : Nat → Nat) (k : Kernel) : Prop where
  memory : k.km.Sound kend kdata
  procs : ∀ i, i < NPROC → (k.proc i).live → (k.ctx i).Sane kend kdata (lo i)
  first : ∀ i, lo i ≤ 1

variable {kend kdata : Nat} {lo : Nat → Nat} {k k' : Kernel} {op : Op} {i j : Nat} {mem : Nat → Nat → UInt8} {km : Kmem}
  {init : Bytes} {size : Nat}

theorem Ctx.Sane.mono {lo lo' : Nat} {c : Ctx} (sane : c.Sane kend kdata lo) (le : lo' ≤ lo) :
    c.Sane kend kdata lo' :=
  ⟨sane.memory, sane.table.mono le, sane.queue, sane.layout⟩

theorem Kernel.Sane.mono {lo' : Nat → Nat} (sane : k.Sane kend kdata lo) (le : ∀ i, lo' i ≤ lo i) :
    k.Sane kend kdata lo' :=
  ⟨sane.memory, fun i bound live => (sane.procs i bound live).mono (le i), fun i => (le i).trans (sane.first i)⟩

/-- A process that is created has nothing at page 0; the others keep their bound. -/
def Kernel.raise (k : Kernel) (lo : Nat → Nat) (j : Nat) : Nat := if (k.proc j).live then lo j else 1

/-- `sbrk` grows a heap only above the first page that may be mapped. -/
def Op.Above (k : Kernel) (lo : Nat → Nat) : Op → Prop
  | .sbrk i n _ => 0 < n → lo i * PGSIZE ≤ PGROUNDUP (k.proc i).sz
  | _ => True

/-- Memory stays in order. -/
theorem Step.memory (symbols : Symbols kend kdata) (sane : k.Sane kend kdata lo) (above : op.Above k lo)
    (step : Step op k k') : k'.km.Sound kend kdata := by
  cases step with
  | load _ _ _ _ => exact sane.memory
  | store _ _ _ _ _ => exact sane.memory.of_mem _
  | fault bound canRun _ _ call =>
    exact (castPageFault_sane (sane.procs _ bound canRun.1) (sane.first _) call).sane.memory
  | sbrk bound canRun _ _ call => exact (sysSbrk_sane (sane.procs _ bound canRun.1) above call).sane.memory
  | exec bound canRun call =>
    exact (exec_sane symbols (sane.procs _ bound canRun.1) (sane.first _) call).1.sane.memory
  | exit _ _ call =>
    rw [(exit_ok call).1]
    exact sane.memory
  | wait _ _ call =>
    cases wait_ok call with
    | none => exact sane.memory
    | reaped _ _ _ _ free freed => exact freevm_memory (sane.memory.kfree free) freed
  | @fork _ _ i created r bound canRun call =>
    rcases fork_ok call with ⟨alloc, _⟩ | ⟨j, k1, alloc, forked⟩
    · exact ((allocproc_cases alloc).memory sane.memory).1
    have allocating := allocproc_cases alloc
    have atI := allocating.keeps canRun.1
    have ne : j ≠ i := by
      rintro rfl
      cases allocating with
      | found _ unused _ _ => exact canRun.1.1 unused
    have here := sane.procs i bound canRun.1
    have memory1 := (allocating.memory sane.memory).1
    cases forked ne with
    | failed copy _ free =>
      exact (copyuvm_copied symbols memory1 here.table here.layout (atI ▸ copy)).memory.kfree free
    | done copy _ => exact (copyuvm_copied symbols memory1 here.table here.layout (atI ▸ copy)).memory

/-- A process of the table after a step is in order. -/
theorem ProcEffect.sane {p : Proc} (symbols : Symbols kend kdata) (sane : k.Sane kend kdata lo) (above : op.Above k lo)
    (bound : j < NPROC) (memory : km.Sound kend kdata) (effect : ProcEffect j k op p) :
    Ctx.Sane kend kdata (k.raise lo j) { km := km, cur := p } := by
  -- a process that was in use keeps its bound
  have old : (k.proc j).live → k.raise lo j = lo j := fun live => if_pos live
  cases effect with
  | kept live =>
    rw [old live]
    exact (sane.procs j bound live).memory_of memory
  | orphaned live orphaned =>
    rw [old live]
    have here := sane.procs j bound live
    obtain ⟨parent, ⟨rfl, _⟩ | ⟨rfl, _⟩⟩ := orphaned
    · exact ⟨memory, here.table, here.queue, here.layout.same rfl rfl⟩
    · exact ⟨memory, here.table, here.queue, here.layout.same rfl rfl⟩
  | fault isOp canRun fits raised call =>
    rw [old canRun.1]
    have after := (castPageFault_sane (sane.procs j bound canRun.1) (sane.first j) call).sane
    exact ⟨memory, after.table, after.queue, after.layout⟩
  | sbrk isOp canRun low high call =>
    subst isOp
    rw [old canRun.1]
    have after := (sysSbrk_sane (sane.procs j bound canRun.1) above call).sane
    exact ⟨memory, after.table, after.queue, after.layout⟩
  | exec isOp canRun call =>
    rw [old canRun.1]
    have after := (exec_sane symbols (sane.procs j bound canRun.1) (sane.first j) call).1.sane
    exact ⟨memory, after.table, after.queue, after.layout⟩
  | parent isOp canRun allocating copy =>
    rw [old canRun.1]
    have here := sane.procs j bound canRun.1
    have copied := copyuvm_copied symbols (allocating.memory sane.memory).1 here.table here.layout copy
    exact ⟨memory, copied.own, here.queue, here.layout.same rfl rfl⟩
  | @child i r k1 created d d' km1 p isOp boundI canRun allocating copy make =>
    have here := sane.procs i boundI canRun.1
    have copied := copyuvm_copied symbols (allocating.memory sane.memory).1 here.table here.layout copy
    obtain ⟨_, table, size, stack, _, queue⟩ := forkChild_ok here.queue make
    have bound1 : k.raise lo j ≤ 1 := by
      unfold Kernel.raise
      split
      · exact sane.first j
      · exact Nat.le_refl 1
    refine ⟨memory, ?_, queue, here.layout.same size stack⟩
    show p.pgdir.Sound kend (k.raise lo j)
    rw [table]
    exact (copied.child d' rfl).1.mono bound1

/-- **One step.** -/
theorem Kernel.Sane.step (symbols : Symbols kend kdata) (sane : k.Sane kend kdata lo) (above : op.Above k lo)
    (step : Step op k k') : k'.Sane kend kdata (k.raise lo) := by
  have memory := step.memory symbols sane above
  refine ⟨memory, fun j bound live => (step.effect live).sane symbols sane above bound memory, fun j => ?_⟩
  unfold Kernel.raise
  split
  · exact sane.first j
  · exact Nat.le_refl 1

/-- A program that has been loaded has nothing at page 0. -/
theorem Kernel.Sane.loaded (symbols : Symbols kend kdata) (sane : k.Sane kend kdata lo)
    (step : Step (.exec i 0) k k') : (k'.proc i).pgdir.Sound kend 1 := by
  cases step with
  | exec bound canRun call =>
    simp only [Kernel.put, Kernel.setProc, update_self]
    exact (exec_sane symbols (sane.procs i bound canRun.1) (sane.first i) call).2 rfl

/-! ## Boot -/

/-- The kernel's symbols, as `kernel.ld` lays them out, when memory has been set up. -/
theorem Symbols.boot (boot : kinitMain kend kdata mem = .ok km) (text : EXTMEM < kdata) (data : kdata ≤ kend)
    (page : kdata % PGSIZE = 0) : Symbols kend kdata := by
  have low := kinitMain_freeable boot
  refine ⟨text, data, ?_, page⟩
  simp only [PHYSTOP] at *
  omega

theorem kinitMain_sound (boot : kinitMain kend kdata mem = .ok km) : km.Sound kend kdata := by
  have inv := kinitMain_inv boot
  obtain ⟨isEnd, isData⟩ := kinitMain_linker boot
  refine ⟨isEnd, isData, fun f mem => ?_⟩
  have := inv.range f ((inv.exact f).1 mem).1
  rw [isEnd] at this
  exact this

theorem inituvm_sound {d d' : PgDir} {km' : Kmem} (memory : km.Sound kend kdata) (sound : d.Sound kend 0)
    (call : inituvm init size d km = .ok (d', km')) : d'.Sound kend 0 ∧ km'.Sound kend kdata ∧ (d.Image → d'.Image) := by
  unfold inituvm at call
  split at call
  · cases call
  · split at call
    · cases call
    · rename_i f km1 got
      obtain ⟨⟨b, d1, km2⟩, map, rest⟩ := bind_ok.1 call
      cases rest
      rw [mappages_page rfl (by decide)] at map
      obtain ⟨memory1, frame⟩ := memory.kalloc got
      have entry : ({ Pte.user with addr := f * PGSIZE / PGSIZE, p := true } : Pte).Sound kend 0 (0 / PGSIZE) := by
        rw [page_div]
        exact Pte.sound_fresh (by decide) (Nat.zero_le _) (.inr frame)
      obtain ⟨sound', memory', entries⟩ := sound.map (memory1.of_mem _) (by decide) entry map
      refine ⟨sound', memory'.of_mem _, fun image v user => ?_⟩
      rw [entries v]
      split
      · exact .inr ⟨_, rfl⟩
      · exact image v user

/-- What `userinit` leaves: one process, in slot 0, with nothing but its first page. -/
structure Booted (kend kdata : Nat) (k : Kernel) : Prop where
  memory : k.km.Sound kend kdata
  table : (k.proc 0).pgdir.Sound kend 0
  image : (k.proc 0).pgdir.Image
  size : (k.proc 0).sz = PGSIZE
  stack : (k.proc 0).stacksize = 0
  queue : ∃ pages, (k.proc 0).mq = { pages := pages } ∧ pages.length = NUM_MEM_PAGES
  others : ∀ i, i ≠ 0 → ¬ (k.proc i).live ∧ (k.proc i).mq = {}

theorem userinit_booted (symbols : Symbols kend kdata) (boot : kinitMain kend kdata mem = .ok km)
    (start : userinit init size (Kernel.blank km) = .ok k) : Booted kend kdata k := by
  have memory := kinitMain_sound boot
  unfold userinit at start
  split at start
  · cases start
  · rename_i j k1 alloc
    obtain ⟨memory1, _⟩ := (allocproc_cases alloc).memory (k := Kernel.blank km) memory
    obtain ⟨⟨d, km2⟩, setup, rest1⟩ := bind_ok.1 start
    obtain ⟨r0, km3, again, memory2, table⟩ := setupkvm_sound symbols memory1
    cases setup.symm.trans again
    cases d with
    | none => cases rest1
    | some d =>
      obtain ⟨⟨d3, km3⟩, inituser, rest2⟩ := bind_ok.1 rest1
      cases rest2
      obtain ⟨sound3, memory3, image3⟩ := inituvm_sound memory2 ((table d rfl).mono (by decide)) inituser
      obtain ⟨_, blank⟩ := setupkvm_blank (symbols.linked memory1) setup
      have isFirst : j = 0 := (Option.some.inj (allocproc_first alloc)).symm
      subst isFirst
      cases allocproc_cases alloc with
      | @found _ f mq km4 km5 _ _ got more =>
        refine ⟨memory3, ?_, ?_, ?_, ?_, ?_, fun i other => ?_⟩
        · simpa only [Kernel.setProc, update_self] using sound3
        · simpa only [Kernel.setProc, update_self] using image3 fun v user => .inl (blank v user)
        · simp only [Kernel.setProc, update_self]
        · simp only [Kernel.setProc, update_self]
          rfl
        · simp only [Kernel.setProc, update_self]
          rcases (allocQueue_memory (Kmem.Sound.kalloc memory got).1 more).2.2 mq rfl with ⟨_, chain⟩ | fresh
          · exact absurd rfl chain
          · exact fresh
        · simp only [Kernel.setProc, update_of_ne other]
          exact ⟨fun live => live.1 rfl, rfl⟩

/-- **After boot** the only process is sane. -/
theorem Kernel.Sane.boot (symbols : Symbols kend kdata) (boot : kinitMain kend kdata mem = .ok km)
    (start : userinit init size (Kernel.blank km) = .ok k) : k.Sane kend kdata fun i => if i = 0 then 0 else 1 := by
  have booted := userinit_booted symbols boot start
  refine ⟨booted.memory, fun i bound live => ?_, fun i => by split <;> omega⟩
  by_cases here : i = 0
  · subst here
    rw [if_pos rfl]
    obtain ⟨pages, queue, _⟩ := booted.queue
    refine ⟨booted.memory, booted.table, ?_, ?_, ?_, ?_⟩
    · show UserQueue (k.proc 0).mq
      rw [queue]
      exact ⟨[], MemQueue.wf_fresh pages, by rintro _ ⟨⟩⟩
    · show (k.proc 0).stacksize % PGSIZE = 0
      rw [booted.stack]
      rfl
    · show (k.proc 0).stacksize + PGSIZE ≤ KERNBASE
      rw [booted.stack]
      decide
    · show (k.proc 0).sz + (k.proc 0).stacksize ≤ KERNBASE
      rw [booted.size, booted.stack]
      decide
  · exact absurd live (booted.others i here).1

/-- A step of any kind. -/
theorem Kernel.Sane.any (symbols : Symbols kend kdata) (sane : k.Sane kend kdata fun _ => 0) (step : Step op k k') :
    k'.Sane kend kdata fun _ => 0 := by
  have above : op.Above k fun _ => 0 := by
    unfold Op.Above
    split
    · intro _
      rw [Nat.zero_mul]
      exact Nat.zero_le _
    · trivial
  exact (sane.step symbols above step).mono fun _ => Nat.zero_le _

/-- **Every run.** -/
theorem Kernel.Sane.run {ls : List Op} {k0 : Kernel} (symbols : Symbols kend kdata)
    (start : k0.Sane kend kdata fun _ => 0) (run : Trace Step k0 ls k) : k.Sane kend kdata fun _ => 0 :=
  run.invariant (fun _ _ _ sane step => sane.any symbols step) start

end Xv6
