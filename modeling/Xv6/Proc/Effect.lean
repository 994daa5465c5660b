import Xv6.Proc.KernelHeld
import Xv6.Vm.CopySound

/-!
# What one step does to one process

A step of the system changes the process that takes it, and `fork` also the slot of the
child. `ProcEffect` lists, for a process that is in use after the step, how it came about;
every invariant of processes is a case analysis of it.
-/

namespace Xv6

open Fallible Function List

section Faults

variable {va : Nat} {d : PgDir}

theorem presentFlag_false (absent : (d.pte (va / PGSIZE)).p = false) : presentFlag va d = false := by
  unfold presentFlag walkpgdir
  cases d.pde (PDX va)
  · rfl
  · exact absent

theorem faults_absent (write : Bool) (absent : (d.pte (va / PGSIZE)).p = false) : faults write va d = true := by
  unfold faults walkpgdir
  cases d.pde (PDX va)
  · rfl
  · simp [Pte.allows, absent]

end Faults

/-! ## `allocproc` -/

/-- What a call of `allocproc` has done. -/
inductive Allocating (k : Kernel) : Option Nat → Kernel → Prop where
  | full : Allocating k none k
  | noStack {j : Nat} : j < NPROC → (k.proc j).state = .unused →
      Allocating k none { k with
        nextpid := k.nextpid + 1
        proc := Function.update k.proc j { k.proc j with pid := k.nextpid, kstack := none } }
  | noQueue {j f : Nat} {km km' : Kmem} : j < NPROC → (k.proc j).state = .unused → kalloc k.km = (some f, km) →
      allocQueue (k.proc j).mq km = (none, km') →
      Allocating k none { k with
        nextpid := k.nextpid + 1
        km := km'
        proc := Function.update k.proc j { k.proc j with pid := k.nextpid, state := .embryo, kstack := some f } }
  | found {j f : Nat} {mq : MemQueue} {km km' : Kmem} : j < NPROC → (k.proc j).state = .unused →
      kalloc k.km = (some f, km) → allocQueue (k.proc j).mq km = (some mq, km') →
      Allocating k (some j) { k with
        nextpid := k.nextpid + 1
        km := km'
        proc := Function.update k.proc j
          { k.proc j with pid := k.nextpid, state := .embryo, kstack := some f, mq := mq } }

section Allocating

variable {k k' : Kernel} {r : Option Nat} {kend kdata : Nat} {km km' : Kmem}

theorem allocproc_cases (call : allocproc k = (r, k')) : Allocating k r k' := by
  unfold allocproc at call
  split at call
  · cases call
    exact .full
  · rename_i j found
    have bound : j < NPROC := mem_range.1 (mem_of_find?_eq_some found)
    have unused : (k.proc j).state = .unused := by simpa using find?_some found
    simp only at call
    split at call
    · rename_i km1 got
      cases call
      rw [(kalloc_none got).1]
      exact .noStack bound unused
    · rename_i f km1 got
      split at call
      · rename_i km2 more
        cases call
        exact .noQueue bound unused got more
      · rename_i mq km2 more
        cases call
        exact .found bound unused got more

/-- The slot is the first that is unused. -/
theorem allocproc_first {j : Nat} (call : allocproc k = (some j, k')) :
    (List.range NPROC).find? (fun i => (k.proc i).state = .unused) = some j := by
  unfold allocproc at call
  split at call
  · cases call
  · rename_i l found
    rw [found]
    simp only at call
    split at call
    · cases call
    · split at call
      · cases call
      · cases call
        rfl

theorem memAlloc_memory {fs : Option (List Nat)} (n : Nat) :
    ∀ km : Kmem, km.Sound kend kdata → memAlloc n km = (fs, km') →
      km'.Sound kend kdata ∧ SameMem km km' ∧ ∀ pages, fs = some pages → pages.length = n := by
  induction n generalizing fs with
  | zero =>
    intro km memory call
    cases call
    refine ⟨memory, .refl _, fun pages isPages => ?_⟩
    cases isPages
    rfl
  | succ n ih =>
    intro km memory call
    unfold memAlloc at call
    split at call
    · rename_i got
      cases call
      rw [(kalloc_none got).1]
      exact ⟨memory, .refl km, by rintro _ ⟨⟩⟩
    · rename_i f km1 got
      split at call
      · rename_i more
        cases call
        obtain ⟨memory2, same2, _⟩ := ih km1 (memory.kalloc got).1 more
        exact ⟨memory2, (kalloc_same got).trans same2, by rintro _ ⟨⟩⟩
      · rename_i fs km2 more
        cases call
        obtain ⟨memory2, same2, count⟩ := ih km1 (memory.kalloc got).1 more
        refine ⟨memory2, (kalloc_same got).trans same2, fun pages isPages => ?_⟩
        cases isPages
        rw [length_cons, count fs rfl]

/-- The queue of a new process: it is empty, with the slot's own chain or a new one. -/
theorem allocQueue_memory {mq : MemQueue} {q : Option MemQueue} (memory : km.Sound kend kdata)
    (call : allocQueue mq km = (q, km')) :
    km'.Sound kend kdata ∧ SameMem km km' ∧
      ∀ mq', q = some mq' → mq' = memClear mq ∧ mq.pages ≠ [] ∨
        ∃ pages, mq' = { pages := pages } ∧ pages.length = NUM_MEM_PAGES := by
  unfold allocQueue at call
  split at call
  · split at call
    · rename_i more
      cases call
      obtain ⟨memory', same, _⟩ := memAlloc_memory _ km memory more
      exact ⟨memory', same, by rintro _ ⟨⟩⟩
    · rename_i pages km1 more
      cases call
      obtain ⟨memory', same, count⟩ := memAlloc_memory _ km memory more
      refine ⟨memory', same, fun mq' isQueue => ?_⟩
      cases isQueue
      exact .inr ⟨pages, rfl, count pages rfl⟩
  · rename_i chain
    cases call
    refine ⟨memory, .refl km, fun mq' isQueue => ?_⟩
    cases isQueue
    exact .inl ⟨rfl, chain⟩

theorem Allocating.memory (allocating : Allocating k r k') (memory : k.km.Sound kend kdata) :
    k'.km.Sound kend kdata ∧ SameMem k.km k'.km := by
  cases allocating with
  | full => exact ⟨memory, .refl _⟩
  | noStack _ _ => exact ⟨memory, .refl _⟩
  | noQueue _ _ got more =>
    obtain ⟨memory', same, _⟩ := allocQueue_memory (memory.kalloc got).1 more
    exact ⟨memory', (kalloc_same got).trans same⟩
  | found _ _ got more =>
    obtain ⟨memory', same, _⟩ := allocQueue_memory (memory.kalloc got).1 more
    exact ⟨memory', (kalloc_same got).trans same⟩

/-- `allocproc` touches no process that is in use. -/
theorem Allocating.live (allocating : Allocating k r k') {j : Nat} (live : (k'.proc j).live) :
    (k.proc j).live ∧ k'.proc j = k.proc j := by
  -- the slot that is taken is not in use, before or after
  have other : ∀ {l : Nat} {p : Proc}, ¬ p.live → (update k.proc l p j).live →
      update k.proc l p j = k.proc j := by
    intro l p dead live
    by_cases here : j = l
    · subst here
      rw [update_self] at live
      exact absurd live dead
    · exact update_of_ne here p k.proc
  cases allocating with
  | full => exact ⟨live, rfl⟩
  | noStack _ unused =>
    have dead : ¬ ({ k.proc _ with pid := k.nextpid, kstack := none } : Proc).live := fun live => live.1 unused
    have same := other dead live
    exact ⟨same ▸ live, same⟩
  | noQueue _ _ _ _ =>
    have same := other (fun live => live.2 rfl) live
    exact ⟨same ▸ live, same⟩
  | found _ _ _ _ =>
    have same := other (fun live => live.2 rfl) live
    exact ⟨same ▸ live, same⟩

/-- A process in use keeps its slot. -/
theorem Allocating.keeps (allocating : Allocating k r k') {i : Nat} (live : (k.proc i).live) :
    k'.proc i = k.proc i := by
  have ne : ∀ {j : Nat}, (k.proc j).state = .unused → i ≠ j := by
    rintro j unused rfl
    exact live.1 unused
  cases allocating with
  | full => rfl
  | noStack _ unused => exact update_of_ne (ne unused) _ _
  | noQueue _ unused _ _ => exact update_of_ne (ne unused) _ _
  | found _ unused _ _ => exact update_of_ne (ne unused) _ _

end Allocating

/-! ## Steps -/

/-- How process `j`, in use after the step `op`, comes out of the state `k` before it. -/
inductive ProcEffect (j : Nat) (k : Kernel) (op : Op) : Proc → Prop where
  | kept : (k.proc j).live → ProcEffect j k op (k.proc j)
  | orphaned {caller : Prop} {p : Proc} : (k.proc j).live → (k.proc j).Orphaned caller p → ProcEffect j k op p
  | fault {write : Bool} {va : Nat} {c : Ctx} : op = .fault j write va → (k.proc j).canRun → va < 2 ^ 32 →
      faults write va (k.proc j).pgdir → castPageFault (presentFlag va (k.proc j).pgdir) va (k.ctx j) = .ok c →
      ProcEffect j k op c.cur
  | sbrk {n r : Int} {c : Ctx} : op = .sbrk j n r → (k.proc j).canRun → -2 ^ 31 ≤ n → n < 2 ^ 31 →
      sysSbrk n (k.ctx j) = .ok (r, c) → ProcEffect j k op c.cur
  | exec {ip : Option Inode} {path : String} {argv : List (List UInt8)} {created : Nat → Inode} {r : Int} {c : Ctx} :
      op = .exec j r → (k.proc j).canRun → Xv6.exec ip path argv created (k.ctx j) = .ok (r, c) →
      ProcEffect j k op c.cur
  | parent {r : Int} {l : Nat} {k1 : Kernel} {child : Option PgDir} {d : PgDir} {km : Kmem} : op = .fork j r →
      (k.proc j).canRun → Allocating k (some l) k1 → copyuvm (k.proc j) k1.km = .ok (child, d, km) →
      ProcEffect j k op { k.proc j with pgdir := d }
  | child {i : Nat} {r : Int} {k1 : Kernel} {created : Nat → Inode} {d d' : PgDir} {km : Kmem} {p : Proc} :
      op = .fork i r → i < NPROC → (k.proc i).canRun → Allocating k (some j) k1 →
      copyuvm (k.proc i) k1.km = .ok (some d', d, km) →
      forkChild created i { k.proc i with pgdir := d } (k1.proc j) d' = .ok p → ProcEffect j k op p

section Effect

variable {k k' : Kernel} {op : Op} {i j : Nat}

theorem fork_effect {created : Nat → Inode} {r : Int} (bound : i < NPROC) (canRun : (k.proc i).canRun)
    (call : fork created i k = .ok (r, k')) (live : (k'.proc j).live) : ProcEffect j k (.fork i r) (k'.proc j) := by
  rcases fork_ok call with ⟨alloc, _⟩ | ⟨l, k1, alloc, forked⟩
  · obtain ⟨before, same⟩ := (allocproc_cases alloc).live live
    rw [same]
    exact .kept before
  have allocating := allocproc_cases alloc
  have atI := allocating.keeps canRun.1
  have ne : l ≠ i := by
    rintro rfl
    cases allocating with
    | found _ unused _ _ => exact canRun.1.1 unused
  -- the child's slot apart, a process is the parent or as `allocproc` left it
  have others : ∀ {d : PgDir} {child : Option PgDir} {km : Kmem}, copyuvm (k1.proc i) k1.km = .ok (child, d, km) →
      ∀ {p : Proc}, update (update k1.proc i { k1.proc i with pgdir := d }) l p j = k'.proc j →
      j ≠ l → ProcEffect j k (.fork i r) (k'.proc j) := by
    intro d child km copy p procs apart
    rw [update_of_ne apart] at procs
    by_cases isParent : j = i
    · subst isParent
      rw [update_self] at procs
      rw [← procs, atI]
      exact .parent rfl canRun allocating (atI ▸ copy)
    · rw [update_of_ne isParent] at procs
      rw [← procs] at live ⊢
      obtain ⟨before, same⟩ := allocating.live live
      rw [same]
      exact .kept before
  cases forked ne with
  | failed copy stack free =>
    by_cases here : j = l
    · subst here
      simp only [update_self] at live
      exact absurd rfl live.1
    · exact others copy rfl here
  | done copy make =>
    by_cases here : j = l
    · subst here
      simp only [update_self]
      exact .child rfl bound canRun allocating (atI ▸ copy) (atI ▸ make)
    · exact others copy rfl here

/-- What a call of `wait` that does not sleep has done. -/
inductive Waited (i : Nat) (k : Kernel) : Int → Kernel → Prop where
  | none : Waited i k (-1) k
  | reaped {l f : Nat} {km km' : Kmem} : l < NPROC → (k.proc l).parent = some i → (k.proc l).state = .zombie →
      (k.proc l).kstack = some f → kfree (P2V (f * PGSIZE)) k.km = .ok km → freevm (k.proc l).pgdir km = .ok km' →
      Waited i k (k.proc l).pid { k with
        proc := Function.update k.proc l { k.proc l with
          kstack := Option.none, pid := 0, parent := Option.none, name := "", killed := false, state := .unused }
        km := km' }

theorem wait_ok {r : Int} (call : wait i k = .ok (some r, k')) : Waited i k r k' := by
  unfold wait at call
  split at call
  · rename_i l found
    have bound : l < NPROC := mem_range.1 (mem_of_find?_eq_some found)
    have here := find?_some found
    simp only [decide_eq_true_eq] at here
    simp only at call
    split at call
    · cases call
    · rename_i f stack
      obtain ⟨km1, free, rest⟩ := bind_ok.1 call
      obtain ⟨km2, freed, rest⟩ := bind_ok.1 rest
      cases rest
      exact .reaped bound here.1 here.2 stack free freed
  · split at call
    · cases call
      exact .none
    · cases call

/-- What process `i` works on after it has run. -/
theorem Kernel.put_ctx (k : Kernel) (i : Nat) (c : Ctx) : (k.put i c).ctx i = { km := c.km, cur := c.cur } := by
  simp only [Kernel.ctx, Kernel.put, Kernel.setProc, update_self]

theorem Kernel.put_proc (k : Kernel) (i : Nat) (c : Ctx) : (k.put i c).proc i = c.cur := by
  simp only [Kernel.put, Kernel.setProc, update_self]

theorem Kernel.put_other {k : Kernel} {i j : Nat} {c : Ctx} (other : j ≠ i) : (k.put i c).proc j = k.proc j := by
  simp only [Kernel.put, Kernel.setProc, update_of_ne other]

/-- A function that runs for process `i` changes that process only. -/
theorem ProcEffect.put {c : Ctx} (here : ProcEffect i k op c.cur) (live : ((k.put i c).proc j).live) :
    ProcEffect j k op ((k.put i c).proc j) := by
  by_cases same : j = i
  · subst same
    simp only [Kernel.put, Kernel.setProc, update_self]
    exact here
  · simp only [Kernel.put, Kernel.setProc, update_of_ne same] at live ⊢
    exact .kept live

/-- **What a step does to a process.** -/
theorem Step.effect (step : Step op k k') (live : (k'.proc j).live) : ProcEffect j k op (k'.proc j) := by
  cases step with
  | load _ _ _ _ => exact .kept live
  | store _ _ _ _ _ => exact .kept live
  | fault bound canRun fits raised call => exact ProcEffect.put (.fault rfl canRun fits raised call) live
  | sbrk bound canRun low high call => exact ProcEffect.put (.sbrk rfl canRun low high call) live
  | fork bound canRun call => exact fork_effect bound canRun call live
  | exec bound canRun call => exact ProcEffect.put (.exec rfl canRun call) live
  | @exit k k' l unlinked bound canRun call =>
    have orphaned := (exit_ok call).2 j
    refine .orphaned ?_ orphaned
    exact (orphaned.same fun isCaller => isCaller ▸ canRun.1).2.1.1 live
  | wait bound canRun call =>
    cases wait_ok call with
    | none => exact .kept live
    | @reaped l f km km' _ _ _ _ _ _ =>
      by_cases same : j = l
      · subst same
        simp only [update_self] at live
        exact absurd rfl live.1
      · simp only [update_of_ne same] at live ⊢
        exact .kept live

end Effect

end Xv6
