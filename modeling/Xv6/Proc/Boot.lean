import Xv6.Proc.KernelHeld
import Xv6.Vm.GrowRoom
import Xv6.Mem.KallocHistory

/-!
# The first process

With memory free, `allocproc` and `userinit` succeed; the state they leave is described
exactly, so that runs can start from it.
-/

namespace Xv6
open Fallible Function

section Create

variable {k : Kernel} {j n : Nat}

theorem memAlloc_free (count : Nat) :
    ∀ km : Kmem, n + count ≤ km.freelist.length →
      ∃ fs km', memAlloc count km = (some fs, km') ∧ fs.length = count ∧ n ≤ km'.freelist.length := by
  induction count with
  | zero => exact fun km free => ⟨[], km, rfl, rfl, free⟩
  | succ count ih =>
    intro km free
    obtain ⟨f, km1, got, free1⟩ := kalloc_free (n := n + count) (by omega)
    obtain ⟨fs, km2, more, length, free2⟩ := ih km1 free1
    refine ⟨f :: fs, km2, ?_, by rw [List.length_cons, length], free2⟩
    simp only [memAlloc, got, more]

/-- A slot whose queue is new, or left by an earlier process. -/
theorem allocQueue_free {mq : MemQueue} {km : Kmem} (chain : mq.pages = [] ∨ mq.pages.length = NUM_MEM_PAGES)
    (free : n + NUM_MEM_PAGES ≤ km.freelist.length) :
    ∃ q km', allocQueue mq km = (some q, km') ∧ q.Holds [] ∧ n ≤ km'.freelist.length := by
  unfold allocQueue
  split
  · obtain ⟨fs, km', got, length, free'⟩ := memAlloc_free NUM_MEM_PAGES km free
    rw [got]
    exact ⟨_, _, rfl, .fresh length, free'⟩
  · rename_i some
    have full := chain.resolve_left some
    exact ⟨_, _, rfl, ⟨[], memClear_wf mq, rfl, rfl, full⟩, by omega⟩

/-- **`allocproc` succeeds** when a slot is unused and there is memory. -/
theorem allocproc_free (found : (List.range NPROC).find? (fun i => (k.proc i).state = .unused) = some j)
    (chain : (k.proc j).mq.pages = [] ∨ (k.proc j).mq.pages.length = NUM_MEM_PAGES)
    (free : n + 1 + NUM_MEM_PAGES ≤ k.km.freelist.length) :
    ∃ k1 f mq, allocproc k = (some j, k1) ∧ mq.Holds [] ∧ n ≤ k1.km.freelist.length ∧
      k1.proc = update k.proc j { k.proc j with
        pid := k.nextpid, state := .embryo, kstack := some f, mq := mq } := by
  obtain ⟨f, km1, got, free1⟩ := kalloc_free (by omega : n + NUM_MEM_PAGES + 1 ≤ k.km.freelist.length)
  obtain ⟨mq, km2, queue, holds, free2⟩ := allocQueue_free chain free1
  refine ⟨{ k with
    proc := update k.proc j { k.proc j with
      pid := k.nextpid, state := .embryo, kstack := some f, mq := mq }
    nextpid := k.nextpid + 1
    km := km2 }, f, mq, ?_, holds, free2, rfl⟩
  simp only [allocproc, found, got, queue, Kernel.setProc]

/-- **`inituvm` succeeds** on a table without page 0. -/
theorem inituvm_free (init : Bytes) {size : Nat} {d : PgDir} {km : Kmem} (small : size < PGSIZE) (wf : d.Wf)
    (absent : (d.pte 0).p = false) (room : Room (n + 1) d km) :
    ∃ g d1 km', inituvm init size d km = .ok (d1.set 0 (Pte.fresh g), km') ∧ d.Ext d1 ∧ d1.pde 0 ≠ none ∧
      Room n (d1.set 0 (Pte.fresh g)) km' := by
  obtain ⟨g, km1, got, room1⟩ := room.kalloc
  obtain ⟨d1, km2, map, ext, table, room2⟩ := (room1.memory (km1.zero g).mem).mapPage Pte.user 0 (g * PGSIZE) wf absent
  have map' : mappages 0 PGSIZE (g * PGSIZE) Pte.user d (km1.zero g) = .ok (true, d1.set 0 (Pte.fresh g), km2) := by
    rw [mappages_page rfl (by decide)]
    rw [page_div] at map
    exact map
  refine ⟨g, d1, km2.copyPage g fun o => if o < size then init o else km2.mem g o, ?_, ext, table, room2⟩
  unfold inituvm
  rw [if_neg (by omega), got]
  exact bind_ok.2 ⟨_, map', rfl⟩

/-- The state after `userinit`, with `n` pages free beside those for page tables. -/
structure Started (n : Nat) (k : Kernel) : Prop where
  state : (k.proc 0).state = .runnable
  sz : (k.proc 0).sz = PGSIZE
  stack : (k.proc 0).stacksize = 0 ∧ (k.proc 0).stackGrowing = false
  queue : (k.proc 0).mq.Holds []
  slots : (k.proc 0).vtab = {}
  page : ∃ f, (k.proc 0).pgdir.pte 0 = Pte.fresh f
  empty : ∀ v, 0 < v → v < NUPAGES → (k.proc 0).pgdir.pte v = {}
  others : ∀ i, i ≠ 0 → k.proc i = {}
  room : Room n (k.proc 0).pgdir k.km
  data : k.km.kdata % PGSIZE = 0

/-- **`userinit` succeeds** at boot. -/
theorem userinit_free {D : Nat → Prop} {km : Kmem} (init : Bytes) {size : Nat}
    (acc : (Kernel.blank km).Accounted D) (aligned : km.kdata % PGSIZE = 0) (small : size < PGSIZE)
    (free : n + 1 + 1 + NPDENTRIES + 1 + NUM_MEM_PAGES ≤ km.freelist.length) :
    ∃ k, userinit init size (Kernel.blank km) = .ok k ∧ Started n k := by
  have found : (List.range NPROC).find? (fun i => ((Kernel.blank km).proc i).state = .unused) = some 0 := rfl
  obtain ⟨k1, f, mq, alloc, holds, free1, procs⟩ := allocproc_free (k := Kernel.blank km) found (.inl rfl) free
  obtain ⟨acc1, same1, _⟩ := allocproc_held acc alloc
  have aligned1 : k1.km.kdata % PGSIZE = 0 := same1.kdata ▸ aligned
  obtain ⟨d, km2, setup, room2⟩ := setupkvm_room (n := n + 1) acc1.linked aligned1 free1
  obtain ⟨kept2, _, made⟩ := setupkvm_held acc1.linked (acc1.held (i := 0) (by decide)) setup
  have held2 := made d rfl
  obtain ⟨wf, user⟩ := setupkvm_blank acc1.linked setup
  obtain ⟨g, d1, km3, inituser, ext, table, room3⟩ := inituvm_free init small wf
    (by rw [user 0 (by decide)]) room2
  obtain ⟨_, _, _, _, linker⟩ := inituvm_held held2 wf inituser
  have first : k1.proc 0 = { pid := 1, state := .embryo, kstack := some f, mq := mq } := by
    rw [procs, update_self]
    rfl
  have others : ∀ i, i ≠ 0 → k1.proc i = {} := fun i ne => by
    rw [procs, update_of_ne ne]
    rfl
  refine ⟨{ (k1.setProc 0 { k1.proc 0 with
    pgdir := d1.set 0 (Pte.fresh g), sz := PGSIZE, eip := 0, esp := PGSIZE, name := "initcode", state := .runnable }) with
    km := km3, initproc := some 0 }, ?_, ?_⟩
  · unfold userinit
    rw [alloc]
    exact bind_ok.2 ⟨_, setup, bind_ok.2 ⟨_, inituser, rfl⟩⟩
  · have here : ∀ p : Proc, update k1.proc 0 p 0 = p := fun p => update_self _ _ _
    constructor <;> simp only [Kernel.setProc, here, first]
    · exact ⟨trivial, trivial⟩
    · exact holds
    · exact ⟨g, rfl⟩
    · intro v pos low
      have away : v ≠ 0 / PGSIZE := by
        simp only [PGSIZE]
        omega
      rw [PgDir.set_pte, if_neg away, ext.pte, user v low]
    · intro i ne
      rw [update_of_ne ne, others i ne]
    · exact room3
    · rw [linker, kept2.kdata]
      exact aligned1

/-- The kernel of `bootKmem` starts its first process. -/
theorem boot_started : ∃ km k, bootKmem = .ok km ∧ userinit (fun _ => 0) 0 (Kernel.blank km) = .ok k ∧
    Started 55000 k := by
  obtain ⟨km, boot, count⟩ := bootKmem_free
  have aligned : km.kdata % PGSIZE = 0 := by rw [(kinitMain_linker boot).2]; decide
  obtain ⟨k, start, started⟩ := userinit_free (n := 55000) (fun _ => 0)
    (Kernel.blank_accounted boot (by decide) (by decide)) aligned (by decide : 0 < PGSIZE) (by rw [count]; decide)
  exact ⟨km, k, boot, start, started⟩

end Create

end Xv6
