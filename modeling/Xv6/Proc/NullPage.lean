import Xv6.Proc.SbrkContract

/-!
# Page 0

A program is loaded from the second page on, and `fork` copies from there, so the first
page of a process stays unmapped as long as its heap does not end at 0: a heap that `sbrk`
has shrunk to nothing grows from address 0.
-/

namespace Xv6

open Fallible Runs Function

/-- `sbrk` grows only a heap that is not empty. -/
def Op.FromHeap (k : Kernel) : Op → Prop
  | .sbrk i n _ => 0 < n → (k.proc i).sz ≠ 0
  | _ => True

/-- A step in which an empty heap does not grow. -/
def HeapStep (op : Op) (k k' : Kernel) : Prop := Step op k k' ∧ op.FromHeap k

/-- Page 0 is unmapped in every process but the first, and in the first when it has loaded a program. -/
structure NullGuarded (kend kdata : Nat) (ls : List Op) (k : Kernel) : Prop where
  guarded : ∃ lo : Nat → Nat, k.Sane kend kdata lo ∧ (∀ i, i ≠ 0 → lo i = 1) ∧ (.exec 0 0 ∈ ls → lo 0 = 1)

section Guard

variable {kend kdata : Nat} {k k' : Kernel} {ls : List Op} {op : Op} {lo : Nat → Nat}

theorem Op.FromHeap.above (fromHeap : op.FromHeap k) (first : ∀ i, lo i ≤ 1) : op.Above k lo := by
  cases op with
  | sbrk i n r =>
    intro pos
    have := fromHeap pos
    have := first i
    have round := le_PGROUNDUP (k.proc i).sz
    have aligned := PGROUNDUP_mod (k.proc i).sz
    simp only [PGSIZE] at *
    omega
  | _ => trivial

/-- **One step.** -/
theorem NullGuarded.step (symbols : Symbols kend kdata) (guarded : NullGuarded kend kdata ls k)
    (step : HeapStep op k k') : NullGuarded kend kdata (ls ++ [op]) k' := by
  obtain ⟨lo, sane, others, loaded⟩ := guarded.guarded
  have sane' := sane.step symbols (step.2.above sane.first) step.1
  have others' : ∀ i, i ≠ 0 → k.raise lo i = 1 := by
    intro i notFirst
    unfold Kernel.raise
    rw [others i notFirst, ite_self]
  by_cases isExec : op = .exec 0 0
  · subst isExec
    refine ⟨update (k.raise lo) 0 1, ⟨sane'.memory, fun i bound live => ?_, fun i => ?_⟩, fun i notFirst => ?_,
      fun _ => update_self _ _ _⟩
    · by_cases here : i = 0
      · subst here
        have old := sane'.procs 0 bound live
        rw [update_self]
        exact ⟨old.memory, sane.loaded symbols step.1, old.queue, old.layout⟩
      · rw [update_of_ne here]
        exact sane'.procs i bound live
    · by_cases here : i = 0
      · subst here
        rw [update_self]
      · rw [update_of_ne here]
        exact sane'.first i
    · rw [update_of_ne notFirst]
      exact others' i notFirst
  · refine ⟨k.raise lo, sane', others', fun mem => ?_⟩
    have before : .exec 0 0 ∈ ls := by
      rcases List.mem_append.1 mem with old | new
      · exact old
      · exact absurd (List.mem_singleton.1 new).symm isExec
    unfold Kernel.raise
    rw [loaded before, ite_self]

end Guard

section Runs

variable {kend kdata size i : Nat} {mem : Nat → Nat → UInt8} {init : Bytes} {km0 : Kmem} {k0 k : Kernel} {ls : List Op}

/-- **Page 0 stays unmapped** in every run in which no empty heap grows: an access below `PGSIZE` faults, and the
handler kills the process. -/
theorem null_page_guarded (boot : kinitMain kend kdata mem = .ok km0) (text : EXTMEM < kdata) (data : kdata ≤ kend)
    (page : kdata % PGSIZE = 0) (start : userinit init size (Kernel.blank km0) = .ok k0) (run : Trace HeapStep k0 ls k)
    (bound : i < NPROC) (live : (k.proc i).live) (loaded : i ≠ 0 ∨ .exec 0 0 ∈ ls) :
    ((k.proc i).pgdir.pte 0).p = false ∧
      ∀ write va, va < PGSIZE → faults write va (k.proc i).pgdir ∧
        castPageFault (presentFlag va (k.proc i).pgdir) va (k.ctx i) = .ok (k.ctx i).kill := by
  have symbols := Symbols.boot boot text data page
  have first : NullGuarded kend kdata [] k0 :=
    ⟨_, Kernel.Sane.boot symbols boot start, fun i notFirst => if_neg notFirst, by rintro ⟨⟩⟩
  obtain ⟨lo, sane, others, exec⟩ :=
    (run.history (fun _ _ _ _ guarded step => guarded.step symbols step) first).guarded
  have isOne : lo i = 1 := by
    rcases loaded with notFirst | mem
    · exact others i notFirst
    · by_cases here : i = 0
      · rw [here]
        exact exec mem
      · exact others i here
  have absent : ((k.proc i).pgdir.pte 0).p = false := (sane.procs i bound live).table.low 0 (by omega)
  refine ⟨absent, fun write va low => ?_⟩
  have here : va / PGSIZE = 0 := Nat.div_eq_of_lt low
  rw [← here] at absent
  refine ⟨faults_absent write absent, ?_⟩
  rw [presentFlag_false absent, castPageFault, if_neg Bool.false_ne_true, if_pos low]

/-- The first process, when it has loaded a program. -/
theorem null_page_guarded_loaded : ∃ km0 k0 k, bootKmem = .ok km0 ∧
    userinit (fun _ => 0) 0 (Kernel.blank km0) = .ok k0 ∧ Trace HeapStep k0 [.exec 0 0] k ∧
      ((k.proc 0).pgdir.pte 0).p = false := by
  obtain ⟨km0, k0, c, boot, start, step, _, canRun, _⟩ := boot_loaded 0 (fun _ => {}) (by decide)
  have run : Trace HeapStep k0 [.exec 0 0] (k0.put 0 c) := .snoc .nil ⟨step, trivial⟩
  have live : ((k0.put 0 c).proc 0).live := by
    rw [Kernel.put_proc]
    exact canRun.1
  exact ⟨km0, k0, _, boot, start, run, (null_page_guarded boot (by decide) (by decide) (by decide) start run (by decide)
    live (.inr (List.mem_singleton_self _))).1⟩

end Runs

/-! ## An empty heap -/

/-- The first process loads a program without a segment, shrinks its heap from one page to nothing, and grows it
again: page 0 is mapped. -/
theorem null_page_mapped : ∃ km0 k0 k, bootKmem = .ok km0 ∧ userinit (fun _ => 0) 0 (Kernel.blank km0) = .ok k0 ∧
    Trace Step k0 [.exec 0 0, .sbrk 0 (-0x800) 0x1000, .sbrk 0 0x1000 0] k ∧
      ((k.proc 0).pgdir.pte 0).p = true ∧ ((k.proc 0).pgdir.pte 0).u = true := by
  obtain ⟨km0, k0, c1, boot, start, step1, loaded, canRun, _, sane0⟩ := boot_loaded 0 (fun _ => {}) (by decide)
  -- the heap shrinks by half a page, twice
  have sane1 := sane0.any bootSymbols step1
  have here1 := sane1.procs 0 (by decide) (by rw [Kernel.put_proc]; exact canRun.1)
  have size1 : ((k0.put 0 c1).ctx 0).cur.sz = 0x1000 := by
    rw [Kernel.put_ctx]
    exact loaded.sz
  have space1 : ((k0.put 0 c1).ctx 0).cur.stackSpace = 0x7fffe000 := by
    rw [Kernel.put_ctx]
    show c1.cur.stackSpace = 0x7fffe000
    rw [Proc.stackSpace, loaded.stack.1]
    decide
  have call2 := sysSbrk_shrinks (m := 0x800) here1.layout (by decide) (by rw [size1])
    (by rw [size1, space1]; decide) (by rw [size1]; decide)
  rw [size1, show 0x1000 - 2 * 0x800 = 0 by norm_num] at call2
  have step2 : Step (.sbrk 0 (-0x800) 0x1000) (k0.put 0 c1) ((k0.put 0 c1).put 0 (((k0.put 0 c1).ctx 0).resize 0)) :=
    .sbrk (by decide) (by rw [Kernel.put_proc]; exact canRun) (by decide) (by decide) call2
  rw [Kernel.put_ctx] at step2
  -- and grows from 0
  generalize isK2 : (k0.put 0 c1).put 0 (Ctx.resize { km := c1.km, cur := c1.cur } 0) = k2 at step2
  have ctx2 : k2.ctx 0 = { km := c1.km, cur := { c1.cur with sz := 0 } } := by
    rw [← isK2, Kernel.put_ctx]
    rfl
  have run2 : (k2.proc 0).canRun := by
    show (k2.ctx 0).cur.canRun
    rw [ctx2]
    exact canRun
  have here2 := (sane1.any bootSymbols step2).procs 0 (by decide) run2.1
  have size2 : (k2.ctx 0).cur.sz = 0 := by rw [ctx2]
  have space2 : 0 + 2 * PGSIZE ≤ (k2.ctx 0).cur.stackSpace := by
    rw [ctx2]
    show 0 + 2 * PGSIZE ≤ c1.cur.stackSpace
    rw [Proc.stackSpace, loaded.stack.1]
    decide
  have absent : ((k2.ctx 0).cur.pgdir.pte 0).p = false := by
    rw [ctx2]
    show (c1.cur.pgdir.pte 0).p = false
    rw [loaded.image.empty 0 (by decide) (.inl rfl) (by decide)]
  obtain ⟨c3, call3, _, ⟨f, entry⟩, _⟩ := @sysSbrk_page (k2.ctx 0) _ _ _ 0 _ here2 (by rw [ctx2]; exact loaded.stack.2)
    (by rw [size2]; rfl) (by rw [size2]; exact space2) (by rw [size2]; exact absent) (by rw [ctx2]; exact loaded.queue)
    (by decide) (by rw [ctx2]; exact loaded.room.mono (by decide))
  rw [size2] at call3 entry
  have step3 : Step (.sbrk 0 0x1000 0) k2 (k2.put 0 c3) := .sbrk (by decide) run2 (by decide) (by decide) call3
  refine ⟨km0, k0, _, boot, start, .snoc (.snoc (.snoc .nil step1) step2) step3, ?_⟩
  rw [Kernel.put_proc, show c3.cur.pgdir.pte 0 = Pte.fresh f from entry]
  exact ⟨rfl, rfl⟩

end Xv6
