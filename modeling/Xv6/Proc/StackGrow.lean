import Xv6.Proc.Tidy
import Xv6.Vm.GrowFailed
import Xv6.Vm.GrowRoom

/-!
# Growing the stack

`growStack` asks `allocuvm` for the one page below the stack and then counts that page as
stack, whatever the answer was. With the limits of `allocuvm` met and memory for the page,
its table and the slot of a victim, the answer is yes.
-/

namespace Xv6
open Fallible

variable {a : Nat} {fresh : Bool} {km : Kmem}

/-- The page below the stack. -/
def Proc.below (p : Proc) : Nat := USERSTACKTOP - p.stacksize - PGSIZE

/-- Every page of the stack is present or paged out. -/
def Proc.StackMapped (p : Proc) : Prop :=
  ∀ v, v < NUPAGES → USERSTACKTOP ≤ v * PGSIZE + p.stacksize → (p.pgdir.pte v).Mapped

/-- One page at least lies between the heap and the stack. -/
def Proc.Guarded (p : Proc) : Prop := PGROUNDUP p.sz + PGSIZE + p.stacksize ≤ USERSTACKTOP

/-- The limits of `allocuvm` allow another page of stack. -/
structure Proc.Deepens (p : Proc) : Prop where
  guard : p.sz + 2 * PGSIZE + p.stacksize ≤ USERSTACKTOP
  half : 2 * (p.stacksize + PGSIZE) ≤ USERSTACKTOP

/-- What a page of stack takes from the free list: the page, its table when there is none
yet, and a page of slots when a victim is to be written and no slot is usable. -/
def Ctx.growthNeeds (c : Ctx) : Nat :=
  1 + (if c.cur.pgdir.pde (PDX c.cur.below) = none then 1 else 0) +
    (if MEM_CAPACITY ≤ c.cur.mq.num ∧ c.cur.vtab.find SLOT_USABLE = none then 1 else 0)

/-- The stack is a page larger. -/
def Ctx.deepen (c : Ctx) : Ctx :=
  { c with cur := { c.cur with stackGrowing := false, stacksize := add32 c.cur.stacksize PGSIZE } }

section Layout

variable {p : Proc} {va : Nat}

theorem Proc.Layout.guarded_iff (layout : p.Layout) : p.Guarded ↔ p.sz ≤ p.stackSpace := by
  have space := stackSpace_le layout
  have aligned := layout.stack
  simp only [Proc.Guarded, PGROUNDUP, USERSTACKTOP, KERNBASE, PGSIZE] at *
  omega

/-- Where the stack can grow. -/
theorem growsStack_bounds (layout : p.Layout) (grows : growsStack va p) :
    p.sz + PGSIZE ≤ va ∧ va + p.stacksize < USERSTACKTOP ∧ p.stacksize + 2 * PGSIZE ≤ USERSTACKTOP := by
  obtain ⟨low, high⟩ := grows
  obtain ⟨aligned, room, heap⟩ := layout
  simp only [add32, sub32, USERSTACKTOP, KERNBASE, PGSIZE] at *
  omega

theorem stack_next (layout : p.Layout) (room : p.stacksize + 2 * PGSIZE ≤ USERSTACKTOP) :
    sub32 (sub32 USERSTACKTOP p.stacksize) PGSIZE = p.below ∧ sub32 USERSTACKTOP p.stacksize = p.below + PGSIZE ∧
      p.below % PGSIZE = 0 ∧ PGSIZE ≤ p.below ∧ p.below + PGSIZE ≤ KERNBASE := by
  have aligned := layout.stack
  simp only [Proc.below, sub32, USERSTACKTOP, KERNBASE, PGSIZE] at *
  omega

theorem below_page (layout : p.Layout) (room : p.stacksize + 2 * PGSIZE ≤ USERSTACKTOP) :
    p.below % PGSIZE = 0 ∧ p.below < KERNBASE ∧ p.below + p.stacksize + PGSIZE = USERSTACKTOP := by
  have aligned := layout.stack
  simp only [Proc.below, USERSTACKTOP, KERNBASE, PGSIZE] at *
  omega

theorem stack_next_page (aligned : a % PGSIZE = 0) : pageRange (PGROUNDUP a) (a + PGSIZE) = [a] := by
  have round : PGROUNDUP a = a := by
    simp only [PGROUNDUP, PGSIZE] at *
    omega
  have one : (a + PGSIZE - a + PGSIZE - 1) / PGSIZE = 1 := by
    simp only [PGSIZE]
    omega
  rw [round, pageRange, one]
  simp

/-- `allocuvm` refuses a page of stack exactly at its limits. -/
theorem deepens_iff (layout : p.Layout) (growing : p.stackGrowing = true)
    (room : p.stacksize + 2 * PGSIZE ≤ USERSTACKTOP) :
    ¬ growRefused p p.below (p.below + PGSIZE) ↔ p.Deepens := by
  have aligned := layout.stack
  have heap := layout.heap
  have isSpace : p.stackSpace = p.below := (stack_next layout room).1
  have next : sub32 p.below PGSIZE = p.below - PGSIZE ∧ add32 p.stacksize PGSIZE = p.stacksize + PGSIZE := by
    simp only [Proc.below, sub32, add32, USERSTACKTOP, KERNBASE, PGSIZE] at *
    omega
  simp only [growRefused, isSpace, growing, next.1, next.2, true_and, Bool.true_eq_false, false_and, false_or]
  constructor
  · intro accepted
    have guard : ¬ p.below - PGSIZE < p.sz := fun near => accepted (.inl near)
    have half : ¬ p.below < p.stacksize + PGSIZE := fun deep => accepted (.inr (.inl deep))
    constructor
    · simp only [Proc.below, USERSTACKTOP, PGSIZE] at guard room ⊢
      omega
    · have isBelow : p.below + p.stacksize + PGSIZE = USERSTACKTOP := by
        simp only [Proc.below, USERSTACKTOP, PGSIZE] at room ⊢
        omega
      omega
  · rintro ⟨guard, half⟩ refused
    simp only [Proc.below, USERSTACKTOP, KERNBASE, PGSIZE] at *
    omega

theorem stack_deeper (room : p.stacksize + 2 * PGSIZE ≤ USERSTACKTOP) :
    add32 p.stacksize PGSIZE = p.stacksize + PGSIZE := by
  simp only [add32, USERSTACKTOP, PGSIZE] at *
  omega

end Layout

section Grow

variable {kend kdata lo va : Nat} {c c' : Ctx}

/-- What a call of `growStack` that returns has done. -/
inductive Deepened (c : Ctx) : Ctx → Prop where
  | refused : ¬ c.cur.Deepens → Deepened c (c.flag true).kill.deepen
  | failed {fresh : Bool} {p : Proc} {km : Kmem} {c1 : Ctx} : c.cur.Deepens →
      makeRoom c.cur.below true (c.flag true).cur c.km = .ok (fresh, p, km) →
      growPage .cur c.cur.below (c.cur.below + PGSIZE) c.cur.below { c with cur := p, km := km } = .ok (false, c1) →
      Deepened c c1.kill.deepen
  | grown {fresh : Bool} {p : Proc} {km : Kmem} {c1 : Ctx} : c.cur.Deepens →
      makeRoom c.cur.below true (c.flag true).cur c.km = .ok (fresh, p, km) →
      growPage .cur c.cur.below (c.cur.below + PGSIZE) c.cur.below { c with cur := p, km := km } = .ok (true, c1) →
      Deepened c c1.deepen

section

variable (layout : c.cur.Layout) (room : c.cur.stacksize + 2 * PGSIZE ≤ USERSTACKTOP)
include layout room

/-- The call that `growStack` makes. -/
theorem growStack_eq :
    growStack c = (allocuvm .cur c.cur.below (c.cur.below + PGSIZE) (c.flag true) >>= fun r =>
      .ok (if r.1 = 0 then r.2.kill else r.2).deepen) := by
  obtain ⟨bottom, top, _⟩ := stack_next layout room
  rw [← top, ← bottom]
  rfl

/-- The loop of `allocuvm` for one page of stack. -/
theorem allocuvm_below
    (deepens : c.cur.Deepens) :
    allocuvm .cur c.cur.below (c.cur.below + PGSIZE) (c.flag true) =
      allocLoop .cur c.cur.below (c.cur.below + PGSIZE) [c.cur.below] true (c.flag true) := by
  obtain ⟨_, _, aligned, _, _⟩ := stack_next layout room
  have accepted : ¬ growRefused (c.flag true).cur c.cur.below (c.cur.below + PGSIZE) :=
    (deepens_iff (p := (c.flag true).cur) ⟨layout.stack, layout.room, layout.heap⟩ rfl room).2
      ⟨deepens.guard, deepens.half⟩
  rw [allocuvm, if_neg accepted, if_neg (Nat.not_lt.2 (Nat.le_add_right _ _)), stack_next_page aligned]

theorem growStack_refused
    (shallow : ¬ c.cur.Deepens) : growStack c = .ok (c.flag true).kill.deepen := by
  have refused : growRefused (c.flag true).cur c.cur.below (c.cur.below + PGSIZE) := by
    by_contra accepted
    have := (deepens_iff (p := (c.flag true).cur) ⟨layout.stack, layout.room, layout.heap⟩ rfl room).1 accepted
    exact shallow ⟨this.guard, this.half⟩
  rw [growStack_eq layout room, allocuvm, if_pos refused]
  rfl

theorem growStack_ok
    (call : growStack c = .ok c') : Deepened c c' := by
  by_cases deepens : c.cur.Deepens
  · rw [growStack_eq layout room] at call
    obtain ⟨⟨r, c1⟩, alloc, rest⟩ := bind_ok.1 call
    rw [allocuvm_below layout room deepens] at alloc
    obtain ⟨⟨fresh, p, km⟩, make, rest1⟩ := bind_ok.1 alloc
    obtain ⟨⟨ok, c2⟩, page, rest2⟩ := bind_ok.1 rest1
    cases ok with
    | true =>
      cases rest2
      have nonzero : c.cur.below + PGSIZE ≠ 0 := by
        simp only [PGSIZE]
        omega
      simp only [if_neg nonzero] at rest
      cases rest
      exact .grown deepens make page
    | false =>
      cases rest2
      cases rest
      exact .failed deepens make page
  · rw [growStack_refused layout room deepens] at call
    cases call
    exact .refused deepens

end

/-- What eviction does to the entries: a present page may become paged out. -/
theorem makeRoom_evicts {fresh' : Bool} {p p' : Proc} {km' : Kmem} (call : makeRoom a fresh p km = .ok (fresh', p', km'))
    (v : Nat) : p'.pgdir.pte v = p.pgdir.pte v ∨ p'.pgdir.pte v = Pte.out ∧ (p.pgdir.pte v).p = true := by
  rcases makeRoom_ok call with ⟨l, p1, _, write, _, rfl⟩ | ⟨mq, _, _, _, _, _, rfl⟩ | ⟨_, _, _, _, rfl⟩
  · obtain ⟨mq, j, t, km1, e, n, files, _, _, found, present, _, _, _, rfl⟩ := fifoWrite_ok write
    show (p.pgdir.set _ Pte.out).pte v = _ ∨ (p.pgdir.set _ Pte.out).pte v = _ ∧ _
    rw [PgDir.set_pte]
    split
    · rename_i here
      obtain ⟨_, entry⟩ := walkpgdir_some.1 found
      exact .inr ⟨rfl, by rw [here, entry]; exact present⟩
    · exact .inl rfl
  · exact .inl rfl
  · exact .inl rfl

/-- What eviction takes from the free list. -/
theorem makeRoom_free {fresh' : Bool} {p p' : Proc} {km' : Kmem} (call : makeRoom a fresh p km = .ok (fresh', p', km')) :
    km.freelist.length ≤ km'.freelist.length +
      if MEM_CAPACITY ≤ p.mq.num ∧ p.vtab.find SLOT_USABLE = none then 1 else 0 := by
  rcases makeRoom_ok call with ⟨l, p1, full, write, _, _⟩ | ⟨mq, _, _, _, rfl, _, _⟩ | ⟨_, _, _, rfl, _⟩
  · obtain ⟨mq, j, t, km1, e, n, files, _, slot, _, _, _, _, free, _⟩ := fifoWrite_ok write
    have freed := kfree_free free
    rcases takeSlot_ok slot with ⟨_, _, rfl⟩ | ⟨f, none, got, _⟩
    · omega
    · rw [if_pos ⟨full, none⟩]
      have taken := congrArg List.length (kalloc_some got).1
      rw [List.length_cons] at taken
      omega
  · omega
  · omega

/-- A page and its table are all that `growPage` needs. -/
theorem growPage_grows {oldsz newsz : Nat} {ok : Bool} (aligned : a % PGSIZE = 0) (user : a < KERNBASE)
    (free : 1 + (if c.cur.pgdir.pde (PDX a) = none then 1 else 0) ≤ c.km.freelist.length)
    (call : growPage .cur oldsz newsz a c = .ok (ok, c')) : ok = true := by
  cases ok with
  | true => rfl
  | false =>
    rcases growPage_failed aligned user call with ⟨_, none, _⟩ | ⟨f, km1, _, _, _, got, walk, _⟩
    · rw [(kalloc_none none).2] at free
      simp at free
    · have taken := congrArg List.length (kalloc_some got).1
      rw [List.length_cons] at taken
      unfold walkpgdirAlloc at walk
      split at walk
      · cases walk
      · rename_i missing
        split at walk
        · rename_i empty
          have noTable : c.cur.pgdir.pde (PDX a) = none := missing
          have last : km1.freelist = [] := (kalloc_none empty).2
          rw [if_pos noTable, taken, last] at free
          simp at free
        · cases walk

/-- The table after a page of the process's own has been mapped. -/
theorem growPage_fresh {oldsz newsz : Nat} (wf : c.cur.pgdir.Wf) (aligned : a % PGSIZE = 0) (user : a < KERNBASE)
    (call : growPage .cur oldsz newsz a c = .ok (true, c')) :
    ∃ f, ∀ v, c'.cur.pgdir.pte v = if v = a / PGSIZE then Pte.fresh f else c.cur.pgdir.pte v := by
  obtain ⟨f, km1, d, _, walk, _, after⟩ := growPage_ok aligned user call
  have table : c'.cur.pgdir = d.set a (Pte.fresh f) := congrArg (fun c : Ctx => c.cur.pgdir) after
  obtain ⟨ext, _, _⟩ := walkpgdirAlloc_ext (d := c.cur.pgdir) wf walk
  exact ⟨f, fun v => by rw [table, PgDir.set_pte, ext.pte]⟩

end Grow

section Deepened

variable {kend kdata lo : Nat} {c c' : Ctx}

theorem Deepened.fields (deepened : Deepened c c') (layout : c.cur.Layout)
    (room : c.cur.stacksize + 2 * PGSIZE ≤ USERSTACKTOP) :
    c'.cur.sz = c.cur.sz ∧ c'.cur.stacksize = c.cur.stacksize + PGSIZE ∧ c'.cur.stackGrowing = false := by
  obtain ⟨aligned, user, _⟩ := below_page layout room
  have deeper := stack_deeper room
  have same : ∀ {fresh ok : Bool} {p : Proc} {km : Kmem} {c1 : Ctx},
      makeRoom c.cur.below true (c.flag true).cur c.km = .ok (fresh, p, km) →
      growPage .cur c.cur.below (c.cur.below + PGSIZE) c.cur.below { c with cur := p, km := km } = .ok (ok, c1) →
      c1.cur.sz = c.cur.sz ∧ c1.cur.stacksize = c.cur.stacksize := by
    intro fresh ok p km c1 make page
    exact ((makeRoom_same make).1.trans (growPage_same aligned user page).1).sizes
  cases deepened with
  | refused => exact ⟨rfl, deeper, rfl⟩
  | failed _ make page =>
    obtain ⟨sz, stack⟩ := same make page
    simp only [Ctx.deepen, Ctx.kill, sz, stack, deeper, and_self]
  | grown _ make page =>
    obtain ⟨sz, stack⟩ := same make page
    simp only [Ctx.deepen, sz, stack, deeper, and_self]

/-- No entry but that of the page below the stack comes to map a page, and none is lost. -/
theorem Deepened.entries (deepened : Deepened c c') (sane : c.Sane kend kdata lo)
    (room : c.cur.stacksize + 2 * PGSIZE ≤ USERSTACKTOP) (v : Nat) :
    ((c.cur.pgdir.pte v).Mapped → (c'.cur.pgdir.pte v).Mapped) ∧
      ((c'.cur.pgdir.pte v).Mapped → (c.cur.pgdir.pte v).Mapped ∨ v = c.cur.below / PGSIZE) := by
  obtain ⟨aligned, user, _⟩ := below_page sane.layout room
  have evicted : ∀ {fresh : Bool} {p : Proc} {km : Kmem},
      makeRoom c.cur.below true (c.flag true).cur c.km = .ok (fresh, p, km) →
      ((c.cur.pgdir.pte v).Mapped ↔ (p.pgdir.pte v).Mapped) := by
    intro fresh p km make
    rcases makeRoom_evicts make v with same | ⟨out, present⟩
    · rw [same]
      rfl
    · rw [out]
      exact iff_of_true (.inl present) Pte.mapped_out
  cases deepened with
  | refused => exact ⟨id, .inl⟩
  | @failed fresh p km c1 _ make page =>
    have kept : c1.cur.pgdir = p.pgdir := (growPage_failed_cur aligned user page).2
    show ((c.cur.pgdir.pte v).Mapped → (c1.cur.pgdir.pte v).Mapped) ∧ ((c1.cur.pgdir.pte v).Mapped → _)
    rw [kept]
    exact ⟨(evicted make).1, fun mapped => .inl ((evicted make).2 mapped)⟩
  | @grown fresh p km c1 _ make page =>
    have wf : p.pgdir.Wf := (makeRoom_good (p := (c.flag true).cur) ⟨sane.table.wf, sane.queue⟩ user make).1.table
    obtain ⟨f, entry⟩ := growPage_fresh wf aligned user page
    show ((c.cur.pgdir.pte v).Mapped → (c1.cur.pgdir.pte v).Mapped) ∧ ((c1.cur.pgdir.pte v).Mapped → _)
    rw [entry]
    split
    · rename_i here
      exact ⟨fun _ => Pte.mapped_fresh f, fun _ => .inr here⟩
    · exact ⟨(evicted make).1, fun mapped => .inl ((evicted make).2 mapped)⟩

/-- There is memory for the page. -/
theorem below_grows {ok : Bool} {p : Proc} (sane : c.Sane kend kdata lo) (room : c.cur.stacksize + 2 * PGSIZE ≤ USERSTACKTOP)
    (free : c.growthNeeds ≤ c.km.freelist.length)
    (make : makeRoom c.cur.below true (c.flag true).cur c.km = .ok (fresh, p, km))
    (page : growPage .cur c.cur.below (c.cur.below + PGSIZE) c.cur.below { c with cur := p, km := km } = .ok (ok, c')) :
    ok = true := by
  obtain ⟨aligned, user, _⟩ := below_page sane.layout room
  have kept := makeRoom_free make
  have tables : p.pgdir.pde = c.cur.pgdir.pde :=
    (makeRoom_good (p := (c.flag true).cur) ⟨sane.table.wf, sane.queue⟩ user make).2.1.pde
  have enough : 1 + (if p.pgdir.pde (PDX c.cur.below) = none then 1 else 0) ≤ km.freelist.length := by
    rw [tables]
    have needs : c.growthNeeds = 1 + (if c.cur.pgdir.pde (PDX c.cur.below) = none then 1 else 0) +
      (if MEM_CAPACITY ≤ (c.flag true).cur.mq.num ∧ (c.flag true).cur.vtab.find SLOT_USABLE = none then 1 else 0) := rfl
    omega
  exact growPage_grows (c := { c with cur := p, km := km }) aligned user enough page

/-- **With the limits met and memory for it, the stack grows.** -/
theorem Deepened.succeeds (deepened : Deepened c c') (sane : c.Sane kend kdata lo)
    (room : c.cur.stacksize + 2 * PGSIZE ≤ USERSTACKTOP) (deepens : c.cur.Deepens)
    (free : c.growthNeeds ≤ c.km.freelist.length) :
    ∃ f, c'.cur.pgdir.pte (c.cur.below / PGSIZE) = Pte.fresh f := by
  obtain ⟨aligned, user, _⟩ := below_page sane.layout room
  cases deepened with
  | refused refused => exact absurd deepens refused
  | failed _ make page => exact absurd (below_grows sane room free make page) Bool.false_ne_true
  | @grown fresh p km c1 _ make page =>
    have wf : p.pgdir.Wf := (makeRoom_good (p := (c.flag true).cur) ⟨sane.table.wf, sane.queue⟩ user make).1.table
    obtain ⟨f, entry⟩ := growPage_fresh wf aligned user page
    refine ⟨f, ?_⟩
    show c1.cur.pgdir.pte (c.cur.below / PGSIZE) = Pte.fresh f
    rw [entry, if_pos rfl]

end Deepened

/-! ## Repeated faults -/

/-- The pages from `va` up to the stack are unmapped. -/
def Proc.Clear (va : Nat) (p : Proc) : Prop :=
  ∀ v, va / PGSIZE ≤ v → v * PGSIZE + p.stacksize < USERSTACKTOP → p.pgdir.pte v = {}

/-- The access to `va`, made again after each fault, finds its page, or the process killed. -/
inductive Settles (va : Nat) : Ctx → Prop where
  | mapped {c : Ctx} : (c.cur.pgdir.pte (va / PGSIZE)).p = true → Settles va c
  | killed {c : Ctx} : c.cur.killed = true → Settles va c
  | again {c c' : Ctx} : castPageFault (presentFlag va c.cur.pgdir) va c = .ok c' → Settles va c' → Settles va c

section Settles

variable {kend kdata lo va : Nat} {c c' : Ctx}

/-- `deallocuvm` has nothing to do for a page that was never mapped. -/
theorem dealloc_unmapped (aligned : a % PGSIZE = 0) (user : a < KERNBASE) (empty : c.cur.pgdir.pte (a / PGSIZE) = {}) :
    c.dealloc .cur (a + PGSIZE) a = .ok (a, c) := by
  have round : PGROUNDUP a = a := by
    simp only [PGROUNDUP, PGSIZE] at *
    omega
  have fuel : (a + PGSIZE - a) / PGSIZE + 1 = 2 := by
    simp only [PGSIZE]
    omega
  have larger : ¬ a + PGSIZE ≤ a := by
    simp only [PGSIZE]
    omega
  have loop : deallocLoop true (a + PGSIZE) 2 a c.cur.pgdir c.cur.vtab c.km = .ok (c.cur.pgdir, c.cur.vtab, c.km) := by
    rw [deallocLoop, if_neg larger]
    split
    · have jump : a + PGSIZE ≤ (PDX a + 1) * 0x400000 := by
        simp only [PDX, PGSIZE, KERNBASE] at *
        omega
      rw [deallocLoop, if_pos jump]
    · rename_i e found
      obtain ⟨_, rfl⟩ := walkpgdir_some.1 found
      rw [empty, if_neg (by decide), if_neg (by decide), deallocLoop, if_pos (Nat.le_refl _)]
  have call : deallocuvm true (a + PGSIZE) a c.cur.pgdir c.cur.vtab c.km =
      .ok (a, c.cur.pgdir, c.cur.vtab, c.km) := by
    rw [deallocuvm, if_neg larger, round, fuel, loop]
    rfl
  exact bind_ok.2 ⟨_, call, rfl⟩

/-- `growPage` returns on a page that was never mapped. -/
theorem growPage_returns (memory : c.km.Sound kend kdata) (wf : c.cur.pgdir.Wf) (aligned : a % PGSIZE = 0)
    (user : a < KERNBASE) (empty : c.cur.pgdir.pte (a / PGSIZE) = {}) : ∃ r, growPage .cur a (a + PGSIZE) a c = .ok r := by
  unfold growPage
  split
  · rename_i km none
    exact ⟨(false, { c with km := km }), bind_ok.2 ⟨_, dealloc_unmapped (c := { c with km := km }) aligned user empty, rfl⟩⟩
  · rename_i f km1 got
    obtain ⟨memory1, frame⟩ := memory.kalloc got
    obtain ⟨b, d1, km2, walk, ext, table, map, _⟩ := mapPage_returns Pte.user a (f * PGSIZE) wf (km1.zero f)
      (show (c.cur.pgdir.pte (a / PGSIZE)).p = false by rw [empty])
    rw [← mappages_page aligned user] at map
    cases b with
    | true => exact ⟨_, bind_ok.2 ⟨_, map, rfl⟩⟩
    | false =>
      obtain ⟨rfl, rfl⟩ := walkpgdirAlloc_failed walk
      have zeroed : ∃ km3, kfree (P2V (f * PGSIZE)) (km1.zero f) = .ok km3 := kfree_frame memory1.isEnd frame
      obtain ⟨km3, freed⟩ := zeroed
      refine ⟨(false, { c with km := km3 }), bind_ok.2 ⟨_, map, ?_⟩⟩
      refine bind_ok.2 ⟨_, dealloc_unmapped (c := { c with km := km1.zero f }) aligned user empty, ?_⟩
      exact bind_ok.2 ⟨_, freed, rfl⟩

/-- The fault returns while the queue has room for the page. -/
theorem growStack_returns (sane : c.Sane kend kdata lo) (tidy : c.cur.Tidy)
    (room : c.cur.stacksize + 2 * PGSIZE ≤ USERSTACKTOP) (empty : c.cur.pgdir.pte (c.cur.below / PGSIZE) = {})
    (capacity : c.cur.mq.num < MEM_CAPACITY) : ∃ c', growStack c = .ok c' := by
  obtain ⟨aligned, user, _⟩ := below_page sane.layout room
  by_cases deepens : c.cur.Deepens
  · rw [growStack_eq sane.layout room, allocuvm_below sane.layout room deepens]
    obtain ⟨q, add, num⟩ := tidy.queue.add_exists capacity c.cur.below
    have make : makeRoom c.cur.below true (c.flag true).cur c.km = .ok (true, { (c.flag true).cur with mq := q }, c.km) := by
      refine bind_ok.2 ⟨(true, (c.flag true).cur, c.km), ?_, bind_ok.2 ⟨q, add, rfl⟩⟩
      exact if_neg (Nat.not_le.2 capacity)
    obtain ⟨⟨ok, c1⟩, page⟩ := growPage_returns (c := { c with cur := { (c.flag true).cur with mq := q } })
      sane.memory sane.table.wf aligned user empty
    have loop : ∃ r, allocLoop .cur c.cur.below (c.cur.below + PGSIZE) [c.cur.below] true (c.flag true) = .ok r := by
      cases ok with
      | true => exact ⟨_, bind_ok.2 ⟨_, make, bind_ok.2 ⟨_, page, rfl⟩⟩⟩
      | false => exact ⟨_, bind_ok.2 ⟨_, make, bind_ok.2 ⟨_, page, rfl⟩⟩⟩
    obtain ⟨r, loop⟩ := loop
    exact ⟨_, bind_ok.2 ⟨r, loop, rfl⟩⟩
  · exact ⟨_, growStack_refused sane.layout room deepens⟩

/-- The stack has got its page, and nothing else has changed. -/
structure GrewQuietly (c c' : Ctx) : Prop where
  num : c'.cur.mq.num = c.cur.mq.num + 1
  page : ∃ f, c'.cur.pgdir.pte (c.cur.below / PGSIZE) = Pte.fresh f
  others : ∀ v, v ≠ c.cur.below / PGSIZE → c'.cur.pgdir.pte v = c.cur.pgdir.pte v

/-- Below the capacity of the queue nothing is evicted. -/
theorem Deepened.quiet (deepened : Deepened c c') (sane : c.Sane kend kdata lo)
    (room : c.cur.stacksize + 2 * PGSIZE ≤ USERSTACKTOP) (capacity : c.cur.mq.num < MEM_CAPACITY) :
    GrewQuietly c c' ∨ c'.cur.killed = true ∧ ¬ (c.cur.Deepens ∧ c.growthNeeds ≤ c.km.freelist.length) := by
  obtain ⟨aligned, user, _⟩ := below_page sane.layout room
  cases deepened with
  | refused refused => exact .inr ⟨rfl, fun both => refused both.1⟩
  | failed _ make page =>
    exact .inr ⟨rfl, fun both => Bool.false_ne_true (below_grows sane room both.2 make page)⟩
  | @grown fresh p km c1 _ make page =>
    left
    have queue : c1.cur.mq = p.mq := (growPage_same aligned user page).2.1
    rcases makeRoom_ok make with ⟨_, _, full, _, _, _⟩ | ⟨mq, _, _, _, _, add, isP⟩ | ⟨_, unset, _, _, _⟩
    · exact absurd capacity (Nat.not_lt.2 full)
    · have num := (UserQueue.add_page (q := c.cur.mq) sane.queue user add).2.2
      have same : p.pgdir = c.cur.pgdir := by rw [isP]; rfl
      obtain ⟨f, entry⟩ := growPage_fresh (c := { c with cur := p, km := km }) (same ▸ sane.table.wf) aligned user page
      refine ⟨?_, ⟨f, ?_⟩, fun v other => ?_⟩
      · show c1.cur.mq.num = c.cur.mq.num + 1
        rw [queue, isP]
        exact num
      · show c1.cur.pgdir.pte (c.cur.below / PGSIZE) = Pte.fresh f
        rw [entry, if_pos rfl]
      · show c1.cur.pgdir.pte v = c.cur.pgdir.pte v
        rw [entry, if_neg other, same]
    · cases unset

/-- With room for the page the stack grows, and the rest of the room is left. -/
theorem Deepened.room {n : Nat} (deepened : Deepened c c') (sane : c.Sane kend kdata lo)
    (fits : c.cur.stacksize + 2 * PGSIZE ≤ USERSTACKTOP) (capacity : c.cur.mq.num < MEM_CAPACITY)
    (empty : c.cur.pgdir.pte (c.cur.below / PGSIZE) = {}) (deepens : c.cur.Deepens)
    (room : Room (n + 1) c.cur.pgdir c.km) : GrewQuietly c c' ∧ Room n c'.cur.pgdir c'.km := by
  obtain ⟨aligned, user, _⟩ := below_page sane.layout fits
  -- `makeRoom` only links a record, so `growPage` runs with the room there was
  have grows : ∀ {fresh ok : Bool} {p : Proc} {km : Kmem} {c1 : Ctx},
      makeRoom c.cur.below true (c.flag true).cur c.km = .ok (fresh, p, km) →
      growPage .cur c.cur.below (c.cur.below + PGSIZE) c.cur.below { c with cur := p, km := km } = .ok (ok, c1) →
      ok = true ∧ Room n c1.cur.pgdir c1.km := by
    intro fresh ok p km c1 make page
    rcases makeRoom_ok make with ⟨_, _, full, _, _, _⟩ | ⟨mq, _, _, _, rfl, _, rfl⟩ | ⟨_, unset, _, _, _⟩
    · exact absurd capacity (Nat.not_lt.2 full)
    · obtain ⟨c2, again, room2, _⟩ := growPage_room
        (c := { c with cur := { (c.flag true).cur with mq := mq } }) .cur c.cur.below (c.cur.below + PGSIZE) aligned user
        sane.table.wf (by show (c.cur.pgdir.pte (c.cur.below / PGSIZE)).p = false; rw [empty]) room
      cases again.symm.trans page
      exact ⟨rfl, room2⟩
    · cases unset
  cases deepened with
  | refused refused => exact absurd deepens refused
  | failed _ make page => exact absurd (grows make page).1 Bool.false_ne_true
  | @grown fresh p km c1 isDeep make page =>
    have quiet := (Deepened.grown isDeep make page).quiet sane fits capacity
    have left : Room n c1.deepen.cur.pgdir c1.deepen.km := by
      simp only [Ctx.deepen]
      exact (grows make page).2
    refine ⟨quiet.resolve_right fun killed => killed.2 ⟨deepens, ?_⟩, left⟩
    have few : ¬ (MEM_CAPACITY ≤ c.cur.mq.num ∧ c.cur.vtab.find SLOT_USABLE = none) := fun full => by omega
    have table : c.cur.pgdir.pde (PDX c.cur.below) = none → 1 ≤ c.cur.pgdir.missing := PgDir.missing_pos
    unfold Room at room
    rw [Ctx.growthNeeds, if_neg few]
    split
    · rename_i missing
      have := table missing
      omega
    · omega

/-- A fault in the gap is a request for the page below the stack. -/
theorem castPageFault_gap (layout : c.cur.Layout) (grows : growsStack va c.cur)
    (empty : c.cur.pgdir.pte (va / PGSIZE) = {}) :
    castPageFault (presentFlag va c.cur.pgdir) va c = growStack c := by
  obtain ⟨low, _, _⟩ := growsStack_bounds layout grows
  have absent : presentFlag va c.cur.pgdir = false := presentFlag_false (by rw [empty])
  have inside : pagedOut va c.cur.pgdir = false := pagedOut_false (by rw [empty])
  have above : ¬ va < PGSIZE := by omega
  rw [castPageFault, absent, if_neg Bool.false_ne_true, if_neg above, inside, if_neg Bool.false_ne_true, if_pos grows]

/-- `n` pages, all unmapped, lie between `va` and the page below the stack, and the queue has room for them. -/
structure Gap (va n : Nat) (c : Ctx) : Prop where
  grows : growsStack va c.cur
  clear : c.cur.Clear va
  here : c.cur.below / PGSIZE = va / PGSIZE + n
  capacity : c.cur.mq.num + n < MEM_CAPACITY

section Gap

variable {n : Nat}

theorem Gap.of_clear (layout : c.cur.Layout) (grows : growsStack va c.cur) (clear : c.cur.Clear va)
    (capacity : c.cur.mq.num + (c.cur.below / PGSIZE - va / PGSIZE) < MEM_CAPACITY) :
    Gap va (c.cur.below / PGSIZE - va / PGSIZE) c := by
  obtain ⟨_, high, room⟩ := growsStack_bounds layout grows
  refine ⟨grows, clear, ?_, capacity⟩
  have aligned := layout.stack
  simp only [Proc.below, USERSTACKTOP, PGSIZE] at high aligned ⊢
  omega

theorem Gap.below_eq (gap : Gap va n c) (layout : c.cur.Layout) :
    c.cur.stacksize + 2 * PGSIZE ≤ USERSTACKTOP ∧ c.cur.below + c.cur.stacksize + PGSIZE = USERSTACKTOP ∧
      c.cur.below / PGSIZE * PGSIZE = c.cur.below := by
  obtain ⟨_, _, room⟩ := growsStack_bounds layout gap.grows
  obtain ⟨aligned, _, below⟩ := below_page layout room
  refine ⟨room, below, ?_⟩
  simp only [PGSIZE] at aligned ⊢
  omega

theorem Gap.empty (gap : Gap va n c) (layout : c.cur.Layout) :
    c.cur.pgdir.pte (va / PGSIZE) = {} ∧ c.cur.pgdir.pte (c.cur.below / PGSIZE) = {} := by
  obtain ⟨_, high, _⟩ := growsStack_bounds layout gap.grows
  obtain ⟨_, below, page⟩ := gap.below_eq layout
  have here := gap.here
  constructor
  · refine gap.clear _ (Nat.le_refl _) ?_
    have := Nat.div_mul_le_self va PGSIZE
    omega
  · refine gap.clear _ (by omega) ?_
    rw [page]
    simp only [PGSIZE] at below
    omega

/-- The fault in a gap returns. -/
theorem Gap.fault (gap : Gap va n c) (sane : c.Sane kend kdata lo) (tidy : c.cur.Tidy) :
    ∃ c', castPageFault (presentFlag va c.cur.pgdir) va c = .ok c' ∧ Deepened c c' := by
  have room := (gap.below_eq sane.layout).1
  obtain ⟨empty, emptyBelow⟩ := gap.empty sane.layout
  have capacity := gap.capacity
  obtain ⟨c', grow⟩ := growStack_returns sane tidy room emptyBelow (by omega)
  exact ⟨c', (castPageFault_gap sane.layout gap.grows empty).trans grow, growStack_ok sane.layout room grow⟩

/-- A page more of stack leaves a page less of the gap. -/
theorem Gap.next (gap : Gap va (n + 1) c) (layout : c.cur.Layout) (deepened : Deepened c c') (quiet : GrewQuietly c c') :
    Gap va n c' := by
  obtain ⟨room, below, page⟩ := gap.below_eq layout
  obtain ⟨sz, stack, _⟩ := deepened.fields layout room
  obtain ⟨grows, clear, here, capacity⟩ := gap
  have next : c'.cur.below + PGSIZE = c.cur.below := by
    simp only [Proc.below, stack, USERSTACKTOP, PGSIZE] at *
    omega
  constructor
  · simp only [growsStack, sz, stack, add32, sub32, USERSTACKTOP, PGSIZE] at *
    omega
  · intro v low under
    rw [quiet.others v ?_]
    · exact clear v low (by omega)
    · intro isBelow
      rw [isBelow, page] at under
      omega
  · simp only [PGSIZE] at *
    omega
  · rw [quiet.num]
    omega

end Gap

/-- **Repeating the access settles**: by induction on the pages between `va` and the stack. -/
theorem settles (first : lo ≤ 1) (n : Nat) :
    ∀ c : Ctx, c.Sane kend kdata lo → c.cur.Tidy → Gap va n c → Settles va c := by
  induction n with
  | zero =>
    intro c sane tidy gap
    obtain ⟨c', call, deepened⟩ := gap.fault sane tidy
    refine .again call ?_
    rcases deepened.quiet sane (gap.below_eq sane.layout).1 gap.capacity with quiet | ⟨killed, _⟩
    · obtain ⟨f, page⟩ := quiet.page
      rw [gap.here, Nat.add_zero] at page
      exact .mapped (by rw [page]; rfl)
    · exact .killed killed
  | succ n ih =>
    intro c sane tidy gap
    have capacity := gap.capacity
    obtain ⟨c', call, deepened⟩ := gap.fault sane tidy
    refine .again call ?_
    rcases deepened.quiet sane (gap.below_eq sane.layout).1 (by omega) with quiet | ⟨killed, _⟩
    · exact ih c' (castPageFault_sane sane first call).sane (castPageFault_tidy sane tidy call)
        (gap.next sane.layout deepened quiet)
    · exact .killed killed

end Settles

end Xv6
