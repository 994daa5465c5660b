import Xv6.Proc.Reach
import Xv6.Mem.QueueHolds

/-!
# Counted queues and plain tables

Two facts hold of a process in any run, whatever its page replacement has done: the
resident queue never counts fewer pages than it has records, and an entry of the page
table that is neither present nor paged out is empty. The queue then has a record for
every page as long as its count is below the capacity.
-/

namespace Xv6
open Fallible Runs Function List

variable {created : Nat → Inode}

/-- The queue is a chain of full length that counts at least its records. -/
def MemQueue.Fits (q : MemQueue) : Prop :=
  ∃ l, q.Wf l ∧ l.length ≤ q.num ∧ q.pages.length = NUM_MEM_PAGES

section Queue

variable {q q' q1 : MemQueue} {a l : Nat} {few null : String}

theorem MemQueue.Fits.clear (chain : q.pages.length = NUM_MEM_PAGES) : (memClear q).Fits :=
  ⟨[], memClear_wf q, Nat.zero_le _, chain⟩

theorem MemQueue.Fits.chain (fits : q.Fits) : q.pages.length = NUM_MEM_PAGES := by
  obtain ⟨_, _, _, chain⟩ := fits
  exact chain

theorem MemQueue.Fits.add_page (fits : q.Fits) (user : a < KERNBASE) (call : addPage a q = .ok q') : q'.Fits := by
  obtain ⟨q2, found, rest⟩ := bind_ok.1 call
  cases rest
  obtain ⟨i, bound, usable, rfl⟩ := findSlot_ok found
  obtain ⟨m, wf, count, chain⟩ := fits
  have fresh : i ∉ m := fun mem => ((wf.used i).1 mem).2 usable
  have linked := wf.link_front fresh bound (user_not_usable user)
  refine ⟨i :: m, ⟨linked.rep, linked.used, linked.unlinked⟩, ?_, ?_⟩
  · show (i :: m).length ≤ (q.linkFront i a).num + 1
    rw [linkFront_num, length_cons]
    omega
  · exact (linkFront_pages q i a).symm ▸ chain

/-- Below the capacity there is a record for the page. -/
theorem MemQueue.Fits.add_exists (fits : q.Fits) (room : q.num < MEM_CAPACITY) (a : Nat) :
    ∃ q', addPage a q = .ok q' ∧ q'.num = q.num + 1 := by
  obtain ⟨m, wf, count, chain⟩ := fits
  have slots : q.slots = MEM_CAPACITY := by
    rw [MemQueue.slots, chain]
    rfl
  obtain ⟨i, _, _, found⟩ := wf.find_slot (by omega) a
  refine ⟨{ q.linkFront i a with num := (q.linkFront i a).num + 1 }, bind_ok.2 ⟨_, found, rfl⟩, ?_⟩
  show (q.linkFront i a).num + 1 = q.num + 1
  rw [linkFront_num]

theorem MemQueue.Fits.recycle (fits : q.Fits) (user : a < KERNBASE) (taken : takeLast few null q = .ok (l, q1)) :
    (q1.linkFront l a).Fits := by
  obtain ⟨m, wf, count, chain⟩ := fits
  obtain ⟨_, _, _, _, _, num, pages, _⟩ := takeLast_ok taken
  obtain ⟨m', rfl, _, wf', _⟩ := wf.recycle taken (user_not_usable user)
  refine ⟨l :: m', wf', ?_, ?_⟩
  · rw [linkFront_num, num]
    rw [length_append, length_singleton] at count
    rw [length_cons]
    exact count
  · rw [linkFront_pages, pages, chain]

theorem MemQueue.Fits.copy {dst : MemQueue} (fits : q.Fits) (full : dst.pages.length = NUM_MEM_PAGES)
    (call : copyQueue dst q = .ok q') : q'.Fits := by
  obtain ⟨m, wf, count, _⟩ := fits
  obtain ⟨q2, copy, wf', _, num, pages⟩ := wf.copy_queue dst (wf.copy_room call)
  cases copy.symm.trans call
  refine ⟨List.range m.length, wf', ?_, ?_⟩
  · rw [length_range, num]
    exact count
  · rw [pages, full]

end Queue

/-- A user entry that maps nothing is empty. -/
def PgDir.Plain (d : PgDir) : Prop := ∀ v, v < NUPAGES → d.pte v = {} ∨ (d.pte v).Mapped

section Table

variable {d d' : PgDir} {lo hi : Nat}

theorem Pte.mapped_out : Pte.out.Mapped := .inr rfl

theorem Pte.mapped_fresh (f : Nat) : (Pte.fresh f).Mapped := .inl rfl

theorem PgDir.Plain.set {va : Nat} {e : Pte} (plain : d.Plain) (mapped : e.Mapped) : (d.set va e).Plain := by
  intro v user
  rw [PgDir.set_pte]
  split
  · exact .inr mapped
  · exact plain v user

theorem PgDir.Plain.evicted (plain : d.Plain) (evicted : d.Evicted d') : d'.Plain := by
  intro v user
  rcases evicted.pte v with same | ⟨out, _⟩
  · rw [same]
    exact plain v user
  · rw [out]
    exact .inr Pte.mapped_out

theorem PgDir.Plain.grown (plain : d.Plain) (changed : d.Changed (GrownOrOut lo hi) d') : d'.Plain := by
  intro v user
  rcases changed.pte v with same | (empty | ⟨_, f, fresh⟩) | ⟨out, _⟩
  · rw [same]
    exact plain v user
  · exact .inl empty
  · rw [fresh]
    exact .inr (Pte.mapped_fresh f)
  · rw [out]
    exact .inr Pte.mapped_out

/-- `copyuvm` keeps what the parent's table maps. -/
theorem PgDir.Protected.mapped (prot : d.Protected d') {v : Nat} (mapped : (d.pte v).Mapped) : (d'.pte v).Mapped := by
  rcases prot.pte v with same | readOnly
  · rw [same]
    exact mapped
  · rw [readOnly]
    exact mapped

theorem PgDir.Plain.protect (plain : d.Plain) (prot : d.Protected d') : d'.Plain := by
  intro v user
  rcases plain v user with empty | mapped
  · rcases prot.pte v with same | readOnly
    · exact .inl (same.trans empty)
    · rw [readOnly, empty]
      exact .inl rfl
  · exact .inr (prot.mapped mapped)

theorem PgDir.Image.plain (image : d.Image) : d.Plain := by
  intro v user
  rcases image v user with empty | ⟨f, fresh⟩
  · exact .inl empty
  · rw [fresh]
    exact .inr (Pte.mapped_fresh f)

end Table

/-- A process in any run. -/
structure Proc.Tidy (p : Proc) : Prop where
  entries : p.pgdir.Plain
  queue : p.mq.Fits

section Ops

variable {kend kdata lo va : Nat} {c c' : Ctx} {p p' : Proc} {km km' : Kmem} {argv : List (List UInt8)}

theorem makeRoom_fits {a : Nat} {fresh fresh' : Bool} (fits : p.mq.Fits) (user : a < KERNBASE)
    (call : makeRoom a fresh p km = .ok (fresh', p', km')) : p'.mq.Fits := by
  rcases makeRoom_ok call with ⟨l, p1, _, write, _, rfl⟩ | ⟨mq, _, _, _, _, add, rfl⟩ | ⟨_, _, _, _, rfl⟩
  · obtain ⟨mq, j, t, km1, e, n, files, taken, _, _, _, _, _, _, rfl⟩ := fifoWrite_ok write
    exact fits.recycle user taken
  · exact fits.add_page user add
  · exact fits

theorem allocuvm_fits {tgt : Target} {oldsz newsz r : Nat} (fits : c.cur.mq.Fits)
    (call : allocuvm tgt oldsz newsz c = .ok (r, c')) : c'.cur.mq.Fits := by
  obtain ⟨_, _, fits', _⟩ := allocuvm_rule (I := fun _ _ c => c.cur.mq.Fits) fits (fun aligned low high top fits room page => by
    have user := Nat.lt_of_lt_of_le high top
    rw [(growPage_same aligned user page).2.1]
    exact makeRoom_fits fits user room) call
  exact fits'

theorem allocuvm_tidy {tgt : Target} {oldsz newsz r : Nat} (tidy : c.cur.Tidy) (growing : c.Growing tgt)
    (call : allocuvm tgt oldsz newsz c = .ok (r, c')) : c'.cur.Tidy := by
  refine ⟨?_, allocuvm_fits tidy.queue call⟩
  obtain ⟨_, grew, _⟩ := allocuvm_grew growing call
  cases tgt with
  | cur => exact tidy.entries.grown grew.table
  | img => exact tidy.entries.evicted grew.other

/-- A page fault. -/
theorem protectionFault_tidy (tidy : c.cur.Tidy) (call : protectionFault va c = .ok c') : c'.cur.Tidy := by
  rcases protectionFault_ok call with rfl | ⟨e, _, _, present, _, _, cow⟩
  · exact ⟨tidy.entries, tidy.queue⟩
  · rcases cowFault_ok cow with rfl | ⟨_, rfl⟩ | ⟨f, _, _, _, _, rfl⟩
    · exact ⟨tidy.entries.set (.inl present), tidy.queue⟩
    · exact ⟨tidy.entries, tidy.queue⟩
    · exact ⟨tidy.entries.set (Pte.mapped_fresh f), tidy.queue⟩

theorem growStack_tidy (tidy : c.cur.Tidy) (growing : c.Growing .cur) (call : growStack c = .ok c') :
    c'.cur.Tidy := by
  obtain ⟨⟨r, c1⟩, alloc, rest⟩ := bind_ok.1 call
  cases rest
  have growing1 : (c.flag true).Growing .cur := ⟨⟨growing.good.table, growing.good.queue⟩, growing.wf⟩
  have tidy1 : c1.cur.Tidy := allocuvm_tidy (c := c.flag true) ⟨tidy.entries, tidy.queue⟩ growing1 alloc
  split
  · exact ⟨tidy1.entries, tidy1.queue⟩
  · exact ⟨tidy1.entries, tidy1.queue⟩

theorem fifoReplace_tidy {addr : Nat} (tidy : p.Tidy) (user : addr < KERNBASE)
    (call : fifoReplace addr p km = .ok (p', km')) : p'.Tidy := by
  obtain ⟨last, mq, e, j, e', files, taken, _, _, _, _, _, _, rfl⟩ := fifoReplace_ok call
  exact ⟨(tidy.entries.set (Pte.mapped_fresh _)).set Pte.mapped_out, tidy.queue.recycle user taken⟩

theorem castPageFault_tidy {present : Bool} (sane : c.Sane kend kdata lo) (tidy : c.cur.Tidy)
    (call : castPageFault present va c = .ok c') : c'.cur.Tidy := by
  cases castPageFault_ok call with
  | protection _ protection => exact protectionFault_tidy tidy protection
  | null => exact ⟨tidy.entries, tidy.queue⟩
  | pageIn _ _ out replaced =>
    unfold replacePageIn at replaced
    split at replaced
    · cases replaced
      obtain ⟨l, wf, count, chain⟩ := tidy.queue
      exact ⟨tidy.entries, l, ⟨wf.rep, wf.used, wf.unlinked⟩, Nat.le_succ_of_le count, chain⟩
    · have user := pagedOut_user sane.table.wf out
      exact fifoReplace_tidy tidy (Nat.lt_of_le_of_lt (Nat.div_mul_le_self va PGSIZE) user) replaced
  | stack _ _ _ _ grow => exact growStack_tidy tidy sane.growing grow
  | noMemory => exact ⟨tidy.entries, tidy.queue⟩
  | @leaked _ _ km _ _ _ _ protection => exact protectionFault_tidy (c := { c with km := km }) tidy protection

/-- `sbrk`. -/
theorem Resized.tidy {n : Int} {ok : Bool} (resized : Resized n c ok c') (sane : c.Sane kend kdata lo)
    (tidy : c.cur.Tidy) : c'.cur.Tidy := by
  cases resized with
  | refused => exact tidy
  | noGrowth _ _ alloc => exact allocuvm_tidy tidy sane.growing alloc
  | grown _ _ alloc =>
    have tidy1 := allocuvm_tidy tidy sane.growing alloc
    exact ⟨tidy1.entries, tidy1.queue⟩
  | emptied _ _ dealloc =>
    obtain ⟨t, rfl, _⟩ := Ctx.dealloc_cur dealloc
    exact ⟨tidy.entries, tidy.queue⟩
  | shrunk _ _ dealloc =>
    obtain ⟨t, rfl, _⟩ := Ctx.dealloc_cur dealloc
    exact ⟨tidy.entries, tidy.queue⟩
  | same => exact tidy

theorem sysSbrk_tidy {n r : Int} (sane : c.Sane kend kdata lo) (tidy : c.cur.Tidy)
    (call : sysSbrk n c = .ok (r, c')) : c'.cur.Tidy := by
  obtain ⟨ok, c1, resized, ⟨_, _, rfl⟩ | ⟨_, _, _, rfl⟩⟩ := sysSbrk_ok call
  · exact resized.tidy sane tidy
  · have tidy1 := resized.tidy sane tidy
    exact ⟨tidy1.entries, tidy1.queue⟩

/-- `exec`. -/
theorem ImageBuilt.tidy {ip : Inode} {r : Option (Nat × Nat)} (built : ImageBuilt ip argv c r c')
    (imaging : Imaging p PGSIZE c.cleared) (tidy : c.cur.Tidy) : c'.cur.Tidy ∧ c'.img.Image := by
  obtain ⟨⟨_, image⟩, tidy', _⟩ := built.rule (X := fun c => c.cur.Tidy)
    (fun image x _ grow => allocuvm_tidy x image.growing grow) (fun _ x _ _ => x) (fun x => ⟨x.entries, x.queue⟩)
    (fun _ x _ => x) imaging ⟨tidy.entries, .clear tidy.queue.chain⟩
  exact ⟨tidy', image.image⟩

theorem exec_tidy {ip : Option Inode} {path : String} {r : Int} (symbols : Symbols kend kdata) (sane : c.Sane kend kdata lo)
    (tidy : c.cur.Tidy) (call : exec ip path argv created c = .ok (r, c')) : c'.cur.Tidy := by
  have linked := symbols.linked sane.memory
  cases exec_ok call with
  | refused => exact tidy
  | noTable => exact tidy
  | failed setup built => exact (built.tidy (Imaging.start sane.table.wf linked setup) tidy).1
  | committed setup built =>
    obtain ⟨tidy', image⟩ := built.tidy (Imaging.start sane.table.wf linked setup) tidy
    exact ⟨image.plain, tidy'.queue⟩

end Ops

/-! ## Runs -/

/-- The chain of the slot's queue: none yet, or one of full length. -/
def Proc.Chained (p : Proc) : Prop := p.mq.pages = [] ∨ p.mq.pages.length = NUM_MEM_PAGES

/-- The table of processes in any run. A slot keeps its chain when its process is gone. -/
structure Kernel.Tidy (k : Kernel) : Prop where
  chains : ∀ i, i < NPROC → (k.proc i).Chained
  procs : ∀ i, i < NPROC → (k.proc i).live → (k.proc i).Tidy

section Runs

variable {kend kdata : Nat} {lo : Nat → Nat} {k k' : Kernel} {op : Op} {i j : Nat} {r : Option Nat}

theorem Allocating.chained (allocating : Allocating k r k') (memory : k.km.Sound kend kdata)
    (chained : (k.proc i).Chained) : (k'.proc i).Chained := by
  cases allocating with
  | full => exact chained
  | @noStack j bound unused =>
    by_cases here : i = j
    · subst here
      simp only [update_self]
      exact chained
    · simp only [update_of_ne here]
      exact chained
  | @noQueue j f km km' bound unused got queue =>
    by_cases here : i = j
    · subst here
      simp only [update_self]
      exact chained
    · simp only [update_of_ne here]
      exact chained
  | @found j f mq km km' bound unused got queue =>
    by_cases here : i = j
    · subst here
      simp only [update_self]
      rcases (allocQueue_memory (memory.kalloc got).1 queue).2.2 mq rfl with ⟨rfl, nonempty⟩ | ⟨pages, rfl, full⟩
      · exact chained
      · exact .inr full
    · simp only [update_of_ne here]
      exact chained

/-- A slot that `allocproc` hands out has a chain of full length. -/
theorem Allocating.full_chain (allocating : Allocating k (some j) k') (memory : k.km.Sound kend kdata)
    (chained : (k.proc j).Chained) : (k'.proc j).mq.pages.length = NUM_MEM_PAGES := by
  cases allocating with
  | @found j f mq km km' bound unused got queue =>
    simp only [update_self]
    rcases (allocQueue_memory (memory.kalloc got).1 queue).2.2 mq rfl with ⟨rfl, nonempty⟩ | ⟨pages, rfl, full⟩
    · exact chained.resolve_left nonempty
    · exact full

theorem forkChild_pages {parent q child : Proc} {d : PgDir} (fits : parent.mq.Fits)
    (call : forkChild created i parent q d = .ok child) (full : q.mq.pages.length = NUM_MEM_PAGES) : child.mq.Fits := by
  obtain ⟨files, _, rest1⟩ := bind_ok.1 call
  obtain ⟨mq, copy, rest2⟩ := bind_ok.1 rest1
  obtain ⟨vtab, _, rest3⟩ := bind_ok.1 rest2
  cases rest3
  have room : { q.mq with num := parent.mq.num }.pages.length = NUM_MEM_PAGES := full
  exact fits.copy room copy

theorem ProcEffect.tidy {p : Proc} (symbols : Symbols kend kdata) (sane : k.Sane kend kdata lo) (tidy : k.Tidy)
    (bound : j < NPROC) (effect : ProcEffect j k op p) : p.Tidy := by
  cases effect with
  | kept live => exact tidy.procs j bound live
  | orphaned live orphaned =>
    have here := tidy.procs j bound live
    obtain ⟨parent, ⟨rfl, _⟩ | ⟨rfl, _⟩⟩ := orphaned
    · exact ⟨here.entries, here.queue⟩
    · exact ⟨here.entries, here.queue⟩
  | fault _ canRun _ _ call =>
    exact castPageFault_tidy (sane.procs j bound canRun.1) (tidy.procs j bound canRun.1) call
  | sbrk _ canRun _ _ call =>
    exact sysSbrk_tidy (sane.procs j bound canRun.1) (tidy.procs j bound canRun.1) call
  | exec _ canRun call =>
    exact exec_tidy symbols (sane.procs j bound canRun.1) (tidy.procs j bound canRun.1) call
  | @parent r l k1 child d km _ canRun allocating copy =>
    have here := sane.procs j bound canRun.1
    have copied := copyuvm_copied symbols (allocating.memory sane.memory).1 here.table here.layout copy
    exact ⟨(tidy.procs j bound canRun.1).entries.protect copied.prot, (tidy.procs j bound canRun.1).queue⟩
  | @child i r k1 created d d' km1 p _ boundI canRun allocating copy make =>
    have here := sane.procs i boundI canRun.1
    have parent := tidy.procs i boundI canRun.1
    have copied := copyuvm_copied symbols (allocating.memory sane.memory).1 here.table here.layout copy
    obtain ⟨_, _, ranged, outside, _⟩ := copied.child d' rfl
    obtain ⟨_, table, _, _, _, _⟩ := forkChild_ok here.queue make
    refine ⟨?_, forkChild_pages parent.queue make (allocating.full_chain sane.memory (tidy.chains j bound))⟩
    rw [table]
    intro v user
    by_cases inside : (k.proc i).Ranged v
    · rw [ranged v user inside]
      rcases parent.entries v user with empty | mapped
      · rw [show ((k.ctx i).cur.pgdir.pte v) = {} from empty]
        exact .inl rfl
      · exact .inr (Pte.copy_mapped mapped)
    · exact .inl (outside v user inside)

theorem Kernel.put_chained {c : Ctx} (chained : (k.proc j).Chained) (kin : (k.proc i).Kin c.cur) :
    ((k.put i c).proc j).Chained := by
  by_cases here : j = i
  · subst here
    rw [Kernel.put_proc]
    show c.cur.mq.pages = [] ∨ c.cur.mq.pages.length = NUM_MEM_PAGES
    rw [kin.chain]
    exact chained
  · rw [Kernel.put_other here]
    exact chained

theorem fork_chained {r : Int} (sane : k.Sane kend kdata lo) (tidy : k.Tidy) (bound : i < NPROC) (canRun : (k.proc i).canRun)
    (call : fork created i k = .ok (r, k')) (inside : j < NPROC) : (k'.proc j).Chained := by
  rcases fork_ok call with ⟨alloc, _⟩ | ⟨l, k1, alloc, forked⟩
  · exact (allocproc_cases alloc).chained sane.memory (tidy.chains j inside)
  have allocating := allocproc_cases alloc
  have chained := allocating.chained sane.memory (tidy.chains j inside)
  have atI := allocating.keeps canRun.1
  have ne : l ≠ i := by
    rintro rfl
    cases allocating with
    | found _ unused _ _ => exact canRun.1.1 unused
  have parent : ∀ d : PgDir, (update k1.proc i { k1.proc i with pgdir := d } j).Chained := by
    intro d
    by_cases isParent : j = i
    · subst isParent
      rw [update_self]
      exact chained
    · rw [update_of_ne isParent]
      exact chained
  cases forked ne with
  | failed copy stack free =>
    by_cases here : j = l
    · subst here
      simp only [update_self]
      exact chained
    · simp only [update_of_ne here]
      exact parent _
  | done copy make =>
    by_cases here : j = l
    · subst here
      simp only [update_self]
      have fits : (k1.proc i).mq.Fits := by
        rw [atI]
        exact (tidy.procs i bound canRun.1).queue
      have full := allocating.full_chain sane.memory (tidy.chains j inside)
      exact .inr (forkChild_pages (by exact fits) make full).chain
    · simp only [update_of_ne here]
      exact parent _

/-- A step keeps the chains of all slots. -/
theorem Step.chained (symbols : Symbols kend kdata) (sane : k.Sane kend kdata fun _ => 0) (tidy : k.Tidy)
    (step : Step op k k') (inside : j < NPROC) : (k'.proc j).Chained := by
  have chained := tidy.chains j inside
  cases step with
  | load _ _ _ _ => exact chained
  | store _ _ _ _ _ => exact chained
  | fault bound canRun _ _ call =>
    exact Kernel.put_chained chained (castPageFault_sane (sane.procs _ bound canRun.1) (Nat.zero_le 1) call).kin
  | sbrk bound canRun _ _ call =>
    exact Kernel.put_chained chained (sysSbrk_sane (sane.procs _ bound canRun.1) (by simp) call).kin
  | fork bound canRun call => exact fork_chained sane tidy bound canRun call inside
  | exec bound canRun call =>
    exact Kernel.put_chained chained (exec_sane symbols (sane.procs _ bound canRun.1) (Nat.zero_le 1) call).1.kin
  | exit bound canRun call =>
    obtain ⟨parent, ⟨same, _⟩ | ⟨same, _⟩⟩ := (exit_ok call).2 j
    · rw [same]
      exact chained
    · rw [same]
      exact chained
  | wait bound canRun call =>
    cases wait_ok call with
    | none => exact chained
    | @reaped l f km km' _ _ _ _ _ _ =>
      by_cases here : j = l
      · subst here
        simp only [update_self]
        exact chained
      · simp only [update_of_ne here]
        exact chained

/-- **One step** keeps the table of processes tidy. -/
theorem Kernel.Tidy.step (symbols : Symbols kend kdata) (sane : k.Sane kend kdata fun _ => 0) (tidy : k.Tidy)
    (step : Step op k k') : k'.Tidy where
  chains := fun _ inside => step.chained symbols sane tidy inside
  procs := fun _ bound live => (step.effect live).tidy symbols sane tidy bound

theorem Booted.tidy (booted : Booted kend kdata k) : k.Tidy := by
  obtain ⟨pages, queue, full⟩ := booted.queue
  constructor
  · intro i _
    by_cases here : i = 0
    · subst here
      exact .inr (queue ▸ full)
    · exact .inl ((booted.others i here).2 ▸ rfl)
  · intro i _ live
    by_cases here : i = 0
    · subst here
      exact ⟨booted.image.plain, queue ▸ ⟨[], MemQueue.wf_fresh pages, Nat.zero_le _, full⟩⟩
    · exact absurd live (booted.others i here).1

end Runs

end Xv6
