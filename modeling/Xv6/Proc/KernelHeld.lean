import Xv6.Proc.Step
import Xv6.Proc.ExecHeld
import Xv6.Proc.SbrkSound

/-!
# System calls keep the share counts

The references of the whole system are the sum of what each process of the table holds.
A step of one process leaves the sum of the others in place (`Kernel.others`), so each
rule about a process becomes a rule about the kernel.
-/

namespace Xv6
open RefCount Fallible Function List

variable {D : Nat → Prop} {R : Use Nat} {c c' : Ctx} {S : Use Nat} {r : Int}

/-! ## The heap -/

/-- Pages that `sbrk(n)` asks for. -/
def sbrkPages (p : Proc) (n : Int) : Nat := (pageRange (PGROUNDUP p.sz) (addInt32 p.sz n)).length

theorem Resized.held {n : Int} {ok : Bool} (resized : Resized n c ok c') (zero : ¬ D 0)
    (held : Held D R c.cur.res c.km) (good : c.cur.Good) :
    Faulted D R c c' ∧
      ((0 < n → c.cur.mq.num + sbrkPages c.cur n ≤ MEM_CAPACITY) → c.cur.pgdir.NoneOut → c'.cur.pgdir.NoneOut) := by
  have unchanged : Faulted D R c c := ⟨held, .refl _ _, good, rfl⟩
  have grows : ∀ {sz : Nat} {c1 : Ctx}, allocuvm .cur c.cur.sz (addInt32 c.cur.sz n) c = .ok (sz, c1) →
      Faulted D R c c1 ∧ (c.cur.mq.num + sbrkPages c.cur n ≤ MEM_CAPACITY → c.cur.pgdir.NoneOut → c1.cur.pgdir.NoneOut) :=
    fun {_ c1} alloc => by
      have growing : c.Growing .cur := ⟨good, good.table⟩
      obtain ⟨held1, kept1⟩ := allocuvm_held zero (show Held D R (c.use .cur) c.km from held) growing alloc
      obtain ⟨⟨good1, _⟩, _, few⟩ := allocuvm_grew growing alloc
      have state : c1.cur.state = c.cur.state := by rw [(allocuvm_same alloc).1]
      exact ⟨⟨held1, kept1, good1, state⟩, fun room none => none.grown (few room)⟩
  have shrinks : ∀ {sz newsz : Nat} {c1 : Ctx}, c.dealloc .cur c.cur.sz newsz = .ok (sz, c1) →
      Faulted D R c c1 ∧ c1.cur.pgdir = c.cur.pgdir := fun {_ _ c1} dealloc => by
    obtain ⟨t, rfl, _, slot⟩ := Ctx.dealloc_cur dealloc
    have pages : t.pages = c.cur.vtab.pages := by
      rcases slot with rfl | ⟨v, j, _, _, rfl⟩ <;> rfl
    exact ⟨⟨held.congr (Proc.res_congr rfl rfl rfl pages.symm), .refl _ _, ⟨good.table, good.queue⟩, rfl⟩, rfl⟩
  cases resized with
  | refused => exact ⟨unchanged, fun _ => id⟩
  | noGrowth _ pos alloc =>
    obtain ⟨faulted, none1⟩ := grows alloc
    exact ⟨faulted, fun room => none1 (room pos)⟩
  | grown _ pos alloc =>
    obtain ⟨faulted, none1⟩ := grows alloc
    exact ⟨⟨faulted.held, faulted.kept, ⟨faulted.good.table, faulted.good.queue⟩, faulted.state⟩,
      fun room => none1 (room pos)⟩
  | emptied _ _ dealloc =>
    obtain ⟨faulted, same⟩ := shrinks dealloc
    exact ⟨faulted, fun _ none => same ▸ none⟩
  | @shrunk sz c1 _ _ dealloc =>
    obtain ⟨faulted, same⟩ := shrinks dealloc
    refine ⟨⟨faulted.held, faulted.kept, ⟨faulted.good.table, faulted.good.queue⟩, faulted.state⟩, fun _ none => ?_⟩
    have table : (c1.resize sz).cur.pgdir = c.cur.pgdir := same
    exact table ▸ none
  | same => exact ⟨unchanged, fun _ => id⟩

/-- **`sys_sbrk`.** -/
theorem sysSbrk_held {n : Int} (zero : ¬ D 0) (held : Held D R c.cur.res c.km) (good : c.cur.Good)
    (call : sysSbrk n c = .ok (r, c')) :
    Faulted D R c c' ∧
      ((0 < n → c.cur.mq.num + sbrkPages c.cur n ≤ MEM_CAPACITY) → c.cur.pgdir.NoneOut → c'.cur.pgdir.NoneOut) := by
  obtain ⟨ok, c1, resized, ⟨_, _, rfl⟩ | ⟨_, _, _, rfl⟩⟩ := sysSbrk_ok call
  · exact resized.held zero held good
  · obtain ⟨faulted, none1⟩ := resized.held zero held good
    exact ⟨⟨faulted.held, faulted.kept, ⟨faulted.good.table, faulted.good.queue⟩, faulted.state⟩, none1⟩

/-! ## The process table -/

/-- What a slot of the process table holds. -/
def Proc.use (p : Proc) : Use Nat := p.own + if p.live then p.pgdir.use else 0

/-- What all processes hold. -/
def Kernel.use (k : Kernel) : Use Nat := ∑ i ∈ Finset.range NPROC, (k.proc i).use

/-- What all processes but `i` hold. -/
def Kernel.others (k : Kernel) (i : Nat) : Use Nat := ∑ j ∈ (Finset.range NPROC).erase i, (k.proc j).use

/-- A slot of the process table: the invariants of a process that has an address space. -/
structure Proc.Ok (p : Proc) : Prop where
  good : p.live → p.Good
  layout : p.live → p.Layout
  spare : p.state = .unused → p.kstack = none
  once : ∀ f, total p.use f ≤ 1

/-- The accounting of the whole kernel. -/
structure Kernel.Accounted (D : Nat → Prop) (k : Kernel) : Prop where
  linked : k.km.Linked
  acct : Acct D k.use k.km
  procs : ∀ i, i < NPROC → (k.proc i).Ok

theorem Proc.use_live {p : Proc} (live : p.live) : p.use = p.res := by
  rw [Proc.use, if_pos live, Proc.res]

theorem Proc.use_of {p : Proc} {U : Use Nat} (live : p.live) (own : S = p.own) (table : U = p.pgdir.use) :
    S + U = p.use := by
  rw [Proc.use_live live, Proc.res, own, table]

theorem Proc.use_table {p : Proc} (live : p.live) (d : PgDir) :
    ({ p with pgdir := d } : Proc).use = p.own + d.use :=
  (Proc.use_of (p := { p with pgdir := d }) live rfl rfl).symm

theorem Proc.use_dead {p : Proc} (dead : ¬ p.live) : p.use = p.own := by
  rw [Proc.use, if_neg dead, add_zero]

section Table

variable {k k' : Kernel} {i j : Nat} {p : Proc} {created : Nat → Inode} {d : PgDir} {unlinked : Bool} {km' km : Kmem}

theorem Kernel.use_split (k : Kernel) (bound : i < NPROC) : k.use = k.others i + (k.proc i).use :=
  (Finset.sum_erase_add (Finset.range NPROC) (fun j => (k.proc j).use) (Finset.mem_range.2 bound)).symm

/-- Replacing one process leaves what the others hold. -/
theorem Kernel.others_update (procs : k'.proc = update k.proc i p) : k'.others i = k.others i := by
  refine Finset.sum_congr rfl fun j mem => ?_
  rw [procs, update_of_ne (Finset.ne_of_mem_erase mem)]

theorem Kernel.Accounted.zero (acc : k.Accounted D) : ¬ D 0 := acc.linked.zero acc.acct.inv

/-- The share of process `i`. -/
theorem Kernel.Accounted.held (acc : k.Accounted D) (bound : i < NPROC) :
    Held D (k.others i) (k.proc i).use k.km :=
  ⟨acc.acct.congr (k.use_split bound), (acc.procs i bound).once⟩

theorem Kernel.Accounted.held_live (acc : k.Accounted D) (bound : i < NPROC) (live : (k.proc i).live) :
    Held D (k.others i) (k.proc i).res k.km :=
  (acc.held bound).congr (Proc.use_live live)

/-- **Replacing one process.** -/
theorem Kernel.Accounted.update (acc : k.Accounted D) (bound : i < NPROC)
    (procs : k'.proc = update k.proc i p) (linked : k'.km.Linked) (held : Held D (k.others i) p.use k'.km)
    (good : p.live → p.Good) (layout : p.live → p.Layout) (spare : p.state = .unused → p.kstack = none) :
    k'.Accounted D := by
  have here : k'.proc i = p := by rw [procs, update_self]
  refine ⟨linked, held.acct.congr ?_, fun j below => ?_⟩
  · rw [k'.use_split bound, Kernel.others_update procs, here]
  · rw [procs]
    by_cases same : j = i
    · subst same
      rw [update_self]
      exact ⟨good, layout, spare, held.once⟩
    · rw [update_of_ne same]
      exact acc.procs j below

/-- What all processes but `i` and `j` hold. -/
def Kernel.beside (k : Kernel) (i j : Nat) : Use Nat :=
  ∑ l ∈ ((Finset.range NPROC).erase i).erase j, (k.proc l).use

theorem Kernel.others_split (k : Kernel) (ne : j ≠ i) (bound : j < NPROC) :
    k.others i = k.beside i j + (k.proc j).use :=
  (Finset.sum_erase_add ((Finset.range NPROC).erase i) (fun l => (k.proc l).use)
    (Finset.mem_erase.2 ⟨ne, Finset.mem_range.2 bound⟩)).symm

/-- Replacing two processes. -/
theorem Kernel.Accounted.update_two {q : Proc} (acc : k.Accounted D) (ne : j ≠ i) (boundI : i < NPROC)
    (boundJ : j < NPROC) (procs : k'.proc = Function.update (Function.update k.proc i p) j q)
    (linked : k'.km.Linked) (acct : Acct D (k.beside i j + p.use + q.use) k'.km) (okI : p.Ok) (okJ : q.Ok) :
    k'.Accounted D := by
  have atJ : k'.proc j = q := by rw [procs, update_self]
  have atI : k'.proc i = p := by rw [procs, update_of_ne ne.symm, update_self]
  have away : ∀ l, l ≠ i → l ≠ j → k'.proc l = k.proc l := fun l neI neJ => by
    rw [procs, update_of_ne neJ, update_of_ne neI]
  refine ⟨linked, acct.congr ?_, fun l below => ?_⟩
  · have rest : k'.beside i j = k.beside i j := Finset.sum_congr rfl fun l mem => by
      obtain ⟨neJ, mem⟩ := Finset.mem_erase.1 mem
      rw [away l (Finset.ne_of_mem_erase mem) neJ]
    rw [k'.use_split boundI, k'.others_split ne boundJ, atI, atJ, rest]
    abel
  · by_cases isJ : l = j
    · rw [isJ, atJ]
      exact okJ
    · by_cases isI : l = i
      · rw [isI, atI]
        exact okI
      · rw [away l isI isJ]
        exact acc.procs l below

/-- Replacing a slot by one without an address space. -/
theorem Kernel.Accounted.update_dead {U : Use Nat} (acc : k.Accounted D) (bound : i < NPROC)
    (procs : k'.proc = Function.update k.proc i p) (linked : k'.km.Linked)
    (dead : p.state = .unused ∧ p.kstack = none ∨ p.state = .embryo) (held : Held D (k.others i) U k'.km)
    (own : U = p.own) : k'.Accounted D := by
  have notLive : ¬ p.live := fun live => dead.elim (fun unused => live.1 unused.1) live.2
  refine acc.update bound procs linked (held.congr (own.trans (Proc.use_dead notLive).symm)) (absurd · notLive)
    (absurd · notLive) fun unused => ?_
  rcases dead with ⟨_, none⟩ | embryo
  · exact none
  · rw [embryo] at unused
    cases unused

/-- A process has run in the kernel. -/
theorem Kernel.Accounted.put (acc : k.Accounted D) (bound : i < NPROC) (live : (k.proc i).live)
    (faulted : Faulted D (k.others i) (k.ctx i) c) (layout : c.cur.Layout) : (k.put i c).Accounted D := by
  have stays : c.cur.live := by
    have := faulted.state
    simp only [Proc.live, this] at live ⊢
    exact live
  exact acc.update bound rfl (acc.linked.kept faulted.kept) (faulted.held.congr (Proc.use_live stays).symm)
    (fun _ => faulted.good) (fun _ => layout) fun unused => absurd unused stays.1

/-- The others hold each page at most once each. -/
theorem Kernel.Accounted.few (acc : k.Accounted D) (f : Nat) (s : Finset Nat) (part : s ⊆ Finset.range NPROC) :
    total (∑ j ∈ s, (k.proc j).use) f ≤ NPROC := by
  rw [total_sum]
  calc ∑ j ∈ s, total (k.proc j).use f
      ≤ ∑ _j ∈ s, 1 := Finset.sum_le_sum fun j mem => (acc.procs j (Finset.mem_range.1 (part mem))).once f
    _ = s.card := by simp
    _ ≤ (Finset.range NPROC).card := Finset.card_le_card part
    _ = NPROC := Finset.card_range _

/-! ## Creating processes -/

theorem pageList_cons (f : Nat) (fs : List Nat) : pageList (f :: fs) = ref f true + pageList fs := by
  simp [pageList]

/-- `mem_alloc` gets its pages, or loses those it got. -/
theorem memAlloc_held {r : Option (List Nat)} (n : Nat) :
    ∀ km S, Held D R S km → memAlloc n km = (r, km') →
      SameMem km km' ∧ Held D R (S + pageList (r.getD [])) km' := by
  induction n generalizing r with
  | zero =>
    intro km S held call
    cases call
    exact ⟨.refl _, held.congr (by simp)⟩
  | succ n ih =>
    intro km S held call
    unfold memAlloc at call
    split at call
    · rename_i km1 got
      cases call
      rw [(kalloc_none got).1]
      exact ⟨.refl _, held.congr (by simp)⟩
    · rename_i f km1 got
      split at call
      · rename_i km2 more
        cases call
        obtain ⟨same, rest⟩ := ih km1 S (held.kalloc_lost got) more
        exact ⟨(kalloc_same got).trans same, rest⟩
      · rename_i fs km2 more
        cases call
        obtain ⟨same, rest⟩ := ih km1 (S + ref f true) (held.kalloc got true) more
        refine ⟨(kalloc_same got).trans same, rest.congr ?_⟩
        simp only [Option.getD_some, pageList_cons]
        abel

theorem allocQueue_held {mq : MemQueue} {r : Option MemQueue} (held : Held D R (S + pageList mq.pages) km)
    (call : allocQueue mq km = (r, km')) :
    SameMem km km' ∧ (r = none → Held D R (S + pageList mq.pages) km') ∧
      ∀ q, r = some q → Held D R (S + pageList q.pages) km' ∧ UserQueue q := by
  unfold allocQueue at call
  split at call
  · rename_i empty
    rw [empty, pageList_nil, add_zero] at held ⊢
    split at call
    · rename_i km1 more
      cases call
      obtain ⟨same, rest⟩ := memAlloc_held _ km S held more
      exact ⟨same, fun _ => rest.congr (by simp), by rintro _ ⟨⟩⟩
    · rename_i pages km1 more
      cases call
      obtain ⟨same, rest⟩ := memAlloc_held _ km S held more
      refine ⟨same, by rintro ⟨⟩, fun q isQueue => ?_⟩
      cases isQueue
      exact ⟨rest, [], MemQueue.wf_fresh pages, by simp [MemQueue.vaddrs]⟩
  · cases call
    refine ⟨.refl _, by rintro ⟨⟩, fun q isQueue => ?_⟩
    cases isQueue
    exact ⟨held, userQueue_clear mq⟩

/-- No process has a page that is paged out. -/
def Kernel.NoneOut (k : Kernel) : Prop := ∀ i, i < NPROC → (k.proc i).live → (k.proc i).pgdir.NoneOut

theorem Kernel.NoneOut.update (none : k.NoneOut) (procs : k'.proc = update k.proc i p)
    (here : p.live → p.pgdir.NoneOut) : k'.NoneOut := by
  intro j bound
  rw [procs]
  by_cases same : j = i
  · subst same
    rw [update_self]
    exact here
  · rw [update_of_ne same]
    exact none j bound

/-- What `allocproc` does to the slot it finds. -/
def Proc.Allocated (p p' : Proc) : Prop :=
  ∃ pid f mq, p' = { p with pid := pid, state := .embryo, kstack := some f, mq := mq } ∧ UserQueue mq

/-- **`allocproc`.** -/
theorem allocproc_held {r : Option Nat} (acc : k.Accounted D) (call : allocproc k = (r, k')) :
    k'.Accounted D ∧ SameMem k.km k'.km ∧ k'.initproc = k.initproc ∧
      (k.NoneOut → k'.NoneOut) ∧
      ∀ j, r = some j → j < NPROC ∧ (k.proc j).state = .unused ∧
        ∃ p, (k.proc j).Allocated p ∧ k'.proc = update k.proc j p := by
  unfold allocproc at call
  split at call
  · cases call
    exact ⟨acc, .refl _, rfl, id, by rintro _ ⟨⟩⟩
  · rename_i j found
    have bound : j < NPROC := mem_range.1 (mem_of_find?_eq_some found)
    have unused : (k.proc j).state = .unused := by simpa using find?_some found
    have held : Held D (k.others j) (pageList (k.proc j).vtab.pages + pageList (k.proc j).mq.pages) k.km := by
      have notLive : ¬ (k.proc j).live := fun live => live.1 unused
      refine (acc.held bound).congr ?_
      rw [Proc.use_dead notLive, Proc.own, (acc.procs j bound).spare unused, pdeUse]
      abel
    simp only at call
    split at call
    · rename_i km1 got
      cases call
      obtain ⟨same, _⟩ := kalloc_none got
      refine ⟨acc.update_dead bound rfl (same ▸ acc.linked) (.inl ⟨unused, rfl⟩) (same ▸ held) ?_, same ▸ .refl _,
        rfl, fun none => none.update rfl fun live => absurd unused live.1, by rintro _ ⟨⟩⟩
      simp only [Proc.own, pdeUse]
      abel
    · rename_i f km1 got
      have held1 : Held D (k.others j)
          (pageList (k.proc j).vtab.pages + ref f true + pageList (k.proc j).mq.pages) km1 :=
        (held.kalloc got true).congr (by abel)
      have same1 := kalloc_same got
      split at call
      · rename_i km2 more
        cases call
        obtain ⟨same2, rest, _⟩ := allocQueue_held held1 more
        have same := same1.trans same2
        refine ⟨acc.update_dead bound rfl (acc.linked.kept (same.kept 0)) (.inr rfl) (rest rfl) ?_, same, rfl,
          fun none => none.update rfl fun live => absurd rfl live.2, by rintro _ ⟨⟩⟩
        simp only [Proc.own, pdeUse]
        abel
      · rename_i mq km2 more
        cases call
        obtain ⟨same2, _, rest⟩ := allocQueue_held held1 more
        obtain ⟨held2, queue⟩ := rest mq rfl
        have same := same1.trans same2
        refine ⟨acc.update_dead bound rfl (acc.linked.kept (same.kept 0)) (.inr rfl) held2 ?_, same, rfl,
          fun none => none.update rfl fun live => absurd rfl live.2, fun i isProc => ?_⟩
        · simp only [Proc.own, pdeUse]
          abel
        · cases isProc
          exact ⟨bound, unused, _, ⟨_, f, mq, rfl, queue⟩, rfl⟩

/-- `inituvm`. A page that cannot be mapped is lost. -/
theorem inituvm_held {init : Bytes} {size : Nat} {d' : PgDir} (held : Held D R (S + d.use) km) (wf : d.Wf)
    (call : inituvm init size d km = .ok (d', km')) :
    Held D R (S + d'.use) km' ∧ d'.Wf ∧ (d.NoneOut → d'.NoneOut) ∧ km'.kend = km.kend ∧ km'.kdata = km.kdata := by
  unfold inituvm at call
  split at call
  · cases call
  · split at call
    · cases call
    · rename_i f km1 got
      obtain ⟨⟨b, d1, km2⟩, map, rest⟩ := bind_ok.1 call
      cases rest
      rw [mappages_page rfl (by decide)] at map
      obtain ⟨d0, walk, new⟩ := mapPage_ok map
      have same1 := kalloc_same got
      cases b with
      | false =>
        simp only [Bool.false_eq_true, if_false] at new
        subst new
        obtain ⟨held2, _, same2, eq⟩ := walkpgdirAlloc_held ((held.kalloc_lost got).of_mem _) wf walk
        simp only [Bool.false_eq_true, if_false] at eq
        subst eq
        exact ⟨held2.of_mem _, wf, id, same2.kend.trans same1.kend, same2.kdata.trans same1.kdata⟩
      | true =>
        simp only [if_true, page_div] at new
        obtain ⟨absent, rfl⟩ := new
        obtain ⟨held2, wf2, kept, ext⟩ := map_fresh_held held wf (by decide) got walk absent
        refine ⟨held2.of_mem _, wf2, fun none => ?_, kept.kend, kept.kdata⟩
        exact PgDir.NoneOut.set (fun v => ext.pte ▸ none v) rfl

theorem Kernel.blank_use (km : Kmem) (i : Nat) : ((Kernel.blank km).proc i).use = 0 := by
  rw [Proc.use_dead fun live => live.1 rfl]
  simp [Proc.own, Kernel.blank, pdeUse]

/-- Before the first process nothing is in use. The text of the kernel ends where its data
starts. -/
theorem Kernel.blank_accounted {kend kdata : Nat} {mem : Nat → Nat → UInt8} (boot : kinitMain kend kdata mem = .ok km)
    (text : EXTMEM < kdata) (data : kdata ≤ kend) : (Kernel.blank km).Accounted (InitPage kend) := by
  obtain ⟨isEnd, isData⟩ := kinitMain_linker boot
  have low := kinitMain_freeable boot
  have linked : km.Linked := by
    refine ⟨isData ▸ text, by rw [isData, isEnd]; exact data, ?_⟩
    rw [isEnd]
    simp only [PHYSTOP]
    omega
  have dead : ∀ i, ¬ ((Kernel.blank km).proc i).live := fun i live => live.1 rfl
  have noUse : (Kernel.blank km).use = 0 := Finset.sum_eq_zero fun i _ => Kernel.blank_use km i
  refine ⟨linked, ⟨kinitMain_inv boot, ?_⟩, fun i _ => ⟨(absurd · (dead i)), (absurd · (dead i)), fun _ => rfl, fun f => ?_⟩⟩
  · rw [noUse]
    exact ⟨fun f pos => absurd pos (Nat.lt_irrefl 0), fun f pos => absurd pos (Nat.lt_irrefl 0)⟩
  · simp [Kernel.blank_use]

/-- **`userinit`.** -/
theorem userinit_held {init : Bytes} {size : Nat} (acc : k.Accounted D) (none : k.NoneOut)
    (clean : ∀ i, i < NPROC → (k.proc i).state = .unused → (k.proc i).stacksize = 0)
    (call : userinit init size k = .ok k') : k'.Accounted D ∧ k'.NoneOut := by
  unfold userinit at call
  split at call
  · cases call
  · rename_i j k1 alloc
    obtain ⟨acc1, same1, _, none1, got⟩ := allocproc_held acc alloc
    obtain ⟨bound, unused, p, ⟨pid, f, mq, rfl, queue⟩, procs⟩ := got j rfl
    obtain ⟨⟨d, km2⟩, setup, rest1⟩ := bind_ok.1 call
    have here : k1.proc j = { k.proc j with pid := pid, state := .embryo, kstack := some f, mq := mq } := by
      rw [procs, update_self]
    have notLive : ¬ (k1.proc j).live := by
      rw [here]
      exact fun live => live.2 rfl
    have held1 : Held D (k1.others j) (k1.proc j).own k1.km := (acc1.held bound).congr (Proc.use_dead notLive)
    obtain ⟨kept2, _, made⟩ := setupkvm_held acc1.linked held1 setup
    cases d with
    | none => cases rest1
    | some d =>
      have held2 := made d rfl
      obtain ⟨wf2, user2⟩ := setupkvm_blank acc1.linked setup
      obtain ⟨⟨d3, km3⟩, inituser, rest2⟩ := bind_ok.1 rest1
      cases rest2
      obtain ⟨held3, wf3, none3, kend3, kdata3⟩ := inituvm_held held2 wf2 inituser
      have noneOut : d.NoneOut := by
        intro v
        by_cases low : v < NUPAGES
        · rw [user2 v low]
        · exact (wf2.kernel v (by omega)).2
      have linked3 : km3.Linked := by
        have := acc1.linked.kept kept2
        exact ⟨kdata3 ▸ this.text, kdata3 ▸ kend3 ▸ this.data, kend3 ▸ this.room⟩
      have stack : (k1.proc j).stacksize = 0 := by
        rw [here]
        exact clean j bound unused
      have queue1 : UserQueue (k1.proc j).mq := by
        rw [here]
        exact queue
      refine ⟨acc1.update bound rfl linked3 (held3.congr (Proc.use_of ?_ rfl rfl)) (fun _ => ⟨wf3, queue1⟩)
        (fun _ => ⟨?_, ?_, ?_⟩) (by rintro ⟨⟩), (none1 none).update rfl fun _ => none3 noneOut⟩
      · exact ⟨by rintro ⟨⟩, by rintro ⟨⟩⟩
      · show (k1.proc j).stacksize % PGSIZE = 0
        rw [stack]
        rfl
      · show (k1.proc j).stacksize + PGSIZE ≤ KERNBASE
        rw [stack]
        decide
      · show PGSIZE + (k1.proc j).stacksize ≤ KERNBASE
        rw [stack]
        decide

/-- A copied table has no page that is paged out when the parent's has none. -/
theorem PgDir.NoneOut.copied {parent : PgDir} (none : parent.NoneOut) (wf : d.Wf)
    (copied : ∀ v, v < NUPAGES → d.pte v = {} ∨ CopiedEntry parent v (d.pte v)) : d.NoneOut := by
  intro v
  by_cases low : v < NUPAGES
  · rcases copied v low with empty | ⟨_, ⟨_, out⟩ | same⟩
    · rw [empty]
    · rw [none v] at out
      cases out
    · rw [same]
      exact none v
  · exact (wf.kernel v (by omega)).2

theorem PgDir.NoneOut.protected {d' : PgDir} (none : d.NoneOut) (prot : d.Protected d') : d'.NoneOut := by
  intro v
  rcases prot.pte v with same | weak
  · rw [same]
    exact none v
  · rw [weak]
    exact none v

/-- The child that `fork` makes of the slot `q`, with the table `d`. -/
theorem forkChild_ok {parent q child : Proc} (queue : UserQueue parent.mq)
    (call : forkChild created i parent q d = .ok child) :
    child.own = q.own ∧ child.pgdir = d ∧ child.sz = parent.sz ∧ child.stacksize = parent.stacksize ∧
      child.state = .runnable ∧ UserQueue child.mq := by
  obtain ⟨files, _, rest1⟩ := bind_ok.1 call
  obtain ⟨mq, copy, rest2⟩ := bind_ok.1 rest1
  obtain ⟨vtab, slots, rest3⟩ := bind_ok.1 rest2
  cases rest3
  obtain ⟨l, wf, user⟩ := queue
  obtain ⟨mq', copy', wf', vaddrs, _, pages⟩ := wf.copy_queue { q.mq with num := parent.mq.num } (wf.copy_room copy)
  cases copy'.symm.trans copy
  have slotPages : vtab.pages = q.vtab.pages := by
    unfold copySlots at slots
    split at slots
    · cases slots
    · cases slots
      rfl
  refine ⟨?_, rfl, rfl, rfl, rfl, _, wf', by rwa [vaddrs]⟩
  simp only [Proc.own, pages, slotPages]

/-- What a call of `fork` that returns has done, once a slot was found. -/
inductive Forked (created : Nat → Inode) (i j : Nat) (k : Kernel) : Int → Kernel → Prop where
  | failed {parentDir : PgDir} {km km' : Kmem} {f : Nat} : copyuvm (k.proc i) k.km = .ok (none, parentDir, km) →
      (k.proc j).kstack = some f → kfree (P2V (f * PGSIZE)) km = .ok km' →
      Forked created i j k (-1) { k with
        proc := Function.update (Function.update k.proc i { k.proc i with pgdir := parentDir }) j
          { k.proc j with kstack := none, state := .unused, pgdir := {} }
        km := km' }
  | done {parentDir d : PgDir} {km : Kmem} {child : Proc} : copyuvm (k.proc i) k.km = .ok (some d, parentDir, km) →
      forkChild created i { k.proc i with pgdir := parentDir } (k.proc j) d = .ok child →
      Forked created i j k child.pid { k with
        proc := Function.update (Function.update k.proc i { k.proc i with pgdir := parentDir }) j child
        km := km }

theorem fork_ok (call : fork created i k = .ok (r, k')) :
    (allocproc k = (none, k') ∧ r = -1) ∨ ∃ j k1, allocproc k = (some j, k1) ∧ (j ≠ i → Forked created i j k1 r k') := by
  unfold fork at call
  split at call
  · rename_i k1 alloc
    cases call
    exact .inl ⟨alloc, rfl⟩
  · rename_i j k1 alloc
    refine .inr ⟨j, k1, alloc, fun ne => ?_⟩
    obtain ⟨⟨d, parentDir, km2⟩, copy, rest⟩ := bind_ok.1 call
    have atJ : ∀ p : Proc, update k1.proc i p j = k1.proc j := fun p => update_of_ne ne _ _
    have atI : ∀ p : Proc, update k1.proc i p i = p := fun p => update_self _ _ _
    simp only [Kernel.setProc, atJ, atI] at rest
    cases d with
    | none =>
      simp only at rest
      split at rest
      · cases rest
      · rename_i f stack
        obtain ⟨km3, free, rest⟩ := bind_ok.1 rest
        cases rest
        exact .failed copy stack free
    | some d =>
      obtain ⟨child, make, rest⟩ := bind_ok.1 rest
      cases rest
      exact .done copy make

/-- **`fork`.** -/
theorem fork_held (acc : k.Accounted D) (bound : i < NPROC) (live : (k.proc i).live) (call : fork created i k = .ok (r, k')) :
    k'.Accounted D ∧ (k.NoneOut → k'.NoneOut) := by
  rcases fork_ok call with ⟨alloc, _⟩ | ⟨j, k1, alloc, forked⟩
  · obtain ⟨acc1, _, _, none1, _⟩ := allocproc_held acc alloc
    exact ⟨acc1, none1⟩
  obtain ⟨acc1, same1, _, none1, got⟩ := allocproc_held acc alloc
  obtain ⟨boundJ, unused, q, ⟨pid, f, mq, isQ, queue⟩, procs⟩ := got j rfl
  have ne : j ≠ i := by
    rintro rfl
    exact live.1 unused
  have live1 : (k1.proc i).live := by
    rw [procs, update_of_ne ne.symm]
    exact live
  have embryo : (k1.proc j).state = .embryo ∧ (k1.proc j).kstack = some f := by
    rw [procs, update_self, isQ]
    exact ⟨rfl, rfl⟩
  have dead : ¬ (k1.proc j).live := fun live => live.2 embryo.1
  have others : k1.others i = k1.beside i j + (k1.proc j).own := by
    rw [k1.others_split ne boundJ, Proc.use_dead dead]
  have once : ∀ f, total (k1.proc j).own f ≤ 1 := Proc.use_dead dead ▸ (acc1.procs j boundJ).once
  have few : (k1.proc i).pgdir.FewOthers (k1.beside i j) := fun _ _ =>
    acc1.few _ _ fun l mem => Finset.mem_of_mem_erase (Finset.mem_of_mem_erase mem)
  have good := (acc1.procs i bound).good live1
  have layout := (acc1.procs i bound).layout live1
  have copyRule := @copyuvm_held D (k1.beside i j) (k1.proc j).own
  -- what `copyuvm` leaves of the parent
  have parentOk : ∀ {r parentDir km}, CopyDone D (k1.beside i j) (k1.proc j).own (k1.proc i) r parentDir km →
      ({ k1.proc i with pgdir := parentDir } : Proc).Ok := fun done =>
    ⟨fun _ => ⟨done.wf, good.queue⟩, fun _ => layout.same rfl rfl, fun unused => absurd unused live1.1,
      fun f => by rw [Proc.use_table live1]; exact done.once f⟩
  cases forked ne with
  | @failed parentDir km2 km3 g copy stack free =>
    obtain ⟨kept, done⟩ := copyRule acc1.linked (others ▸ acc1.held_live bound live1) once
      (k1.proc j).own_exclusive few good layout copy
    -- the kernel stack goes; the chains stay with the slot
    have ownJ : (k1.proc j).own =
        pageList (k1.proc j).mq.pages + pageList (k1.proc j).vtab.pages + ref g true := by
      rw [Proc.own, stack, pdeUse]
      abel
    have aside : Acct D (k1.beside i j + ((k1.proc i).own + parentDir.use) +
        (pageList (k1.proc j).mq.pages + pageList (k1.proc j).vtab.pages) + ref g true) km2 := by
      refine (done.failed rfl).congr ?_
      rw [ownJ]
      abel
    obtain ⟨freed, acct, kept3⟩ := aside.kfree
    cases freed.symm.trans free
    have linked := (acc1.linked.kept kept).kept kept3
    have slotUse : ({ k1.proc j with kstack := none, state := .unused, pgdir := {} } : Proc).use =
        pageList (k1.proc j).mq.pages + pageList (k1.proc j).vtab.pages := by
      rw [Proc.use_dead fun live => live.1 rfl, Proc.own, pdeUse, zero_add]
    refine ⟨acc1.update_two ne bound boundJ rfl linked (acct.congr ?_) (parentOk done) ⟨?_, ?_, ?_, ?_⟩,
      fun none => ?_⟩
    · rw [slotUse, Proc.use_table live1]
    · exact fun live => absurd rfl live.1
    · exact fun live => absurd rfl live.1
    · exact fun _ => rfl
    · intro f
      have := once f
      rw [ownJ, total_add] at this
      rw [slotUse]
      omega
    · exact ((none1 none).update rfl fun _ => (none1 none i bound live1).protected done.prot).update
        (k := { k1 with proc := _ }) rfl fun live => absurd rfl live.1
  | @done parentDir d km2 child copy make =>
    obtain ⟨kept, done⟩ := copyRule acc1.linked (others ▸ acc1.held_live bound live1) once
      (k1.proc j).own_exclusive few good layout copy
    obtain ⟨acct, onceChild, wfChild, copied⟩ := done.done d rfl
    obtain ⟨own, table, size, stack, state, queueChild⟩ := forkChild_ok good.queue make
    have childLive : child.live := ⟨by rw [state]; rintro ⟨⟩, by rw [state]; rintro ⟨⟩⟩
    have childUse : (k1.proc j).own + d.use = child.use := Proc.use_of childLive own.symm (by rw [table])
    refine ⟨acc1.update_two ne bound boundJ rfl (acc1.linked.kept kept) (acct.congr ?_) (parentOk done) ⟨?_, ?_, ?_, ?_⟩,
      fun none => ?_⟩
    · rw [childUse, Proc.use_table live1]
    · exact fun _ => ⟨table ▸ wfChild, queueChild⟩
    · exact fun _ => layout.same size stack
    · exact fun unused => absurd unused childLive.1
    · exact childUse ▸ onceChild
    · exact ((none1 none).update rfl fun _ => (none1 none i bound live1).protected done.prot).update
        (k := { k1 with proc := _ }) rfl fun _ => table ▸ (none1 none i bound live1).copied wfChild copied

/-! ## Ending processes -/

/-- What `exit` does to a process of the table: the caller becomes a zombie, and a child of
it gets another parent. -/
def Proc.Orphaned (caller : Prop) (p p' : Proc) : Prop :=
  ∃ parent, (p' = { p with parent := parent } ∧ ¬ caller) ∨ (p' = { p with parent := parent, state := .zombie } ∧ caller)

theorem exit_ok (call : exit unlinked i k = .ok k') : k'.km = k.km ∧ ∀ l, (k.proc l).Orphaned (l = i) (k'.proc l) := by
  unfold exit at call
  split at call
  · cases call
  · split at call
    · cases call
    · cases call
      refine ⟨rfl, fun l => ?_⟩
      by_cases same : l = i
      · subst same
        simp only [update_self]
        split
        · exact ⟨_, .inr ⟨rfl, trivial⟩⟩
        · exact ⟨(k.proc l).parent, .inr ⟨rfl, trivial⟩⟩
      · simp only [update_of_ne same]
        split
        · exact ⟨_, .inl ⟨rfl, same⟩⟩
        · exact ⟨(k.proc l).parent, .inl ⟨rfl, same⟩⟩

theorem Proc.Orphaned.same {caller : Prop} {p p' : Proc} (orphaned : p.Orphaned caller p') (live : caller → p.live) :
    p'.use = p.use ∧ (p'.live ↔ p.live) ∧ p'.pgdir = p.pgdir ∧ (p.Ok → p'.Ok) := by
  obtain ⟨parent, ⟨rfl, _⟩ | ⟨rfl, isCaller⟩⟩ := orphaned
  · exact ⟨rfl, .rfl, rfl, fun ok => ⟨fun l => ⟨(ok.good l).table, (ok.good l).queue⟩,
      fun l => (ok.layout l).same rfl rfl, ok.spare, ok.once⟩⟩
  · have alive := live isCaller
    have zombie : ({ p with parent := parent, state := .zombie } : Proc).live := ⟨by rintro ⟨⟩, by rintro ⟨⟩⟩
    have use : ({ p with parent := parent, state := .zombie } : Proc).use = p.use := by
      rw [Proc.use_live zombie, Proc.use_live alive]
      exact Proc.res_congr rfl rfl rfl rfl
    exact ⟨use, iff_of_true zombie alive, rfl, fun ok => ⟨fun _ => ⟨(ok.good alive).table, (ok.good alive).queue⟩,
      fun _ => (ok.layout alive).same rfl rfl, by rintro ⟨⟩, fun f => by rw [use]; exact ok.once f⟩⟩

/-- **`exit`.** -/
theorem exit_held (acc : k.Accounted D) (live : (k.proc i).live) (call : exit unlinked i k = .ok k') :
    k'.Accounted D ∧ (k.NoneOut → k'.NoneOut) := by
  obtain ⟨memory, orphaned⟩ := exit_ok call
  have same := fun l => (orphaned l).same fun isCaller => isCaller ▸ live
  refine ⟨⟨memory ▸ acc.linked, ?_, fun l bound => (same l).2.2.2 (acc.procs l bound)⟩, fun none l bound isLive => ?_⟩
  · rw [memory]
    exact acc.acct.congr (Finset.sum_congr rfl fun l _ => (same l).1.symm)
  · rw [(same l).2.2.1]
    exact none l bound ((same l).2.1.1 isLive)

/-- **`wait`.** -/
theorem wait_held {r : Option Int} (acc : k.Accounted D) (call : wait i k = .ok (r, k')) :
    k'.Accounted D ∧ (k.NoneOut → k'.NoneOut) := by
  unfold wait at call
  split at call
  · rename_i j found
    have bound : j < NPROC := mem_range.1 (mem_of_find?_eq_some found)
    have zombie : (k.proc j).state = .zombie := by
      have := find?_some found
      simp only [decide_eq_true_eq] at this
      exact this.2
    have live : (k.proc j).live := ⟨by rw [zombie]; rintro ⟨⟩, by rw [zombie]; rintro ⟨⟩⟩
    simp only at call
    split at call
    · cases call
    · rename_i f stack
      obtain ⟨km1, free, rest⟩ := bind_ok.1 call
      obtain ⟨km2, freed, rest⟩ := bind_ok.1 rest
      cases rest
      have held : Held D (k.others j)
          (pageList (k.proc j).mq.pages + pageList (k.proc j).vtab.pages + (k.proc j).pgdir.use + ref f true) k.km := by
        refine (acc.held_live bound live).congr ?_
        rw [Proc.res, Proc.own, stack, pdeUse]
        abel
      obtain ⟨run1, held1, kept1⟩ := held.kfree
      cases run1.symm.trans free
      obtain ⟨km3, run2, held2, kept2⟩ := freevm_held acc.zero held1 ((acc.procs j bound).good live).table
      cases run2.symm.trans freed
      refine ⟨acc.update_dead bound rfl ((acc.linked.kept kept1).kept kept2) (.inl ⟨rfl, rfl⟩) held2 ?_,
        fun none => none.update rfl fun live => absurd rfl live.1⟩
      rw [Proc.own, pdeUse, zero_add]
  · split at call
    all_goals
      cases call
      exact ⟨acc, id⟩

/-! ## Memory accesses -/

/-- **A store** changes a page of its own process only. -/
theorem store_held {va : Nat} {e : Pte} {b : UInt8} (acc : k.Accounted D) (bound : i < NPROC)
    (live : (k.proc i).live) (fits : va < 2 ^ 32) (found : walkpgdir va (k.proc i).pgdir = some e)
    (allowed : e.allows true) :
    Kernel.Accounted D { k with km := k.km.store e.addr (va % PGSIZE) [b] } ∧
      Kept (k.others i) k.km (k.km.store e.addr (va % PGSIZE) [b]) := by
  obtain ⟨_, entry⟩ := walkpgdir_some.1 found
  obtain ⟨present, user, writable⟩ : e.p = true ∧ e.u = true ∧ e.w = true := by
    simpa [Pte.allows, and_assoc] using allowed
  have held := acc.held_live bound live
  have use : (k.proc i).res = (k.proc i).own + (k.proc i).pgdir.rest (va / PGSIZE) + ref e.addr true := by
    rw [Proc.res, PgDir.use_eq _ (vpage_lt fits), entry, Pte.use_mapped present user, writable]
    abel
  refine ⟨⟨⟨acc.linked.text, acc.linked.data, acc.linked.room⟩, acc.acct.of_mem _, acc.procs⟩, ?_⟩
  exact kept_write (held.congr use).exclusive _

end Table

end Xv6
