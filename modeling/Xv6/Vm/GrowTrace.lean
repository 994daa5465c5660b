import Xv6.Vm.GrowFailed
import Xv6.Vm.GrowRoom

/-!
# A growth that runs out of memory

`allocuvm` puts the record for a page into the resident queue before it asks for the
page, and undoes a failed growth with `deallocuvm` over the whole range: nothing takes the
record out again, and a page that an earlier iteration mapped makes `deallocuvm` panic. So
a growth of the process's own table during which `kalloc` returns 0 always leaves a trace.
How many free pages a growth needs is counted for the case that no page is evicted.
-/

namespace Xv6
open Fallible Function List

/-- In the second half of `allocuvm`'s loop body `kalloc` returns 0, for the page or for its table. -/
def pageShort (tgt : Target) (a : Nat) (c : Ctx) : Prop :=
  match kalloc c.km with
  | (none, _) => True
  | (some f, km) => ∃ d km', mappages a PGSIZE (f * PGSIZE) Pte.user (c.table tgt) (km.zero f) = .ok (false, d, km')

/-- In some iteration of `allocuvm`'s loop `kalloc` returns 0, for a page or for a table. -/
def growShort (tgt : Target) (oldsz newsz : Nat) : List Nat → Bool → Ctx → Prop
  | [], _, _ => False
  | a :: as, fresh, c => ∃ fresh' p km, makeRoom a fresh c.cur c.km = .ok (fresh', p, km) ∧
      (pageShort tgt a { c with cur := p, km := km } ∨
        ∃ c', growPage tgt oldsz newsz a { c with cur := p, km := km } = .ok (true, c') ∧ growShort tgt oldsz newsz as fresh' c')

/-- The growth has left no trace: the user mappings, the queue with its records and their number, and the
free pages are as before, apart from new page tables. -/
structure Undone (c c' : Ctx) : Prop where
  mappings : ∀ v, v < NUPAGES → c'.cur.pgdir.pte v = c.cur.pgdir.pte v
  queue : c'.cur.mq = c.cur.mq
  free : ∀ f, f ∈ c.km.freelist ↔
    f ∈ c'.km.freelist ∨ ∃ x, c'.cur.pgdir.pde x = some f ∧ c.cur.pgdir.pde x = none

/-- Pages taken from the free list to map `as`, when the tables in `has` exist: one for each page and one for
each table that is missing. -/
def framesFor (has : Nat → Bool) : List Nat → Nat
  | [] => 0
  | a :: as => 1 + (if has (PDX a) then 0 else 1) + framesFor (Function.update has (PDX a) true) as

/-- The tables a directory has. -/
def PgDir.has (d : PgDir) (x : Nat) : Bool := (d.pde x).isSome

section Frames

variable {c : Ctx} {oldsz newsz a : Nat} {d : PgDir} {km : Kmem}

theorem kalloc_nil (empty : km.freelist = []) : kalloc km = (none, km) := by rw [kalloc, empty]

theorem kalloc_cons {f : Nat} {rest : List Nat} (free : km.freelist = f :: rest) :
    ∃ km', kalloc km = (some f, km') ∧ km'.freelist = rest := by
  refine ⟨_, by rw [kalloc, free], rfl⟩

/-- `mapPage` takes a page from the free list exactly when the table is missing. -/
theorem mapPage_frames (km : Kmem) (perm : Pte) (pa : Nat) (wf : d.Wf) (absent : (d.pte (a / PGSIZE)).p = false) :
    (d.has (PDX a) = false ∧ km.freelist = [] → mapPage a pa perm d km = .ok (false, d, km)) ∧
    (d.has (PDX a) = true ∨ km.freelist ≠ [] → ∃ d1 km', d.Ext d1 ∧ d1.has = update d.has (PDX a) true ∧
      km'.freelist.length + (if d.has (PDX a) then 0 else 1) = km.freelist.length ∧
      mapPage a pa perm d km = .ok (true, d1.set a { perm with addr := pa / PGSIZE, p := true }, km')) := by
  obtain ⟨b, d1, km', walk, ext, table, map, _⟩ := mapPage_returns perm a pa wf km absent
  rw [walkpgdirAlloc] at walk
  cases here : d.pde (PDX a) with
  | some t =>
    rw [here] at walk
    cases walk
    have has : d.has (PDX a) = true := by rw [PgDir.has, here]; rfl
    refine ⟨fun both => absurd (has.symm.trans both.1) (by decide), ?_⟩
    intro _
    refine ⟨d, km, ext, ?_, ?_, map⟩
    · rw [← has, update_eq_self]
    · rw [has]
      rfl
  | none =>
    have has : d.has (PDX a) = false := by rw [PgDir.has, here]; rfl
    rw [here] at walk
    cases free : km.freelist with
    | nil =>
      rw [kalloc_nil free] at walk
      cases walk
      refine ⟨fun _ => map, ?_⟩
      rintro (isTable | some_)
      · exact absurd (isTable.symm.trans has) (by decide)
      · exact absurd rfl some_
    | cons f rest =>
      obtain ⟨km1, got, isRest⟩ := kalloc_cons free
      rw [got] at walk
      cases walk
      refine ⟨fun both => absurd both.2 (cons_ne_nil _ _), ?_⟩
      intro _
      refine ⟨d.addTable a f, _, ext, ?_, ?_, map⟩
      · funext x
        show (update d.pde (PDX a) (some f) x).isSome = _
        by_cases isHere : x = PDX a
        · rw [isHere, update_self, update_self]
          rfl
        · rw [update_of_ne isHere, update_of_ne isHere]
          rfl
      · rw [has, isRest]
        rfl

/-- One page of the process's own table is mapped exactly when the free list has the pages for it. -/
theorem growPage_frames (oldsz newsz : Nat) (aligned : a % PGSIZE = 0) (user : a < KERNBASE) (wf : c.cur.pgdir.Wf)
    (absent : (c.cur.pgdir.pte (a / PGSIZE)).p = false) :
    (c.km.freelist.length < 1 + (if c.cur.pgdir.has (PDX a) then 0 else 1) → pageShort .cur a c) ∧
    (1 + (if c.cur.pgdir.has (PDX a) then 0 else 1) ≤ c.km.freelist.length → ¬ pageShort .cur a c ∧
      ∃ c' f d1, growPage .cur oldsz newsz a c = .ok (true, c') ∧ c.cur.pgdir.Ext d1 ∧
        c'.cur = { c.cur with pgdir := d1.set a (Pte.fresh f) } ∧ d1.has = update c.cur.pgdir.has (PDX a) true ∧
        c'.km.freelist.length + (1 + (if c.cur.pgdir.has (PDX a) then 0 else 1)) = c.km.freelist.length) := by
  cases free : c.km.freelist with
  | nil =>
    rw [pageShort, kalloc_nil free]
    refine ⟨fun _ => trivial, ?_⟩
    intro enough
    rw [length_nil] at enough
    omega
  | cons f rest =>
    obtain ⟨km1, got, isRest⟩ := kalloc_cons free
    obtain ⟨fails, maps⟩ := mapPage_frames (km1.zero f) Pte.user (f * PGSIZE) wf absent
    rw [pageShort, got]
    dsimp only
    rw [mappages_page aligned user]
    have same : (km1.zero f).freelist = rest := isRest
    rw [same] at fails maps
    rw [length_cons]
    constructor
    · intro short
      have both : c.cur.pgdir.has (PDX a) = false ∧ rest = [] := by
        split at short
        · omega
        · rename_i missing
          exact ⟨by simpa using missing, length_eq_zero_iff.1 (by omega)⟩
      exact ⟨_, _, fails both⟩
    · intro enough
      have either : c.cur.pgdir.has (PDX a) = true ∨ rest ≠ [] := by
        split at enough
        · rename_i isTable
          exact Or.inl isTable
        · right
          intro none_
          rw [none_, length_nil] at enough
          omega
      obtain ⟨d1, km2, ext, has1, length, map⟩ := maps either
      constructor
      · rintro ⟨d, km', not⟩
        rw [show c.table .cur = c.cur.pgdir from rfl, map] at not
        cases not
      · refine ⟨{ c.setTable (d1.set a (Pte.fresh f)) .cur with km := km2 }, f, d1, ?_, ext, rfl, has1, ?_⟩
        · rw [growPage, got]
          refine bind_ok.2 ⟨(true, d1.set a (Pte.fresh f), km2), ?_, rfl⟩
          rw [mappages_page aligned user]
          rw [page_div] at map
          exact map
        · show km2.freelist.length + _ = _
          omega

/-- Without evictions, a growth runs out of memory exactly when the free list is shorter than what it needs. -/
theorem growShort_iff (oldsz newsz : Nat) (as : List Nat) :
    ∀ (c : Ctx) (vs : List Nat), (∀ a ∈ as, a % PGSIZE = 0 ∧ a < KERNBASE) → (as.map (· / PGSIZE)).Nodup → c.cur.pgdir.Wf →
      (∀ a ∈ as, (c.cur.pgdir.pte (a / PGSIZE)).p = false) → c.cur.mq.Holds vs → vs.length + as.length ≤ MEM_CAPACITY →
      (growShort .cur oldsz newsz as true c ↔ c.km.freelist.length < framesFor c.cur.pgdir.has as) := by
  induction as with
  | nil =>
    intro c vs _ _ _ _ _ _
    exact ⟨fun short => absurd short id, fun short => absurd short (Nat.not_lt_zero _)⟩
  | cons a as ih =>
    intro c vs pages distinct wf absent holds capacity
    obtain ⟨aligned, user⟩ := pages a (by simp)
    obtain ⟨below, low⟩ := user_page user
    rw [map_cons, nodup_cons] at distinct
    rw [length_cons] at capacity
    obtain ⟨q, make, holds1⟩ := makeRoom_room c.km holds user (by omega)
    obtain ⟨fails, maps⟩ :=
      growPage_frames (c := { c with cur := { c.cur with mq := q } }) oldsz newsz aligned user wf (absent a (by simp))
    dsimp only at fails maps
    rw [framesFor]
    by_cases enough : 1 + (if c.cur.pgdir.has (PDX a) then 0 else 1) ≤ c.km.freelist.length
    · -- the page is mapped, and the rest of the range decides
      obtain ⟨notShort, c1, f, d1, grow, ext, cur1, has1, length⟩ := maps enough
      have step : growShort .cur oldsz newsz (a :: as) true c ↔ growShort .cur oldsz newsz as true c1 := by
        constructor
        · rintro ⟨fresh1, p, km, made, rest⟩
          rw [make] at made
          cases made
          obtain short | ⟨c2, grow2, later⟩ := rest
          · exact absurd short notShort
          · rw [grow] at grow2
            cases grow2
            exact later
        · intro later
          exact ⟨true, _, _, make, Or.inr ⟨c1, grow, later⟩⟩
      have table : d1.pde (a / PGSIZE / 1024) ≠ none := by
        rw [← pdx_eq below]
        have has : d1.has (PDX a) = true := by rw [has1, update_self]
        rw [PgDir.has] at has
        intro missing
        rw [missing] at has
        cases has
      have wf1 : (d1.set a (Pte.fresh f)).Wf := (wf.ext ext).set table (fun _ _ => rfl) (fun high => by omega) fun _ => rfl
      have rest := ih c1 (a :: vs) (fun b mem => pages b (by simp [mem])) distinct.2 (by rw [cur1]; exact wf1)
        (fun b mem => ?_) (by rw [cur1]; exact holds1) (by rw [length_cons]; omega)
      · rw [cur1] at rest
        dsimp only at rest
        rw [show (d1.set a (Pte.fresh f)).has = d1.has from rfl, has1] at rest
        rw [step, rest]
        omega
      · rw [cur1]
        dsimp only
        rw [PgDir.set_pte, if_neg, ext.pte]
        · exact absent b (by simp [mem])
        · intro same
          exact distinct.1 (same ▸ mem_map_of_mem mem)
    · constructor
      · intro _
        omega
      · intro _
        exact ⟨true, _, _, make, Or.inl (fails (by omega))⟩

end Frames

section Trace

variable {c c' : Ctx} {oldsz newsz : Nat}

/-- A growth of the process's own table that runs out of memory never goes back to where it was; without
evictions it runs out of memory exactly when the free list is too short. -/
theorem failed_growth_iff (growing : c.Growing .cur) (pos : newsz ≠ 0) (accepted : ¬ growRefused c.cur oldsz newsz)
    (grows : oldsz ≤ newsz) :
    ((growShort .cur oldsz newsz (pageRange (PGROUNDUP oldsz) newsz) true c →
        ∃ c', allocuvm .cur oldsz newsz c = .ok (0, c') ∧ Undone c c') ↔
      ¬ growShort .cur oldsz newsz (pageRange (PGROUNDUP oldsz) newsz) true c) ∧
    (∀ vs, c.cur.mq.Holds vs → vs.length + (pageRange (PGROUNDUP oldsz) newsz).length ≤ MEM_CAPACITY →
      (∀ a ∈ pageRange (PGROUNDUP oldsz) newsz, (c.cur.pgdir.pte (a / PGSIZE)).p = false) →
      (growShort .cur oldsz newsz (pageRange (PGROUNDUP oldsz) newsz) true c ↔
        c.km.freelist.length < framesFor c.cur.pgdir.has (pageRange (PGROUNDUP oldsz) newsz))) := by
  have top : newsz ≤ KERNBASE := by
    rw [growRefused, not_or, not_or, not_or] at accepted
    omega
  constructor
  · constructor
    · intro undone short
      obtain ⟨c', call, same⟩ := undone short
      rw [allocuvm, if_neg accepted, if_neg (by omega)] at call
      obtain queue | ⟨v, user, before, after⟩ := allocLoop_trace growing top pos call
      · exact queue same.queue
      · rw [same.mappings v user, before] at after
        cases after
    · intro never short
      exact absurd short never
  · intro vs holds capacity absent
    have aligned := PGROUNDUP_mod oldsz
    apply growShort_iff oldsz newsz _ c vs
    · intro a mem
      obtain ⟨page, _, high⟩ := pageRange_aligned newsz aligned a mem
      exact ⟨page, by omega⟩
    · exact pageRange_pages newsz aligned
    · exact growing.wf
    · exact absent
    · exact holds
    · exact capacity

/-- A process with an empty address space, and a list of free pages. -/
def shortCtx (free : List Nat) : Ctx where
  km := { Kmem.bss 0 0 (fun _ _ => 0) with freelist := free }
  cur := { sz := 0x1000, mq := { pages := [7] } }

theorem shortCtx_growing (free : List Nat) : (shortCtx free).Growing .cur := by
  have wf : ({} : PgDir).Wf := by
    constructor
    · intro _ _
      rfl
    · intro _ _ absent
      cases absent
    · intro _ _
      exact ⟨rfl, rfl⟩
    · intro _ absent
      cases absent
  exact ⟨⟨wf, [], MemQueue.wf_fresh [7], fun _ none_ => absurd none_ not_mem_nil⟩, wf⟩

set_option maxRecDepth 4000 in
/-- Without a free page even the growth by one page leaves a trace. -/
theorem failed_growth_short : ¬ (growShort .cur 0x1000 0x2000 (pageRange (PGROUNDUP 0x1000) 0x2000) true (shortCtx []) →
    ∃ c', allocuvm .cur 0x1000 0x2000 (shortCtx []) = .ok (0, c') ∧ Undone (shortCtx []) c') :=
  fun undone => (failed_growth_iff (shortCtx_growing []) (by decide) (by decide) (by decide)).1.1 undone
    ⟨true, _, _, rfl, Or.inl trivial⟩

/-- The record of the page that could not be allocated stays; and if an earlier page of the range was mapped,
undoing the growth panics. -/
theorem failed_growth_left :
    (∃ c', allocuvm .cur 0x1000 0x2000 (shortCtx []) = .ok (0, c') ∧
      (shortCtx []).cur.mq.num = 0 ∧ c'.cur.mq.num = 1 ∧ c'.cur.mq.head = some 0) ∧
    allocuvm .cur 0x1000 0x3000 (shortCtx [20, 21]) = .error (.panic "Should have a slot.") :=
  ⟨⟨_, rfl, rfl, rfl, rfl⟩, rfl⟩

end Trace

end Xv6
