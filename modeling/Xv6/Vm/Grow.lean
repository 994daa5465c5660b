import Xv6.Vm.Sound
import Xv6.Mem.QueueFifo

/-!
# Growing an address space

What `allocuvm` does, step by step: `fifoWrite_ok`, `makeRoom_ok` and `growPage_ok` say
everything that the parts of its loop body can do, and `allocLoop_rule` is the rule for the
loop. From them follow what growth does to the page table and to the resident queue, and
that the tables stay sound.
-/

namespace Xv6
open Fallible List

variable {fresh' fresh : Bool} {kend kdata : Nat} {ok : Bool}

/-- The queue is in order and holds user pages only. -/
def UserQueue (q : MemQueue) : Prop := ∃ l, q.Wf l ∧ ∀ va ∈ q.vaddrs l, va < KERNBASE

/-- A running process: its table is well formed and its queue holds user pages. -/
structure Proc.Good (p : Proc) : Prop where
  table : p.pgdir.Wf
  queue : UserQueue p.mq

/-- `p'` differs from `p` in its address space, its queue, its slots and its swap files. -/
def Proc.SameMeta (p p' : Proc) : Prop :=
  p' = { p with pgdir := p'.pgdir, mq := p'.mq, vtab := p'.vtab, vpfile := p'.vpfile }

theorem Proc.SameMeta.trans {p p' p'' : Proc} (first : p.SameMeta p') (second : p'.SameMeta p'') :
    p.SameMeta p'' := by
  unfold Proc.SameMeta at *
  rw [second, first]

/-- Where heap and stack may lie: they do not meet, and the stack can grow no further
than one page above address 0. -/
structure Proc.Layout (p : Proc) : Prop where
  stack : p.stacksize % PGSIZE = 0
  room : p.stacksize + PGSIZE ≤ KERNBASE
  heap : p.sz + p.stacksize ≤ KERNBASE

theorem stackSpace_le {p : Proc} (layout : p.Layout) : p.stackSpace + PGSIZE + p.stacksize = KERNBASE := by
  have := layout.room
  simp only [Proc.stackSpace, sub32, USERSTACKTOP, KERNBASE, PGSIZE] at *
  omega

theorem Proc.Layout.same {p p' : Proc} (layout : p.Layout) (sz : p'.sz = p.sz) (stack : p'.stacksize = p.stacksize) :
    p'.Layout :=
  ⟨stack ▸ layout.stack, stack ▸ layout.room, by rw [sz, stack]; exact layout.heap⟩

theorem Proc.SameMeta.sizes {p p' : Proc} (same : p.SameMeta p') : p'.sz = p.sz ∧ p'.stacksize = p.stacksize := by
  rw [same]
  exact ⟨rfl, rfl⟩

theorem Proc.SameMeta.layout {p p' : Proc} (same : p.SameMeta p') (layout : p.Layout) : p'.Layout := by
  rw [same]
  exact layout.same rfl rfl

/-! ## Queues -/

section Queue

variable {q q' q1 : MemQueue} {a l : Nat} {few null : String}

theorem user_not_usable (user : a < KERNBASE) : a ≠ SLOT_USABLE := by
  simp only [KERNBASE, SLOT_USABLE] at *
  omega

theorem UserQueue.add_page (uq : UserQueue q) (user : a < KERNBASE) (call : addPage a q = .ok q') :
    UserQueue q' ∧ q'.pages = q.pages ∧ q'.num = q.num + 1 := by
  obtain ⟨q1, found, rest⟩ := bind_ok.1 call
  cases rest
  obtain ⟨i, bound, usable, rfl⟩ := findSlot_ok found
  obtain ⟨m, wf, users⟩ := uq
  have fresh : i ∉ m := fun mem => ((wf.used i).1 mem).2 usable
  have linked := wf.link_front fresh bound (user_not_usable user)
  refine ⟨⟨i :: m, ⟨linked.rep, linked.used, linked.unlinked⟩, fun va mem => ?_⟩, linkFront_pages q i a, by simp⟩
  have vaddrs : (q.linkFront i a).vaddrs (i :: m) = a :: q.vaddrs m := linkFront_vaddrs (wf.notHead fresh) fresh
  rcases mem_cons.1 (vaddrs ▸ mem) with rfl | old
  · exact user
  · exact users va old

theorem UserQueue.of_num (uq : UserQueue q) (n : Nat) : UserQueue { q with num := n } := by
  obtain ⟨m, wf, users⟩ := uq
  exact ⟨m, ⟨wf.rep, wf.used, wf.unlinked⟩, users⟩

/-- The victim is a user page. -/
theorem UserQueue.victim (uq : UserQueue q) (taken : takeLast few null q = .ok (l, q1)) :
    (q1.entries l).vaddr < KERNBASE := by
  obtain ⟨m, wf, users⟩ := uq
  obtain ⟨m', rfl, _, _, _, vaddr, _⟩ := wf.take_last taken
  refine users _ ?_
  rw [vaddr]
  exact mem_map_of_mem (by simp)

theorem UserQueue.recycle (uq : UserQueue q) (user : a < KERNBASE) (taken : takeLast few null q = .ok (l, q1)) :
    UserQueue (q1.linkFront l a) ∧ q1.pages = q.pages ∧ q1.num = q.num := by
  obtain ⟨m, wf, users⟩ := uq
  obtain ⟨_, _, _, _, _, num, pages, _⟩ := takeLast_ok taken
  obtain ⟨m', rfl, _, wf', vaddrs⟩ := wf.recycle taken (user_not_usable user)
  refine ⟨⟨_, wf', fun va mem => ?_⟩, pages, num⟩
  rcases mem_cons.1 (vaddrs ▸ mem) with rfl | old
  · exact user
  · refine users va ?_
    simp only [MemQueue.vaddrs, map_append, mem_append] at old ⊢
    exact .inl old

end Queue

/-! ## Eviction -/

section Evict

variable {p p' : Proc} {km km' : Kmem} {a j : Nat} {t : SlotTable} {va : Nat}

/-- `fifo_write` takes a usable entry, of the chain or of a page it adds. -/
theorem takeSlot_ok {t0 : SlotTable} (call : takeSlot t0 km = .ok (j, t, km')) :
    (t0.find SLOT_USABLE = some j ∧ t = t0 ∧ km' = km) ∨
    (∃ f, t0.find SLOT_USABLE = none ∧ kalloc km = (some f, km') ∧ j = t0.slots ∧ t.pages = t0.pages ++ [f] ∧
      ∀ i, t.vaddr i =
        if t0.slots ≤ i ∧ i < t0.slots + NUM_VIRTUAL_PAGE_ENTRIES then SLOT_USABLE else t0.vaddr i) := by
  unfold takeSlot at call
  split at call
  · rename_i i found
    cases call
    exact .inl ⟨found, rfl, rfl⟩
  · rename_i full
    split at call
    · cases call
    · rename_i t' km1 grown
      unfold vmemGrowpage at grown
      split at grown
      · cases grown
      · rename_i f km2 got
        cases grown
        have first : ((List.range NUM_VIRTUAL_PAGE_ENTRIES).find? fun i =>
            decide ((if t0.slots ≤ t0.slots + i ∧ t0.slots + i < t0.slots + NUM_VIRTUAL_PAGE_ENTRIES
              then SLOT_USABLE else t0.vaddr (t0.slots + i)) = SLOT_USABLE)) = some 0 := by
          simp [NUM_VIRTUAL_PAGE_ENTRIES, range_succ_eq_map]
        simp only [first] at call
        cases call
        exact .inr ⟨f, full, got, by simp, rfl, fun i => rfl⟩

theorem userPage_ok {d : PgDir} {bytes : Bytes} (call : userPage va d km = .ok bytes) :
    ∃ e, walkpgdir va d = some e ∧ e.p = true ∧ bytes = km.mem e.addr := by
  unfold userPage at call
  split at call
  · cases call
  · rename_i e found
    split at call
    · rename_i present
      cases call
      exact ⟨e, found, present, rfl⟩
    · cases call

/-- Everything `fifo_write` does when it returns a record. -/
theorem fifoWrite_ok {last : Nat} (call : fifoWrite p km = .ok (some last, p', km')) :
    ∃ mq j t km1 e n files, takeLast "Only 0 or 1 page in memory." "[Error] last null!" p.mq = .ok (last, mq) ∧
      takeSlot p.vtab km = .ok (j, t, km1) ∧
      walkpgdir (mq.entries last).vaddr p.pgdir = some e ∧ e.p = true ∧
      vpwrite p.vpfile (km1.mem e.addr) (j * PGSIZE) PGSIZE = .ok (n, files) ∧ n ≠ 0 ∧
      kfree (P2V (e.addr * PGSIZE)) km1 = .ok km' ∧
      p' = { p with
        mq := mq
        vtab := t.set j (mq.entries last).vaddr
        vpfile := files
        pgdir := p.pgdir.set (mq.entries last).vaddr Pte.out } := by
  obtain ⟨⟨l, mq⟩, taken, rest1⟩ := bind_ok.1 call
  obtain ⟨⟨j, t, km1⟩, slot, rest2⟩ := bind_ok.1 rest1
  obtain ⟨bytes, read, rest3⟩ := bind_ok.1 rest2
  obtain ⟨⟨n, files⟩, written, rest4⟩ := bind_ok.1 rest3
  obtain ⟨e, found, present, same⟩ := userPage_ok read
  rw [same] at written
  simp only [found] at rest4
  split at rest4
  · cases rest4
  · rename_i nonzero
    split at rest4
    · cases rest4
    · obtain ⟨km2, freed, rest5⟩ := bind_ok.1 rest4
      cases rest5
      exact ⟨mq, j, t, km1, e, n, files, taken, slot, found, present, written, nonzero, freed, rfl⟩

/-- Everything the first half of the loop body does. -/
theorem makeRoom_ok (call : makeRoom a fresh p km = .ok (fresh', p', km')) :
    (∃ l p1, MEM_CAPACITY ≤ p.mq.num ∧ fifoWrite p km = .ok (some l, p1, km') ∧ fresh' = false ∧
      p' = { p1 with mq := p1.mq.linkFront l a }) ∨
    (∃ mq, p.mq.num < MEM_CAPACITY ∧ fresh = true ∧ fresh' = true ∧ km' = km ∧ addPage a p.mq = .ok mq ∧
      p' = { p with mq := mq }) ∨
    (p.mq.num < MEM_CAPACITY ∧ fresh = false ∧ fresh' = false ∧ km' = km ∧ p' = p) := by
  obtain ⟨⟨fresh1, p1, km1⟩, first, rest⟩ := bind_ok.1 call
  unfold writePage at first
  split at first
  · rename_i full
    obtain ⟨⟨l, p2, km2⟩, write, linked⟩ := bind_ok.1 first
    cases l with
    | none => cases linked
    | some l =>
      cases linked
      cases rest
      exact .inl ⟨l, p2, full, write, rfl, rfl⟩
  · rename_i few
    cases first
    cases fresh with
    | true =>
      obtain ⟨mq, added, rest⟩ := bind_ok.1 rest
      cases rest
      exact .inr (.inl ⟨mq, by omega, rfl, rfl, rfl, added, rfl⟩)
    | false =>
      cases rest
      exact .inr (.inr ⟨by omega, rfl, rfl, rfl, rfl⟩)

/-- The queue and the other fields after the first half of the loop body. -/
theorem makeRoom_same (call : makeRoom a fresh p km = .ok (fresh', p', km')) : p.SameMeta p' ∧ p'.mq.pages = p.mq.pages := by
  rcases makeRoom_ok call with ⟨l, p1, _, write, _, rfl⟩ | ⟨mq, _, _, _, _, added, rfl⟩ | ⟨_, _, _, _, rfl⟩
  · obtain ⟨mq, j, t, km1, e, n, files, taken, _, _, _, _, _, _, rfl⟩ := fifoWrite_ok write
    obtain ⟨_, _, _, _, _, _, pages, _⟩ := takeLast_ok taken
    exact ⟨rfl, by simp only [linkFront_pages, pages]⟩
  · obtain ⟨q1, found, rest⟩ := bind_ok.1 added
    cases rest
    obtain ⟨i, _, _, rfl⟩ := findSlot_ok found
    exact ⟨rfl, linkFront_pages _ _ _⟩
  · exact ⟨rfl, rfl⟩

/-- Some entries of `d` are paged out in `d'`. -/
structure PgDir.Evicted (d d' : PgDir) : Prop where
  frame : d'.frame = d.frame
  pde : d'.pde = d.pde
  pte : ∀ v, d'.pte v = d.pte v ∨ d'.pte v = Pte.out ∧ v < NUPAGES

theorem PgDir.Evicted.refl (d : PgDir) : d.Evicted d := ⟨rfl, rfl, fun _ => .inl rfl⟩

theorem PgDir.Evicted.trans {d d' d'' : PgDir} (first : d.Evicted d') (second : d'.Evicted d'') : d.Evicted d'' := by
  refine ⟨second.frame.trans first.frame, second.pde.trans first.pde, fun v => ?_⟩
  rcases second.pte v with same | out
  · rw [same]
    exact first.pte v
  · exact .inr out

theorem user_page (user : va < KERNBASE) : va < 2 ^ 32 ∧ va / PGSIZE < NUPAGES := by
  simp only [KERNBASE, PGSIZE, NUPAGES] at *
  omega

theorem PgDir.evicted_set {d : PgDir} (user : va < KERNBASE) : d.Evicted (d.set va Pte.out) := by
  refine ⟨rfl, rfl, fun v => ?_⟩
  rw [PgDir.set_pte]
  split
  · rename_i here
    exact .inr ⟨rfl, here ▸ (user_page user).2⟩
  · exact .inl rfl

/-- The table after an eviction. -/
theorem fifoWrite_table {last : Nat} (good : p.Good) (call : fifoWrite p km = .ok (some last, p', km')) :
    p'.pgdir.Wf ∧ p.pgdir.Evicted p'.pgdir := by
  obtain ⟨mq, j, t, km1, e, n, files, taken, _, found, _, _, _, _, rfl⟩ := fifoWrite_ok call
  have user := good.queue.victim taken
  obtain ⟨below, low⟩ := user_page user
  obtain ⟨table, _⟩ := walkpgdir_some.1 found
  exact ⟨good.table.set (by rw [← pdx_eq below]; exact table) (fun _ out => by cases out) (fun high => by omega) (by rintro ⟨⟩),
    PgDir.evicted_set user⟩

/-- The table and the queue after the first half of the loop body. -/
theorem makeRoom_good (good : p.Good) (user : a < KERNBASE) (call : makeRoom a fresh p km = .ok (fresh', p', km')) :
    p'.Good ∧ p.pgdir.Evicted p'.pgdir ∧
      (p.mq.num < MEM_CAPACITY → p'.pgdir = p.pgdir ∧ p'.mq.num ≤ p.mq.num + 1) := by
  rcases makeRoom_ok call with ⟨l, p1, full, write, _, rfl⟩ | ⟨mq, few, _, _, _, added, rfl⟩ | ⟨few, _, _, _, rfl⟩
  · obtain ⟨wf, evicted⟩ := fifoWrite_table good write
    obtain ⟨mq, j, t, km1, e, n, files, taken, _, _, _, _, _, _, rfl⟩ := fifoWrite_ok write
    exact ⟨⟨wf, (good.queue.recycle user taken).1⟩, evicted, fun few => by omega⟩
  · obtain ⟨uq, _, num⟩ := good.queue.add_page user added
    exact ⟨⟨good.table, uq⟩, .refl _, fun _ => ⟨rfl, by simp only [num, Nat.le_refl]⟩⟩
  · exact ⟨good, .refl _, fun _ => ⟨rfl, Nat.le_succ _⟩⟩

/-- Free pages stay frames. -/
theorem makeRoom_memory (memory : km.Sound kend kdata) (call : makeRoom a fresh p km = .ok (fresh', p', km')) :
    km'.Sound kend kdata := by
  rcases makeRoom_ok call with ⟨l, p1, _, write, _, _⟩ | ⟨_, _, _, _, rfl, _⟩ | ⟨_, _, _, rfl, _⟩
  · obtain ⟨mq, j, t, km1, e, n, files, _, slot, _, _, _, _, freed, _⟩ := fifoWrite_ok write
    have memory1 : km1.Sound kend kdata := by
      rcases takeSlot_ok slot with ⟨_, _, rfl⟩ | ⟨f, _, got, _⟩
      · exact memory
      · exact (memory.kalloc got).1
    exact memory1.kfree freed
  · exact memory
  · exact memory

theorem PgDir.Sound.evicted {lo : Nat} {d d' : PgDir} (sound : d.Sound kend lo) (evicted : d.Evicted d') (wf : d'.Wf) :
    d'.Sound kend lo := by
  have entry : ∀ v, (d'.pte v).Sound kend lo v := fun v => by
    rcases evicted.pte v with same | ⟨out, low⟩
    · exact same ▸ sound.entry v
    · exact out ▸ Pte.sound_out low
  exact ⟨wf, evicted.frame ▸ sound.frame, evicted.pde ▸ sound.tables, fun v => (entry v).page, fun v => (entry v).low⟩

end Evict

/-! ## Mapping -/

/-- Entries of `d'` that differ from those of `d` satisfy `P`. -/
structure PgDir.Changed (P : Nat → Pte → Prop) (d d' : PgDir) : Prop where
  frame : d'.frame = d.frame
  pte : ∀ v, d'.pte v = d.pte v ∨ P v (d'.pte v)

section Changed

variable {P Q : Nat → Pte → Prop} {d d' d'' : PgDir}

theorem PgDir.Changed.refl (P : Nat → Pte → Prop) (d : PgDir) : d.Changed P d := ⟨rfl, fun _ => .inl rfl⟩

theorem PgDir.Changed.trans (first : d.Changed P d') (second : d'.Changed P d'') : d.Changed P d'' := by
  refine ⟨second.frame.trans first.frame, fun v => ?_⟩
  rcases second.pte v with same | new
  · rw [same]
    exact first.pte v
  · exact .inr new

theorem PgDir.Changed.mono (changed : d.Changed P d') (weaker : ∀ v e, P v e → Q v e) : d.Changed Q d' :=
  ⟨changed.frame, fun v => (changed.pte v).imp id (weaker v _)⟩

end Changed

/-- The page is present or paged out. -/
def Pte.Mapped (e : Pte) : Prop := e.p = true ∨ e.pg = true

/-- An entry that growth between `lo` and `hi` leaves: a new page, or nothing after a failure. -/
def GrownEntry (lo hi v : Nat) (e : Pte) : Prop :=
  e = {} ∨ (lo ≤ v * PGSIZE ∧ v * PGSIZE < hi) ∧ ∃ f, e = Pte.fresh f

/-- As `GrownEntry`, or the entry of a victim. -/
def GrownOrOut (lo hi v : Nat) (e : Pte) : Prop :=
  GrownEntry lo hi v e ∨ e = Pte.out ∧ v < NUPAGES

/-- The rest of the context when the table `tgt` changes. -/
def Ctx.Untouched (c c' : Ctx) : Target → Prop
  | .cur => c'.img = c.img
  | .img => c'.cur = c.cur

section Dealloc

variable {c c' : Ctx} {tgt : Target} {d : PgDir} {t : SlotTable} {km : Kmem} {hi lo r : Nat}

/-- On the process's own table `deallocuvm` frees at most one slot and nothing else. -/
theorem deallocLoop_own {fuel a : Nat} {x : PgDir × SlotTable × Kmem}
    (call : deallocLoop true hi fuel a d t km = .ok x) :
    x.1 = d ∧ x.2.2 = km ∧ (x.2.1 = t ∨ ∃ v j, v < hi ∧ t.find v = some j ∧ x.2.1 = t.set j SLOT_USABLE) := by
  induction fuel generalizing a with
  | zero =>
    cases call
    exact ⟨rfl, rfl, .inl rfl⟩
  | succ fuel ih =>
    unfold deallocLoop at call
    split at call
    · cases call
      exact ⟨rfl, rfl, .inl rfl⟩
    · rename_i more
      split at call
      · exact ih call
      · split at call
        · split at call <;> cases call
        · split at call
          · split at call
            · rename_i j found
              cases call
              exact ⟨rfl, rfl, .inr ⟨a, j, by omega, found, rfl⟩⟩
            · cases call
          · exact ih call

theorem Ctx.dealloc_cur (call : c.dealloc .cur hi lo = .ok (r, c')) :
    ∃ t, c' = { c with cur := { c.cur with vtab := t } } ∧ r = (if hi ≤ lo then hi else lo) ∧
      (t = c.cur.vtab ∨ ∃ v j, v < hi ∧ c.cur.vtab.find v = some j ∧ t = c.cur.vtab.set j SLOT_USABLE) := by
  obtain ⟨⟨sz, d, t, km⟩, run, rest⟩ := bind_ok.1 call
  cases rest
  unfold deallocuvm at run
  split at run
  · cases run
    exact ⟨_, rfl, (if_pos ‹_›).symm, .inl rfl⟩
  · obtain ⟨x, loop, done⟩ := bind_ok.1 run
    cases done
    obtain ⟨same, mem, slot⟩ := deallocLoop_own loop
    simp only at same mem
    subst same mem
    exact ⟨_, rfl, (if_neg ‹_›).symm, slot⟩

/-- `deallocuvm` on either table. -/
theorem Ctx.dealloc_ok (call : c.dealloc tgt hi lo = .ok (r, c')) :
    c.cur.SameMeta c'.cur ∧ c'.cur.mq = c.cur.mq ∧ c.Untouched c' tgt ∧ (c.table tgt).Emptied (c'.table tgt) ∧
      ∀ {kend kdata : Nat}, c.km.Sound kend kdata → c'.km.Sound kend kdata := by
  obtain ⟨⟨sz, d, t, km⟩, run, rest⟩ := bind_ok.1 call
  cases rest
  cases tgt with
  | cur => exact ⟨rfl, rfl, rfl, (deallocuvm_emptied run).1, fun memory => (deallocuvm_emptied run).2.2 Kmem.Sound.keeps memory⟩
  | img =>
    cases (deallocuvm_emptied run).2.1 rfl
    exact ⟨rfl, rfl, rfl, (deallocuvm_emptied run).1, fun memory => (deallocuvm_emptied run).2.2 Kmem.Sound.keeps memory⟩

theorem PgDir.Emptied.grown {d d' : PgDir} (emptied : d.Emptied d') (lo hi : Nat) : d.Changed (GrownEntry lo hi) d' :=
  ⟨emptied.frame, fun v => (emptied.pte v).imp id .inl⟩

end Dealloc

section GrowPage

variable {c c' : Ctx} {tgt : Target} {oldsz newsz a : Nat}

/-- Everything a successful mapping does. -/
theorem growPage_ok (aligned : a % PGSIZE = 0) (user : a < KERNBASE)
    (call : growPage tgt oldsz newsz a c = .ok (true, c')) :
    ∃ f km1 d, kalloc c.km = (some f, km1) ∧ walkpgdirAlloc a (c.table tgt) (km1.zero f) = (true, d, c'.km) ∧
      (d.pte (a / PGSIZE)).p = false ∧ c' = { c.setTable (d.set a (Pte.fresh f)) tgt with km := c'.km } := by
  unfold growPage at call
  split at call
  · obtain ⟨_, _, rest⟩ := bind_ok.1 call
    cases rest
  · rename_i f km1 got
    obtain ⟨⟨ok, d, km2⟩, map, rest⟩ := bind_ok.1 call
    rw [mappages_page aligned user] at map
    obtain ⟨d1, walk, entry⟩ := mapPage_ok map
    cases ok with
    | false =>
      obtain ⟨_, _, rest⟩ := bind_ok.1 rest
      obtain ⟨_, _, rest⟩ := bind_ok.1 rest
      cases rest
    | true =>
      cases rest
      simp only [if_true, page_div] at entry
      obtain ⟨absent, rfl⟩ := entry
      exact ⟨f, km1, d1, got, walk, absent, rfl⟩

/-- Everything a failed mapping does. -/
theorem growPage_failed (aligned : a % PGSIZE = 0) (user : a < KERNBASE)
    (call : growPage tgt oldsz newsz a c = .ok (false, c')) :
    (∃ r, kalloc c.km = (none, c.km) ∧ c.dealloc tgt newsz oldsz = .ok (r, c')) ∨
    ∃ f km1 r c1 km2, kalloc c.km = (some f, km1) ∧
      walkpgdirAlloc a (c.table tgt) (km1.zero f) = (false, c.table tgt, km1.zero f) ∧
      { c with km := km1.zero f }.dealloc tgt newsz oldsz = .ok (r, c1) ∧
      kfree (P2V (f * PGSIZE)) c1.km = .ok km2 ∧ c' = { c1 with km := km2 } := by
  unfold growPage at call
  split at call
  · rename_i km1 none
    obtain ⟨rfl, _⟩ := kalloc_none none
    obtain ⟨⟨r, c1⟩, undone, rest⟩ := bind_ok.1 call
    cases rest
    exact .inl ⟨r, none, undone⟩
  · rename_i f km1 got
    obtain ⟨⟨ok, d, km2⟩, map, rest⟩ := bind_ok.1 call
    rw [mappages_page aligned user] at map
    obtain ⟨d1, walk, entry⟩ := mapPage_ok map
    cases ok with
    | true => cases rest
    | false =>
      obtain ⟨⟨r, c1⟩, undone, rest⟩ := bind_ok.1 rest
      obtain ⟨km3, freed, rest⟩ := bind_ok.1 rest
      cases rest
      simp only [Bool.false_eq_true, if_false] at entry
      subst entry
      obtain ⟨rfl, rfl⟩ := walkpgdirAlloc_failed walk
      have keep : { c.setTable (c.table tgt) tgt with km := km1.zero f } = { c with km := km1.zero f } := by
        cases tgt <;> rfl
      rw [keep] at undone
      exact .inr ⟨f, km1, r, c1, km3, got, walk, undone, freed, rfl⟩

theorem fresh_changed {d d1 : PgDir} {f lo : Nat} (ext : d.Ext d1) (aligned : a % PGSIZE = 0) (low : lo ≤ a)
    (high : a < newsz) : d.Changed (GrownEntry lo newsz) (d1.set a (Pte.fresh f)) := by
  refine ⟨ext.frame, fun v => ?_⟩
  rw [PgDir.set_pte, ext.pte]
  split
  · rename_i here
    have page : v * PGSIZE = a := by
      simp only [PGSIZE] at *
      omega
    exact .inr (.inr ⟨⟨by omega, by omega⟩, f, rfl⟩)
  · exact .inl rfl

theorem growPage_same (aligned : a % PGSIZE = 0) (user : a < KERNBASE) (call : growPage tgt oldsz newsz a c = .ok (ok, c')) :
    c.cur.SameMeta c'.cur ∧ c'.cur.mq = c.cur.mq ∧ c.Untouched c' tgt := by
  cases ok with
  | true =>
    obtain ⟨f, km1, d, _, _, _, eq⟩ := growPage_ok aligned user call
    cases tgt <;> rw [eq] <;> exact ⟨rfl, rfl, rfl⟩
  | false =>
    rcases growPage_failed aligned user call with ⟨r, _, undone⟩ | ⟨f, km1, r, c1, km2, _, _, undone, _, rfl⟩
    · obtain ⟨same, mq, untouched, _⟩ := Ctx.dealloc_ok undone
      exact ⟨same, mq, untouched⟩
    · obtain ⟨same, mq, untouched, _⟩ := Ctx.dealloc_ok undone
      cases tgt <;> exact ⟨same, mq, untouched⟩

/-- The second half of the loop body, whether it succeeds or undoes the growth. -/
theorem growPage_table (wf : (c.table tgt).Wf) (aligned : a % PGSIZE = 0) (low : PGROUNDUP oldsz ≤ a) (high : a < newsz)
    (top : newsz ≤ KERNBASE) (call : growPage tgt oldsz newsz a c = .ok (ok, c')) :
    (c'.table tgt).Wf ∧ (c.table tgt).Changed (GrownEntry (PGROUNDUP oldsz) newsz) (c'.table tgt) := by
  have user : a < KERNBASE := by omega
  obtain ⟨below, page⟩ := user_page user
  cases ok with
  | true =>
    obtain ⟨f, km1, d, got, walk, absent, eq⟩ := growPage_ok aligned user call
    obtain ⟨ext, _, table⟩ := walkpgdirAlloc_ext wf walk
    have wf' : (d.set a (Pte.fresh f)).Wf :=
      (wf.ext ext).set (by rw [← pdx_eq below]; exact table) (fun _ _ => rfl) (fun high => by omega) fun _ => rfl
    have changed := fresh_changed (f := f) ext aligned low high
    cases tgt <;> rw [eq] <;> exact ⟨wf', changed⟩
  | false =>
    rcases growPage_failed aligned user call with ⟨r, _, undone⟩ | ⟨f, km1, r, c1, km2, _, _, undone, _, rfl⟩
    · obtain ⟨_, _, _, emptied, _⟩ := Ctx.dealloc_ok undone
      exact ⟨wf.emptied emptied, emptied.grown _ _⟩
    · obtain ⟨_, _, _, emptied, _⟩ := Ctx.dealloc_ok undone
      cases tgt <;> exact ⟨wf.emptied emptied, emptied.grown _ _⟩

/-- The table stays sound when the page lies above `lo`. -/
theorem growPage_sound {lo : Nat} (memory : c.km.Sound kend kdata) (sound : (c.table tgt).Sound kend lo)
    (aligned : a % PGSIZE = 0) (user : a < KERNBASE) (above : lo ≤ a / PGSIZE)
    (call : growPage tgt oldsz newsz a c = .ok (ok, c')) : c'.km.Sound kend kdata ∧ (c'.table tgt).Sound kend lo := by
  obtain ⟨below, page⟩ := user_page user
  cases ok with
  | true =>
    obtain ⟨f, km1, d, got, walk, absent, eq⟩ := growPage_ok aligned user call
    obtain ⟨memory1, frame⟩ := memory.kalloc got
    obtain ⟨sound2, memory2, _, table⟩ := sound.walk (memory1.of_mem _) walk
    have sound3 : (d.set a (Pte.fresh f)).Sound kend lo :=
      sound2.set (by rw [← pdx_eq below]; exact table) (Pte.sound_fresh page above (.inr frame))
    refine ⟨memory2, ?_⟩
    cases tgt <;> rw [eq] <;> exact sound3
  | false =>
    rcases growPage_failed aligned user call with ⟨r, _, undone⟩ | ⟨f, km1, r, c1, km2, got, _, undone, freed, rfl⟩
    · obtain ⟨_, _, _, emptied, mem⟩ := Ctx.dealloc_ok undone
      exact ⟨mem memory, sound.emptied emptied⟩
    · obtain ⟨_, _, _, emptied, mem⟩ := Ctx.dealloc_ok undone
      refine ⟨(mem ((memory.kalloc got).1.of_mem _)).kfree freed, ?_⟩
      cases tgt <;> exact sound.emptied emptied

end GrowPage

/-! ## The loop -/

/-- What stays of the rest of the context when the table `tgt` grows. -/
def Ctx.SameOther (c c' : Ctx) : Target → Prop
  | .cur => c'.img = c.img
  | .img => c.cur.pgdir.Evicted c'.cur.pgdir

/-- The context `c` after the table `tgt` has grown between `lo` and `hi`. -/
structure Ctx.Grew (tgt : Target) (lo hi : Nat) (c c' : Ctx) : Prop where
  table : (c.table tgt).Changed (GrownOrOut lo hi) (c'.table tgt)
  image : tgt = .img → c.img.Changed (GrownEntry lo hi) c'.img
  other : c.SameOther c' tgt

section Loop

variable {c c' c'' : Ctx} {tgt : Target} {oldsz newsz lo hi : Nat} {I : Bool → List Nat → Ctx → Prop}

/-- The rule for the loop of `allocuvm`: `I ok as c` is what holds before the pages `as`, where `ok` is false after
a failure, which leaves the loop with pages to go. -/
theorem allocLoop_rule {r : Nat}
    (body : ∀ {a as fresh fresh' p km ok c c'}, I true (a :: as) c → makeRoom a fresh c.cur c.km = .ok (fresh', p, km) → growPage tgt oldsz newsz a { c with cur := p, km := km } = .ok (ok, c') → I ok as c')
    (as : List Nat) :
    ∀ (fresh : Bool) (c : Ctx), I true as c → allocLoop tgt oldsz newsz as fresh c = .ok (r, c') →
      (I true [] c' ∧ r = newsz) ∨ ∃ rest, I false rest c' ∧ r = 0 := by
  induction as with
  | nil =>
    intro fresh c inv call
    cases call
    exact .inl ⟨inv, rfl⟩
  | cons a as ih =>
    intro fresh c inv call
    obtain ⟨⟨fresh1, p, km⟩, room, rest⟩ := bind_ok.1 call
    obtain ⟨⟨ok, c2⟩, page, rest⟩ := bind_ok.1 rest
    have next := body inv room page
    cases ok with
    | false =>
      cases rest
      exact .inr ⟨as, next, rfl⟩
    | true => exact ih fresh1 c2 next rest

theorem Ctx.Grew.refl (tgt : Target) (lo hi : Nat) (c : Ctx) : Ctx.Grew tgt lo hi c c := by
  refine ⟨.refl _ _, fun _ => .refl _ _, ?_⟩
  cases tgt
  · rfl
  · exact .refl _

theorem Ctx.Grew.trans (first : Ctx.Grew tgt lo hi c c') (second : Ctx.Grew tgt lo hi c' c'') :
    Ctx.Grew tgt lo hi c c'' := by
  refine ⟨first.table.trans second.table, fun img => (first.image img).trans (second.image img), ?_⟩
  have one := first.other
  have two := second.other
  cases tgt with
  | cur => exact two.trans one
  | img => exact one.trans two

/-- The pages of a loop of `allocuvm` from `oldsz` to `newsz`. -/
def GrowPages (oldsz newsz : Nat) (as : List Nat) : Prop :=
  ∀ a ∈ as, a % PGSIZE = 0 ∧ PGROUNDUP oldsz ≤ a ∧ a < newsz

/-- The table and the queue on which the loop works. -/
structure Ctx.Growing (tgt : Target) (c : Ctx) : Prop where
  good : c.cur.Good
  wf : (c.table tgt).Wf

/-- One iteration of the loop. -/
theorem Ctx.Growing.body {a : Nat} {p : Proc} {km : Kmem} (growing : c.Growing tgt) (aligned : a % PGSIZE = 0)
    (low : PGROUNDUP oldsz ≤ a) (high : a < newsz) (top : newsz ≤ KERNBASE)
    (room : makeRoom a fresh c.cur c.km = .ok (fresh', p, km))
    (page : growPage tgt oldsz newsz a { c with cur := p, km := km } = .ok (ok, c')) :
    Ctx.Growing tgt { c with cur := p, km := km } ∧ c'.Growing tgt ∧
      Ctx.Grew tgt (PGROUNDUP oldsz) newsz c c' ∧ c'.cur.mq = p.mq ∧
      (c.cur.mq.num < MEM_CAPACITY → p.mq.num ≤ c.cur.mq.num + 1 ∧
        (c.table tgt).Changed (GrownEntry (PGROUNDUP oldsz) newsz) (c'.table tgt)) := by
  obtain ⟨good, evicted, few⟩ := makeRoom_good growing.good (by omega) room
  obtain ⟨_, mq, other⟩ := growPage_same aligned (by omega) page
  cases tgt with
  | cur =>
    have wf : (Ctx.table { c with cur := p, km := km } .cur).Wf := good.table
    obtain ⟨wf', changed⟩ := growPage_table wf aligned low high top page
    refine ⟨⟨good, good.table⟩, ⟨⟨wf', mq ▸ good.queue⟩, wf'⟩, ⟨?_, by rintro ⟨⟩, other⟩, mq, fun room => ⟨(few room).2, ?_⟩⟩
    · refine PgDir.Changed.trans ⟨evicted.frame, fun v => ?_⟩ (changed.mono fun _ _ => .inl)
      exact (evicted.pte v).imp id .inr
    · have same : Ctx.table { c with cur := p, km := km } .cur = c.table .cur := (few room).1
      exact same ▸ changed
  | img =>
    have wf : (Ctx.table { c with cur := p, km := km } .img).Wf := growing.wf
    obtain ⟨wf', changed⟩ := growPage_table wf aligned low high top page
    simp only [Ctx.Untouched] at other
    have good' : c'.cur.Good := other ▸ good
    refine ⟨⟨good, growing.wf⟩, ⟨good', wf'⟩, ⟨changed.mono fun _ _ => .inl, fun _ => changed, ?_⟩, mq,
      fun room => ⟨(few room).2, changed⟩⟩
    simpa only [Ctx.SameOther, other] using evicted

/-- A loop over the pages of a range starts at a page boundary. -/
theorem pageRange_aligned {lo : Nat} (hi : Nat) (aligned : lo % PGSIZE = 0) :
    ∀ a ∈ pageRange lo hi, a % PGSIZE = 0 ∧ lo ≤ a ∧ a < hi := by
  intro a mem
  obtain ⟨k, rfl, below⟩ := mem_pageRange.1 mem
  simp only [PGSIZE] at *
  omega

/-- A run of `allocuvm` is refused, has nothing to do, or is a run of its loop. -/
theorem allocuvm_ok {r : Nat} (call : allocuvm tgt oldsz newsz c = .ok (r, c')) :
    (growRefused c.cur oldsz newsz ∧ r = 0 ∧ c' = c) ∨
    (¬ growRefused c.cur oldsz newsz ∧ newsz < oldsz ∧ r = oldsz ∧ c' = c) ∨
    (¬ growRefused c.cur oldsz newsz ∧ oldsz ≤ newsz ∧ newsz ≤ KERNBASE ∧
      GrowPages oldsz newsz (pageRange (PGROUNDUP oldsz) newsz) ∧
      allocLoop tgt oldsz newsz (pageRange (PGROUNDUP oldsz) newsz) true c = .ok (r, c')) := by
  unfold allocuvm at call
  split at call
  · rename_i refused
    cases call
    exact .inl ⟨refused, rfl, rfl⟩
  · rename_i accepted
    have top : newsz ≤ KERNBASE := by
      simp only [growRefused, not_or, not_lt] at accepted
      exact accepted.2.2.2
    split at call
    · rename_i less
      cases call
      exact .inr (.inl ⟨accepted, less, rfl, rfl⟩)
    · rename_i more
      exact .inr (.inr ⟨accepted, by omega, top, pageRange_aligned _ (PGROUNDUP_mod _), call⟩)

theorem pageRange_empty {lo hi : Nat} (le : hi ≤ lo) : pageRange lo hi = [] := by
  refine eq_nil_iff_forall_not_mem.2 fun a mem => ?_
  obtain ⟨k, rfl, below⟩ := mem_pageRange.1 mem
  omega

/-- The rule for `allocuvm`, from a state that every page it begins keeps. -/
theorem allocuvm_rule {r : Nat} (start : I true (pageRange (PGROUNDUP oldsz) newsz) c)
    (body : ∀ {a as fresh fresh' p km ok c c'}, a % PGSIZE = 0 → PGROUNDUP oldsz ≤ a → a < newsz → newsz ≤ KERNBASE → I true (a :: as) c → makeRoom a fresh c.cur c.km = .ok (fresh', p, km) → growPage tgt oldsz newsz a { c with cur := p, km := km } = .ok (ok, c') → I ok as c')
    (call : allocuvm tgt oldsz newsz c = .ok (r, c')) : ∃ ok rest, I ok rest c' ∧ (r ≠ 0 → ok = true ∧ rest = []) := by
  rcases allocuvm_ok call with ⟨_, zero, rfl⟩ | ⟨_, less, _, rfl⟩ | ⟨_, _, top, pages, loop⟩
  · exact ⟨true, _, start, fun success => absurd zero success⟩
  · exact ⟨true, _, start, fun _ => ⟨rfl, pageRange_empty (Nat.le_of_lt (Nat.lt_of_lt_of_le less (le_PGROUNDUP oldsz)))⟩⟩
  · obtain ⟨⟨_, done⟩, _⟩ | ⟨rest, ⟨_, failed⟩, zero⟩ := allocLoop_rule
      (I := fun ok as c1 => GrowPages oldsz newsz as ∧ I ok as c1)
      (fun {a as _ _ _ _ _ c1 c2} inv room page => by
        obtain ⟨pages, inv⟩ := inv
        obtain ⟨aligned, low, high⟩ := pages a (by simp)
        exact ⟨fun b mem => pages b (by simp [mem]), body aligned low high top inv room page⟩) _ true c ⟨pages, start⟩ loop
    · exact ⟨true, [], done, fun _ => ⟨rfl, rfl⟩⟩
    · exact ⟨false, rest, failed, fun success => absurd zero success⟩

/-- **`allocuvm`** keeps the form of the table and the queue; it changes entries of the
range, and victims when the queue is full. -/
theorem allocuvm_grew {r : Nat} (growing : c.Growing tgt) (call : allocuvm tgt oldsz newsz c = .ok (r, c')) :
    c'.Growing tgt ∧ Ctx.Grew tgt (PGROUNDUP oldsz) newsz c c' ∧
      (c.cur.mq.num + (pageRange (PGROUNDUP oldsz) newsz).length ≤ MEM_CAPACITY →
        (c.table tgt).Changed (GrownEntry (PGROUNDUP oldsz) newsz) (c'.table tgt)) := by
  obtain ⟨_, _, ⟨growing', grew, few⟩, _⟩ := allocuvm_rule
    (I := fun _ as c1 => c1.Growing tgt ∧ Ctx.Grew tgt (PGROUNDUP oldsz) newsz c c1 ∧
      (c.cur.mq.num + (pageRange (PGROUNDUP oldsz) newsz).length ≤ MEM_CAPACITY →
        c1.cur.mq.num + as.length ≤ MEM_CAPACITY ∧
          (c.table tgt).Changed (GrownEntry (PGROUNDUP oldsz) newsz) (c1.table tgt)))
    ⟨growing, .refl _ _ _ _, fun fits => ⟨fits, .refl _ _⟩⟩
    (fun {a as _ _ _ _ _ c1 c2} aligned low high top inv room page => by
      obtain ⟨growing1, grew1, few1⟩ := inv
      obtain ⟨_, growing2, grew2, mq, few2⟩ := growing1.body aligned low high top room page
      refine ⟨growing2, grew1.trans grew2, fun fits => ?_⟩
      obtain ⟨left, changed1⟩ := few1 fits
      rw [length_cons] at left
      obtain ⟨num, changed2⟩ := few2 (by omega)
      exact ⟨by rw [mq]; omega, changed1.trans changed2⟩) call
  exact ⟨growing', grew, fun fits => (few fits).2⟩

/-- Growth changes four fields of the process, and the chain of its queue stays. -/
theorem allocuvm_same {r : Nat} (call : allocuvm tgt oldsz newsz c = .ok (r, c')) :
    c.cur.SameMeta c'.cur ∧ c'.cur.mq.pages = c.cur.mq.pages := by
  obtain ⟨_, _, same, _⟩ := allocuvm_rule
    (I := fun _ _ c1 => c.cur.SameMeta c1.cur ∧ c1.cur.mq.pages = c.cur.mq.pages) ⟨rfl, rfl⟩
    (fun {a as _ _ _ _ _ c1 c2} aligned low high top inv room page => by
      obtain ⟨same2, chain2⟩ := makeRoom_same room
      obtain ⟨same3, mq3, _⟩ := growPage_same aligned (by omega) page
      exact ⟨(inv.1.trans same2).trans same3, by rw [mq3]; exact chain2.trans inv.2⟩) call
  exact same

/-- The tables and the free list stay sound; no page below `lo` is mapped when growth
starts above. -/
theorem allocuvm_sound {lo' r : Nat} (memory : c.km.Sound kend kdata) (growing : c.Growing tgt)
    (own : c.cur.pgdir.Sound kend lo) (sound : (c.table tgt).Sound kend lo') (above : lo' * PGSIZE ≤ PGROUNDUP oldsz)
    (same : tgt = .cur → lo' = lo) (call : allocuvm tgt oldsz newsz c = .ok (r, c')) :
    c'.km.Sound kend kdata ∧ c'.cur.pgdir.Sound kend lo ∧ (c'.table tgt).Sound kend lo' := by
  obtain ⟨_, _, ⟨_, sound'⟩, _⟩ := allocuvm_rule
    (I := fun _ _ c1 => c1.Growing tgt ∧ c1.km.Sound kend kdata ∧ c1.cur.pgdir.Sound kend lo ∧ (c1.table tgt).Sound kend lo')
    ⟨growing, memory, own, sound⟩
    (fun {a as _ _ p km _ c1 c2} aligned low high top inv room page => by
      obtain ⟨growing1, memory1, own1, sound1⟩ := inv
      have user : a < KERNBASE := by omega
      obtain ⟨growing2, growing3, grew, _⟩ := growing1.body aligned low high top room page
      obtain ⟨good, evicted, _⟩ := makeRoom_good growing1.good user room
      have own2 : p.pgdir.Sound kend lo := own1.evicted evicted good.table
      have sound2 : (Ctx.table { c1 with cur := p, km := km } tgt).Sound kend lo' := by
        cases tgt with
        | cur => exact same rfl ▸ own2
        | img => exact sound1
      obtain ⟨memory3, sound3⟩ := growPage_sound (c := { c1 with cur := p, km := km }) (makeRoom_memory memory1 room)
        sound2 aligned user (by simp only [PGSIZE] at *; omega) page
      refine ⟨growing3, memory3, ?_, sound3⟩
      cases tgt with
      | cur => exact same rfl ▸ sound3
      | img =>
        obtain ⟨_, _, other⟩ := growPage_same aligned user page
        simp only [Ctx.Untouched] at other
        exact other ▸ own2) call
  exact sound'

/-- The pages that are mapped after an iteration that succeeds. -/
theorem Ctx.Growing.maps {a : Nat} {p : Proc} {km : Kmem} (growing : c.Growing tgt) (aligned : a % PGSIZE = 0)
    (user : a < KERNBASE) (room : makeRoom a fresh c.cur c.km = .ok (fresh', p, km))
    (page : growPage tgt oldsz newsz a { c with cur := p, km := km } = .ok (true, c')) {v : Nat}
    (which : v = a / PGSIZE ∨ ((c.table tgt).pte v).Mapped) : ((c'.table tgt).pte v).Mapped := by
  obtain ⟨good, evicted, _⟩ := makeRoom_good growing.good user room
  obtain ⟨f, km1, d, _, walk, _, eq⟩ := growPage_ok aligned user page
  have wf : (Ctx.table { c with cur := p, km := km } tgt).Wf := by
    cases tgt with
    | cur => exact good.table
    | img => exact growing.wf
  obtain ⟨ext, _, _⟩ := walkpgdirAlloc_ext wf walk
  have table : c'.table tgt = d.set a (Pte.fresh f) := by
    cases tgt <;> rw [eq] <;> rfl
  rw [table, PgDir.set_pte, ext.pte]
  split
  · exact .inl rfl
  · have mapped := which.resolve_left ‹_›
    cases tgt with
    | cur =>
      rcases evicted.pte v with same | ⟨out, _⟩
      · exact same.symm ▸ mapped
      · exact out.symm ▸ .inr rfl
    | img => exact mapped

/-- **`allocuvm`** that succeeds has mapped every page of the range, and pages that were
mapped before still are; some may be paged out. -/
theorem allocuvm_maps {r : Nat} (growing : c.Growing tgt) (call : allocuvm tgt oldsz newsz c = .ok (r, c'))
    (success : r ≠ 0) :
    (∀ v, ((c.table tgt).pte v).Mapped → ((c'.table tgt).pte v).Mapped) ∧
      ∀ a ∈ pageRange (PGROUNDUP oldsz) newsz, ((c'.table tgt).pte (a / PGSIZE)).Mapped := by
  obtain ⟨_, _, done, all⟩ := allocuvm_rule
    (I := fun ok as c1 => ok = true → c1.Growing tgt ∧
      (∀ v, ((c.table tgt).pte v).Mapped → ((c1.table tgt).pte v).Mapped) ∧
      ∀ a ∈ pageRange (PGROUNDUP oldsz) newsz, a ∈ as ∨ ((c1.table tgt).pte (a / PGSIZE)).Mapped)
    (fun _ => ⟨growing, fun _ => id, fun _ => .inl⟩)
    (fun {a as _ _ p km ok c1 c2} aligned low high top inv room page ok => by
      obtain ⟨growing1, old1, new1⟩ := inv rfl
      subst ok
      obtain ⟨_, growing3, _⟩ := growing1.body aligned low high top room page
      have step : ∀ v, v = a / PGSIZE ∨ ((c1.table tgt).pte v).Mapped → ((c2.table tgt).pte v).Mapped :=
        fun v which => growing1.maps aligned (by omega) room page which
      refine ⟨growing3, fun v mapped => step v (.inr (old1 v mapped)), fun b mem => ?_⟩
      rcases new1 b mem with here | mapped
      · rcases mem_cons.1 here with rfl | later
        · exact .inr (step _ (.inl rfl))
        · exact .inl later
      · exact .inr (step _ (.inr mapped))) call
  obtain ⟨ok, rfl⟩ := all success
  obtain ⟨_, old, new⟩ := done ok
  exact ⟨old, fun a mem => (new a mem).resolve_left not_mem_nil⟩

/-- The size `allocuvm` returns. -/
theorem allocuvm_size {r : Nat} (call : allocuvm tgt oldsz newsz c = .ok (r, c')) (success : r ≠ 0) :
    newsz ≤ KERNBASE ∧ r = max oldsz newsz := by
  rcases allocuvm_ok call with ⟨_, zero, _⟩ | ⟨accepted, less, rfl, _⟩ | ⟨_, more, top, _, loop⟩
  · exact absurd zero success
  · simp only [growRefused, not_or, not_lt] at accepted
    exact ⟨accepted.2.2.2, by omega⟩
  · obtain ⟨_, rfl⟩ | ⟨_, _, zero⟩ := allocLoop_rule (I := fun _ _ _ => True) (fun _ _ _ => trivial) _ true c trivial loop
    · exact ⟨top, by omega⟩
    · exact absurd zero success

end Loop

end Xv6
