import Xv6.Vm.Grow

/-!
# Growth keeps the share counts

The references of a process are those of its kernel structures and those of its page
table. Each part of `allocuvm` keeps the counts of all pages in step with them.
-/

namespace Xv6
open RefCount Fallible

/-! ## What a process holds -/

/-- Pages of the kernel's own structures. -/
def pageList (fs : List Nat) : Use Nat := (fs.map (ref · true)).sum

/-- The pages of a process's kernel stack, of its queue and of its slot table. -/
def Proc.own (p : Proc) : Use Nat := pdeUse p.kstack + pageList p.mq.pages + pageList p.vtab.pages

/-- The pages of a process with its address space. -/
def Proc.res (p : Proc) : Use Nat := p.own + p.pgdir.use

/-- What a process holds is told by four of its fields. -/
theorem Proc.res_congr {p q : Proc} (pgdir : p.pgdir = q.pgdir) (kstack : p.kstack = q.kstack)
    (pages : p.mq.pages = q.mq.pages) (vpages : p.vtab.pages = q.vtab.pages) : p.res = q.res := by
  rw [Proc.res, Proc.res, Proc.own, Proc.own, pgdir, kstack, pages, vpages]

@[simp] theorem pageList_nil : pageList [] = 0 := rfl

theorem pageList_append (fs : List Nat) (f : Nat) : pageList (fs ++ [f]) = pageList fs + ref f true := by
  simp [pageList]

/-! ## Eviction -/

section Evict

variable {D : Nat → Prop} {R S : Use Nat} {p p' : Proc} {km km' : Kmem} {a j : Nat} {t : SlotTable}

/-- The slot table's chain may grow by a page. -/
theorem takeSlot_held (t0 : SlotTable) (held : Held D R (S + pageList t0.pages) km)
    (call : takeSlot t0 km = .ok (j, t, km')) : Held D R (S + pageList t.pages) km' ∧ SameMem km km' := by
  rcases takeSlot_ok call with ⟨_, rfl, rfl⟩ | ⟨f, _, got, _, pages, _⟩
  · exact ⟨held, .refl _⟩
  · refine ⟨(held.kalloc got true).congr ?_, kalloc_same got⟩
    rw [pages, pageList_append, add_assoc]

/-- An eviction gives up the victim's page. -/
theorem fifoWrite_held {last : Nat} (held : Held D R (S + p.res) km) (good : p.Good)
    (call : fifoWrite p km = .ok (some last, p', km')) :
    Held D R (S + p'.res) km' ∧ Kept (R + S) km km' := by
  obtain ⟨mq, j, t, km1, e, n, files, taken, slot, found, present, _, _, freed, rfl⟩ := fifoWrite_ok call
  have user := good.queue.victim taken
  obtain ⟨below, low⟩ := user_page user
  obtain ⟨table, entry⟩ := walkpgdir_some.1 found
  have pages : mq.pages = p.mq.pages := by
    obtain ⟨_, _, _, _, _, _, pages, _⟩ := takeLast_ok taken
    exact pages
  have mapped : p.pgdir.use = p.pgdir.rest ((mq.entries last).vaddr / PGSIZE) + ref e.addr e.w := by
    rw [PgDir.use_eq _ (vpage_lt below), entry, Pte.use_mapped present]
    rw [← entry]
    exact good.table.user _ low (entry ▸ present)
  obtain ⟨held1, same1⟩ := takeSlot_held p.vtab
    (S := S + pdeUse p.kstack + pageList p.mq.pages + p.pgdir.use)
    (held.congr (by rw [Proc.res, Proc.own]; abel)) slot
  have held2 : Held D R (S + pdeUse p.kstack + pageList p.mq.pages + pageList t.pages +
      p.pgdir.rest ((mq.entries last).vaddr / PGSIZE) + ref e.addr e.w) km1 :=
    held1.congr (by rw [mapped]; abel)
  obtain ⟨freed', held3, kept⟩ := held2.kfree
  cases freed'.symm.trans freed
  refine ⟨held3.congr ?_, (same1.kept _).trans ?_⟩
  · simp only [Proc.res, Proc.own, PgDir.set_use _ below, Pte.use_out, pages, SlotTable.set]
    abel
  · refine ⟨fun f uses => kept.mem f ?_, kept.kend, kept.kdata⟩
    simp only [total_add] at uses ⊢
    omega

/-- What the loop body of `allocuvm` does before it allocates. -/
theorem makeRoom_held {fresh fresh' : Bool} (held : Held D R (S + p.res) km) (good : p.Good)
    (call : makeRoom a fresh p km = .ok (fresh', p', km')) :
    Held D R (S + p'.res) km' ∧ Kept (R + S) km km' := by
  obtain ⟨_, chain⟩ := makeRoom_same call
  rcases makeRoom_ok call with ⟨l, p1, _, write, _, rfl⟩ | ⟨mq, _, _, _, rfl, _, rfl⟩ | ⟨_, _, _, rfl, rfl⟩
  · obtain ⟨held1, kept1⟩ := fifoWrite_held held good write
    refine ⟨held1.congr ?_, kept1⟩
    simp only [Proc.res, Proc.own, linkFront_pages]
  · exact ⟨held.congr (congrArg (S + ·) (Proc.res_congr rfl rfl chain.symm rfl)), .refl _ _⟩
  · exact ⟨held, .refl _ _⟩

end Evict

/-! ## Mapping -/

/-- What a context holds outside the table that is worked on. -/
def Ctx.others (c : Ctx) : Target → Use Nat
  | .cur => c.cur.own
  | .img => c.cur.res

/-- What a context holds. -/
def Ctx.use (c : Ctx) (tgt : Target) : Use Nat := c.others tgt + (c.table tgt).use

section GrowPage

variable {D : Nat → Prop} {R T : Use Nat} {c c' : Ctx} {tgt : Target} {oldsz newsz a hi lo r : Nat}

/-- `deallocuvm` after a failure of `allocuvm`. -/
theorem Ctx.dealloc_held (held : Held D R (T + c.use tgt) c.km) (wf : (c.table tgt).Wf)
    (top : hi ≤ KERNBASE) (zero : ¬ D 0) (call : c.dealloc tgt hi lo = .ok (r, c')) :
    Held D R (T + c'.use tgt) c'.km ∧ Kept R c.km c'.km := by
  cases tgt with
  | cur =>
    obtain ⟨t, rfl, _, slot⟩ := Ctx.dealloc_cur call
    have pages : t.pages = c.cur.vtab.pages := by
      rcases slot with rfl | ⟨v, j, _, _, rfl⟩ <;> rfl
    refine ⟨held.congr ?_, .refl _ _⟩
    simp only [Ctx.use, Ctx.others, Ctx.table, Proc.own, pages]
  | img =>
    have aside := held.congr (show T + c.use .img = T + c.cur.res + c.img.use from (add_assoc _ _ _).symm)
    obtain ⟨sz, d, km, run, ⟨held', kept⟩, _⟩ := deallocuvm_gives
      (P := fun U km => Held D R (T + c.cur.res + U) km ∧ Kept (R + (T + c.cur.res)) c.km km) (Held.gives zero) lo c.cur.vtab top
      ⟨aside, .refl _ _⟩ wf
    obtain ⟨x, run', rest⟩ := bind_ok.1 call
    cases run.symm.trans run'
    cases rest
    exact ⟨held'.congr (add_assoc _ _ _), kept.part⟩

/-- The table after a new page has been mapped. -/
theorem map_fresh_held {S : Use Nat} {d d1 : PgDir} {km km1 km2 : Kmem} {f : Nat} (held : Held D R (S + d.use) km)
    (wf : d.Wf) (user : a < KERNBASE) (got : kalloc km = (some f, km1))
    (walk : walkpgdirAlloc a d (km1.zero f) = (true, d1, km2)) (absent : (d1.pte (a / PGSIZE)).p = false) :
    Held D R (S + (d1.set a (Pte.fresh f)).use) km2 ∧ (d1.set a (Pte.fresh f)).Wf ∧ Kept (R + S + d.use) km km2 ∧
      d.Ext d1 := by
  obtain ⟨below, low⟩ := user_page user
  have unused := held.acct.kalloc_fresh got
  have held1 : Held D R (S + ref f true + d.use) (km1.zero f) :=
    ((held.kalloc got true).of_mem _).congr (by abel)
  obtain ⟨held2, ext, same, table⟩ := walkpgdirAlloc_held held1 wf walk
  simp only [if_true] at table
  have unmapped : (d1.pte (a / PGSIZE)).use = 0 := Pte.use_absent absent
  refine ⟨held2.congr ?_, ?_, ?_, ext⟩
  · rw [PgDir.set_use d1 below, PgDir.use_eq d1 (vpage_lt below), unmapped]
    simp only [Pte.fresh, Pte.use, Bool.and_self, if_true]
    abel
  · exact (wf.ext ext).set (by rw [← pdx_eq below]; exact table) (fun _ _ => rfl) (fun high => by omega)
      fun _ => rfl
  · refine ((kalloc_kept _ got).trans (kept_write ?_ _)).trans (same.kept _)
    rw [add_assoc]
    exact unused

/-- The second half of the loop body, whether it succeeds or undoes the growth. -/
theorem growPage_held {ok : Bool} (held : Held D R (c.use tgt) c.km) (wf : (c.table tgt).Wf)
    (aligned : a % PGSIZE = 0) (high : a < newsz) (top : newsz ≤ KERNBASE)
    (zero : ¬ D 0) (call : growPage tgt oldsz newsz a c = .ok (ok, c')) :
    Held D R (c'.use tgt) c'.km ∧ Kept R c.km c'.km := by
  have user : a < KERNBASE := by omega
  cases ok with
  | true =>
    obtain ⟨f, km1, d, got, walk, absent, eq⟩ := growPage_ok aligned user call
    obtain ⟨held', _, kept, _⟩ := map_fresh_held held wf user got walk absent
    cases tgt <;> rw [eq] <;> exact ⟨held', kept.part.part⟩
  | false =>
    rcases growPage_failed aligned user call with ⟨r, _, undone⟩ | ⟨f, km1, r, c1, km2, got, _, undone, freed, rfl⟩
    · obtain ⟨held', kept⟩ := Ctx.dealloc_held (T := 0) (held.congr (zero_add _).symm) wf top zero undone
      exact ⟨held'.congr (zero_add _), kept⟩
    · have unused := held.acct.kalloc_fresh got
      have held1 : Held D R (ref f true + Ctx.use { c with km := km1.zero f } tgt) (km1.zero f) := by
        refine ((held.kalloc got true).of_mem _).congr ?_
        cases tgt <;> exact add_comm _ _
      obtain ⟨held2, kept2⟩ := Ctx.dealloc_held (c := { c with km := km1.zero f }) held1
        (by cases tgt <;> exact wf) top zero undone
      obtain ⟨freed', held3, kept3⟩ := (held2.congr (add_comm _ _)).kfree
      cases freed'.symm.trans freed
      have start : Kept R c.km (km1.zero f) :=
        (kalloc_kept R got).trans (kept_write (by rw [total_add] at unused; omega) _)
      refine ⟨?_, (start.trans kept2).trans kept3.part⟩
      cases tgt <;> exact held3

/-- The first half of the loop body in a context. -/
theorem makeRoom_ctx {fresh fresh' : Bool} {p : Proc} {km : Kmem} (held : Held D R (c.use tgt) c.km)
    (good : c.cur.Good) (call : makeRoom a fresh c.cur c.km = .ok (fresh', p, km)) :
    Held D R ({ c with cur := p, km := km }.use tgt) km ∧ Kept R c.km km := by
  cases tgt with
  | cur =>
    obtain ⟨held', kept⟩ := makeRoom_held (S := 0) (held.congr (zero_add _).symm) good call
    exact ⟨held'.congr (zero_add _), kept.part⟩
  | img =>
    obtain ⟨held', kept⟩ := makeRoom_held (S := c.img.use) (held.congr (add_comm _ _)) good call
    exact ⟨held'.congr (add_comm _ _), kept.part⟩

/-- **`allocuvm`** keeps the counts. -/
theorem allocuvm_held (zero : ¬ D 0) (held : Held D R (c.use tgt) c.km) (growing : c.Growing tgt)
    (call : allocuvm tgt oldsz newsz c = .ok (r, c')) :
    Held D R (c'.use tgt) c'.km ∧ Kept R c.km c'.km := by
  obtain ⟨_, _, ⟨_, held'⟩, _⟩ := allocuvm_rule
    (I := fun _ _ c1 => c1.Growing tgt ∧ Held D R (c1.use tgt) c1.km ∧ Kept R c.km c1.km) ⟨growing, held, .refl _ _⟩
    (fun {a as _ _ p km _ c1 c2} aligned low high top inv room page => by
      obtain ⟨growing1, held1, kept1⟩ := inv
      obtain ⟨growing2, growing3, _⟩ := growing1.body aligned low high top room page
      obtain ⟨held2, kept2⟩ := makeRoom_ctx held1 growing1.good room
      obtain ⟨held3, kept3⟩ := growPage_held (c := { c1 with cur := p, km := km }) held2 growing2.wf aligned high top zero page
      exact ⟨growing3, held3, (kept1.trans kept2).trans kept3⟩) call
  exact held'

end GrowPage

end Xv6
