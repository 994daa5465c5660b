import Xv6.Vm.FaultSound
import Xv6.Vm.GrowHeld

/-!
# Page faults keep the share counts

The rules for `cast_page_fault` on a process with no paged-out page. The copy-on-write
fault cannot fail: the share count of a mapped page is at least 1.
-/

namespace Xv6
open RefCount Fallible

variable {D : Nat → Prop} {R : Use Nat} {c c' : Ctx} {va : Nat} {e : Pte}

/-- No page is paged out. -/
def PgDir.NoneOut (d : PgDir) : Prop := ∀ v, (d.pte v).pg = false

/-- A table whose user entries are grown from one with no paged-out page has none. -/
theorem PgDir.NoneOut.grown {d d' : PgDir} {lo hi : Nat} (none : d.NoneOut)
    (changed : d.Changed (GrownEntry lo hi) d') : d'.NoneOut := by
  intro v
  rcases changed.pte v with same | empty | ⟨_, f, fresh⟩
  · rw [same]
    exact none v
  · rw [empty]
  · rw [fresh]
    rfl

theorem PgDir.NoneOut.set {d : PgDir} (none : d.NoneOut) (entry : e.pg = false) : (d.set va e).NoneOut := by
  intro v
  rw [PgDir.set_pte]
  split
  · exact entry
  · exact none v

/-- The state of a process after a fault: the references it holds are counted, others
keep their pages. -/
structure Faulted (D : Nat → Prop) (R : Use Nat) (c c' : Ctx) : Prop where
  held : Held D R c'.cur.res c'.km
  kept : Kept R c.km c'.km
  good : c'.cur.Good
  state : c'.cur.state = c.cur.state

theorem Faulted.kill {c : Ctx} (faulted : Faulted D R c c') : Faulted D R c c'.kill :=
  ⟨faulted.held, faulted.kept, ⟨faulted.good.table, faulted.good.queue⟩, faulted.state⟩

/-- A write to a read-only page of the process. -/
theorem cowFault_held (held : Held D R c.cur.res c.km) (good : c.cur.Good) (user : va < KERNBASE)
    (found : walkpgdir va c.cur.pgdir = some e) (present : e.p = true) (isUser : e.u = true)
    (readOnly : e.w = false) :
    ∃ c', cowFault va e c = .ok c' ∧ Faulted D R c c' ∧ (c.cur.pgdir.NoneOut → c'.cur.pgdir.NoneOut) := by
  obtain ⟨below, low⟩ := user_page user
  obtain ⟨table, entry⟩ := walkpgdir_some.1 found
  have one : c.cur.res = c.cur.own + c.cur.pgdir.rest (va / PGSIZE) + ref e.addr false := by
    rw [Proc.res, PgDir.use_eq _ (vpage_lt below), entry, Pte.use_mapped present isUser, readOnly, add_assoc]
  have held1 := held.congr one
  have acct1 := held1.acct.congr (add_assoc R _ _).symm
  have count := acct1.count
  have wf' : ∀ e' : Pte, e'.u = true → e'.pg = false → (c.cur.pgdir.set va e').Wf := fun e' isUser' resident =>
    good.table.set (by rw [← pdx_eq below]; exact table) (fun _ _ => isUser') (fun high => by omega) fun _ => resident
  have resident : e.pg = false := entry ▸ good.table.resident _ (entry ▸ present)
  unfold cowFault
  rw [acct1.getPageShare, ok_bind]
  by_cases single : c.km.pcSh e.addr = 1
  · rw [if_pos single]
    refine ⟨_, rfl, ⟨⟨?_, fun f => ?_⟩, .refl _ _, ⟨wf' _ isUser resident, good.queue⟩, rfl⟩, fun none => none.set resident⟩
    · refine Acct.congr ⟨acct1.inv, acct1.counted.strengthen single⟩ ?_
      simp only [Proc.res, PgDir.set_use _ below, Pte.use_mapped (e := { e with w := true }) present isUser]
      simp only [Proc.own]
      abel
    · have before := held1.once f
      simp only [Proc.res, PgDir.set_use _ below, Pte.use_mapped (e := { e with w := true }) present isUser,
        total_add, total_ref] at before ⊢
      simp only [Proc.own, total_add] at before ⊢
      omega
  · rw [if_neg single, if_pos (by omega)]
    cases alloc : kalloc c.km with
    | mk r km1 =>
      cases r with
      | none =>
        obtain ⟨rfl, _⟩ := kalloc_none alloc
        exact ⟨_, rfl, Faulted.kill ⟨held, .refl _ _, good, rfl⟩, id⟩
      | some f =>
        have unused := held1.acct.kalloc_fresh alloc
        have ne : e.addr ≠ f := by
          rintro rfl
          simp at unused
        have held2 : Held D R (c.cur.own + c.cur.pgdir.rest (va / PGSIZE) + ref f true + ref e.addr false)
            (km1.copyPage f (km1.mem e.addr)) :=
          ((held1.kalloc alloc true).of_mem _).congr (by abel)
        have count2 : (km1.copyPage f (km1.mem e.addr)).pcSh e.addr = c.km.pcSh e.addr := by
          simp [Kmem.copyPage, (kalloc_some alloc).2.1, ne]
        obtain ⟨red, acct3⟩ := (held2.acct.congr (add_assoc R _ _).symm).redPageShare (by omega)
        refine ⟨_, bind_ok.2 ⟨_, red, rfl⟩, ⟨⟨acct3.congr ?_, fun g => ?_⟩, ?_, ⟨wf' _ rfl rfl, good.queue⟩, rfl⟩,
          fun none => none.set rfl⟩
        · simp only [Proc.res, PgDir.set_use _ below, Pte.use, Bool.and_self, if_true]
          simp only [Proc.own]
          abel
        · have before := held2.once g
          simp only [Proc.res, PgDir.set_use _ below, Pte.use, Bool.and_self, if_true, total_add, total_ref] at before ⊢
          simp only [Proc.own, total_add] at before ⊢
          omega
        · refine (kalloc_kept R alloc).trans ?_
          have unheld : total R f = 0 := by rw [total_add] at unused; omega
          have : Kept R km1 (km1.copyPage f (km1.mem e.addr)) := kept_write unheld (km1.mem e.addr)
          exact ⟨this.mem, this.kend, this.kdata⟩

/-- The second part of `cast_page_fault`, on a fault that the access `e` really raises. -/
theorem protectionFault_held (held : Held D R c.cur.res c.km) (good : c.cur.Good)
    (readOnly : ∀ e, walkpgdir va c.cur.pgdir = some e → e.p = true → e.u = true → e.w = false) :
    ∃ c', protectionFault va c = .ok c' ∧ Faulted D R c c' ∧ (c.cur.pgdir.NoneOut → c'.cur.pgdir.NoneOut) := by
  have same : Faulted D R c c := ⟨held, .refl _ _, good, rfl⟩
  unfold protectionFault
  split
  · exact ⟨_, rfl, same.kill, id⟩
  · rename_i user
    split
    · exact ⟨_, rfl, same.kill, id⟩
    · rename_i e found
      by_cases present : e.p = true
      · by_cases isUser : e.u = true
        · have writable := readOnly e found present isUser
          simp only [present, isUser, writable, Bool.not_true, Bool.false_eq_true, if_false]
          exact cowFault_held held good (by omega) found present isUser writable
        · simp only [present, isUser, Bool.not_true, Bool.not_false, Bool.false_eq_true, if_false, if_true]
          exact ⟨_, rfl, same.kill, id⟩
      · simp only [present, Bool.not_false, if_true]
        exact ⟨_, rfl, same.kill, id⟩

/-- Stack growth asks for at most one page. -/
theorem stack_pages {top : Nat} (small : top < 2 ^ 32) :
    (pageRange (PGROUNDUP (sub32 top PGSIZE)) top).length ≤ 1 := by
  simp only [pageRange, List.length_map, List.length_range, PGROUNDUP, sub32, PGSIZE]
  omega

theorem growStack_held (zero : ¬ D 0) (held : Held D R c.cur.res c.km) (good : c.cur.Good)
    (call : growStack c = .ok c') :
    Faulted D R c c' ∧
      (c.cur.mq.num < MEM_CAPACITY → c.cur.pgdir.NoneOut → c'.cur.pgdir.NoneOut) := by
  obtain ⟨⟨r, c1⟩, grow, rest⟩ := bind_ok.1 call
  have held0 : Held D R (Ctx.use { c with cur := { c.cur with stackGrowing := true } } .cur) c.km := held
  have growing0 : Ctx.Growing .cur { c with cur := { c.cur with stackGrowing := true } } :=
    ⟨⟨good.table, good.queue⟩, good.table⟩
  obtain ⟨held1, kept1⟩ := allocuvm_held zero held0 growing0 grow
  obtain ⟨⟨good1, _⟩, _, few⟩ := allocuvm_grew growing0 grow
  have state : c1.cur.state = c.cur.state := by
    rw [(allocuvm_same grow).1]
  have pages := stack_pages (sub32_lt USERSTACKTOP c.cur.stacksize)
  have none : c.cur.mq.num < MEM_CAPACITY → c.cur.pgdir.NoneOut → c1.cur.pgdir.NoneOut := fun room none =>
    none.grown (few (by simp only; omega))
  cases rest
  split <;>
    exact ⟨⟨held1.congr (Proc.res_congr rfl rfl rfl rfl), kept1, ⟨good1.table, good1.queue⟩, state⟩, none⟩

theorem pagedOut_none (none : c.cur.pgdir.NoneOut) : pagedOut va c.cur.pgdir = false := pagedOut_false (none _)

/-- **`cast_page_fault`** on a process with no paged-out page, at an address where the
access raises a fault. -/
theorem castPageFault_held {present : Bool} (zero : ¬ D 0) (held : Held D R c.cur.res c.km) (good : c.cur.Good)
    (none : c.cur.pgdir.NoneOut)
    (readOnly : ∀ e, walkpgdir va c.cur.pgdir = some e → e.p = true → e.u = true → e.w = false)
    (call : castPageFault present va c = .ok c') :
    Faulted D R c c' ∧ ((present = false → growsStack va c.cur → c.cur.mq.num < MEM_CAPACITY) →
      c'.cur.pgdir.NoneOut) := by
  have same : Faulted D R c c := ⟨held, .refl _ _, good, rfl⟩
  cases castPageFault_ok call with
  | protection _ protection =>
    obtain ⟨c1, run, faulted, kept⟩ := protectionFault_held held good readOnly
    cases run.symm.trans protection
    exact ⟨faulted, fun _ => kept none⟩
  | null => exact ⟨same.kill, fun _ => none⟩
  | pageIn _ _ out =>
    rw [pagedOut_none none] at out
    cases out
  | stack absent _ _ grows grow =>
    obtain ⟨faulted, kept⟩ := growStack_held zero held good grow
    exact ⟨faulted, fun room => kept (room absent grows) none⟩
  | noMemory => exact ⟨same.kill, fun _ => none⟩
  | leaked absent out outside got protection =>
    rename_i f km1
    obtain ⟨c1, run, faulted, kept⟩ := protectionFault_held (c := { c with km := km1 })
      (held.kalloc_lost got) good readOnly
    cases run.symm.trans protection
    exact ⟨⟨faulted.held, (kalloc_kept R got).trans faulted.kept, faulted.good, faulted.state⟩, fun _ => kept none⟩

end Xv6
