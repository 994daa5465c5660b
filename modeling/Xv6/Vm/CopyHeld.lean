import Xv6.Vm.GrowHeld

/-!
# Copying an address space keeps the share counts

While `copyuvm` runs, the child's table refers only to pages that the parent's refers to
at the same address, so it never refers to a page twice, and no share count passes the
number of processes.
-/

namespace Xv6
open RefCount Fallible List

variable {D : Nat → Prop} {R P C : Use Nat} {parent parent' child child' : PgDir} {km km' : Kmem} {i : Nat} {e : Pte}
  {p : Proc} {d d' : PgDir}

/-- Only exclusive references. -/
def AllExclusive (U : Use Nat) : Prop := ∀ f, (U f).1 = 0

theorem AllExclusive.add {U V : Use Nat} (first : AllExclusive U) (second : AllExclusive V) :
    AllExclusive (U + V) := fun f => by
  simp only [Pi.add_apply, Prod.fst_add, first f, second f, add_zero]

theorem allExclusive_ref (f : Nat) : AllExclusive (ref f true) := fun g => by
  by_cases same : g = f
  · subst same; simp [ref_self]
  · simp [ref_of_ne same]

theorem allExclusive_pde (r : Option Nat) : AllExclusive (pdeUse r) := by
  cases r with
  | none => exact fun _ => rfl
  | some f => exact allExclusive_ref f

theorem PgDir.tables_exclusive (d : PgDir) : AllExclusive d.tables := fun f => by
  rw [PgDir.tables, Finset.sum_apply, Prod.fst_sum]
  exact Finset.sum_eq_zero fun x _ => allExclusive_pde _ f

theorem allExclusive_list (fs : List Nat) : AllExclusive (pageList fs) := by
  induction fs with
  | nil => exact fun _ => rfl
  | cons f fs ih => exact (allExclusive_ref f).add ih

theorem Proc.own_exclusive (p : Proc) : AllExclusive p.own :=
  ((allExclusive_pde _).add (allExclusive_list _)).add (allExclusive_list _)

/-- The entry `e` of the child maps the page that the parent's entry `e'` maps. -/
def Pte.SharedWith (e e' : Pte) : Prop :=
  e.p = true → e.u = true → e'.p = true ∧ e'.u = true ∧ e'.addr = e.addr

/-- The state of `copyuvm`'s loops. `P` and `C` are what parent and child hold besides
their tables. -/
structure Copying (D : Nat → Prop) (R P C : Use Nat) (parent child : PgDir) (km : Kmem) : Prop where
  acct : Acct D (R + (P + parent.use) + (C + child.use)) km
  once : ∀ f, total (P + parent.use) f ≤ 1
  parentWf : parent.Wf
  childWf : child.Wf
  shared : ∀ v, (child.pte v).SharedWith (parent.pte v)

/-- The child maps a page at most as often as the parent. -/
theorem pages_le (shared : ∀ v, (child.pte v).SharedWith (parent.pte v)) (f : Nat) :
    total child.pages f ≤ total parent.pages f := by
  rw [PgDir.pages, PgDir.pages, total_sum, total_sum]
  refine Finset.sum_le_sum fun v _ => ?_
  unfold Pte.use
  by_cases mapped : (child.pte v).p = true ∧ (child.pte v).u = true
  · obtain ⟨present, user, addr⟩ := shared v mapped.1 mapped.2
    simp [mapped.1, mapped.2, present, user, total_ref, addr]
  · have : ((child.pte v).p && (child.pte v).u) = false := by
      simpa using mapped
    simp [this]

section

variable (copying : Copying D R P C parent child km) (exclusive : AllExclusive C)
include copying exclusive

/-- The child refers to no page twice. -/
theorem Copying.child_once (f : Nat) :
    total (C + child.use) f ≤ 1 := by
  have kernel : AllExclusive (C + (ref child.frame true + child.tables)) :=
    exclusive.add ((allExclusive_ref _).add child.tables_exclusive)
  have all : C + child.use = C + (ref child.frame true + child.tables) + child.pages := by
    rw [PgDir.use]
    abel
  have alone := copying.acct.counted.alone f
  have pages := pages_le copying.shared f
  have parentOnce := copying.once f
  have part : total parent.pages f ≤ total (P + parent.use) f := by
    rw [PgDir.use, total_add, total_add]
    omega
  rw [all] at alone ⊢
  by_cases held : 0 < total (C + (ref child.frame true + child.tables)) f
  · have isExclusive := kernel f
    have := alone (by
      rw [total] at held
      simp only [Pi.add_apply, Prod.snd_add] at held isExclusive ⊢
      omega)
    rw [total_add] at this
    omega
  · rw [total_add]
    omega

theorem Copying.child_held :
    Held D (R + (P + parent.use)) (C + child.use) km :=
  ⟨copying.acct, copying.child_once exclusive⟩

/-- A new table in the child. -/
theorem Copying.walk {b : Bool}
    (call : walkpgdirAlloc i child km = (b, child', km')) :
    Copying D R P C parent child' km' ∧ child.Ext child' ∧ SameMem km km' ∧
      (if b then child'.pde (PDX i) ≠ none else child' = child) := by
  obtain ⟨held, ext, same, table⟩ := walkpgdirAlloc_held (copying.child_held exclusive) copying.childWf call
  exact ⟨⟨held.acct, copying.once, copying.parentWf, copying.childWf.ext ext, by rw [ext.pte]; exact copying.shared⟩,
    ext, same, table⟩

end

/-- The parent's table with some pages made read-only. -/
structure PgDir.Protected (d d' : PgDir) : Prop where
  frame : d'.frame = d.frame
  pde : d'.pde = d.pde
  pte : ∀ v, d'.pte v = d.pte v ∨ d'.pte v = { d.pte v with w := false }

theorem PgDir.Protected.refl (d : PgDir) : d.Protected d := ⟨rfl, rfl, fun _ => .inl rfl⟩

theorem PgDir.Protected.trans {d'' : PgDir} (first : d.Protected d') (second : d'.Protected d'') : d.Protected d'' := by
  refine ⟨second.frame.trans first.frame, second.pde.trans first.pde, fun v => ?_⟩
  rcases second.pte v with two | two <;> rcases first.pte v with one | one <;> rw [two, one]
  · exact .inl rfl
  · exact .inr rfl
  · exact .inr rfl
  · exact .inr rfl

theorem PgDir.protected_set (entry : d.pte (i / PGSIZE) = e) : d.Protected (d.set i { e with w := false }) := by
  refine ⟨rfl, rfl, fun v => ?_⟩
  rw [PgDir.set_pte]
  split
  · rename_i here
    subst here
    exact .inr (by rw [entry])
  · exact .inl rfl

/-- Not too many others use the pages that are to be shared. -/
def PgDir.FewOthers (R : Use Nat) (d : PgDir) : Prop := ∀ v, (d.pte v).p = true → total R (d.pte v).addr ≤ NPROC

theorem PgDir.FewOthers.protected (few : d.FewOthers R) (prot : d.Protected d') : d'.FewOthers R := by
  intro v present
  rcases prot.pte v with same | weak
  · rw [same] at present ⊢
    exact few v present
  · rw [weak] at present ⊢
    exact few v present

/-- The child's table after a step of the copy: new entries are user entries. -/
def CopiedEntry (parent : PgDir) (v : Nat) (e : Pte) : Prop :=
  v < NUPAGES ∧ (e = Pte.out ∧ (parent.pte v).pg = true ∨ e = { parent.pte v with w := false, p := true })

/-- One page of the loops of `copyuvm`: it is skipped, stays paged out or is shared, and a page that cannot be shared
for want of a table ends the copy. -/
inductive CopyStep (i : Nat) (parent child : PgDir) (km : Kmem) : Bool → PgDir → PgDir → Kmem → Prop where
  | skip {e : Pte} (found : walkpgdir i parent = some e) (unmapped : e.p = false ∧ e.pg = false) :
    CopyStep i parent child km true parent child km
  | out {e : Pte} {child' : PgDir} {km' : Kmem} (found : walkpgdir i parent = some e) (isOut : e.pg = true)
    (walk : walkpgdirAlloc i child km = (true, child', km')) : CopyStep i parent child km true parent (child'.set i Pte.out) km'
  | share {e : Pte} {child' : PgDir} {km' km'' : Kmem} (found : walkpgdir i parent = some e) (present : e.p = true)
    (walk : walkpgdirAlloc i child km = (true, child', km')) (absent : (child'.pte (i / PGSIZE)).p = false)
    (counted : addPageShare (e.addr * PGSIZE) km' = .ok km'') :
    CopyStep i parent child km true (parent.set i { e with w := false }) (child'.set i { e with w := false, p := true }) km''
  | full {e : Pte} {child' : PgDir} {km' : Kmem} (found : walkpgdir i parent = some e) (present : e.p = true)
    (walk : walkpgdirAlloc i child km = (false, child', km')) :
    CopyStep i parent child km false (parent.set i { e with w := false }) child' km'

/-- The pages `is` are copied one after the other, up to one that cannot be. -/
inductive CopyRun : List Nat → PgDir → PgDir → Kmem → Bool → PgDir → PgDir → Kmem → Prop where
  | nil {parent child : PgDir} {km : Kmem} : CopyRun [] parent child km true parent child km
  | stop {i : Nat} {is : List Nat} {parent child parent' child' : PgDir} {km km' : Kmem}
    (step : CopyStep i parent child km false parent' child' km') : CopyRun (i :: is) parent child km false parent' child' km'
  | cons {i : Nat} {is : List Nat} {parent child parent1 child1 parent' child' : PgDir} {km km1 km' : Kmem} {b : Bool}
    (step : CopyStep i parent child km true parent1 child1 km1) (rest : CopyRun is parent1 child1 km1 b parent' child' km') :
    CopyRun (i :: is) parent child km b parent' child' km'

/-- The pages a loop of `copyuvm` visits. -/
def CopyPages (is : List Nat) : Prop := ∀ i ∈ is, i % PGSIZE = 0 ∧ i < KERNBASE ∧ PGSIZE ≤ i

section Loops

variable {b : Bool} {is js : List Nat}

theorem CopyPages.head (pages : CopyPages (i :: is)) : i % PGSIZE = 0 ∧ i < KERNBASE ∧ PGSIZE ≤ i :=
  pages i (mem_cons_self ..)

theorem CopyPages.tail (pages : CopyPages (i :: is)) : CopyPages is := fun j mem => pages j (mem_cons_of_mem _ mem)

theorem CopyPages.append (first : CopyPages is) (second : CopyPages js) : CopyPages (is ++ js) := fun i mem =>
  (mem_append.1 mem).elim (first i) (second i)

theorem CopyStep.protected (step : CopyStep i parent child km b parent' child' km') : parent.Protected parent' := by
  cases step with
  | skip | out => exact .refl _
  | share found | full found => exact PgDir.protected_set (walkpgdir_some.1 found).2

theorem sharePage_step (aligned : i % PGSIZE = 0) (user : i < KERNBASE) (found : walkpgdir i parent = some e)
    (present : e.p = true) (call : sharePage i e parent child km = .ok (b, parent', child', km')) :
    CopyStep i parent child km b parent' child' km' := by
  obtain ⟨⟨ok, child1, km1⟩, map, rest⟩ := bind_ok.1 call
  rw [mappages_page aligned user] at map
  obtain ⟨child0, walk, new⟩ := mapPage_ok map
  cases ok with
  | false =>
    cases rest
    simp only [Bool.false_eq_true, if_false] at new
    exact new ▸ .full found present walk
  | true =>
    obtain ⟨km2, counted, rest⟩ := bind_ok.1 rest
    cases rest
    simp only [if_true, page_div] at new
    exact new.2 ▸ .share found present walk new.1 counted

/-- The loop over the heap meets present pages only. -/
theorem copyHeap_run (is : List Nat) :
    ∀ (parent child : PgDir) (km : Kmem), CopyPages is → copyHeap is parent child km = .ok (b, parent', child', km') →
      CopyRun is parent child km b parent' child' km' ∧
        (b = true → ∀ i ∈ is, (parent.pte (i / PGSIZE)).p = true) := by
  induction is with
  | nil =>
    intro parent child km _ call
    cases call
    exact ⟨.nil, by rintro _ _ ⟨⟩⟩
  | cons i is ih =>
    intro parent child km pages call
    obtain ⟨aligned, user, _⟩ := pages.head
    unfold copyHeap at call
    split at call
    · cases call
    rename_i e found
    split at call
    · rename_i present
      obtain ⟨⟨ok, parent1, child1, km1⟩, body, rest⟩ := bind_ok.1 call
      have step := sharePage_step aligned user found present body
      cases ok with
      | false =>
        cases rest
        exact ⟨.stop step, by rintro ⟨⟩⟩
      | true =>
        obtain ⟨run, resident⟩ := ih parent1 child1 km1 pages.tail rest
        refine ⟨.cons step run, fun ok j mem => ?_⟩
        rcases mem_cons.1 mem with rfl | later
        · rw [(walkpgdir_some.1 found).2, present]
        · have after := resident ok j later
          rcases step.protected.pte (j / PGSIZE) with same | weak
          · rwa [same] at after
          · rwa [weak] at after
    · cases call

theorem copyStack_run (is : List Nat) :
    ∀ (parent child : PgDir) (km : Kmem), CopyPages is → copyStack is parent child km = .ok (b, parent', child', km') →
      CopyRun is parent child km b parent' child' km' := by
  induction is with
  | nil =>
    intro parent child km _ call
    cases call
    exact .nil
  | cons i is ih =>
    intro parent child km pages call
    obtain ⟨aligned, user, _⟩ := pages.head
    unfold copyStack at call
    split at call
    · cases call
    rename_i e found
    split at call
    · rename_i neither
      exact .cons (.skip found (by simpa using neither)) (ih parent child km pages.tail call)
    rename_i mapped
    split at call
    · rename_i isOut
      split at call
      · cases call
      · rename_i walk
        exact .cons (.out found isOut walk) (ih _ _ _ pages.tail call)
    · rename_i resident
      obtain ⟨⟨ok, parent1, child1, km1⟩, body, rest⟩ := bind_ok.1 call
      have present : e.p = true := by
        simp only [Bool.not_eq_true] at resident
        simpa [resident] using mapped
      have step := sharePage_step aligned user found present body
      cases ok with
      | false =>
        cases rest
        exact .stop step
      | true => exact .cons step (ih parent1 child1 km1 pages.tail rest)

theorem CopyRun.append (first : CopyRun is parent child km b parent' child' km') :
    (b = false → CopyRun (is ++ js) parent child km false parent' child' km') ∧
    ∀ {c : Bool} {parent'' child'' : PgDir} {km'' : Kmem}, b = true → CopyRun js parent' child' km' c parent'' child'' km'' →
      CopyRun (is ++ js) parent child km c parent'' child'' km'' := by
  induction first with
  | nil => exact ⟨by rintro ⟨⟩, fun _ second => second⟩
  | stop step => exact ⟨fun _ => .stop step, by rintro _ _ _ _ ⟨⟩⟩
  | cons step _ ih => exact ⟨fun failed => .cons step (ih.1 failed), fun ok second => .cons step (ih.2 ok second)⟩

theorem stack_bottom (layout : p.Layout) : sub32 USERSTACKTOP p.stacksize = KERNBASE - p.stacksize := by
  have := layout.room
  simp only [sub32, USERSTACKTOP, PGSIZE, KERNBASE] at *
  omega

/-- The pages that `copyuvm` visits: those of the heap, without the first, and those of the stack. -/
def Proc.copied (p : Proc) : List Nat := pageRange PGSIZE p.sz ++ pageRange (sub32 USERSTACKTOP p.stacksize) USERSTACKTOP

theorem heap_copyPages (layout : p.Layout) : CopyPages (pageRange PGSIZE p.sz) := by
  intro i mem
  obtain ⟨aligned, low, high⟩ := pageRange_aligned p.sz (Nat.mod_self _) i mem
  have := layout.heap
  exact ⟨aligned, by omega, low⟩

theorem stack_copyPages (layout : p.Layout) : CopyPages (pageRange (sub32 USERSTACKTOP p.stacksize) USERSTACKTOP) := by
  intro i mem
  have room := layout.room
  have stack := layout.stack
  rw [stack_bottom layout] at mem
  obtain ⟨aligned, low, high⟩ := pageRange_aligned USERSTACKTOP
    (by simp only [PGSIZE, KERNBASE] at *; omega : (KERNBASE - p.stacksize) % PGSIZE = 0) i mem
  exact ⟨aligned, by simpa only [USERSTACKTOP, KERNBASE] using high, by omega⟩

theorem copied_pages (layout : p.Layout) : CopyPages p.copied :=
  (heap_copyPages layout).append (stack_copyPages layout)

/-- **Both loops**: a run over the pages of the two ranges, and a heap that is present when it succeeds. -/
theorem copyPages_run (layout : p.Layout) (call : copyPages p.sz p.stacksize parent child km = .ok (b, parent', child', km')) :
    CopyRun p.copied parent child km b parent' child' km' ∧
      (b = true → ∀ i ∈ pageRange PGSIZE p.sz, (parent.pte (i / PGSIZE)).p = true) := by
  obtain ⟨⟨ok, parent1, child1, km1⟩, heap, rest⟩ := bind_ok.1 call
  obtain ⟨first, resident⟩ := copyHeap_run _ parent child km (heap_copyPages layout) heap
  cases ok with
  | false =>
    cases rest
    exact ⟨first.append.1 rfl, by rintro ⟨⟩⟩
  | true => exact ⟨first.append.2 rfl (copyStack_run _ _ _ _ (stack_copyPages layout) rest), fun _ => resident rfl⟩

end Loops

theorem PgDir.Wf.found_page (wf : parent.Wf) (user : i < KERNBASE) (found : walkpgdir i parent = some e)
    (present : e.p = true) : e.u = true ∧ e.pg = false := by
  obtain ⟨_, entry⟩ := walkpgdir_some.1 found
  exact ⟨entry ▸ wf.user _ (user_page user).2 (entry ▸ present), entry ▸ wf.resident _ (entry ▸ present)⟩

/-- What the parent holds once its entry for a present page is read-only. -/
theorem PgDir.protect_use (wf : parent.Wf) (user : i < KERNBASE) (found : walkpgdir i parent = some e)
    (present : e.p = true) :
    parent.use = parent.rest (i / PGSIZE) + ref e.addr e.w ∧
      (parent.set i { e with w := false }).use = parent.rest (i / PGSIZE) + ref e.addr false := by
  obtain ⟨isUser, _⟩ := wf.found_page user found present
  obtain ⟨below, _⟩ := user_page user
  constructor
  · rw [PgDir.use_eq _ (vpage_lt below), (walkpgdir_some.1 found).2, Pte.use_mapped present isUser]
  · rw [PgDir.set_use _ below, Pte.use_mapped (e := { e with w := false }) present isUser]

/-- A present page of the parent becomes read-only. -/
theorem Copying.protect (copying : Copying D R P C parent child km) (user : i < KERNBASE)
    (found : walkpgdir i parent = some e) (present : e.p = true) :
    Copying D R P C (parent.set i { e with w := false }) child km := by
  obtain ⟨below, low⟩ := user_page user
  obtain ⟨table, entry⟩ := walkpgdir_some.1 found
  obtain ⟨isUser, resident⟩ := copying.parentWf.found_page user found present
  obtain ⟨before, after⟩ := PgDir.protect_use copying.parentWf user found present
  have weak : Acct D (R + (P + parent.rest (i / PGSIZE)) + (C + child.use) + ref e.addr false) km := by
    have aside := copying.acct.congr
      (show R + (P + parent.use) + (C + child.use) =
        R + (P + parent.rest (i / PGSIZE)) + (C + child.use) + ref e.addr e.w by rw [before]; abel)
    exact ⟨aside.inv, aside.counted.weaken⟩
  refine ⟨weak.congr (by rw [after]; abel), fun f => ?_,
    copying.parentWf.set (by rw [← pdx_eq below]; exact table) (fun _ _ => isUser) (fun high => by omega) fun _ => resident,
    copying.childWf, fun v childPresent childUser => ?_⟩
  · have := copying.once f
    rw [before] at this
    rw [after]
    simp only [total_add, total_ref] at this ⊢
    exact this
  · obtain ⟨p, u, addr⟩ := copying.shared v childPresent childUser
    rw [PgDir.set_pte]
    split
    · rename_i here
      subst here
      rw [entry] at p u addr
      exact ⟨p, u, addr⟩
    · exact ⟨p, u, addr⟩

/-- The child's table gets an entry that is not a second reference. -/
theorem Copying.entry {e' : Pte} (copying : Copying D R P C parent child km) (user : i < KERNBASE)
    (table : child.pde (PDX i) ≠ none) (absent : (child.pte (i / PGSIZE)).use = 0)
    (acct : Acct D (R + (P + parent.use) + (C + child.use) + e'.use) km') (isUser : e'.p = true → e'.u = true)
    (resident : e'.p = true → e'.pg = false) (shared : e'.SharedWith (parent.pte (i / PGSIZE))) :
    Copying D R P C parent (child.set i e') km' := by
  obtain ⟨below, low⟩ := user_page user
  refine ⟨acct.congr ?_, copying.once, copying.parentWf,
    copying.childWf.set (by rw [← pdx_eq below]; exact table) (fun _ => isUser) (fun high => by omega) resident, fun v => ?_⟩
  · rw [PgDir.set_use _ below, PgDir.use_eq child (vpage_lt below), absent]
    abel
  · rw [PgDir.set_pte]
    split
    · rename_i here
      exact here ▸ shared
    · exact copying.shared v

/-- What the loops of `copyuvm` do to the tables. -/
structure Copied (parent child parent' child' : PgDir) : Prop where
  prot : parent.Protected parent'
  entries : child.Changed (CopiedEntry parent) child'

/-- An entry copied from a table whose pages have become read-only. -/
theorem PgDir.Protected.copied {v : Nat} (prot : parent.Protected parent') (copied : CopiedEntry parent' v e) :
    CopiedEntry parent v e := by
  obtain ⟨low, ⟨out, pg⟩ | rfl⟩ := copied
  · rcases prot.pte v with same | weak
    · exact ⟨low, .inl ⟨out, same ▸ pg⟩⟩
    · exact ⟨low, .inl ⟨out, by simpa only [weak] using pg⟩⟩
  · rcases prot.pte v with same | weak
    · exact ⟨low, .inr (by rw [same])⟩
    · exact ⟨low, .inr (by rw [weak])⟩

theorem Copied.trans {parent'' child'' : PgDir} (first : Copied parent child parent' child')
    (second : Copied parent' child' parent'' child'') : Copied parent child parent'' child'' :=
  ⟨first.prot.trans second.prot, first.entries.trans (second.entries.mono fun _ _ => first.prot.copied)⟩

/-- A table that got one entry, and perhaps a page table before. -/
theorem PgDir.Ext.changed {Q : Nat → Pte → Prop} (ext : d.Ext d') (new : Q (i / PGSIZE) e) : d.Changed Q (d'.set i e) := by
  refine ⟨ext.frame, fun v => ?_⟩
  rw [PgDir.set_pte]
  split
  · rename_i here
    exact .inr (here ▸ new)
  · exact .inl (by rw [ext.pte])

/-- **One page** keeps the accounts. -/
theorem Copying.step {b : Bool} (copying : Copying D R P C parent child km) (exclusive : AllExclusive C)
    (few : parent.FewOthers R) (user : i < KERNBASE) (step : CopyStep i parent child km b parent' child' km') :
    Copying D R P C parent' child' km' ∧ SameMem km km' ∧ Copied parent child parent' child' := by
  obtain ⟨below, low⟩ := user_page user
  have prot := step.protected
  cases step with
  | skip => exact ⟨copying, .refl _, prot, .refl _ _⟩
  | full found present walk =>
    obtain ⟨copying0, ext, same, _⟩ := copying.walk exclusive walk
    exact ⟨copying0.protect user found present, same, prot, ext.frame, fun v => .inl (by rw [ext.pte])⟩
  | @out _ child0 _ found isOut walk =>
    obtain ⟨_, entry⟩ := walkpgdir_some.1 found
    obtain ⟨copying0, ext, same, table⟩ := copying.walk exclusive walk
    -- an entry of the child is present only where the parent's is
    have unmapped : (child0.pte (i / PGSIZE)).use = 0 := by
      unfold Pte.use
      split
      · rename_i mapped
        simp only [Bool.and_eq_true] at mapped
        have resident := copying.parentWf.resident _ (copying0.shared _ mapped.1 mapped.2).1
        rw [entry, isOut] at resident
        cases resident
      · rfl
    refine ⟨copying0.entry user table unmapped (by rw [Pte.use_out, add_zero]; exact copying0.acct) (by rintro ⟨⟩)
      (by rintro ⟨⟩) (by rintro ⟨⟩), same, prot, ext.changed ⟨low, .inl ⟨rfl, by rw [entry, isOut]⟩⟩⟩
  | @share e child0 _ _ found present walk absent counted =>
    obtain ⟨_, entry⟩ := walkpgdir_some.1 found
    obtain ⟨isUser, resident⟩ := copying.parentWf.found_page user found present
    obtain ⟨copying0, ext, same, table⟩ := copying.walk exclusive walk
    obtain ⟨before, after⟩ := PgDir.protect_use copying.parentWf user found present
    have copying1 := copying0.protect user found present
    have aside := copying1.acct
    rw [after] at aside
    obtain ⟨run, acct⟩ := (aside.congr (show _ = R + (P + parent.rest (i / PGSIZE)) + (C + child0.use) + ref e.addr false by
      abel)).addPageShare (by
        have one := few (i / PGSIZE) (by rw [entry]; exact present)
        have two := copying.once e.addr
        have three := copying0.child_once exclusive e.addr
        rw [before] at two
        rw [entry] at one
        simp only [total_add, NPROC] at one two three ⊢
        omega)
    cases run.symm.trans counted
    refine ⟨copying1.entry user table (Pte.use_absent absent) (acct.congr ?_) (fun _ => isUser) (fun _ => resident)
      fun _ _ => ?_, ⟨same.mem, same.kend, same.kdata⟩, prot, ext.changed ⟨low, .inr (by rw [entry])⟩⟩
    · rw [after, Pte.use_mapped (e := { e with w := false, p := true }) rfl isUser]
      abel
    · rw [PgDir.set_pte, if_pos rfl]
      exact ⟨present, isUser, rfl⟩

/-- **The loops** keep the accounts. -/
theorem CopyRun.copying {b : Bool} {is : List Nat} (exclusive : AllExclusive C)
    (run : CopyRun is parent child km b parent' child' km') (pages : CopyPages is) (few : parent.FewOthers R)
    (copying : Copying D R P C parent child km) :
    Copying D R P C parent' child' km' ∧ SameMem km km' ∧ Copied parent child parent' child' := by
  induction run with
  | nil => exact ⟨copying, .refl _, .refl _, .refl _ _⟩
  | stop step => exact copying.step exclusive few pages.head.2.1 step
  | cons step _ ih =>
    obtain ⟨copying1, same1, copied1⟩ := copying.step exclusive few pages.head.2.1 step
    obtain ⟨copying2, same2, copied2⟩ := ih pages.tail (few.protected copied1.prot) copying1
    exact ⟨copying2, same1.trans same2, copied1.trans copied2⟩

/-- What `copyuvm` leaves behind: the parent's table, and the child's if there is one. -/
structure CopyDone (D : Nat → Prop) (R C : Use Nat) (p : Proc) (r : Option PgDir) (parent' : PgDir) (km' : Kmem) :
    Prop where
  prot : p.pgdir.Protected parent'
  wf : parent'.Wf
  once : ∀ f, total (p.own + parent'.use) f ≤ 1
  failed : r = none → Acct D (R + (p.own + parent'.use) + C) km'
  done : ∀ d, r = some d → Acct D (R + (p.own + parent'.use) + (C + d.use)) km' ∧
    (∀ f, total (C + d.use) f ≤ 1) ∧ d.Wf ∧ ∀ v, v < NUPAGES → d.pte v = {} ∨ CopiedEntry p.pgdir v (d.pte v)

/-- **`copyuvm`.** -/
theorem copyuvm_held {r : Option PgDir} (linked : km.Linked) (held : Held D (R + C) p.res km) (once : ∀ f, total C f ≤ 1)
    (exclusive : AllExclusive C) (few : p.pgdir.FewOthers R) (good : p.Good) (layout : p.Layout)
    (call : copyuvm p km = .ok (r, parent', km')) : Kept (R + C) km km' ∧ CopyDone D R C p r parent' km' := by
  obtain ⟨⟨r1, km1⟩, setup, rest⟩ := bind_ok.1 call
  have childHeld : Held D (R + p.res) C km := ⟨held.acct.congr (by abel), once⟩
  obtain ⟨kept1, none1, some1⟩ := setupkvm_held linked childHeld setup
  have kept1' : Kept (R + C) km km1 := (kept1.mono (show R + p.res + C = R + C + p.res by abel)).part
  cases r1 with
  | none =>
    cases rest
    exact ⟨kept1', ⟨.refl _, good.table, held.once, fun _ => (none1 rfl).acct, by rintro _ ⟨⟩⟩⟩
  | some child =>
    have held1 := some1 child rfl
    obtain ⟨wf1, empty1⟩ := setupkvm_blank linked setup
    obtain ⟨⟨ok, parent2, child2, km2⟩, copy, rest⟩ := bind_ok.1 rest
    have start : Copying D R p.own C p.pgdir child km1 := by
      refine ⟨held1.acct, held.once, good.table, wf1, fun v present user => ?_⟩
      by_cases low : v < NUPAGES
      · rw [empty1 v low] at present
        cases present
      · rw [(wf1.kernel v (by omega)).1] at user
        cases user
    obtain ⟨copying, same, copied⟩ :=
      (copyPages_run layout copy).1.copying exclusive (copied_pages layout) few start
    cases ok with
    | true =>
      cases rest
      refine ⟨kept1'.trans (same.kept _), ⟨copied.prot, copying.parentWf, copying.once, by rintro ⟨⟩, fun d some => ?_⟩⟩
      cases some
      refine ⟨copying.acct, copying.child_once exclusive, copying.childWf, fun v low => ?_⟩
      rcases copied.entries.pte v with old | new
      · exact .inl (by rw [old, empty1 v low])
      · exact .inr new
    | false =>
      obtain ⟨km3, free, rest⟩ := bind_ok.1 rest
      cases rest
      obtain ⟨km3', free', held3, kept3⟩ := freevm_held
        (linked.kept (kept1'.trans (same.kept _)) |>.zero copying.acct.inv) (copying.child_held exclusive) copying.childWf
      cases free'.symm.trans free
      refine ⟨(kept1'.trans (same.kept _)).trans
        ((kept3.mono (show R + (p.own + parent'.use) + C = R + C + (p.own + parent'.use) by abel)).part),
        ⟨copied.prot, copying.parentWf, copying.once, fun _ => held3.acct, by rintro _ ⟨⟩⟩⟩

end Xv6
