import Xv6.Vm.PageIn
import Mathlib.Data.Set.Card

/-!
# Page-in and copy on write

The copy-on-write invariant: `pc_sh` of a mapped frame is the number of pages that map it,
and a page that is writable is the only one. `fifo_replace` maps the victim's frame
writable and changes its bytes. It does not ask whether the frame is shared.
-/

namespace Xv6

open Fallible Function

/-- Page `v` of process `q` is present, through the entry `e`. -/
def Kernel.MapsPage (k : Kernel) (q v : Nat) (e : Pte) : Prop :=
  q < NPROC ∧ (k.proc q).live ∧ v < NUPAGES ∧ walkpgdir (v * PGSIZE) (k.proc q).pgdir = some e ∧ e.p = true

/-- The pages, of all processes, that map frame `f`. -/
def Kernel.pageMappings (k : Kernel) (f : Nat) : Set (Nat × Nat) := {m | ∃ e, k.MapsPage m.1 m.2 e ∧ e.addr = f}

/-- The copy-on-write invariant. -/
structure Kernel.Cow (k : Kernel) : Prop where
  counted : ∀ q v e, k.MapsPage q v e → k.km.pcSh e.addr = (k.pageMappings e.addr).ncard
  single : ∀ q v e, k.MapsPage q v e → e.u = true → e.w = true → k.km.pcSh e.addr = 1

/-- Every other process reads what it read before. -/
def Kernel.OthersRead (k k' : Kernel) (i : Nat) : Prop :=
  ∀ q < NPROC, (k.proc q).live → q ≠ i → ∀ va < KERNBASE,
    userRead va (k'.proc q).pgdir k'.km = userRead va (k.proc q).pgdir k.km

theorem Kernel.pageMappings_finite (k : Kernel) (f : Nat) : (k.pageMappings f).Finite := by
  apply ((Set.finite_lt_nat NPROC).prod (Set.finite_lt_nat NUPAGES)).subset
  rintro ⟨q, v⟩ ⟨e, ⟨inside, _, page, _⟩, _⟩
  exact ⟨inside, page⟩

section Replace

variable {k : Kernel} {i addr last : Nat} {mq : MemQueue} {victim : Pte} {p' : Proc} {km' : Kmem}

/-- The kernel after process `i` has brought in a page. -/
def Kernel.replaced (k : Kernel) (i : Nat) (p' : Proc) (km' : Kmem) : Kernel := { k.setProc i p' with km := km' }

theorem Kernel.replaced_other {q : Nat} (other : q ≠ i) : (k.replaced i p' km').proc q = k.proc q :=
  update_of_ne other ..

theorem Kernel.replaced_self : (k.replaced i p' km').proc i = p' := update_self ..

/-- What `fifo_replace` did to a page of process `i`. -/
structure Exchanged (k : Kernel) (i addr v : Nat) (victim : Pte) (p' : Proc) (km' : Kmem) : Prop where
  inside : i < NPROC
  live : (k.proc i).live
  user : addr < KERNBASE
  userV : v < KERNBASE
  absent : ((k.proc i).pgdir.pte (addr / PGSIZE)).p = false
  found : walkpgdir v (k.proc i).pgdir = some victim
  present : victim.p = true
  table : (k.proc i).pgdir.pde (PDX addr) ≠ none
  state : p'.state = (k.proc i).state
  pgdir : p'.pgdir = ((k.proc i).pgdir.set addr (Pte.fresh victim.addr)).set v Pte.out
  counts : km'.pcSh = k.km.pcSh
  frames : ∀ g, g ≠ victim.addr → km'.mem g = k.km.mem g

namespace Exchanged

variable {v : Nat} (ex : Exchanged k i addr v victim p' km')
include ex

theorem apart : v / PGSIZE ≠ addr / PGSIZE := by
  intro same
  have absent := ex.absent
  rw [← same, (walkpgdir_some.1 ex.found).2, ex.present] at absent
  cases absent

/-- The victim's mapping before. -/
theorem victim_maps : k.MapsPage i (v / PGSIZE) victim :=
  ⟨ex.inside, ex.live, (user_page ex.userV).2, (walkpgdir_page v _).trans ex.found, ex.present⟩

/-- Which pages are mapped after the exchange. -/
theorem maps_iff {q u : Nat} {e : Pte} : (k.replaced i p' km').MapsPage q u e ↔
    (q = i ∧ u = addr / PGSIZE ∧ e = Pte.fresh victim.addr) ∨ ((q, u) ≠ (i, v / PGSIZE) ∧ k.MapsPage q u e) := by
  have page := (user_page ex.user).2
  by_cases other : q = i
  swap
  · have notI : (q, u) ≠ (i, v / PGSIZE) := fun same => other (congrArg Prod.fst same)
    simp only [Kernel.MapsPage, Kernel.replaced_other other, other, false_and, notI, ne_eq, not_false_eq_true, true_and, false_or]
  subst other
  have isLive : p'.live ↔ (k.proc q).live := by rw [Proc.live, Proc.live, ex.state]
  simp only [Kernel.MapsPage, Kernel.replaced_self, isLive, ex.pgdir, walkpgdir_some, page_div, PgDir.set_pde, PgDir.set_pte,
    true_and, Prod.mk.injEq, ne_eq]
  by_cases atVictim : u = v / PGSIZE
  · subst atVictim
    refine iff_of_false ?_ ?_
    · rw [if_pos rfl]
      rintro ⟨_, _, _, ⟨_, rfl⟩, isPresent⟩
      cases isPresent
    · rintro (⟨same, _⟩ | ⟨other, _⟩)
      · exact ex.apart same
      · exact other rfl
  · rw [if_neg atVictim]
    simp only [atVictim, not_false_eq_true, true_and]
    by_cases atAddr : u = addr / PGSIZE
    · subst atAddr
      rw [if_pos rfl, show PDX (addr / PGSIZE * PGSIZE) = PDX addr from pdx_page addr]
      simp only [true_and]
      constructor
      · rintro ⟨_, _, _, ⟨_, rfl⟩, _⟩
        exact .inl rfl
      · rintro (rfl | ⟨_, _, _, ⟨_, rfl⟩, isPresent⟩)
        · exact ⟨ex.inside, ex.live, page, ⟨ex.table, rfl⟩, rfl⟩
        · rw [ex.absent] at isPresent
          cases isPresent
    · rw [if_neg atAddr]
      simp only [atAddr, false_and, false_or]

/-- The victim's frame has one mapping instead of another, and the other frames keep theirs. -/
theorem pageMappings_ncard (g : Nat) : ((k.replaced i p' km').pageMappings g).ncard = (k.pageMappings g).ncard := by
  have isVictim : (i, v / PGSIZE) ∈ k.pageMappings victim.addr := ⟨victim, ex.victim_maps, rfl⟩
  by_cases here : g = victim.addr
  · have exchanged : (k.replaced i p' km').pageMappings g = insert (i, addr / PGSIZE) (k.pageMappings g \ {(i, v / PGSIZE)}) := by
      ext ⟨q, u⟩
      simp only [Kernel.pageMappings, Set.mem_ofPred_eq, ex.maps_iff, Set.mem_insert_iff, Set.mem_sdiff, Set.mem_singleton_iff]
      constructor
      · rintro ⟨e, ⟨rfl, rfl, -⟩ | ⟨other, maps⟩, isG⟩
        · exact .inl rfl
        · exact .inr ⟨⟨e, maps, isG⟩, other⟩
      · rintro (same | ⟨⟨e, maps, isG⟩, other⟩)
        · cases same
          exact ⟨_, .inl ⟨rfl, rfl, rfl⟩, here.symm⟩
        · exact ⟨e, .inr ⟨other, maps⟩, isG⟩
    have fresh : (i, addr / PGSIZE) ∉ k.pageMappings g := by
      rintro ⟨e, ⟨_, _, _, found, isPresent⟩, _⟩
      have entry := (walkpgdir_some.1 found).2
      rw [page_div] at entry
      rw [← entry, ex.absent] at isPresent
      cases isPresent
    rw [exchanged]
    exact Set.ncard_exchange fresh (here ▸ isVictim)
  · have same : (k.replaced i p' km').pageMappings g = k.pageMappings g := by
      ext ⟨q, u⟩
      simp only [Kernel.pageMappings, Set.mem_ofPred_eq, ex.maps_iff]
      constructor
      · rintro ⟨e, ⟨_, _, rfl⟩ | ⟨_, maps⟩, isG⟩
        · exact absurd isG.symm here
        · exact ⟨e, maps, isG⟩
      · rintro ⟨e, maps, isG⟩
        refine ⟨e, .inr ⟨?_, maps⟩, isG⟩
        intro atVictim
        cases atVictim
        have entry := maps.2.2.2.1.symm.trans ex.victim_maps.2.2.2.1
        cases entry
        exact here isG.symm
    rw [same]

/-- With one mapping of the victim's frame, nobody else sees the exchange. -/
theorem othersRead (inv : k.Cow) (one : k.km.pcSh victim.addr = 1) : k.OthersRead (k.replaced i p' km') i := by
  intro q inside live other va user
  rw [Kernel.replaced_other other]
  simp only [userRead]
  cases found : walkpgdir va (k.proc q).pgdir with
  | none => rfl
  | some e =>
    simp only
    by_cases shown : (e.p && e.u) = true
    · rw [if_pos shown, if_pos shown]
      have elsewhere : e.addr ≠ victim.addr := by
        intro same
        rw [Bool.and_eq_true] at shown
        have maps : k.MapsPage q (va / PGSIZE) e :=
          ⟨inside, live, (user_page user).2, (walkpgdir_page va _).trans found, shown.1⟩
        have count := inv.counted _ _ _ ex.victim_maps
        rw [one] at count
        have unique := (Set.ncard_le_one (k.pageMappings_finite victim.addr)).1 (Nat.le_of_eq count.symm)
        have both := unique (q, va / PGSIZE) ⟨e, maps, same⟩ (i, v / PGSIZE) ⟨victim, ex.victim_maps, rfl⟩
        exact other (congrArg Prod.fst both)
      exact congrArg some (congrFun (ex.frames _ elsewhere) _)
    · rw [if_neg shown, if_neg shown]

theorem cow_iff (inv : k.Cow) : (k.replaced i p' km').Cow ↔ k.km.pcSh victim.addr = 1 := by
  have counts : (k.replaced i p' km').km.pcSh = k.km.pcSh := ex.counts
  constructor
  · intro inv'
    have writable := inv'.single i (addr / PGSIZE) (Pte.fresh victim.addr) (ex.maps_iff.2 (.inl ⟨rfl, rfl, rfl⟩)) rfl rfl
    rw [counts] at writable
    exact writable
  · intro one
    constructor
    · intro q u e maps
      rw [counts, ex.pageMappings_ncard]
      rcases ex.maps_iff.1 maps with ⟨_, _, rfl⟩ | ⟨_, old⟩
      · have count := inv.counted _ _ _ ex.victim_maps
        exact count
      · exact inv.counted _ _ _ old
    · intro q u e maps user writable
      rw [counts]
      rcases ex.maps_iff.1 maps with ⟨_, _, rfl⟩ | ⟨_, old⟩
      · exact one
      · exact inv.single _ _ _ old user writable

end Exchanged

/-- What `fifo_replace` does, when the queue holds resident pages. -/
theorem fifoReplace_exchanged {l : List Nat} (inside : i < NPROC) (live : (k.proc i).live) (wf : (k.proc i).mq.Wf l)
    (resident : ∀ r ∈ l, ((k.proc i).mq.entries r).vaddr < KERNBASE ∧
      ∃ e, walkpgdir ((k.proc i).mq.entries r).vaddr (k.proc i).pgdir = some e ∧ e.p = true)
    (user : addr < KERNBASE) (absent : ((k.proc i).pgdir.pte (addr / PGSIZE)).p = false)
    (call : fifoReplace addr (k.proc i) k.km = .ok (p', km')) :
    ∃ last victim, l.getLast? = some last ∧ Exchanged k i addr ((k.proc i).mq.entries last).vaddr victim p' km' := by
  obtain ⟨last, mq, victim, j, out, files, taken, found, _, _, isOut, _, swap, isP⟩ := fifoReplace_ok call
  obtain ⟨m, rfl, _, _, _, vaddr, _, _, _⟩ := wf.take_last taken
  obtain ⟨userV, e, found', present⟩ := resident last (by simp)
  rw [vaddr] at found isP
  rw [found] at found'
  cases found'
  have wrote := swapLoop_wrote _ _ _ swap
  exact ⟨last, victim, List.getLast?_concat,
    { inside, live, user, userV, absent, found, present
      table := (walkpgdir_some.1 isOut).1
      state := by rw [isP]
      pgdir := by rw [isP]
      counts := by rw [wrote]
      frames := fun g other => swapLoop_frames other _ _ _ _ _ swap }⟩

/-- **Page-in and sharing.** `fifo_replace` keeps the copy-on-write invariant and what every
other process reads, exactly when the victim's frame is not shared. -/
theorem page_in_cow {l : List Nat} (inv : k.Cow) (inside : i < NPROC) (live : (k.proc i).live) (wf : (k.proc i).mq.Wf l)
    (resident : ∀ r ∈ l, ((k.proc i).mq.entries r).vaddr < KERNBASE ∧
      ∃ e, walkpgdir ((k.proc i).mq.entries r).vaddr (k.proc i).pgdir = some e ∧ e.p = true)
    (user : addr < KERNBASE) (absent : ((k.proc i).pgdir.pte (addr / PGSIZE)).p = false)
    (call : fifoReplace addr (k.proc i) k.km = .ok (p', km')) :
    ∃ last victim, l.getLast? = some last ∧
      walkpgdir ((k.proc i).mq.entries last).vaddr (k.proc i).pgdir = some victim ∧
      ((k.replaced i p' km').Cow ∧ k.OthersRead (k.replaced i p' km') i ↔ k.km.pcSh victim.addr = 1) := by
  obtain ⟨last, victim, isLast, ex⟩ := fifoReplace_exchanged inside live wf resident user absent call
  refine ⟨last, victim, isLast, ex.found, ?_⟩
  rw [ex.cow_iff inv]
  exact ⟨fun both => both.1, fun one => ⟨one, ex.othersRead inv one⟩⟩

end Replace

/-! ## A victim that is shared -/

/-- The entry of a page that `fork` has made read-only. -/
def roEntry : Pte := { addr := 0x301, p := true, u := true }

/-- A process with page 2 read-only, and its child, if there is one, which shares it. -/
def sharingKernel (shared : Bool) : Kernel where
  km := { onePageFree with pcSh := fun f => if f = 0x301 ∧ shared then 2 else 1 }
  proc := fun q =>
    if q = 0 then { pagedProc "cat" with state := .runnable, pgdir := (pagedProc "cat").pgdir.set 0x2000 roEntry }
    else if q = 1 ∧ shared then
      { state := .runnable, pgdir := { pde := fun _ => some 0x202, pte := fun v => if v = 2 then roEntry else {} } }
    else {}

theorem sharingKernel_entry (shared : Bool) (v : Nat) : ((sharingKernel shared).proc 0).pgdir.pte v =
    if v = 2 then roEntry else if v = 5 then Pte.out else if v = 1 then Pte.fresh 0x300 else {} := by
  have pages : 0x2000 / PGSIZE = 2 ∧ 0x5000 / PGSIZE = 5 := by decide
  simp only [sharingKernel, pagedProc, twoResident, PgDir.set, pages.1, pages.2, update_apply, ↓reduceIte]
  by_cases two : v = 2
  · rw [if_pos two, if_pos two]
  · rw [if_neg two, if_neg two, if_neg two]

theorem sharingKernel_maps {shared : Bool} {q v : Nat} {e : Pte} : (sharingKernel shared).MapsPage q v e ↔
    (q = 0 ∧ v = 1 ∧ e = Pte.fresh 0x300) ∨ (q = 0 ∧ v = 2 ∧ e = roEntry) ∨ (q = 1 ∧ shared = true ∧ v = 2 ∧ e = roEntry) := by
  constructor
  · rintro ⟨_, live, _, found, present⟩
    have entry := (walkpgdir_some.1 found).2
    rw [page_div] at entry
    by_cases zero : q = 0
    · subst zero
      rw [sharingKernel_entry] at entry
      split at entry
      · rename_i two
        exact .inr (.inl ⟨rfl, two, entry.symm⟩)
      · split at entry
        · rw [← entry] at present
          cases present
        · split at entry
          · rename_i one
            exact .inl ⟨rfl, one, entry.symm⟩
          · rw [← entry] at present
            cases present
    · by_cases child : q = 1 ∧ shared = true
      · obtain ⟨rfl, rfl⟩ := child
        have entry : (if v = 2 then roEntry else {}) = e := entry
        split at entry
        · rename_i two
          exact .inr (.inr ⟨rfl, rfl, two, entry.symm⟩)
        · rw [← entry] at present
          cases present
      · have none : (sharingKernel shared).proc q = {} := by
          simp only [sharingKernel, if_neg zero, if_neg child]
        rw [none] at live
        exact absurd live (by decide)
  · have tables : PDX (1 * PGSIZE) = 0 ∧ PDX (2 * PGSIZE) = 0 := by decide
    rintro (⟨rfl, rfl, rfl⟩ | ⟨rfl, rfl, rfl⟩ | ⟨rfl, rfl, rfl, rfl⟩)
    · refine ⟨by decide, ⟨by rintro ⟨⟩, by rintro ⟨⟩⟩, by decide, ?_, rfl⟩
      rw [walkpgdir_some, page_div, sharingKernel_entry, tables.1]
      exact ⟨by rintro ⟨⟩, rfl⟩
    · refine ⟨by decide, ⟨by rintro ⟨⟩, by rintro ⟨⟩⟩, by decide, ?_, rfl⟩
      rw [walkpgdir_some, page_div, sharingKernel_entry, tables.2]
      exact ⟨by rintro ⟨⟩, rfl⟩
    · refine ⟨by decide, ⟨by rintro ⟨⟩, by rintro ⟨⟩⟩, by decide, ?_, rfl⟩
      rw [walkpgdir_some, page_div]
      exact ⟨by rintro ⟨⟩, rfl⟩

theorem sharingKernel_cow (shared : Bool) : (sharingKernel shared).Cow := by
  have first : (sharingKernel shared).pageMappings 0x300 = {(0, 1)} := by
    ext ⟨q, v⟩
    simp only [Kernel.pageMappings, Set.mem_ofPred_eq, sharingKernel_maps, Set.mem_singleton_iff, Prod.mk.injEq]
    constructor
    · rintro ⟨e, ⟨rfl, rfl, -⟩ | ⟨_, _, rfl⟩ | ⟨_, _, _, rfl⟩, isFrame⟩
      · exact ⟨rfl, rfl⟩
      · cases isFrame
      · cases isFrame
    · rintro ⟨rfl, rfl⟩
      exact ⟨_, .inl ⟨rfl, rfl, rfl⟩, rfl⟩
  have second : (sharingKernel shared).pageMappings 0x301 = if shared then {(0, 2), (1, 2)} else {(0, 2)} := by
    ext ⟨q, v⟩
    simp only [Kernel.pageMappings, Set.mem_ofPred_eq, sharingKernel_maps]
    cases shared with
    | false =>
      simp only [Bool.false_eq_true, if_false, Set.mem_singleton_iff, Prod.mk.injEq, false_and, and_false, or_false]
      constructor
      · rintro ⟨e, ⟨_, _, rfl⟩ | ⟨rfl, rfl, -⟩, isFrame⟩
        · cases isFrame
        · exact ⟨rfl, rfl⟩
      · rintro ⟨rfl, rfl⟩
        exact ⟨_, .inr ⟨rfl, rfl, rfl⟩, rfl⟩
    | true =>
      simp only [if_true, Set.mem_insert_iff, Set.mem_singleton_iff, Prod.mk.injEq, true_and]
      constructor
      · rintro ⟨e, ⟨_, _, rfl⟩ | ⟨rfl, rfl, -⟩ | ⟨rfl, rfl, -⟩, isFrame⟩
        · cases isFrame
        · exact .inl ⟨rfl, rfl⟩
        · exact .inr ⟨rfl, rfl⟩
      · rintro (⟨rfl, rfl⟩ | ⟨rfl, rfl⟩)
        · exact ⟨_, .inr (.inl ⟨rfl, rfl, rfl⟩), rfl⟩
        · exact ⟨_, .inr (.inr ⟨rfl, rfl, rfl⟩), rfl⟩
  have count : (sharingKernel shared).km.pcSh 0x301 = ((sharingKernel shared).pageMappings 0x301).ncard := by
    rw [second]
    cases shared with
    | false =>
      rw [if_neg Bool.false_ne_true, Set.ncard_singleton]
      rfl
    | true =>
      rw [if_pos rfl, Set.ncard_pair (by decide)]
      rfl
  constructor
  · intro q v e maps
    rcases sharingKernel_maps.1 maps with ⟨_, _, rfl⟩ | ⟨_, _, rfl⟩ | ⟨_, _, _, rfl⟩
    · show (sharingKernel shared).km.pcSh 0x300 = ((sharingKernel shared).pageMappings 0x300).ncard
      rw [first, Set.ncard_singleton]
      rfl
    · exact count
    · exact count
  · intro q v e maps _ writable
    rcases sharingKernel_maps.1 maps with ⟨_, _, rfl⟩ | ⟨_, _, rfl⟩ | ⟨_, _, _, rfl⟩
    · rfl
    · cases writable
    · cases writable

theorem sharingKernel_resident (shared : Bool) : ∀ r ∈ [0, 1], (((sharingKernel shared).proc 0).mq.entries r).vaddr < KERNBASE ∧
    ∃ e, walkpgdir (((sharingKernel shared).proc 0).mq.entries r).vaddr ((sharingKernel shared).proc 0).pgdir = some e ∧ e.p = true := by
  have pages : (sharingKernel shared).MapsPage 0 1 (Pte.fresh 0x300) ∧ (sharingKernel shared).MapsPage 0 2 roEntry :=
    ⟨sharingKernel_maps.2 (.inl ⟨rfl, rfl, rfl⟩), sharingKernel_maps.2 (.inr (.inl ⟨rfl, rfl, rfl⟩))⟩
  intro r mem
  rw [List.mem_cons, List.mem_singleton] at mem
  rcases mem with rfl | rfl
  · exact ⟨show 0x1000 < KERNBASE by decide, _, pages.1.2.2.2.1, rfl⟩
  · exact ⟨show 0x2000 < KERNBASE by decide, _, pages.2.2.2.2.1, rfl⟩

/-- The page-in of page 5, with page 2 as the victim. -/
theorem sharingKernel_call (shared : Bool) : ∃ p' km',
    fifoReplace 0x5000 ((sharingKernel shared).proc 0) (sharingKernel shared).km = .ok (p', km') := by
  have wf : ((sharingKernel shared).proc 0).mq.Wf [0, 1] := pagedProc_queue "cat"
  obtain ⟨last, mq, taken⟩ := wf.take_last_exists (Nat.le_refl 2) "[ERROR] Only 0 or 1 pages in memory." "[ERROR] last null!"
  obtain ⟨m, isLast, _, _, _, vaddr, _⟩ := wf.take_last taken
  obtain ⟨_, e, found, present⟩ := sharingKernel_resident shared last (by rw [isLast]; simp)
  have out : walkpgdir 0x5000 ((sharingKernel shared).proc 0).pgdir = some Pte.out := by
    have page : 0x5000 / PGSIZE = 5 := by decide
    have table : PDX 0x5000 = 0 := by decide
    rw [walkpgdir_some, page, sharingKernel_entry, table]
    exact ⟨by rintro ⟨⟩, rfl⟩
  have nonempty : e ≠ {} := by
    intro empty
    rw [empty] at present
    cases present
  obtain ⟨files', km', call, _⟩ := fifoReplace_swaps (sharingKernel shared).km (j := 0) taken (by rw [vaddr]; exact found)
    nonempty rfl out (by decide) (by decide) rfl (by decide)
  exact ⟨_, km', call⟩

/-- The victim belongs to one process only. -/
theorem page_in_cow_alone : ∃ p' km', fifoReplace 0x5000 ((sharingKernel false).proc 0) (sharingKernel false).km = .ok (p', km') ∧
    ((sharingKernel false).replaced 0 p' km').Cow := by
  obtain ⟨p', km', call⟩ := sharingKernel_call false
  obtain ⟨last, victim, isLast, found, keeps⟩ := page_in_cow (i := 0) (sharingKernel_cow false) (by decide) (by decide)
    (pagedProc_queue "cat") (sharingKernel_resident false) (by decide) (by decide) call
  exact ⟨p', km', call, (keeps.2 (if_neg (fun both => Bool.false_ne_true both.2))).1⟩

/-- The victim is shared with the child: after the page-in the parent's new page is writable
and has the frame that the child's page 2 still maps. -/
theorem page_in_shared : ∃ p' km', (sharingKernel true).Cow ∧
    fifoReplace 0x5000 ((sharingKernel true).proc 0) (sharingKernel true).km = .ok (p', km') ∧
    ¬ ((sharingKernel true).replaced 0 p' km').Cow := by
  obtain ⟨p', km', call⟩ := sharingKernel_call true
  refine ⟨p', km', sharingKernel_cow true, call, ?_⟩
  obtain ⟨last, victim, isLast, ex⟩ := fifoReplace_exchanged (k := sharingKernel true) (i := 0) (by decide) (by decide)
    (pagedProc_queue "cat") (sharingKernel_resident true) (by decide) (by decide) call
  cases isLast
  have entry : some victim = some roEntry := ex.found.symm.trans (sharingKernel_maps.2 (.inr (.inl ⟨rfl, rfl, rfl⟩))).2.2.2.1
  cases entry
  rw [ex.cow_iff (sharingKernel_cow true)]
  decide

end Xv6
