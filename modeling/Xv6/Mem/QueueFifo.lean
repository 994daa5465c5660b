import Xv6.Mem.QueueInv

/-!
# The resident queue is first-in first-out

A run of insertions (`allocuvm`), replacements (`fifo_replace`), `mem_clear` and
`copy_mem` over the queues of any number of processes. A clock that ticks with each
load gives every page the time it was loaded; the queue is always in the order of
these times, so the record that is taken off its end is the page resident longest.
-/

namespace Xv6
open Fallible LinkedQueue Runs Function List

/-- A process's queue, and when each of its pages was loaded. -/
structure Tracked where
  q : MemQueue
  loaded : Nat → Nat

/-- The queues of all processes, and the clock. -/
structure QueueSys where
  procs : Nat → Tracked
  now : Nat

inductive QueueOp where
  | insert (i va : Nat)
  | replace (i va : Nat)
  | clear (i : Nat)
  | copy (dst src : Nat)

/-- Process `i` has loaded the page `va`. -/
def QueueSys.load (s : QueueSys) (i va : Nat) (q : MemQueue) : QueueSys where
  procs := Function.update s.procs i ⟨q, Function.update (s.procs i).loaded va s.now⟩
  now := s.now + 1

/-- The steps of a run: pages come in only when they are not resident, a replacement
needs two resident pages, and a process is not copied to itself. -/
inductive QueueStep : QueueOp → QueueSys → QueueSys → Prop where
  | insert {s : QueueSys} {i va : Nat} {q : MemQueue} : va ≠ SLOT_USABLE → ¬ (s.procs i).q.Resident va →
      insertPage va (s.procs i).q = .ok q → QueueStep (.insert i va) s (s.load i va q)
  | replace {s : QueueSys} {i va : Nat} {q : MemQueue} : va ≠ SLOT_USABLE → ¬ (s.procs i).q.Resident va →
      2 ≤ (s.procs i).q.num → replacePage va (s.procs i).q = .ok q →
      QueueStep (.replace i va) s (s.load i va q)
  | clear {s : QueueSys} {i : Nat} :
      QueueStep (.clear i) s
        { s with procs := Function.update s.procs i ⟨memClear (s.procs i).q, (s.procs i).loaded⟩ }
  | copy {s : QueueSys} {dst src : Nat} {q : MemQueue} : dst ≠ src →
      copyQueue (s.procs dst).q (s.procs src).q = .ok q →
      QueueStep (.copy dst src) s
        { s with procs := Function.update s.procs dst ⟨q, (s.procs src).loaded⟩ }

/-- A queue over the records of a fresh `mem_alloc`. -/
def Tracked.Fresh (t : Tracked) : Prop :=
  ∃ pages : List Nat, pages.length = NUM_MEM_PAGES ∧ t.q = { pages := pages }

/-- The queue is the list `l` of records in the order of loading, latest first. -/
structure Tracked.Ordered (t : Tracked) (now : Nat) (l : List Nat) : Prop where
  wf : t.q.Wf l
  chain : t.q.pages.length = NUM_MEM_PAGES
  count : t.q.num = l.length
  order : (t.q.vaddrs l).Pairwise fun a b => t.loaded b < t.loaded a
  past : ∀ a ∈ t.q.vaddrs l, t.loaded a < now

namespace Tracked.Ordered

variable {t : Tracked} {now : Nat} {l : List Nat}

theorem slots (ord : t.Ordered now l) : t.q.slots = MEM_CAPACITY := by
  rw [MemQueue.slots, ord.chain]
  rfl

theorem distinct (ord : t.Ordered now l) : (t.q.vaddrs l).Nodup :=
  ord.order.imp fun less same => by
    rw [same] at less
    omega

theorem length_le (ord : t.Ordered now l) : l.length ≤ MEM_CAPACITY :=
  ord.slots ▸ ord.wf.length_le

/-- A page loaded now comes first, whatever pages remain behind it. -/
theorem load (ord : t.Ordered now l) {q : MemQueue} {i va : Nat} {m : List Nat} (wf : q.Wf (i :: m))
    (chain : q.pages.length = NUM_MEM_PAGES) (count : q.num = (i :: m).length) (part : m <+: l)
    (vaddrs : q.vaddrs (i :: m) = va :: t.q.vaddrs m) (fresh : va ∉ t.q.vaddrs l) :
    (⟨q, update t.loaded va now⟩ : Tracked).Ordered (now + 1) (i :: m) := by
  obtain ⟨rest, rfl⟩ := part
  have before : t.q.vaddrs (m ++ rest) = t.q.vaddrs m ++ t.q.vaddrs rest := by simp [MemQueue.vaddrs]
  have order := ord.order
  rw [before, pairwise_append] at order
  have others : ∀ a ∈ t.q.vaddrs m, update t.loaded va now a = t.loaded a := by
    intro a mem
    refine update_of_ne ?_ _ _
    rintro rfl
    exact fresh (by rw [before]; exact mem_append_left _ mem)
  have earlier : ∀ a ∈ t.q.vaddrs m, t.loaded a < now := fun a mem =>
    ord.past a (by rw [before]; exact mem_append_left _ mem)
  refine ⟨wf, chain, count, ?_, ?_⟩
  · show (q.vaddrs (i :: m)).Pairwise _
    rw [vaddrs, pairwise_cons]
    refine ⟨fun a mem => ?_, order.1.imp_of_mem fun {a b} ha hb less => ?_⟩
    · simpa [others a mem] using earlier a mem
    · simpa [others a ha, others b hb] using less
  · show ∀ a ∈ q.vaddrs (i :: m), _
    rw [vaddrs]
    intro a mem
    rcases mem_cons.1 mem with rfl | mem
    · simp
    · have := earlier a mem
      simp only [others a mem]
      omega

end Tracked.Ordered

section Operations

variable {q q' : MemQueue} {l : List Nat} {va : Nat}

/-- The queue after a page came in: its record in front of a prefix of the old queue. -/
structure MemQueue.LoadedFront (q : MemQueue) (l : List Nat) (va : Nat) (q' : MemQueue)
    (i : Nat) (m : List Nat) : Prop where
  wf : q'.Wf (i :: m)
  part : m <+: l
  vaddrs : q'.vaddrs (i :: m) = va :: q.vaddrs m
  chain : q'.pages = q.pages

/-- Recycling the last record, as `fifo_write` and `fifo_replace` do. -/
theorem MemQueue.Wf.recycled {few null : String} {i : Nat} {q1 : MemQueue} (wf : q.Wf l)
    (h : takeLast few null q = .ok (i, q1)) (page : va ≠ SLOT_USABLE) :
    ∃ m, q.LoadedFront l va (q1.linkFront i va) i m ∧ l = m ++ [i] ∧ (q1.linkFront i va).num = q.num := by
  obtain ⟨m, rfl, _, wf', vaddrs⟩ := wf.recycle h page
  obtain ⟨p, _, _, _, _, num, pages, _⟩ := takeLast_ok h
  exact ⟨m, ⟨wf', ⟨_, rfl⟩, vaddrs, by rw [linkFront_pages, pages]⟩, rfl, by rw [linkFront_num, num]⟩

/-- `insertPage` succeeds and counts the page. -/
theorem MemQueue.Wf.insert_page (wf : q.Wf l) (count : q.num = l.length) (room : q.slots = MEM_CAPACITY)
    (page : va ≠ SLOT_USABLE) :
    ∃ q' i m, insertPage va q = .ok q' ∧ q.LoadedFront l va q' i m ∧ q'.num = (i :: m).length := by
  unfold insertPage
  by_cases full : MEM_CAPACITY ≤ q.num
  · obtain ⟨i, q1, taken⟩ := wf.take_last_exists (by rw [← count]; exact Nat.le_trans (by decide) full)
      "Only 0 or 1 page in memory." "[Error] last null!"
    obtain ⟨m, front, rfl, num⟩ := wf.recycled taken page
    refine ⟨_, i, m, ?_, front, by rw [num, count]; simp⟩
    rw [if_pos full, taken]
    rfl
  · obtain ⟨i, fresh, bound, found⟩ := wf.find_slot (by rw [room, ← count]; omega) va
    refine ⟨{ q.linkFront i va with num := q.num + 1 }, i, l, ?_,
      ⟨?_, List.prefix_refl l, ?_, linkFront_pages q i va⟩, by rw [count]; rfl⟩
    · rw [if_neg full, addPage, found]
      simp only [ok_bind, linkFront_num]
      rfl
    · have linked := wf.link_front fresh bound page
      exact ⟨linked.rep, linked.used, linked.unlinked⟩
    · exact linkFront_vaddrs (wf.notHead fresh) fresh

theorem MemQueue.Wf.replace_page (wf : q.Wf l) (two : 2 ≤ l.length) (page : va ≠ SLOT_USABLE) :
    ∃ q' i m, replacePage va q = .ok q' ∧ q.LoadedFront l va q' i m ∧ l = m ++ [i] ∧ q'.num = q.num := by
  obtain ⟨i, q1, taken⟩ := wf.take_last_exists two
    "[ERROR] Only 0 or 1 pages in memory." "[ERROR] last null!"
  obtain ⟨m, front, split, num⟩ := wf.recycled taken page
  refine ⟨_, i, m, ?_, front, split, num⟩
  unfold replacePage
  rw [taken]
  rfl

end Operations

/-- Every queue of the system is ordered. -/
def QueueSys.Ok (s : QueueSys) : Prop := ∀ i, ∃ l, (s.procs i).Ordered s.now l

theorem Tracked.Ordered.later {t : Tracked} {now now' : Nat} {l : List Nat} (ord : t.Ordered now l)
    (le : now ≤ now') : t.Ordered now' l :=
  { ord with past := fun a mem => Nat.lt_of_lt_of_le (ord.past a mem) le }

/-- A load by process `i` keeps every queue ordered. -/
theorem QueueSys.Ok.load {s : QueueSys} (ok : s.Ok) {i va : Nat} {q : MemQueue}
    (here : ∃ l, (⟨q, update (s.procs i).loaded va s.now⟩ : Tracked).Ordered (s.now + 1) l) :
    (s.load i va q).Ok := by
  intro j
  by_cases same : j = i
  · subst same
    simpa [QueueSys.load] using here
  · obtain ⟨l, ord⟩ := ok j
    refine ⟨l, ?_⟩
    simpa [QueueSys.load, update_of_ne same] using ord.later (Nat.le_succ _)

theorem QueueSys.Ok.step {s s' : QueueSys} {op : QueueOp} (ok : s.Ok) (step : QueueStep op s s') : s'.Ok := by
  cases step with
  | @insert _ i va q page absent call =>
    obtain ⟨l, ord⟩ := ok i
    obtain ⟨q', r, m, call', front, count⟩ := ord.wf.insert_page ord.count ord.slots page
    cases call'.symm.trans call
    refine ok.load ⟨_, ord.load front.wf (by rw [front.chain, ord.chain]) count front.part front.vaddrs ?_⟩
    rwa [ord.wf.mem_vaddrs page]
  | @replace _ i va q page absent two call =>
    obtain ⟨l, ord⟩ := ok i
    obtain ⟨q', r, m, call', front, split, num⟩ := ord.wf.replace_page (by rwa [← ord.count]) page
    cases call'.symm.trans call
    have count : q.num = (r :: m).length := by
      rw [num, ord.count, split]
      simp
    refine ok.load ⟨_, ord.load front.wf (by rw [front.chain, ord.chain]) count front.part front.vaddrs ?_⟩
    rwa [ord.wf.mem_vaddrs page]
  | @clear _ i =>
    intro j
    by_cases same : j = i
    · subst same
      obtain ⟨l, ord⟩ := ok j
      have cleared : (⟨memClear (s.procs j).q, (s.procs j).loaded⟩ : Tracked).Ordered s.now [] :=
        ⟨memClear_wf _, ord.chain, rfl, List.Pairwise.nil, by simp [MemQueue.vaddrs]⟩
      exact ⟨[], by simpa using cleared⟩
    · simpa [update_of_ne same] using ok j
  | @copy _ dst src q ne call =>
    intro j
    by_cases same : j = dst
    · subst same
      obtain ⟨ld, ordd⟩ := ok j
      obtain ⟨l, ord⟩ := ok src
      obtain ⟨q', call', wf', vaddrs, num, pages⟩ :=
        ord.wf.copy_queue (s.procs j).q (by rw [ordd.slots]; exact ord.length_le)
      cases call'.symm.trans call
      have child : (⟨q, (s.procs src).loaded⟩ : Tracked).Ordered s.now (List.range l.length) := by
        refine ⟨wf', by rw [pages, ordd.chain], by rw [num, ord.count]; simp, ?_, ?_⟩
        · show (q.vaddrs _).Pairwise _
          rw [vaddrs]
          exact ord.order
        · show ∀ a ∈ q.vaddrs _, _
          rw [vaddrs]
          exact ord.past
      exact ⟨_, by simpa using child⟩
    · simpa [update_of_ne same] using ok j

theorem Tracked.Fresh.ordered {t : Tracked} (fresh : t.Fresh) (now : Nat) : t.Ordered now [] := by
  obtain ⟨pages, chain, eq⟩ := fresh
  refine ⟨?_, ?_, ?_, ?_, ?_⟩ <;> rw [eq]
  · exact MemQueue.wf_fresh pages
  · exact chain
  · rfl
  · exact List.Pairwise.nil
  · simp [MemQueue.vaddrs]

/-- The victim was loaded before every other resident page. -/
theorem Tracked.Ordered.victim {t : Tracked} {now : Nat} {l : List Nat} (ord : t.Ordered now l)
    {few null : String} {v : Nat} {q1 : MemQueue} (taken : takeLast few null t.q = .ok (v, q1)) {a : Nat}
    (resident : t.q.Resident a) (page : a ≠ SLOT_USABLE) (other : a ≠ (t.q.entries v).vaddr) :
    t.loaded (t.q.entries v).vaddr < t.loaded a := by
  obtain ⟨m, rfl, _⟩ := ord.wf.take_last taken
  have order := ord.order
  rw [MemQueue.vaddrs, map_append, map_singleton, pairwise_append] at order
  have mem := (ord.wf.mem_vaddrs page).2 resident
  rw [MemQueue.vaddrs, map_append, map_singleton, mem_append, mem_singleton] at mem
  exact order.2.2 a (mem.resolve_right other) _ (by simp)

end Xv6
