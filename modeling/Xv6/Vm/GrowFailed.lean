import Xv6.Vm.Grow

/-!
# A growth that fails

`allocuvm` takes a record of the resident queue for a page before it knows whether there
is memory for it, and gives nothing back on failure. So a call that fails after it has
started on a page leaves the queue or the page table changed: either the queue has one
more record, or its records have moved, and if they came round to where they were, the
page of the front record has lost its mapping on the way.
-/

namespace Xv6

open Fallible List

variable {c c' : Ctx} {oldsz newsz a : Nat} {fresh fresh' : Bool} {p p' : Proc} {km km' : Kmem}

/-- Below capacity the queue only gets longer. -/
theorem makeRoom_num (queue : UserQueue p.mq) (user : a < KERNBASE)
    (call : makeRoom a fresh p km = .ok (fresh', p', km')) :
    UserQueue p'.mq ∧ p.mq.num ≤ p'.mq.num ∧ (fresh = true → p.mq.num < MEM_CAPACITY → p.mq.num < p'.mq.num) := by
  rcases makeRoom_ok call with ⟨l, p1, full, write, _, rfl⟩ | ⟨mq, _, _, _, _, add, rfl⟩ | ⟨_, notFresh, _, _, rfl⟩
  · obtain ⟨mq, j, t, km1, e, n, files, taken, _, _, _, _, _, _, rfl⟩ := fifoWrite_ok write
    obtain ⟨queue', _, num⟩ := queue.recycle user taken
    refine ⟨queue', ?_, fun _ room => by omega⟩
    rw [linkFront_num, num]
  · obtain ⟨queue', _, num⟩ := queue.add_page user add
    simp only [num]
    exact ⟨queue', by omega, fun _ _ => by omega⟩
  · refine ⟨queue, Nat.le_refl _, fun isFresh => ?_⟩
    rw [notFresh] at isFresh
    cases isFresh

theorem allocLoop_num {r : Nat} (as : List Nat) (fresh : Bool) (c : Ctx) (pages : ∀ a ∈ as, a % PGSIZE = 0 ∧ a < KERNBASE)
    (queue : UserQueue c.cur.mq) (call : allocLoop .cur oldsz newsz as fresh c = .ok (r, c')) :
    c.cur.mq.num ≤ c'.cur.mq.num := by
  obtain ⟨⟨_, _, more⟩, _⟩ | ⟨_, ⟨_, _, more⟩, _⟩ := allocLoop_rule
    (I := fun _ as c1 => (∀ a ∈ as, a % PGSIZE = 0 ∧ a < KERNBASE) ∧ UserQueue c1.cur.mq ∧ c.cur.mq.num ≤ c1.cur.mq.num)
    (fun {a as _ _ _ _ _ c1 c2} inv room page => by
      obtain ⟨pages, queue, more⟩ := inv
      obtain ⟨aligned, user⟩ := pages a (by simp)
      obtain ⟨queue1, more1, _⟩ := makeRoom_num queue user room
      rw [(growPage_same aligned user page).2.1]
      exact ⟨fun b mem => pages b (by simp [mem]), queue1, more.trans more1⟩) as fresh c ⟨pages, queue, Nat.le_refl _⟩ call
  · exact more
  · exact more

/-! ## Eviction -/

/-- What has become of the record `h` that was in front when the call began, with the page `v`: it is still in the
queue, or its page has been mapped again by this call (`done`), or it has lost its mapping `was`. -/
structure Turning (h v : Nat) (was : Nat → Bool) (done : List Nat) (q : MemQueue) (d : PgDir) : Prop where
  queue : ∃ l, q.Wf l ∧ (∀ va ∈ q.vaddrs l, va < KERNBASE) ∧
    (h ∈ l ∧ (q.entries h).vaddr = v ∨ v / PGSIZE ∈ done ∨ was (v / PGSIZE) = true ∧ (d.pte (v / PGSIZE)).p = false)
  present : ∀ x, (d.pte x).p = true → was x = true ∨ x ∈ done

/-- After an eviction the front record is another one, or the page `v` has gone. -/
structure Turned (h v a : Nat) (was : Nat → Bool) (done : List Nat) (q : MemQueue) (d : PgDir) : Prop where
  turning : Turning h v was done q d
  front : ∃ i, q.head = some i ∧ (q.entries i).vaddr = a ∧
    (i ≠ h ∨ v / PGSIZE ∈ done ∨ was (v / PGSIZE) = true ∧ (d.pte (v / PGSIZE)).p = false)

section Turning

variable {h v : Nat} {was : Nat → Bool} {done : List Nat}

/-- **One eviction.** -/
theorem Turning.evict (turning : Turning h v was done p.mq p.pgdir) (full : MEM_CAPACITY ≤ p.mq.num)
    (user : a < KERNBASE) (call : makeRoom a fresh p km = .ok (fresh', p', km')) :
    Turned h v a was done p'.mq p'.pgdir ∧ MEM_CAPACITY ≤ p'.mq.num := by
  rcases makeRoom_ok call with ⟨last, p1, _, write, _, rfl⟩ | ⟨mq, room, _⟩ | ⟨room, _⟩
  · obtain ⟨mq, j, t, km1, e, n, files, taken, _, found, present, _, _, _, rfl⟩ := fifoWrite_ok write
    obtain ⟨l, wf, users, place⟩ := turning.queue
    obtain ⟨m, rfl, _, wf', vaddrs⟩ := wf.recycle taken (user_not_usable user)
    obtain ⟨m', same, _, _, rep, vaddr, _, num, _⟩ := wf.take_last taken
    obtain ⟨rfl, _⟩ := append_inj' same rfl
    have nodup := wf.rep.distinct
    have notIn : last ∉ m := by
      intro mem
      exact (nodup_append.1 nodup).2.2 last mem last (mem_singleton_self _) rfl
    have fresh : mq.head ≠ some last := by
      intro isHead
      obtain ⟨x, xs, rfl⟩ := exists_cons_of_ne_nil ‹m ≠ []›
      have := rep.first
      rw [isHead] at this
      simp only [head?_cons, Option.some.injEq] at this
      exact notIn (by simp [this])
    obtain ⟨table, entry⟩ := walkpgdir_some.1 found
    -- the victim's page loses its mapping, the others keep theirs
    have out : ∀ x, ((p.pgdir.set (mq.entries last).vaddr Pte.out).pte x).p = true → (p.pgdir.pte x).p = true := by
      intro x isPresent
      rw [PgDir.set_pte] at isPresent
      split at isPresent
      · cases isPresent
      · exact isPresent
    have gone : v / PGSIZE ∈ done ∨ was (v / PGSIZE) = true ∧ (p.pgdir.pte (v / PGSIZE)).p = false →
        v / PGSIZE ∈ done ∨ was (v / PGSIZE) = true ∧
          ((p.pgdir.set (mq.entries last).vaddr Pte.out).pte (v / PGSIZE)).p = false := by
      rintro (mapped | ⟨before, absent⟩)
      · exact .inl mapped
      · refine .inr ⟨before, ?_⟩
        by_contra isPresent
        rw [out _ (by simpa using isPresent)] at absent
        cases absent
    have victim : last = h → (p.mq.entries h).vaddr = v → v / PGSIZE ∈ done ∨ was (v / PGSIZE) = true ∧
        ((p.pgdir.set (mq.entries last).vaddr Pte.out).pte (v / PGSIZE)).p = false := by
      rintro rfl page
      rw [vaddr, page] at entry ⊢
      rcases turning.present (v / PGSIZE) (by rw [entry, present]) with before | mapped
      · exact .inr ⟨before, by rw [PgDir.set_pte, if_pos rfl]; rfl⟩
      · exact .inl mapped
    refine ⟨⟨⟨⟨last :: m, wf', ?_, ?_⟩, ?_⟩, last, linkFront_head _ _ _, ?_, ?_⟩, ?_⟩
    · intro va mem
      rw [vaddrs] at mem
      rcases mem_cons.1 mem with rfl | old
      · exact user
      · refine users va ?_
        rw [MemQueue.vaddrs, map_append]
        exact mem_append_left _ old
    · rcases place with ⟨member, page⟩ | lost
      · by_cases isVictim : last = h
        · exact .inr (victim isVictim page)
        · refine .inl ⟨?_, ?_⟩
          · rcases mem_append.1 member with old | isLast
            · exact mem_cons_of_mem _ old
            · exact absurd (mem_singleton.1 isLast).symm isVictim
          · show ((mq.linkFront last a).entries h).vaddr = v
            rw [linkFront_vaddr fresh, if_neg (fun here => isVictim here.symm), vaddr, page]
      · exact .inr (gone lost)
    · intro x isPresent
      exact turning.present x (out x isPresent)
    · show ((mq.linkFront last a).entries last).vaddr = a
      rw [linkFront_vaddr fresh, if_pos rfl]
    · rcases place with ⟨_, page⟩ | lost
      · by_cases isVictim : last = h
        · exact .inr (victim isVictim page)
        · exact .inl isVictim
      · exact .inr (gone lost)
    · show MEM_CAPACITY ≤ (mq.linkFront last a).num
      rw [linkFront_num, num]
      exact full
  · omega
  · omega

/-- The page `a` is mapped. -/
theorem Turning.map {q : MemQueue} {d d1 : PgDir} {f : Nat} (turning : Turning h v was done q d) (ext : d.Ext d1) :
    Turning h v was (a / PGSIZE :: done) q (d1.set a (Pte.fresh f)) := by
  have entry : ∀ x, x ≠ a / PGSIZE → (d1.set a (Pte.fresh f)).pte x = d.pte x := by
    intro x other
    rw [PgDir.set_pte, if_neg other, ext.pte]
  obtain ⟨l, wf, users, place⟩ := turning.queue
  refine ⟨⟨l, wf, users, ?_⟩, fun x isPresent => ?_⟩
  · rcases place with stays | mapped | ⟨before, absent⟩
    · exact .inl stays
    · exact .inr (.inl (mem_cons_of_mem _ mapped))
    · by_cases here : v / PGSIZE = a / PGSIZE
      · exact .inr (.inl (by rw [here]; exact mem_cons_self))
      · exact .inr (.inr ⟨before, by rw [entry _ here]; exact absent⟩)
  · by_cases here : x = a / PGSIZE
    · exact .inr (by rw [here]; exact mem_cons_self)
    · rw [entry x here] at isPresent
      exact (turning.present x isPresent).imp id (mem_cons_of_mem _)

/-- A page that fails changes neither the queue nor the table of the process. -/
theorem growPage_failed_cur (aligned : a % PGSIZE = 0) (user : a < KERNBASE)
    (call : growPage .cur oldsz newsz a c = .ok (false, c')) :
    c'.cur.mq = c.cur.mq ∧ c'.cur.pgdir = c.cur.pgdir := by
  rcases growPage_failed aligned user call with ⟨r, _, dealloc⟩ | ⟨f, km1, r, c1, km2, _, _, dealloc, _, rfl⟩
  · obtain ⟨t, rfl, _⟩ := Ctx.dealloc_cur dealloc
    exact ⟨rfl, rfl⟩
  · obtain ⟨t, rfl, _⟩ := Ctx.dealloc_cur dealloc
    exact ⟨rfl, rfl⟩

/-- A failure at capacity: the front record differs, or the page of the front record has gone. -/
theorem Turning.fails (top : newsz ≤ KERNBASE) (pos : newsz ≠ 0) (as : List Nat) :
    ∀ (fresh : Bool) (c : Ctx) (done : List Nat), GrowPages oldsz newsz as → (as.map (· / PGSIZE)).Nodup →
      (∀ a ∈ as, a / PGSIZE ∉ done) → c.Growing .cur → MEM_CAPACITY ≤ c.cur.mq.num →
      Turning h v was done c.cur.mq c.cur.pgdir → allocLoop .cur oldsz newsz as fresh c = .ok (0, c') →
      ∃ i, c'.cur.mq.head = some i ∧
        (i ≠ h ∨ (c'.cur.mq.entries i).vaddr ≠ v ∨
          was (v / PGSIZE) = true ∧ (c'.cur.pgdir.pte (v / PGSIZE)).p = false) := by
  induction as with
  | nil =>
    intro fresh c done _ _ _ _ _ _ call
    cases call
    exact absurd rfl pos
  | cons a as ih =>
    intro fresh c done pages nodup apart growing full turning call
    obtain ⟨aligned, low, high⟩ := pages a (by simp)
    have user : a < KERNBASE := by omega
    obtain ⟨⟨fresh1, p, km⟩, room, rest⟩ := bind_ok.1 call
    obtain ⟨⟨ok, c1⟩, page, rest⟩ := bind_ok.1 rest
    obtain ⟨turned, full1⟩ := turning.evict full user room
    cases ok with
    | false =>
      cases rest
      obtain ⟨sameQueue, sameTable⟩ := growPage_failed_cur aligned user page
      obtain ⟨i, head, front, place⟩ := turned.front
      rw [sameQueue, sameTable]
      refine ⟨i, head, ?_⟩
      rcases place with other | mapped | lost
      · exact .inl other
      · refine .inr (.inl fun same => ?_)
        -- the page in front is the one that failed, which this call has not mapped
        rw [front] at same
        exact apart a (by simp) (same ▸ mapped)
      · exact .inr (.inr lost)
    | true =>
      obtain ⟨growing0, growing1, _⟩ := growing.body aligned low high top room page
      obtain ⟨f, km1, d, got, walk, _, eq⟩ := growPage_ok aligned user page
      have ext := (walkpgdirAlloc_ext growing0.wf walk).1
      have mq1 : c1.cur.mq = p.mq := by
        rw [eq]
        rfl
      have table1 : c1.cur.pgdir = d.set a (Pte.fresh f) := by
        rw [eq]
        rfl
      have turning1 : Turning h v was (a / PGSIZE :: done) c1.cur.mq c1.cur.pgdir := by
        rw [mq1, table1]
        exact turned.turning.map ext
      rw [map_cons, nodup_cons] at nodup
      refine ih fresh1 c1 (a / PGSIZE :: done) (fun b mem => pages b (by simp [mem])) nodup.2 (fun b mem => ?_) growing1
        (by rw [mq1]; exact full1) turning1 rest
      intro again
      rcases mem_cons.1 again with here | old
      · exact nodup.1 (here ▸ mem_map_of_mem mem)
      · exact apart b (by simp [mem]) old

end Turning

theorem pageRange_pages (hi : Nat) {lo : Nat} (aligned : lo % PGSIZE = 0) :
    ((pageRange lo hi).map (· / PGSIZE)).Nodup := by
  refine Nodup.map_on (fun a memA b memB same => ?_) (pageRange_nodup lo hi)
  have alignedA := (pageRange_aligned hi aligned a memA).1
  have alignedB := (pageRange_aligned hi aligned b memB).1
  simp only [PGSIZE] at *
  omega

/-- The queue has a victim. -/
theorem makeRoom_victim {l : List Nat} (wf : p.mq.Wf l) (full : MEM_CAPACITY ≤ p.mq.num)
    (call : makeRoom a fresh p km = .ok (fresh', p', km')) : l ≠ [] := by
  rcases makeRoom_ok call with ⟨last, p1, _, write, _, rfl⟩ | ⟨mq, room, _⟩ | ⟨room, _⟩
  · obtain ⟨mq, j, t, km1, e, n, files, taken, _⟩ := fifoWrite_ok write
    obtain ⟨m, rfl, _⟩ := wf.take_last taken
    exact append_ne_nil_of_right_ne_nil _ (cons_ne_nil _ _)
  · omega
  · omega

/-- **A growth that fails** on the process's own table, once it has begun, changes the queue or takes a
resident page out. -/
theorem allocLoop_trace (growing : c.Growing .cur) (top : newsz ≤ KERNBASE) (pos : newsz ≠ 0)
    (call : allocLoop .cur oldsz newsz (pageRange (PGROUNDUP oldsz) newsz) true c = .ok (0, c')) :
    c'.cur.mq ≠ c.cur.mq ∨ ∃ v < NUPAGES, (c.cur.pgdir.pte v).p = true ∧ (c'.cur.pgdir.pte v).p = false := by
  have aligned := PGROUNDUP_mod oldsz
  have pages : GrowPages oldsz newsz (pageRange (PGROUNDUP oldsz) newsz) := pageRange_aligned newsz aligned
  have nodup := pageRange_pages newsz aligned
  obtain ⟨l, wf, users⟩ := growing.good.queue
  generalize pageRange (PGROUNDUP oldsz) newsz = as at call pages nodup
  cases as with
  | nil =>
    cases call
    exact absurd rfl pos
  | cons a as =>
    obtain ⟨⟨fresh1, p, km⟩, room, rest⟩ := bind_ok.1 call
    by_cases full : MEM_CAPACITY ≤ c.cur.mq.num
    · obtain ⟨h, l, rfl⟩ := exists_cons_of_ne_nil (makeRoom_victim wf full room)
      have head := wf.rep.first
      simp only [head?_cons] at head
      have turning : Turning h (c.cur.mq.entries h).vaddr (fun x => (c.cur.pgdir.pte x).p) [] c.cur.mq c.cur.pgdir :=
        ⟨⟨h :: l, wf, users, .inl ⟨mem_cons_self, rfl⟩⟩, fun x isPresent => .inl isPresent⟩
      obtain ⟨i, head', differ⟩ := turning.fails top pos _ true c [] pages nodup (fun _ _ => not_mem_nil) growing full call
      by_contra same
      simp only [ne_eq, not_or, not_not] at same
      obtain ⟨queue, noLoss⟩ := same
      rw [queue] at head' differ
      rw [head] at head'
      cases head'
      rcases differ with other | page | lost
      · exact other rfl
      · exact page rfl
      · exact noLoss ⟨_, (user_page (users _ (mem_map_of_mem mem_cons_self))).2, lost⟩
    · -- the record for the first page has been counted
      obtain ⟨alignedA, _, high⟩ := pages a (by simp)
      have user : a < KERNBASE := by omega
      obtain ⟨queue1, _, more⟩ := makeRoom_num growing.good.queue user room
      obtain ⟨⟨ok, c1⟩, page, rest⟩ := bind_ok.1 rest
      have same := (growPage_same alignedA user page).2.1
      have counted : c.cur.mq.num < c1.cur.mq.num := by
        rw [same]
        exact more rfl (by omega)
      left
      intro restored
      cases ok with
      | false =>
        cases rest
        rw [restored] at counted
        exact Nat.lt_irrefl _ counted
      | true =>
        have later := allocLoop_num as fresh1 c1 (fun b mem => ?_) (by rw [same]; exact queue1) rest
        · rw [restored] at later
          omega
        · obtain ⟨alignedB, _, highB⟩ := pages b (by simp [mem])
          exact ⟨alignedB, by omega⟩

theorem allocLoop_failed (growing : c.Growing .cur) (top : newsz ≤ KERNBASE) (pos : newsz ≠ 0)
    (call : allocLoop .cur oldsz newsz (pageRange (PGROUNDUP oldsz) newsz) true c = .ok (0, c')) :
    c'.cur.mq ≠ c.cur.mq ∨ c'.cur.pgdir ≠ c.cur.pgdir := by
  obtain queue | ⟨v, _, before, after⟩ := allocLoop_trace growing top pos call
  · exact Or.inl queue
  · right
    intro same
    rw [same, before] at after
    cases after

end Xv6
