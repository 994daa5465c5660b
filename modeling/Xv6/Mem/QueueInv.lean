import Xv6.Mem.Queue
import Xv6.Lib.LinkedQueue
import Xv6.Lib.Runs
import Mathlib.Data.List.Sublists

/-!
# Representation of the resident-page queue

`MemQueue.Wf q l` ties the records of `q` to the list `l` of record names from head to
tail. The operations on the queue are described by what they do to `l` and to the list
of page addresses `q.vaddrs l`; nothing below this module follows links by hand.
-/

namespace Xv6
open Fallible LinkedQueue Function List

/-- The queue is the list `l`, which holds exactly the used records of the chain. -/
structure MemQueue.Wf (q : MemQueue) (l : List Nat) : Prop where
  rep : Rep (fun i => (q.entries i).next) (fun i => (q.entries i).prev) q.head q.tail l
  used : ∀ i, i ∈ l ↔ i < q.slots ∧ (q.entries i).vaddr ≠ SLOT_USABLE
  unlinked : ∀ i, i < q.slots → i ∉ l → (q.entries i).prev = none

/-- The pages of the queue, most recently loaded first. -/
def MemQueue.vaddrs (q : MemQueue) (l : List Nat) : List Nat :=
  l.map fun i => (q.entries i).vaddr

/-- Some used record holds the page `va`. -/
def MemQueue.Resident (q : MemQueue) (va : Nat) : Prop :=
  ∃ i < q.slots, (q.entries i).vaddr = va

variable {q q' : MemQueue} {l : List Nat} {i va : Nat} {q1 : MemQueue}

theorem MemQueue.Wf.mem_vaddrs (wf : q.Wf l) (page : va ≠ SLOT_USABLE) :
    va ∈ q.vaddrs l ↔ q.Resident va := by
  simp only [MemQueue.vaddrs, mem_map, MemQueue.Resident]
  constructor
  · rintro ⟨i, mem, rfl⟩
    exact ⟨i, ((wf.used i).1 mem).1, rfl⟩
  · rintro ⟨i, bound, rfl⟩
    exact ⟨i, (wf.used i).2 ⟨bound, page⟩, rfl⟩

/-! ## Linking a record in front -/

/-- The queue has no more records than the chain. -/
theorem MemQueue.Wf.length_le (wf : q.Wf l) : l.length ≤ q.slots := by
  have sub : l ⊆ range q.slots := fun i mem => mem_range.2 ((wf.used i).1 mem).1
  simpa using (wf.rep.distinct.subperm sub).length_le

section LinkFront

variable (q i va)

@[simp] theorem linkFront_pages : (q.linkFront i va).pages = q.pages := by
  unfold MemQueue.linkFront
  cases q.head <;> rfl

@[simp] theorem linkFront_slots : (q.linkFront i va).slots = q.slots := by
  simp [MemQueue.slots]

@[simp] theorem linkFront_head : (q.linkFront i va).head = some i := by
  unfold MemQueue.linkFront
  cases q.head <;> rfl

@[simp] theorem linkFront_num : (q.linkFront i va).num = q.num := by
  unfold MemQueue.linkFront
  cases q.head <;> rfl

theorem linkFront_tail :
    (q.linkFront i va).tail = if q.head = none then some i else q.tail := by
  unfold MemQueue.linkFront
  cases q.head <;> simp

end LinkFront

/-- The records after `linkFront`: `i` is filled, the old head points back at it. -/
theorem linkFront_entries (fresh : q.head ≠ some i) (j : Nat) :
    (q.linkFront i va).entries j =
      if j = i then { q.entries i with vaddr := va, next := q.head }
      else if q.head = some j then { q.entries j with prev := some i }
      else q.entries j := by
  unfold MemQueue.linkFront
  cases head : q.head with
  | none =>
    by_cases same : j = i
    · subst same; simp
    · simp [same]
  | some h =>
    have ne : h ≠ i := fun same => fresh (by rw [head, same])
    by_cases same : j = i
    · subst same
      simp [update_of_ne (Ne.symm ne)]
    · by_cases front : h = j
      · subst front
        simp [ne]
      · simp [update_of_ne (Ne.symm front), same, front]

/-- Only record `i` changes its page. -/
theorem linkFront_vaddr (fresh : q.head ≠ some i) (j : Nat) :
    ((q.linkFront i va).entries j).vaddr = if j = i then va else (q.entries j).vaddr := by
  rw [linkFront_entries fresh]
  split
  · rfl
  · split <;> rfl

/-- Linking a record that is not in the queue, whatever page it held before. -/
theorem linkFront_rep
    (rep : Rep (fun i => (q.entries i).next) (fun i => (q.entries i).prev) q.head q.tail l)
    (fresh : i ∉ l) (unlinked : (q.entries i).prev = none) :
    Rep (fun j => ((q.linkFront i va).entries j).next) (fun j => ((q.linkFront i va).entries j).prev)
      (q.linkFront i va).head (q.linkFront i va).tail (i :: l) := by
  have notHead : q.head ≠ some i := by
    intro head
    rw [rep.first] at head
    exact fresh (mem_of_head? head)
  rw [linkFront_head]
  refine rep.push fresh ?_ ?_ ?_ ?_ (linkFront_tail q i va)
  · simp [linkFront_entries notHead]
  · simpa [linkFront_entries notHead] using unlinked
  · intro j mem
    have ne : j ≠ i := fun same => fresh (same ▸ mem)
    simp only [linkFront_entries notHead, ne, ↓reduceIte]
    split <;> rfl
  · intro j mem
    have ne : j ≠ i := fun same => fresh (same ▸ mem)
    simp only [linkFront_entries notHead, ne, ↓reduceIte]
    split <;> rfl

/-- `vaddrs` after linking a new record. -/
theorem linkFront_vaddrs (notHead : q.head ≠ some i) (fresh : i ∉ l) :
    (q.linkFront i va).vaddrs (i :: l) = va :: q.vaddrs l := by
  simp only [MemQueue.vaddrs, map_cons, linkFront_vaddr notHead, ↓reduceIte, cons.injEq, true_and]
  refine map_congr_left fun j mem => ?_
  have ne : j ≠ i := fun same => fresh (same ▸ mem)
  simp [ne]

theorem MemQueue.Wf.notHead (wf : q.Wf l) (fresh : i ∉ l) : q.head ≠ some i := by
  intro head
  rw [wf.rep.first] at head
  exact fresh (mem_of_head? head)

/-- A usable record of the chain is given to the page `va`. -/
theorem MemQueue.Wf.link_front (wf : q.Wf l) (fresh : i ∉ l) (bound : i < q.slots) (page : va ≠ SLOT_USABLE) :
    (q.linkFront i va).Wf (i :: l) := by
  have notHead := wf.notHead fresh
  refine ⟨linkFront_rep wf.rep fresh (wf.unlinked i bound fresh), fun j => ?_, fun j below out => ?_⟩
  · rw [linkFront_slots, linkFront_vaddr notHead, mem_cons]
    by_cases same : j = i
    · subst same
      simp [bound, page]
    · simp [same, wf.used j]
  · simp only [mem_cons, not_or] at out
    rw [linkFront_slots] at below
    have notFront : q.head ≠ some j := wf.notHead out.2
    rw [linkFront_entries notHead, if_neg out.1, if_neg notFront]
    exact wf.unlinked j below out.2

/-! ## Finding a record -/

theorem findSlot_ok (h : findSlot va q = .ok q') :
    ∃ i, i < q.slots ∧ (q.entries i).vaddr = SLOT_USABLE ∧ q' = q.linkFront i va := by
  unfold findSlot at h
  split at h
  · cases h
  · rename_i i found
    cases h
    have bound := mem_of_find?_eq_some found
    have usable := find?_some found
    exact ⟨i, mem_range.1 bound, by simpa using usable, rfl⟩

/-- A chain with fewer used records than records has a usable one. -/
theorem MemQueue.Wf.find_slot (wf : q.Wf l) (room : l.length < q.slots) (va : Nat) :
    ∃ i, i ∉ l ∧ i < q.slots ∧ findSlot va q = .ok (q.linkFront i va) := by
  unfold findSlot
  cases found : (range q.slots).find? fun i => (q.entries i).vaddr = SLOT_USABLE with
  | some i =>
    have bound := mem_range.1 (mem_of_find?_eq_some found)
    have usable := find?_some found
    refine ⟨i, fun mem => ?_, bound, rfl⟩
    exact ((wf.used i).1 mem).2 (by simpa using usable)
  | none =>
    rw [find?_eq_none] at found
    have all : range q.slots ⊆ l := fun i mem =>
      (wf.used i).2 ⟨mem_range.1 mem, by simpa using found i mem⟩
    have := (nodup_range.subperm all).length_le
    rw [length_range] at this
    omega

/-! ## Recycling the last record -/

variable {few null : String}

/-- What unlinking the last record does. -/
theorem takeLast_ok (h : takeLast few null q = .ok (i, q1)) :
    ∃ p, q.tail = some i ∧ (q.entries i).prev = some p ∧ q1.tail = some p ∧ q1.head = q.head ∧
      q1.num = q.num ∧ q1.pages = q.pages ∧
      ∀ j, q1.entries j = { q.entries j with
        next := if j = p then none else (q.entries j).next
        prev := if j = i then none else (q.entries j).prev } := by
  unfold takeLast at h
  split at h
  · cases h
  · split at h
    · cases h
    · split at h
      · cases h
      · split at h
        · cases h
        · rename_i last tail _ p before
          cases h
          refine ⟨p, tail, before, rfl, rfl, rfl, rfl, fun j => ?_⟩
          by_cases isLast : j = i <;> by_cases isPrev : j = p
          · subst isLast isPrev; simp
          · subst isLast; simp [isPrev]
          · subst isPrev; simp [isLast]
          · simp [isLast, isPrev]

/-- The queue loses its last record, which keeps its page for the moment. -/
theorem MemQueue.Wf.take_last (wf : q.Wf l) (h : takeLast few null q = .ok (i, q1)) :
    ∃ m, l = m ++ [i] ∧ m ≠ [] ∧ (q1.entries i).prev = none ∧
      Rep (fun j => (q1.entries j).next) (fun j => (q1.entries j).prev) q1.head q1.tail m ∧
      (∀ j, (q1.entries j).vaddr = (q.entries j).vaddr) ∧ q1.pages = q.pages ∧ q1.num = q.num ∧
      ∀ j, j ≠ i → (q1.entries j).prev = (q.entries j).prev := by
  obtain ⟨p, tail, before, tail1, head1, num1, pages1, entries1⟩ := takeLast_ok h
  have rep := wf.rep
  rw [tail] at rep
  obtain ⟨m, rfl, more, last⟩ := rep.split_last before
  have notLast : ∀ j ∈ m, j ≠ i := by
    rintro j mem rfl
    exact (nodup_append.1 rep.distinct).2.2 j mem j (by simp) rfl
  refine ⟨m, rfl, more, by simp [entries1], ?_, fun j => by simp [entries1], pages1, num1,
    fun j ne => by simp [entries1, ne]⟩
  rw [head1, tail1, ← before]
  refine rep.pop more ?_ ?_
  · intro j mem
    simp only [entries1, before, Option.some.injEq, eq_comm (a := p)]
  · intro j mem
    simp [entries1, notLast j mem]

/-- With two records or more the last one can be unlinked. -/
theorem MemQueue.Wf.take_last_exists (wf : q.Wf l) (two : 2 ≤ l.length) (few null : String) :
    ∃ i q1, takeLast few null q = .ok (i, q1) := by
  have rep := wf.rep
  match l, two with
  | x :: y :: zs, _ =>
    have head : q.head = some x := rep.first
    have next : (q.entries x).next = some y := rep.forward.1
    obtain ⟨m, last, split⟩ : ∃ m last, x :: y :: zs = m ++ [last] :=
      ⟨_, _, (dropLast_append_getLast (by simp : x :: y :: zs ≠ [])).symm⟩
    have tail : q.tail = some last := by rw [rep.last, split]; simp
    have before : (q.entries last).prev = m.getLast? := by
      have := (split ▸ rep.backward).last
      simpa using this
    have more : m ≠ [] := by rintro rfl; simp at split
    obtain ⟨p, isPrev⟩ := Option.ne_none_iff_exists'.1 (fun none => more (getLast?_eq_none_iff.1 none))
    unfold takeLast
    simp [head, next, tail, before, isPrev]

/-- The record of the longest resident page is given to `va`. -/
theorem MemQueue.Wf.recycle (wf : q.Wf l) (h : takeLast few null q = .ok (i, q1)) (page : va ≠ SLOT_USABLE) :
    ∃ m, l = m ++ [i] ∧ m ≠ [] ∧ (q1.linkFront i va).Wf (i :: m) ∧
      (q1.linkFront i va).vaddrs (i :: m) = va :: q.vaddrs m := by
  obtain ⟨m, rfl, more, prev, rep, vaddr, pages, _, prevs⟩ := wf.take_last h
  have fresh : i ∉ m := fun mem => (nodup_append.1 wf.rep.distinct).2.2 i mem i (by simp) rfl
  have slots : q1.slots = q.slots := by simp [MemQueue.slots, pages]
  have notHead : q1.head ≠ some i := by
    intro head
    rw [rep.first] at head
    exact fresh (mem_of_head? head)
  have inChain := (wf.used i).1 (by simp)
  refine ⟨m, rfl, more, ⟨linkFront_rep rep fresh prev, fun j => ?_, fun j below out => ?_⟩, ?_⟩
  · rw [linkFront_slots, slots, linkFront_vaddr notHead, mem_cons, vaddr]
    by_cases same : j = i
    · subst same
      simp [inChain.1, page]
    · rw [if_neg same, ← wf.used j]
      simp [same]
  · simp only [mem_cons, not_or] at out
    rw [linkFront_slots, slots] at below
    have notFront : q1.head ≠ some j := by
      intro head
      rw [rep.first] at head
      exact out.2 (mem_of_head? head)
    rw [linkFront_entries notHead, if_neg out.1, if_neg notFront, prevs j out.1]
    exact wf.unlinked j below (by simp [out.1, out.2])
  · rw [linkFront_vaddrs notHead fresh]
    simp [MemQueue.vaddrs, vaddr]

/-! ## Clearing and copying -/

@[simp] theorem memClear_slots (q : MemQueue) : (memClear q).slots = q.slots := rfl

theorem memClear_wf (q : MemQueue) : (memClear q).Wf [] := by
  refine ⟨Rep.empty _ _, fun i => ?_, fun i below _ => ?_⟩
  · simp only [not_mem_nil, memClear_slots, false_iff, not_and, not_not]
    intro below
    simp [memClear, below]
  · rw [memClear_slots] at below
    simp [memClear, below]

/-- The chain that `mem_alloc` returns. -/
theorem MemQueue.wf_fresh (pages : List Nat) : ({ pages := pages } : MemQueue).Wf [] :=
  ⟨Rep.empty _ _, by simp, by simp⟩

theorem copyRecord_eq {j : Nat} {old : Option Nat} (ne : old ≠ some j) (entries : Nat → MemPageEntry) (t : Nat) :
    copyRecord va j old entries t =
      if t = j then { entries j with prev := old, vaddr := va }
      else if old = some t then { entries t with next := some j }
      else entries t := by
  unfold copyRecord
  cases old with
  | none =>
    by_cases same : t = j
    · subst same; simp
    · simp [same]
  | some o =>
    have ne' : j ≠ o := fun same => ne (by rw [same])
    by_cases same : t = j
    · subst same; simp [update_of_ne ne']
    · by_cases prev : t = o
      · subst prev; simp [same]
      · simp [same, prev, Ne.symm prev]

/-- The records that the copy loop leaves, when `k` records are filled, `old` is the
last of them and the source records `rest` remain. -/
structure CopiedFrom (src : Nat → MemPageEntry) (rest : List Nat) (k : Nat) (old : Option Nat)
    (before after : Nat → MemPageEntry) : Prop where
  done : ∀ t, t < k → after t =
    if old = some t ∧ rest ≠ [] then { before t with next := some k } else before t
  filled : ∀ m s, rest[m]? = some s → after (k + m) =
    { vaddr := (src s).vaddr
      next := if m + 1 < rest.length then some (k + m + 1) else (before (k + m)).next
      prev := if m = 0 then old else some (k + m - 1) }
  others : ∀ t, k + rest.length ≤ t → after t = before t

/-- The loop of `copy_mem` fills one record for each record of the source queue, in
order. The induction is on the source records that remain. -/
theorem copyQueueLoop_ok (src : Nat → MemPageEntry) (limit : Nat) (rest : List Nat)
    (forward : Forward (fun i => (src i).next) rest) :
    ∀ (fuel k : Nat) (old : Option Nat) (before : Nat → MemPageEntry),
      rest.length ≤ fuel → k + rest.length ≤ limit → (∀ o, old = some o → o < k) →
      ∃ after, copyQueueLoop src limit fuel rest.head? k old before =
          .ok (if rest = [] then old else some (k + rest.length - 1), after) ∧
        CopiedFrom src rest k old before after := by
  induction rest with
  | nil =>
    intro fuel k old before _ _ _
    refine ⟨before, by unfold copyQueueLoop; cases fuel <;> rfl, ?_, ?_, ?_⟩
    · simp
    · simp
    · simp
  | cons s rest ih =>
    intro fuel k old before enough room earlier
    obtain ⟨fuel, rfl⟩ : ∃ n, fuel = n + 1 := ⟨fuel - 1, by simp at enough; omega⟩
    simp only [length_cons] at enough room
    have notOld : old ≠ some k := fun same => absurd (earlier k same) (by omega)
    obtain ⟨after, run, done, fill, others⟩ :=
      ih forward.2 fuel (k + 1) (some k) (copyRecord (src s).vaddr k old before) (by omega) (by omega) (by simp)
    refine ⟨after, ?_, fun t below => ?_, fun m r found => ?_, fun t above => ?_⟩
    · rw [head?_cons, copyQueueLoop.eq_3, if_neg (by omega : ¬ limit ≤ k),
        show (src s).next = rest.head? from forward.1, run]
      cases rest with
      | nil => simp
      | cons r rs => simp; omega
    · have ne : t ≠ k := by omega
      rw [done t (by omega), if_neg (by simp [Ne.symm ne]), copyRecord_eq notOld]
      simp [ne]
    · cases m with
      | zero =>
        simp only [getElem?_cons_zero, Option.some.injEq] at found
        subst found
        rw [Nat.add_zero, done k (by omega), copyRecord_eq notOld]
        cases rest with
        | nil => simp
        | cons r rs => simp
      | succ m =>
        rw [getElem?_cons_succ] at found
        have here := fill m r found
        have notOld' : old ≠ some (k + (m + 1)) := fun same => absurd (earlier _ same) (by omega)
        have base : copyRecord (src s).vaddr k old before (k + (m + 1)) = before (k + (m + 1)) := by
          rw [copyRecord_eq notOld, if_neg (by omega), if_neg notOld']
        rw [show k + 1 + m = k + (m + 1) by omega, base] at here
        have prev : (if m = 0 then some k else some (k + (m + 1) - 1)) = some (k + (m + 1) - 1) := by
          split
          · congr 1; omega
          · rfl
        rw [here, prev, if_neg (Nat.succ_ne_zero m)]
        simp only [length_cons, Nat.add_lt_add_iff_right]
    · simp only [length_cons] at above
      have notOld' : old ≠ some t := fun same => absurd (earlier t same) (by omega)
      rw [others t (by omega), copyRecord_eq notOld, if_neg (by omega), if_neg notOld']

/-- Records `0 .. n - 1` linked in order are a queue. -/
theorem rep_range {next prev : Nat → Option Nat} {n : Nat}
    (nexts : ∀ t < n, next t = if t + 1 < n then some (t + 1) else none)
    (prevs : ∀ t < n, prev t = if t = 0 then none else some (t - 1)) :
    Rep next prev (if n = 0 then none else some 0) (if n = 0 then none else some (n - 1)) (range n) := by
  have chain : ∀ k m, k + m = n →
      Forward next (range' k m) ∧ Backward prev (if k = 0 then none else some (k - 1)) (range' k m) := by
    intro k m
    induction m generalizing k with
    | zero => intro _; exact ⟨trivial, trivial⟩
    | succ m ih =>
      intro sum
      obtain ⟨forward, backward⟩ := ih (k + 1) (by omega)
      rw [range'_succ]
      refine ⟨⟨?_, forward⟩, ⟨prevs k (by omega), by simpa using backward⟩⟩
      rw [nexts k (by omega)]
      cases m with
      | zero => simp at sum; simp [sum]
      | succ m => rw [range'_succ, if_pos (by omega)]; rfl
  have both := chain 0 n (by omega)
  rw [← range_eq_range'] at both
  refine ⟨nodup_range, ?_, ?_, both.1, by simpa using both.2⟩
  · cases n with
    | zero => rfl
    | succ n => simp [range_succ_eq_map]
  · cases n with
    | zero => rfl
    | succ n => simp [range_succ]

/-- The loop of `copy_mem` ends only when the chain has a record for each page. -/
theorem copyQueueLoop_room {src : Nat → MemPageEntry} {limit : Nat} {r : Option Nat × (Nat → MemPageEntry)}
    (rest : List Nat) (forward : Forward (fun i => (src i).next) rest) :
    ∀ (fuel k : Nat) (old : Option Nat) (before : Nat → MemPageEntry), k ≤ limit →
      copyQueueLoop src limit fuel rest.head? k old before = .ok r → k + rest.length ≤ limit := by
  induction rest with
  | nil =>
    intro fuel k old before start _
    exact start
  | cons s rest ih =>
    intro fuel k old before start call
    cases fuel with
    | zero => cases call
    | succ fuel =>
      simp only [head?_cons, copyQueueLoop] at call
      split at call
      · cases call
      · have next : (src s).next = rest.head? := forward.1
        rw [next] at call
        have := ih forward.2 fuel (k + 1) _ _ (by omega) call
        rw [length_cons]
        omega

theorem MemQueue.Wf.copy_room {src dst q' : MemQueue} (wf : src.Wf l) (call : copyQueue dst src = .ok q') :
    l.length ≤ dst.slots := by
  obtain ⟨r, loop, _⟩ := bind_ok.1 call
  rw [wf.rep.first] at loop
  simpa using copyQueueLoop_room l wf.rep.forward _ 0 none _ (Nat.zero_le _) loop

/-- **`copy_mem`** gives the child the parent's queue, in the first records of its chain. -/
theorem MemQueue.Wf.copy_queue {src : MemQueue} (wf : src.Wf l) (dst : MemQueue) (room : l.length ≤ dst.slots) :
    ∃ q', copyQueue dst src = .ok q' ∧ q'.Wf (range l.length) ∧
      q'.vaddrs (range l.length) = src.vaddrs l ∧ q'.num = src.num ∧ q'.pages = dst.pages := by
  have short := wf.length_le
  obtain ⟨after, run, _, filled, others⟩ := copyQueueLoop_ok src.entries dst.slots l wf.rep.forward
    src.slots 0 none (memClear dst).entries short (by omega) (by simp)
  have clear : ∀ t, t < dst.slots → (memClear dst).entries t = {} := fun t below => by
    simp [memClear, below]
  have entry : ∀ t, t < l.length → ∃ s, l[t]? = some s ∧ after t =
      { vaddr := (src.entries s).vaddr
        next := if t + 1 < l.length then some (t + 1) else none
        prev := if t = 0 then none else some (t - 1) } := by
    intro t below
    refine ⟨l[t], getElem?_eq_getElem below, ?_⟩
    have := filled t l[t] (getElem?_eq_getElem below)
    rw [Nat.zero_add, clear t (by omega)] at this
    exact this
  have rest : ∀ t, l.length ≤ t → t < dst.slots → after t = {} := fun t above below => by
    rw [others t (by omega), clear t below]
  have head : (if src.head.isSome then some 0 else none) = if l.length = 0 then none else some 0 := by
    rw [wf.rep.first]
    cases l <;> simp
  refine ⟨{ pages := dst.pages, entries := after, num := src.num
            head := if src.head.isSome then some 0 else none
            tail := if l = [] then none else some (0 + l.length - 1) }, ?_,
    ⟨?_, fun t => ?_, fun t below out => ?_⟩, ?_, rfl, rfl⟩
  · have start := run
    rw [← wf.rep.first] at start
    simp only [copyQueue, memClear_slots, start, ok_bind]
    rfl
  · dsimp only
    rw [head]
    have tail : (if l = [] then none else some (0 + l.length - 1)) =
        if l.length = 0 then none else some (l.length - 1) := by
      cases l <;> simp
    rw [tail]
    refine rep_range (fun t below => ?_) (fun t below => ?_)
    · obtain ⟨s, _, eq⟩ := entry t below
      rw [eq]
    · obtain ⟨s, _, eq⟩ := entry t below
      rw [eq]
  · show t ∈ range l.length ↔ t < dst.slots ∧ (after t).vaddr ≠ SLOT_USABLE
    rw [mem_range]
    constructor
    · intro below
      obtain ⟨s, found, eq⟩ := entry t below
      refine ⟨by omega, ?_⟩
      rw [eq]
      exact ((wf.used s).1 (mem_of_getElem? found)).2
    · rintro ⟨inChain, used⟩
      by_contra above
      rw [rest t (by omega) inChain] at used
      exact used rfl
  · rw [mem_range] at out
    show (after t).prev = none
    rw [rest t (by omega) below]
  · refine ext_getElem (by simp [MemQueue.vaddrs]) fun t below _ => ?_
    simp only [MemQueue.vaddrs, length_map, length_range] at below
    obtain ⟨s, found, eq⟩ := entry t below
    have here : l[t] = s := by
      rw [getElem?_eq_getElem below] at found
      exact Option.some.inj found
    simp [MemQueue.vaddrs, eq, here]

end Xv6
