import Xv6.Mem.QueueInv

/-!
# The resident queue as a list of pages

`q.Holds vs` says that the queue holds the pages `vs`, the one loaded last first. Each
operation on the records is an operation on that list.
-/

namespace Xv6
open Fallible

/-- The queue, in a chain of full length, holds the pages `vs`. -/
def MemQueue.Holds (q : MemQueue) (vs : List Nat) : Prop :=
  ∃ l, q.Wf l ∧ q.vaddrs l = vs ∧ q.num = l.length ∧ q.pages.length = NUM_MEM_PAGES

namespace MemQueue.Holds

variable {q q' : MemQueue} {vs : List Nat} {va : Nat} {few null : String}

theorem num (holds : q.Holds vs) : q.num = vs.length := by
  obtain ⟨l, _, rfl, count, _⟩ := holds
  rw [count, MemQueue.vaddrs, List.length_map]

theorem chain (holds : q.Holds vs) : q.pages.length = NUM_MEM_PAGES := by
  obtain ⟨_, _, _, _, chain⟩ := holds
  exact chain

theorem slots (holds : q.Holds vs) : q.slots = MEM_CAPACITY := by
  rw [MemQueue.slots, holds.chain]
  rfl

theorem fresh {pages : List Nat} (chain : pages.length = NUM_MEM_PAGES) :
    ({ pages := pages } : MemQueue).Holds [] :=
  ⟨[], MemQueue.wf_fresh pages, rfl, rfl, chain⟩

theorem clear (holds : q.Holds vs) : (memClear q).Holds [] :=
  ⟨[], memClear_wf q, rfl, rfl, holds.chain⟩

/-- `add_page` below the capacity. -/
theorem add (holds : q.Holds vs) (page : va ≠ SLOT_USABLE) (room : vs.length < MEM_CAPACITY) :
    ∃ q', addPage va q = .ok q' ∧ q'.Holds (va :: vs) := by
  have slots := holds.slots
  have num := holds.num
  obtain ⟨l, wf, rfl, count, chain⟩ := holds
  rw [MemQueue.vaddrs, List.length_map] at room
  obtain ⟨i, fresh, bound, found⟩ := wf.find_slot (by omega) va
  refine ⟨{ q.linkFront i va with num := (q.linkFront i va).num + 1 }, bind_ok.2 ⟨_, found, rfl⟩, i :: l, ?_, ?_, ?_, ?_⟩
  · have linked := wf.link_front fresh bound page
    exact ⟨linked.rep, linked.used, linked.unlinked⟩
  · exact linkFront_vaddrs (wf.notHead fresh) fresh
  · rw [linkFront_num, count, List.length_cons]
  · rw [linkFront_pages, chain]

end MemQueue.Holds

end Xv6
