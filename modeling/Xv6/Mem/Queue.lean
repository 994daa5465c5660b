import Xv6.Param
import Xv6.Lib.Fallible

/-!
# The resident-page queue (`vm.c`, `proc.c`)

Each process keeps a record for every resident page, in a chain of `mem_page`s of
`NUM_MEM_PAGE_ENTRIES` records each. The record `entries[pos]` of the chain's page
number `page` is named `page * NUM_MEM_PAGE_ENTRIES + pos`, so that the nested loops
over the chain visit the names in increasing order. A pointer to a record is its name.
-/

namespace Xv6

/-- `struct mem_page_entry`, as `mem_page_clear` leaves it. -/
structure MemPageEntry where
  vaddr : Nat := SLOT_USABLE
  next : Option Nat := none
  prev : Option Nat := none
  deriving DecidableEq, Repr

/-- The fields of `struct proc` for the resident pages. `pages` are the page numbers of
the `mem_page` chain, empty for a null `mem_page_head`. -/
structure MemQueue where
  pages : List Nat := []
  entries : Nat → MemPageEntry := fun _ => {}
  head : Option Nat := none
  tail : Option Nat := none
  num : Nat := 0

/-- Records in the chain. -/
def MemQueue.slots (q : MemQueue) : Nat := q.pages.length * NUM_MEM_PAGE_ENTRIES

/-- Record `i` is given to the page `va` and linked in front of the queue. -/
def MemQueue.linkFront (q : MemQueue) (i va : Nat) : MemQueue :=
  let entries := Function.update q.entries i { q.entries i with vaddr := va, next := q.head }
  match q.head with
  | none => { q with entries := entries, head := some i, tail := some i }
  | some h =>
    { q with entries := Function.update entries h { entries h with prev := some i }, head := some i }

/-- `find_slot(va, curproc)`. -/
def findSlot (va : Nat) (q : MemQueue) : Res MemQueue :=
  match (List.range q.slots).find? fun i => (q.entries i).vaddr = SLOT_USABLE with
  | none => .error (.panic "[ERROR] No free slot in memory.")
  | some i => .ok (q.linkFront i va)

/-- `add_page(va)`. -/
def addPage (va : Nat) (q : MemQueue) : Res MemQueue := do
  let q ← findSlot va q
  pure { q with num := q.num + 1 }

/-- The start of `fifo_write` and `fifo_replace`: the last record is unlinked. They
differ in the texts `few` and `null` of their panics. -/
def takeLast (few null : String) (q : MemQueue) : Res (Nat × MemQueue) :=
  match q.head with
  | none => .error (.panic few)
  | some link =>
    if (q.entries link).next = none then .error (.panic few)
    else match q.tail with
      | none => .error (.panic null)
      | some last =>
        match (q.entries last).prev with
        | none => .error (.panic null)
        | some p =>
          let entries := Function.update q.entries p { q.entries p with next := none }
          .ok (last, { q with
            tail := some p
            entries := Function.update entries last { entries last with prev := none } })

/-- What one iteration of `allocuvm` does to the queue: `fifo_write`'s victim gives its
record to the new page when `MEM_CAPACITY` is reached, `add_page` takes a record otherwise. -/
def insertPage (va : Nat) (q : MemQueue) : Res MemQueue :=
  if MEM_CAPACITY ≤ q.num then do
    let (l, q) ← takeLast "Only 0 or 1 page in memory." "[Error] last null!" q
    pure (q.linkFront l va)
  else addPage va q

/-- What `fifo_replace` does to the queue. A queue with two records has a head left when
the last one is unlinked, so `mem_queue_head->prev` is a record. -/
def replacePage (va : Nat) (q : MemQueue) : Res MemQueue := do
  let (last, q) ← takeLast "[ERROR] Only 0 or 1 pages in memory." "[ERROR] last null!" q
  pure (q.linkFront last va)

/-- `mem_clear(pr)`. -/
def memClear (q : MemQueue) : MemQueue :=
  { q with
    entries := fun i => if i < q.slots then {} else q.entries i
    num := 0
    head := none
    tail := none }

/-- The body of `copy_mem`'s loop: record `j` is filled with the page `va` and linked
behind `old`. -/
def copyRecord (va j : Nat) (old : Option Nat) (entries : Nat → MemPageEntry) : Nat → MemPageEntry :=
  let linked := match old with
    | none => entries
    | some o => Function.update entries o { entries o with next := some j }
  Function.update linked j { linked j with prev := old, vaddr := va }

/-- The loop of `copy_mem` over the source queue. `j` is the record `curpg`/`curpos`
of the destination chain, which has `limit` records, and `old` is `olddstent`. -/
def copyQueueLoop (src : Nat → MemPageEntry) (limit : Nat) :
    Nat → Option Nat → Nat → Option Nat → (Nat → MemPageEntry) → Res (Option Nat × (Nat → MemPageEntry))
  | _, none, _, old, entries => .ok (old, entries)
  | 0, some _, _, _, _ => .error .diverges
  | fuel + 1, some s, j, old, entries =>
    if limit ≤ j then .error .nullDeref
    else
      copyQueueLoop src limit fuel (src s).next (j + 1) (some j) (copyRecord (src s).vaddr j old entries)

/-- The part of `copy_mem(dstproc, srcproc)` about resident pages. -/
def copyQueue (dst src : MemQueue) : Res MemQueue := do
  let dst := memClear dst
  let (tail, entries) ← copyQueueLoop src.entries dst.slots src.slots src.head 0 none dst.entries
  pure { dst with
    num := src.num
    head := if src.head.isSome then some 0 else none
    tail := tail
    entries := entries }

end Xv6
