import Xv6.Mem.Kalloc

/-!
# The swap-slot table (`proc.c`)

The `virtual_page` chain of a process records which page each slot of its swap files
holds. Entry `i` of the chain's page number `pg` is named `pg * NUM_VIRTUAL_PAGE_ENTRIES
+ i`; the slot's bytes are at the offset `name * PGSIZE` of the swap files.
-/

namespace Xv6

/-- `virtual_page_head`: the page numbers of the chain and the pages in its entries. -/
structure SlotTable where
  pages : List Nat := []
  vaddr : Nat → Nat := fun _ => SLOT_USABLE

/-- Entries in the chain. -/
def SlotTable.slots (t : SlotTable) : Nat := t.pages.length * NUM_VIRTUAL_PAGE_ENTRIES

/-- The first entry that holds `va`, in the order of the nested loops over the chain. -/
def SlotTable.find (t : SlotTable) (va : Nat) : Option Nat :=
  (List.range t.slots).find? fun j => t.vaddr j = va

def SlotTable.set (t : SlotTable) (j va : Nat) : SlotTable :=
  { t with vaddr := Function.update t.vaddr j va }

/-- `vmem_clear(pr)`. -/
def vmemClear (t : SlotTable) : SlotTable :=
  { t with vaddr := fun j => if j < t.slots then SLOT_USABLE else t.vaddr j }

/-- `vmem_growpage(pr)`: a page of usable entries at the end of the chain, or `none` when
`virtual_page_alloc` gets no page. -/
def vmemGrowpage (t : SlotTable) (km : Kmem) : Option SlotTable × Kmem :=
  match kalloc km with
  | (none, km) => (none, km)
  | (some f, km) =>
    (some { pages := t.pages ++ [f]
            vaddr := fun j =>
              if t.slots ≤ j ∧ j < t.slots + NUM_VIRTUAL_PAGE_ENTRIES then SLOT_USABLE else t.vaddr j }, km)

/-- The last loop of `copy_mem`, which walks both chains. `num_virtual_page` is never
assigned, so the loop before it, which would lengthen the destination chain, does not run. -/
def copySlots (dst src : SlotTable) : Res SlotTable :=
  if dst.pages.length < src.pages.length then .error .nullDeref
  else .ok { dst with vaddr := fun j => if j < src.slots then src.vaddr j else dst.vaddr j }

end Xv6
