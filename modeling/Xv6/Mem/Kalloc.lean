import Xv6.Param
import Xv6.Lib.Fallible

/-!
# The page allocator (`kalloc.c`)

Physical pages are named by their number, `pa >> PGSHIFT`. `kmem.freelist` is kept as
the list of free page numbers, head first; the link that `kfree` stores in a free page
is part of the page's contents. `pcSh` is `kmem.pc_sh`, an array of `ushort`, and
`fpgn` a `uint`, so both wrap.
-/

namespace Xv6

/-- `kmem`, the contents of physical memory, and the physical addresses `V2P(end)` and
`V2P(data)` of the linker's symbols. -/
structure Kmem where
  kend : Nat
  kdata : Nat
  freelist : List Nat
  fpgn : Nat
  pcSh : Nat → Nat
  mem : Nat → Nat → UInt8

/-- The bytes of a page on the free list: `memset(v, 1, PGSIZE)` and the link. -/
def freePage (next : Option Nat) : Nat → UInt8 := fun o =>
  if o < 4 then
    match next with
    | none => 0
    | some g => UInt8.ofNat (P2V (g * PGSIZE) / 256 ^ o % 256)
  else 1

/-- `kfree`'s push of page `f`, once its count is 0. -/
def Kmem.push (km : Kmem) (f : Nat) : Kmem :=
  { km with
    mem := Function.update km.mem f (freePage km.freelist.head?)
    fpgn := add32 km.fpgn 1
    freelist := f :: km.freelist }

/-- `kfree`'s decrement of a positive count. -/
def Kmem.uncount (km : Kmem) (f : Nat) : Kmem :=
  if 0 < km.pcSh f then { km with pcSh := Function.update km.pcSh f (km.pcSh f - 1) } else km

/-- `kfree(v)`. -/
def kfree (v : Nat) (km : Kmem) : Res Kmem :=
  if v % PGSIZE ≠ 0 ∨ v < km.kend + KERNBASE ∨ PHYSTOP ≤ V2P v then
    .error (.panic "kfree")
  else
    let f := V2P v / PGSIZE
    let km1 := km.uncount f
    if km1.pcSh f = 0 then .ok (km1.push f) else .ok km1

/-- `kalloc()`: the number of the page, or `none` for a null pointer. -/
def kalloc (km : Kmem) : Option Nat × Kmem :=
  match km.freelist with
  | [] => (none, km)
  | f :: rest =>
    (some f, { km with
      fpgn := sub32 km.fpgn 1
      freelist := rest
      pcSh := Function.update km.pcSh f 1 })

/-- `pg_addr > PHYSTOP || pg_addr < V2P(end)`, the range check of the share counters. -/
def shareOutOfRange (km : Kmem) (pa : Nat) : Prop :=
  PHYSTOP < pa ∨ pa < km.kend

instance (km : Kmem) (pa : Nat) : Decidable (shareOutOfRange km pa) := by
  unfold shareOutOfRange; infer_instance

/-- `add_page_share(pg_addr)`. -/
def addPageShare (pa : Nat) (km : Kmem) : Res Kmem :=
  if shareOutOfRange km pa then .error (.panic "add_page_share")
  else .ok { km with
    pcSh := Function.update km.pcSh (pa / PGSIZE) ((km.pcSh (pa / PGSIZE) + 1) % 65536) }

/-- `red_page_share(pg_addr)`. -/
def redPageShare (pa : Nat) (km : Kmem) : Res Kmem :=
  if shareOutOfRange km pa then .error (.panic "red_page_share")
  else .ok { km with
    pcSh := Function.update km.pcSh (pa / PGSIZE) ((km.pcSh (pa / PGSIZE) + 65535) % 65536) }

/-- `get_page_share(pg_addr)`. -/
def getPageShare (pa : Nat) (km : Kmem) : Res Nat :=
  if shareOutOfRange km pa then .error (.panic "get page share!")
  else .ok (km.pcSh (pa / PGSIZE))

/-- The loop of `freerange` over the pages at the addresses `ps`. -/
def freerangeLoop : List Nat → Kmem → Res Kmem
  | [], km => .ok km
  | p :: ps, km => do
    let km ← kfree p km
    freerangeLoop ps { km with pcSh := Function.update km.pcSh (V2P p / PGSIZE) 0 }

/-- `freerange(vstart, vend)`: `p + PGSIZE <= vend` bounds the loop. -/
def freerange (vstart vend : Nat) (km : Kmem) : Res Kmem :=
  freerangeLoop (pageRange (PGROUNDUP vstart) (vend + 1 - PGSIZE)) km

/-- `kinit1(vstart, vend)`. -/
def kinit1 (vstart vend : Nat) (km : Kmem) : Res Kmem :=
  freerange vstart vend { km with fpgn := 0 }

/-- `kinit2(vstart, vend)`. -/
def kinit2 (vstart vend : Nat) (km : Kmem) : Res Kmem :=
  freerange vstart vend km

/-- `kmem` before `main`: the zeroed bss, with the linker's `end` and `data`, and
whatever the physical pages hold. -/
def Kmem.bss (kend kdata : Nat) (mem : Nat → Nat → UInt8) : Kmem where
  kend := kend
  kdata := kdata
  freelist := []
  fpgn := 0
  pcSh := fun _ => 0
  mem := mem

/-- The two initialisation calls of `main`, with the range they are made on. -/
def kinitMain (kend kdata : Nat) (mem : Nat → Nat → UInt8) : Res Kmem := do
  let km ← kinit1 (kend + KERNBASE) (P2V 0x400000) (Kmem.bss kend kdata mem)
  kinit2 (P2V 0x400000) (P2V PHYSTOP) km

end Xv6
