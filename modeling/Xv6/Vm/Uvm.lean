import Xv6.Proc.Proc

/-!
# User address spaces (`vm.c`)

Building, growing, shrinking, copying and freeing page tables. A `pde_t *` result is an
`Option`; the sizes that `allocuvm` and `deallocuvm` return are numbers, 0 for an error.
-/

namespace Xv6

/-! ## Freeing -/

/-- The loop of `deallocuvm` from address `a`. `own` is `curproc->pgdir == pgdir`: only
then are the resident queue and the slot table of `curproc` consulted. The check for the
record of a present page panics on every path. A paged-out page ends the loop, and its
entry stays. A missing table is jumped over. -/
def deallocLoop (own : Bool) (oldsz : Nat) :
    Nat → Nat → PgDir → SlotTable → Kmem → Res (PgDir × SlotTable × Kmem)
  | 0, _, d, t, km => .ok (d, t, km)
  | fuel + 1, a, d, t, km =>
    if oldsz ≤ a then .ok (d, t, km)
    else match walkpgdir a d with
      | none => deallocLoop own oldsz fuel ((PDX a + 1) * 0x400000) d t km
      | some e =>
        if e.p then
          if e.addr = 0 then .error (.panic "kfree")
          else if own then .error (.panic "Should have a slot.")
          else do
            let km ← kfree (P2V (e.addr * PGSIZE)) km
            deallocLoop own oldsz fuel (a + PGSIZE) (d.set a {}) t km
        else if e.pg && own then
          match t.find a with
          | some j => .ok (d, t.set j SLOT_USABLE, km)
          | none => .error (.panic "[ERROR] deallocuvm (entry not found (replace)).")
        else deallocLoop own oldsz fuel (a + PGSIZE) d t km

/-- `deallocuvm(pgdir, oldsz, newsz)`, with the size it returns. -/
def deallocuvm (own : Bool) (oldsz newsz : Nat) (d : PgDir) (t : SlotTable) (km : Kmem) :
    Res (Nat × PgDir × SlotTable × Kmem) :=
  if oldsz ≤ newsz then .ok (oldsz, d, t, km)
  else do
    let r ← deallocLoop own oldsz ((oldsz - PGROUNDUP newsz) / PGSIZE + 1) (PGROUNDUP newsz) d t km
    pure (newsz, r)

/-- The loop of `freevm` over the page tables. -/
def freeTables (d : PgDir) : List Nat → Kmem → Res Kmem
  | [], km => .ok km
  | i :: is, km =>
    match d.pde i with
    | none => freeTables d is km
    | some f => do
      let km ← kfree (P2V (f * PGSIZE)) km
      freeTables d is km

/-- `freevm(pgdir)` on a table that is not the current process's. -/
def freevm (d : PgDir) (km : Kmem) : Res Kmem := do
  let (_, d, _, km) ← deallocuvm false KERNBASE 0 d {} km
  let km ← freeTables d (List.range NPDENTRIES) km
  kfree (P2V (d.frame * PGSIZE)) km

/-! ## Building -/

/-- A row of the table `kmap`. -/
structure Kmap where
  virt : Nat
  physStart : Nat
  physEnd : Nat
  perm : Pte

/-- The kernel's mappings; `kdata` is `V2P(data)`. -/
def kmap (kdata : Nat) : List Kmap :=
  [⟨KERNBASE, 0, EXTMEM, { w := true }⟩,
   ⟨KERNLINK, V2P KERNLINK, kdata, {}⟩,
   ⟨P2V kdata, kdata, PHYSTOP, { w := true }⟩,
   ⟨DEVSPACE, DEVSPACE, 0, { w := true }⟩]

/-- The loop of `setupkvm`: false when `mappages` fails. -/
def kmapLoop : List Kmap → PgDir → Kmem → Res (Bool × PgDir × Kmem)
  | [], d, km => .ok (true, d, km)
  | k :: ks, d, km => do
    let (ok, d, km) ← mappages k.virt (sub32 k.physEnd k.physStart) k.physStart k.perm d km
    if ok then kmapLoop ks d km else pure (false, d, km)

/-- `setupkvm()`. -/
def setupkvm (km : Kmem) : Res (Option PgDir × Kmem) :=
  match kalloc km with
  | (none, km) => .ok (none, km)
  | (some f, km) =>
    if DEVSPACE < P2V PHYSTOP then .error (.panic "PHYSTOP too high")
    else do
      let (ok, d, km) ← kmapLoop (kmap km.kdata) { frame := f } km
      if ok then pure (some d, km)
      else do
        let km ← freevm d km
        pure (none, km)

/-- `inituvm(pgdir, init, sz)`. The result of `mappages` is not looked at. -/
def inituvm (init : Bytes) (sz : Nat) (d : PgDir) (km : Kmem) : Res (PgDir × Kmem) :=
  if PGSIZE ≤ sz then .error (.panic "inituvm: more than a page")
  else match kalloc km with
    | (none, _) => .error .noMemory
    | (some f, km) => do
      let (_, d, km) ← mappages 0 PGSIZE (f * PGSIZE) Pte.user d (km.zero f)
      pure (d, km.copyPage f fun o => if o < sz then init o else km.mem f o)

/-! ## Eviction -/

/-- The slot `fifo_write` takes: the first usable entry of the chain, or the first of a
page it adds. When there is no memory for that page, `virtual_page_tail` is null. -/
def takeSlot (t : SlotTable) (km : Kmem) : Res (Nat × SlotTable × Kmem) :=
  match t.find SLOT_USABLE with
  | some j => .ok (j, t, km)
  | none =>
    match vmemGrowpage t km with
    | (none, _) => .error .noMemory
    | (some t', km) =>
      match (List.range NUM_VIRTUAL_PAGE_ENTRIES).find? fun i => t'.vaddr (t.slots + i) = SLOT_USABLE with
      | some i => .ok (t.slots + i, t', km)
      | none => .error (.panic "[ERROR] SLOT OUT.")

/-- `fifo_write()`: the record of the page that was written to its slot, or `none` for a
null pointer. Only the result 0 of `vpwrite` counts as an error. -/
def fifoWrite (p : Proc) (km : Kmem) : Res (Option Nat × Proc × Kmem) := do
  let (last, mq) ← takeLast "Only 0 or 1 page in memory." "[Error] last null!" p.mq
  let va := (mq.entries last).vaddr
  let (j, t, km) ← takeSlot p.vtab km
  let bytes ← userPage va p.pgdir km
  let (r, files) ← vpwrite p.vpfile bytes (j * PGSIZE) PGSIZE
  let p := { p with mq := mq, vtab := t.set j va, vpfile := files }
  if r = 0 then pure (none, p, km)
  else match walkpgdir va p.pgdir with
    | none => .error .nullDeref
    | some e =>
      if e = {} then .error (.panic "[ERROR] [fifo_write] PTE empty.")
      else do
        let km ← kfree (P2V (e.addr * PGSIZE)) km
        pure (some last, { p with pgdir := p.pgdir.set va Pte.out }, km)

/-- The start of `allocuvm`'s loop body: at `MEM_CAPACITY` a victim's record is given to
the page `a`. `fresh` is `newpage_allocated`. -/
def writePage (a : Nat) (fresh : Bool) (p : Proc) (km : Kmem) : Res (Bool × Proc × Kmem) :=
  if MEM_CAPACITY ≤ p.mq.num then do
    let (l, p, km) ← fifoWrite p km
    match l with
    | none => .error (.panic "[ERROR] Cannot write to vpfile.")
    | some l => pure (false, { p with mq := p.mq.linkFront l a }, km)
  else .ok (fresh, p, km)

/-- The first half of `allocuvm`'s loop body: the queue gets a record for the page `a`. -/
def makeRoom (a : Nat) (fresh : Bool) (p : Proc) (km : Kmem) : Res (Bool × Proc × Kmem) := do
  let (fresh, p, km) ← writePage a fresh p km
  if fresh then do
    let mq ← addPage a p.mq
    pure (fresh, { p with mq := mq }, km)
  else pure (fresh, p, km)

/-! ## Growing -/

/-- `deallocuvm` on a table of the context. -/
def Ctx.dealloc (c : Ctx) (tgt : Target) (oldsz newsz : Nat) : Res (Nat × Ctx) := do
  let (sz, d, t, km) ← deallocuvm (tgt = .cur) oldsz newsz (c.table tgt) c.cur.vtab c.km
  pure (sz, { (c.setTable d tgt) with km := km, cur := { (c.setTable d tgt).cur with vtab := t } })

/-- The second half of `allocuvm`'s loop body: a zeroed page is mapped at `a`. The result
is false after `deallocuvm` has undone the growth. -/
def growPage (tgt : Target) (oldsz newsz a : Nat) (c : Ctx) : Res (Bool × Ctx) :=
  match kalloc c.km with
  | (none, km) => do
    let (_, c) ← { c with km := km }.dealloc tgt newsz oldsz
    pure (false, c)
  | (some f, km) => do
    let (ok, d, km) ← mappages a PGSIZE (f * PGSIZE) Pte.user (c.table tgt) (km.zero f)
    let c := { c.setTable d tgt with km := km }
    if ok then pure (true, c)
    else do
      let (_, c) ← c.dealloc tgt newsz oldsz
      let km ← kfree (P2V (f * PGSIZE)) c.km
      pure (false, { c with km := km })

/-- The loop of `allocuvm`. -/
def allocLoop (tgt : Target) (oldsz newsz : Nat) : List Nat → Bool → Ctx → Res (Nat × Ctx)
  | [], _, c => .ok (newsz, c)
  | a :: as, fresh, c => do
    let (fresh, p, km) ← makeRoom a fresh c.cur c.km
    let (ok, c) ← growPage tgt oldsz newsz a { c with cur := p, km := km }
    if ok then allocLoop tgt oldsz newsz as fresh c else pure (0, c)

/-- `USERSTACKTOP - curproc->stacksize - PGSIZE`. -/
def Proc.stackSpace (p : Proc) : Nat := sub32 (sub32 USERSTACKTOP p.stacksize) PGSIZE

/-- The checks of `allocuvm` that return 0. -/
def growRefused (p : Proc) (oldsz newsz : Nat) : Prop :=
  (p.stackGrowing = true ∧ sub32 p.stackSpace PGSIZE < p.sz) ∨
  (p.stackGrowing = true ∧ oldsz = p.stackSpace ∧ oldsz < add32 p.stacksize PGSIZE) ∨
  (p.stackGrowing = false ∧ p.stackSpace < newsz) ∨
  KERNBASE < newsz

instance (p : Proc) (oldsz newsz : Nat) : Decidable (growRefused p oldsz newsz) := by
  unfold growRefused; infer_instance

/-- `allocuvm(pgdir, oldsz, newsz)`. -/
def allocuvm (tgt : Target) (oldsz newsz : Nat) (c : Ctx) : Res (Nat × Ctx) :=
  if growRefused c.cur oldsz newsz then .ok (0, c)
  else if newsz < oldsz then .ok (oldsz, c)
  else allocLoop tgt oldsz newsz (pageRange (PGROUNDUP oldsz) newsz) true c

/-! ## Copying -/

/-- What `copyuvm` does with a present page `i`: both tables map it read-only. -/
def sharePage (i : Nat) (e : Pte) (parent child : PgDir) (km : Kmem) : Res (Bool × PgDir × PgDir × Kmem) := do
  let parent := parent.set i { e with w := false }
  let (ok, child, km) ← mappages i PGSIZE (e.addr * PGSIZE) { e with w := false } child km
  if ok then do
    let km ← addPageShare (e.addr * PGSIZE) km
    pure (true, parent, child, km)
  else pure (false, parent, child, km)

/-- The loop of `copyuvm` over the pages from `PGSIZE` to `sz`. -/
def copyHeap : List Nat → PgDir → PgDir → Kmem → Res (Bool × PgDir × PgDir × Kmem)
  | [], parent, child, km => .ok (true, parent, child, km)
  | i :: is, parent, child, km =>
    match walkpgdir i parent with
    | none => .error (.panic "copyuvm: pte should exist")
    | some e =>
      if e.p then do
        let (ok, parent, child, km) ← sharePage i e parent child km
        if ok then copyHeap is parent child km else pure (false, parent, child, km)
      else .error (.panic "copyuvm: page not present")

/-- The loop of `copyuvm` over the stack. A page that is paged out becomes so in the
child; the entry for it is written without a check that it exists. -/
def copyStack : List Nat → PgDir → PgDir → Kmem → Res (Bool × PgDir × PgDir × Kmem)
  | [], parent, child, km => .ok (true, parent, child, km)
  | i :: is, parent, child, km =>
    match walkpgdir i parent with
    | none => .error (.panic "copyuvm: pte should exist")
    | some e =>
      if !e.p && !e.pg then copyStack is parent child km
      else if e.pg then
        match walkpgdirAlloc i child km with
        | (false, _, _) => .error .noMemory
        | (true, child, km) => copyStack is parent (child.set i Pte.out) km
      else do
        let (ok, parent, child, km) ← sharePage i e parent child km
        if ok then copyStack is parent child km else pure (false, parent, child, km)

/-- Both loops of `copyuvm`. -/
def copyPages (sz stacksize : Nat) (parent child : PgDir) (km : Kmem) : Res (Bool × PgDir × PgDir × Kmem) := do
  let (ok, parent, child, km) ← copyHeap (pageRange PGSIZE sz) parent child km
  if ok then copyStack (pageRange (sub32 USERSTACKTOP stacksize) USERSTACKTOP) parent child km
  else pure (false, parent, child, km)

/-- `copyuvm(pgdir, sz)` on the table of the current process: the child's table, and the
parent's, whose pages have become read-only. -/
def copyuvm (p : Proc) (km : Kmem) : Res (Option PgDir × PgDir × Kmem) := do
  let (child, km) ← setupkvm km
  match child with
  | none => pure (none, p.pgdir, km)
  | some child => do
    let (ok, parent, child, km) ← copyPages p.sz p.stacksize p.pgdir child km
    if ok then pure (some child, parent, km)
    else do
      let km ← freevm child km
      pure (none, parent, km)

/-! ## Loading -/

/-- The loop of `loaduvm` over the offsets `is`: false for -1. -/
def loadLoop (d : PgDir) (addr : Nat) (ip : Inode) (offset sz : Nat) : List Nat → Kmem → Res (Bool × Kmem)
  | [], km => .ok (true, km)
  | i :: is, km =>
    match walkpgdir (add32 addr i) d with
    | none => .error (.panic "loaduvm: address should exist")
    | some e =>
      let n := min (sz - i) PGSIZE
      match readi ip (add32 offset i) n with
      | none => .ok (false, km)
      | some r =>
        let km := km.copyPage e.addr (ip.fill (add32 offset i) r (km.mem e.addr))
        if r = n then loadLoop d addr ip offset sz is km else .ok (false, km)

/-- `loaduvm(pgdir, addr, ip, offset, sz)`. -/
def loaduvm (d : PgDir) (addr : Nat) (ip : Inode) (offset sz : Nat) (km : Kmem) : Res (Bool × Kmem) :=
  if addr % PGSIZE ≠ 0 then .error (.panic "loaduvm: addr must be page aligned")
  else loadLoop d addr ip offset sz (pageRange 0 sz) km

/-- `memmove` of `buf` into page `f` at offset `o`. -/
def Kmem.store (km : Kmem) (f o : Nat) (buf : List UInt8) : Kmem :=
  km.copyPage f fun x => if o ≤ x then (buf[x - o]?).getD (km.mem f x) else km.mem f x

/-- The loop of `copyout(pgdir, va, p, len)`; `uva2ka` reads the entry without a check
that its table exists. -/
def copyoutLoop (d : PgDir) : Nat → Nat → List UInt8 → Kmem → Res (Bool × Kmem)
  | _, _, [], km => .ok (true, km)
  | 0, _, _, _ => .error .diverges
  | fuel + 1, va, buf, km =>
    let va0 := PGROUNDDOWN va
    match walkpgdir va0 d with
    | none => .error .nullDeref
    | some e =>
      if !e.p then .ok (false, km)
      else if !e.u then .ok (false, km)
      else
        let n := min (PGSIZE - (va - va0)) buf.length
        copyoutLoop d fuel (add32 va0 PGSIZE) (buf.drop n) (km.store e.addr (va - va0) (buf.take n))

/-- `copyout(pgdir, va, p, len)`: false for -1. -/
def copyout (d : PgDir) (va : Nat) (buf : List UInt8) (km : Kmem) : Res (Bool × Kmem) :=
  copyoutLoop d buf.length va buf km

end Xv6
