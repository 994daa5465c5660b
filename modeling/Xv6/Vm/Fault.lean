import Xv6.Vm.Uvm

/-!
# Page faults (`vm.c`)

`cast_page_fault` tells four cases apart: a paged-out page is brought in by
`fifo_replace`, an access below the stack grows it, a write to a read-only page is a
copy-on-write fault, and anything else kills the process.
-/

namespace Xv6

/-- The loop of `fifo_replace`: the slot at `offset` and the page `f` change places, a
quarter of a page at a time. The page is written through the user mapping at the
faulting address and read through the kernel's. -/
def swapLoop (f offset : Nat) : List Nat → VpFiles → Kmem → Res (VpFiles × Kmem)
  | [], files, km => .ok (files, km)
  | j :: js, files, km => do
    let off := REPLACE_BUF_SIZE * j
    let (_, buf) ← vpread files (fun _ => 0) (offset + off) REPLACE_BUF_SIZE
    let (_, files) ← vpwrite files (fun o => km.mem f (off + o)) (offset + off) REPLACE_BUF_SIZE
    swapLoop f offset js files (km.copyPage f fun o =>
      if off ≤ o ∧ o < off + REPLACE_BUF_SIZE then buf (o - off) else km.mem f o)

/-- `fifo_replace(addr)`, for a page address. -/
def fifoReplace (addr : Nat) (p : Proc) (km : Kmem) : Res (Proc × Kmem) := do
  let (last, mq) ← takeLast "[ERROR] Only 0 or 1 pages in memory." "[ERROR] last null!" p.mq
  let va := (mq.entries last).vaddr
  match walkpgdir va p.pgdir with
  | none => .error .nullDeref
  | some pteIn =>
    if pteIn = {} then .error (.panic "[ERROR] A record is in memstab but not in pgdir.")
    else match p.vtab.find addr with
      | none => .error (.panic "[ERROR] Should find a record in vpfile!")
      | some j =>
        match walkpgdir addr p.pgdir with
        | none => .error .nullDeref
        | some pteOut =>
          if pteOut = {} then .error (.panic "[ERROR] A record should be in pgdir!")
          else do
            let d := p.pgdir.set addr { addr := pteIn.addr, p := true, w := true, u := true }
            let (files, km) ← swapLoop pteIn.addr (j * PGSIZE) (List.range 4) p.vpfile km
            pure ({ p with
              pgdir := d.set va Pte.out
              vtab := p.vtab.set j va
              vpfile := files
              mq := mq.linkFront last addr }, km)

/-- `replace_page(addr)`. -/
def replacePageIn (addr : Nat) (p : Proc) (km : Kmem) : Res (Proc × Kmem) :=
  if p.exempt then .ok ({ p with mq := { p.mq with num := p.mq.num + 1 } }, km)
  else fifoReplace addr p km

def Ctx.kill (c : Ctx) : Ctx := { c with cur := { c.cur with killed := true } }

/-- The stack growth of `cast_page_fault`. The size grows even when `allocuvm` fails. -/
def growStack (c : Ctx) : Res Ctx := do
  let top := sub32 USERSTACKTOP c.cur.stacksize
  let (r, c) ← allocuvm .cur (sub32 top PGSIZE) top { c with cur := { c.cur with stackGrowing := true } }
  let c := if r = 0 then c.kill else c
  pure { c with cur := { c.cur with
    stackGrowing := false
    stacksize := add32 c.cur.stacksize PGSIZE } }

/-- The copy-on-write fault on the entry `e` of `va`. -/
def cowFault (va : Nat) (e : Pte) (c : Ctx) : Res Ctx := do
  let ref ← getPageShare (e.addr * PGSIZE) c.km
  if ref = 1 then
    pure { c with cur := { c.cur with pgdir := c.cur.pgdir.set va { e with w := true } } }
  else if 1 < ref then
    match kalloc c.km with
    | (none, km) => pure { c with km := km }.kill
    | (some f, km) => do
      let km := km.copyPage f (km.mem e.addr)
      let d := c.cur.pgdir.set va { addr := f, p := true, w := true, u := true }
      let km ← redPageShare (e.addr * PGSIZE) km
      pure { c with km := km, cur := { c.cur with pgdir := d } }
  else .error (.panic "page fault. Wrong share count error.")

/-- The second part of `cast_page_fault`, from the checks of the address on. -/
def protectionFault (va : Nat) (c : Ctx) : Res Ctx :=
  if KERNBASE ≤ va then .ok c.kill
  else match walkpgdir va c.cur.pgdir with
    | none => .ok c.kill
    | some e =>
      if !e.p then .ok c.kill
      else if !e.u then .ok c.kill
      else if e.w then .error (.panic "page fault. Unknown page fault due to a writable pte.")
      else cowFault va e c

/-- The faulting page is paged out. -/
def pagedOut (va : Nat) (d : PgDir) : Bool :=
  match walkpgdir va d with
  | none => false
  | some e => e.pg

/-- The address lies between the heap and the stack. -/
def growsStack (va : Nat) (p : Proc) : Prop :=
  add32 p.sz PGSIZE ≤ va ∧ va < sub32 USERSTACKTOP p.stacksize

instance (va : Nat) (p : Proc) : Decidable (growsStack va p) := by unfold growsStack; infer_instance

/-- `cast_page_fault(errcode)` at the address `va` in `%cr2`; `present` is the flag
`PGFLT_P` of the error code. The page allocated for an address outside the process is
never used. -/
def castPageFault (present : Bool) (va : Nat) (c : Ctx) : Res Ctx :=
  if present then protectionFault va c
  else if va < PGSIZE then .ok c.kill
  else if pagedOut va c.cur.pgdir then do
    let (p, km) ← replacePageIn (PGROUNDDOWN va) c.cur c.km
    pure { c with cur := p, km := km }
  else if growsStack va c.cur then growStack c
  else match kalloc c.km with
    | (none, km) => .ok { c with km := km }.kill
    | (some _, km) => protectionFault va { c with km := km }

end Xv6
