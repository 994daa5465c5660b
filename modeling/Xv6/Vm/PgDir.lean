import Xv6.Mem.Kalloc

/-!
# Page tables (`vm.c`)

A page directory is kept as the page tables it has and the entries in them. `pde d` is
the page number of the table for directory index `d`; `pte v` is the entry for virtual
page number `v`, which counts only where its table exists. The bytes of the directory
and of the tables are this structure, not part of `Kmem.mem`. `PTE_A` and `PTE_D`, which
the processor sets and the kernel never reads, are left out.
-/

namespace Xv6

/-- A page table entry: `PTE_ADDR` as a page number, `PTE_P`, `PTE_W`, `PTE_U`, `PTE_PG`. -/
structure Pte where
  addr : Nat := 0
  p : Bool := false
  w : Bool := false
  u : Bool := false
  pg : Bool := false
  deriving DecidableEq, Repr

/-- `PTE_U | PTE_W | PTE_PG`, the entry of a page that is paged out. -/
def Pte.out : Pte := { w := true, u := true, pg := true }

/-- `PTE_W | PTE_U`, the permissions of a new user page. -/
def Pte.user : Pte := { w := true, u := true }

/-- `pde_t *pgdir`: the page it occupies, its tables and their entries. -/
structure PgDir where
  frame : Nat := 0
  pde : Nat → Option Nat := fun _ => none
  pte : Nat → Pte := fun _ => {}

def NPDENTRIES : Nat := 1024

/-- Pages of the address space. -/
def NVPAGES : Nat := 1048576

/-- Pages below `KERNBASE`. -/
def NUPAGES : Nat := 524288

/-- `walkpgdir(pgdir, va, 0)`: the entry, or `none` for a null pointer. -/
def walkpgdir (va : Nat) (d : PgDir) : Option Pte :=
  match d.pde (PDX va) with
  | none => none
  | some _ => some (d.pte (va / PGSIZE))

/-- The entry for `va` is overwritten. -/
def PgDir.set (d : PgDir) (va : Nat) (e : Pte) : PgDir :=
  { d with pte := Function.update d.pte (va / PGSIZE) e }

/-- The table for `va` is created: `memset(pgtab, 0, PGSIZE)` and its directory entry. -/
def PgDir.addTable (d : PgDir) (va f : Nat) : PgDir :=
  { d with
    pde := Function.update d.pde (PDX va) (some f)
    pte := fun v => if v / 1024 = PDX va then {} else d.pte v }

/-- `walkpgdir(pgdir, va, 1)`: whether the entry exists afterwards. -/
def walkpgdirAlloc (va : Nat) (d : PgDir) (km : Kmem) : Bool × PgDir × Kmem :=
  match d.pde (PDX va) with
  | some _ => (true, d, km)
  | none =>
    match kalloc km with
    | (none, km) => (false, d, km)
    | (some f, km) => (true, d.addTable va f, km)

/-- The body of `mappages`' loop: `*pte = pa | perm | PTE_P`, or false when there is no
memory for a table. -/
def mapPage (a pa : Nat) (perm : Pte) (d : PgDir) (km : Kmem) : Res (Bool × PgDir × Kmem) :=
  match walkpgdirAlloc a d km with
  | (false, d, km) => .ok (false, d, km)
  | (true, d, km) =>
    if (d.pte (a / PGSIZE)).p then .error (.panic "remap")
    else .ok (true, d.set a { perm with addr := pa / PGSIZE, p := true }, km)

/-- The loop of `mappages` over `n` pages. -/
def mapLoop (perm : Pte) : Nat → Nat → Nat → PgDir → Kmem → Res (Bool × PgDir × Kmem)
  | 0, _, _, d, km => .ok (true, d, km)
  | n + 1, a, pa, d, km => do
    let (ok, d, km) ← mapPage a pa perm d km
    if ok then mapLoop perm n (add32 a PGSIZE) (add32 pa PGSIZE) d km else pure (false, d, km)

/-- `mappages(pgdir, va, size, pa, perm)`: false for -1. The loop runs from the page of
`va` to the page of `va + size - 1`, both included. -/
def mappages (va size pa : Nat) (perm : Pte) (d : PgDir) (km : Kmem) : Res (Bool × PgDir × Kmem) :=
  let a := PGROUNDDOWN va
  let last := PGROUNDDOWN (sub32 (add32 va size) 1)
  mapLoop perm (sub32 last a / PGSIZE + 1) a pa d km

end Xv6
