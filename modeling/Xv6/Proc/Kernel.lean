import Xv6.Vm.Fault
import Xv6.Proc.Exec

/-!
# The process table (`proc.c`, `sysproc.c`)

The kernel's state is physical memory and the process table. Each system call or page
fault is taken as one step of the process that makes it. A process is named by its index
in `ptable.proc`.
-/

namespace Xv6

structure Kernel where
  km : Kmem
  proc : Nat → Proc
  nextpid : Nat := 1
  initproc : Option Nat := none

def Kernel.setProc (k : Kernel) (i : Nat) (p : Proc) : Kernel :=
  { k with proc := Function.update k.proc i p }

/-- The context in which process `i` runs the kernel. -/
def Kernel.ctx (k : Kernel) (i : Nat) : Ctx := { km := k.km, cur := k.proc i }

/-- The kernel after process `i` has run. -/
def Kernel.put (k : Kernel) (i : Nat) (c : Ctx) : Kernel :=
  { k.setProc i c.cur with km := c.km }

/-- The kernel before the first process: the process table is zeroed bss. -/
def Kernel.blank (km : Kmem) : Kernel := { km := km, proc := fun _ => {} }

/-! ## Creating processes -/

/-- `mem_alloc()`: the pages of the chain. On failure the pages got so far are lost. -/
def memAlloc : Nat → Kmem → Option (List Nat) × Kmem
  | 0, km => (some [], km)
  | n + 1, km =>
    match kalloc km with
    | (none, km) => (none, km)
    | (some f, km) =>
      match memAlloc n km with
      | (none, km) => (none, km)
      | (some fs, km) => (some (f :: fs), km)

/-- The part of `allocproc` after the kernel stack: the resident queue. -/
def allocQueue (mq : MemQueue) (km : Kmem) : Option MemQueue × Kmem :=
  if mq.pages = [] then
    match memAlloc NUM_MEM_PAGES km with
    | (none, km) => (none, km)
    | (some pages, km) => (some { pages := pages }, km)
  else (some (memClear mq), km)

/-- `allocproc()`: the index of the process. When the queue gets no memory the slot stays
`EMBRYO`. -/
def allocproc (k : Kernel) : Option Nat × Kernel :=
  match (List.range NPROC).find? fun i => (k.proc i).state = .unused with
  | none => (none, k)
  | some i =>
    let p := { k.proc i with pid := k.nextpid }
    let k := { k with nextpid := k.nextpid + 1 }
    match kalloc k.km with
    | (none, km) => (none, { k.setProc i { p with kstack := none } with km := km })
    | (some f, km) =>
      let p := { p with state := .embryo, kstack := some f }
      match allocQueue p.mq km with
      | (none, km) => (none, { k.setProc i p with km := km })
      | (some mq, km) => (some i, { k.setProc i { p with mq := mq } with km := km })

/-- `userinit()`; `init` and `size` are the linked-in `initcode`. -/
def userinit (init : Bytes) (size : Nat) (k : Kernel) : Res Kernel :=
  match allocproc k with
  | (none, _) => .error .noMemory
  | (some i, k) => do
    let (d, km) ← setupkvm k.km
    match d with
    | none => .error (.panic "userinit: out of memory?")
    | some d => do
      let (d, km) ← inituvm init size d km
      pure { (k.setProc i { k.proc i with
          pgdir := d
          sz := PGSIZE
          eip := 0
          esp := PGSIZE
          name := "initcode"
          state := .runnable }) with
        km := km
        initproc := some i }

/-- The swap files of the child: those of a process named `init` or `sh` are not copied. -/
def forkFiles (created : Nat → Inode) (parent : Proc) (files : VpFiles) : Res VpFiles :=
  let files := vpalloc created files
  if parent.exempt then .ok files
  else copyVpfiles parent.vpfile (MAX_VPFILES * VPFILE_SIZE + 1) 0 (fun _ => 0) files

/-- `fork` after `copyuvm`: the child gets the table `d`, the parent's fields, its swap
files and its tables. -/
def forkChild (created : Nat → Inode) (i : Nat) (parent child : Proc) (d : PgDir) : Res Proc := do
  let files ← forkFiles created parent child.vpfile
  let mq ← copyQueue { child.mq with num := parent.mq.num } parent.mq
  let vtab ← copySlots child.vtab parent.vtab
  pure { child with
    pgdir := d
    sz := parent.sz
    parent := some i
    eip := parent.eip
    esp := parent.esp
    stacksize := parent.stacksize
    name := parent.name
    vpfile := files
    mq := mq
    vtab := vtab
    state := .runnable }

/-- `fork()` by process `i`: the child's pid or -1. -/
def fork (created : Nat → Inode) (i : Nat) (k : Kernel) : Res (Int × Kernel) :=
  match allocproc k with
  | (none, k) => .ok (-1, k)
  | (some j, k) => do
    let (d, parentDir, km) ← copyuvm (k.proc i) k.km
    let k := { k.setProc i { k.proc i with pgdir := parentDir } with km := km }
    match d with
    | none =>
      match (k.proc j).kstack with
      | none => .error (.panic "kfree")
      | some f => do
        let km ← kfree (P2V (f * PGSIZE)) k.km
        pure (-1, { k.setProc j { k.proc j with kstack := none, state := .unused, pgdir := {} } with km := km })
    | some d => do
      let child ← forkChild created i (k.proc i) (k.proc j) d
      pure (child.pid, k.setProc j child)

/-! ## Ending processes -/

/-- `exit()` by process `i`; `unlinked` says that `kunlink` found all the swap files. -/
def exit (unlinked : Bool) (i : Nat) (k : Kernel) : Res Kernel :=
  if k.initproc = some i then .error (.panic "init exiting")
  else if unlinked = false ∨ ∃ j < MAX_VPFILES, (k.proc i).vpfile j = none then
    .error (.panic "[ERROR] Remove vpfile error.")
  else
    let orphan := fun j : Nat =>
      if j < NPROC ∧ (k.proc j).parent = some i then { k.proc j with parent := k.initproc } else k.proc j
    .ok { k with proc := Function.update orphan i { orphan i with state := .zombie } }

/-- `wait()` by process `i`: the child's pid or -1, and `none` when the process sleeps. -/
def wait (i : Nat) (k : Kernel) : Res (Option Int × Kernel) :=
  match (List.range NPROC).find? fun j => (k.proc j).parent = some i ∧ (k.proc j).state = .zombie with
  | some j => do
    let p := k.proc j
    match p.kstack with
    | none => .error (.panic "kfree")
    | some f => do
      let km ← kfree (P2V (f * PGSIZE)) k.km
      let km ← freevm p.pgdir km
      pure (some p.pid, { k.setProc j { p with
          kstack := none
          pid := 0
          parent := none
          name := ""
          killed := false
          state := .unused } with km := km })
  | none =>
    if (∀ j < NPROC, (k.proc j).parent ≠ some i) ∨ (k.proc i).killed then .ok (some (-1), k)
    else .ok (none, k)

/-! ## The heap -/

/-- `growproc(n)`: false for -1. -/
def growproc (n : Int) (c : Ctx) : Res (Bool × Ctx) :=
  let sz := c.cur.sz
  if c.cur.stackSpace < addInt32 sz n then .ok (false, c)
  else if 0 < n then do
    let (sz, c) ← allocuvm .cur sz (addInt32 sz n) c
    if sz = 0 then pure (false, c) else pure (true, { c with cur := { c.cur with sz := sz } })
  else if n < 0 then do
    let (sz, c) ← c.dealloc .cur sz (addInt32 sz n)
    if sz = 0 then pure (false, c) else pure (true, { c with cur := { c.cur with sz := sz } })
  else .ok (true, c)

/-- `sys_sbrk()` with the argument `n`. -/
def sysSbrk (n : Int) (c : Ctx) : Res (Int × Ctx) := do
  let addr := c.cur.sz
  let (ok, c) ← growproc n c
  if !ok then pure (-1, c)
  else if c.cur.stackSpace < addInt32 c.cur.sz n then pure (-1, c)
  else pure (addr, { c with cur := { c.cur with sz := addInt32 c.cur.sz n } })

end Xv6
