import Xv6.Mem.Queue
import Xv6.Mem.SlotTable
import Xv6.Fs.SwapFile
import Xv6.Vm.PgDir

/-!
# Processes (`proc.h`)

The fields of `struct proc` that the memory system reads or writes. A kernel function
runs for a current process `curproc`; `Ctx` is that process together with physical
memory and the page table that a second `pde_t *` refers to (the image `exec` builds).
-/

namespace Xv6

/-- `enum procstate`. -/
inductive ProcState where
  | unused | embryo | sleeping | runnable | running | zombie
  deriving DecidableEq, Repr

/-- `struct proc`. The fields start as the zeroed bss leaves them. `parent` is an index of
`ptable.proc`, `kstack` a page number; `vtab` is the `virtual_page` chain. -/
structure Proc where
  sz : Nat := 0
  pgdir : PgDir := {}
  kstack : Option Nat := none
  state : ProcState := .unused
  pid : Nat := 0
  parent : Option Nat := none
  eip : Nat := 0
  esp : Nat := 0
  killed : Bool := false
  name : String := ""
  stacksize : Nat := 0
  stackGrowing : Bool := false
  mq : MemQueue := {}
  vtab : SlotTable := {}
  vpfile : VpFiles := fun _ => none

/-- A process whose page table is in use. -/
def Proc.live (p : Proc) : Prop := p.state ≠ .unused ∧ p.state ≠ .embryo

instance (p : Proc) : Decidable p.live := by unfold Proc.live; infer_instance

/-- A process that can be scheduled. -/
def Proc.canRun (p : Proc) : Prop := p.live ∧ p.state ≠ .zombie

instance (p : Proc) : Decidable p.canRun := by unfold Proc.canRun; infer_instance

/-- What `mystrcmp` tells the swap code to leave alone. -/
def Proc.exempt (p : Proc) : Prop := p.name = "init" ∨ p.name = "sh"

instance (p : Proc) : Decidable p.exempt := by unfold Proc.exempt; infer_instance

/-- The state a kernel function works on. -/
structure Ctx where
  km : Kmem
  cur : Proc
  img : PgDir := {}

/-- Which page table a `pde_t *pgdir` argument is: `curproc->pgdir`, or another one. -/
inductive Target where
  | cur | img
  deriving DecidableEq, Repr

def Ctx.table (c : Ctx) : Target → PgDir
  | .cur => c.cur.pgdir
  | .img => c.img

def Ctx.setTable (c : Ctx) (d : PgDir) : Target → Ctx
  | .cur => { c with cur := { c.cur with pgdir := d } }
  | .img => { c with img := d }

/-- `memset(P2V(pa), 0, PGSIZE)`. -/
def Kmem.zero (km : Kmem) (f : Nat) : Kmem :=
  { km with mem := Function.update km.mem f fun _ => 0 }

/-- `memmove` of a whole page to page `f`. -/
def Kmem.copyPage (km : Kmem) (f : Nat) (bytes : Bytes) : Kmem :=
  { km with mem := Function.update km.mem f bytes }

/-- The bytes a user address range starting at the page of `va` shows the kernel. The
access faults in the kernel when the page is not present. -/
def userPage (va : Nat) (d : PgDir) (km : Kmem) : Res Bytes :=
  match walkpgdir va d with
  | none => .error .userFault
  | some e => if e.p then .ok (km.mem e.addr) else .error .userFault

/-- The byte user code reads at `va`, if the access does not fault. -/
def userRead (va : Nat) (d : PgDir) (km : Kmem) : Option UInt8 :=
  match walkpgdir va d with
  | none => none
  | some e => if e.p && e.u then some (km.mem e.addr (va % PGSIZE)) else none

end Xv6
