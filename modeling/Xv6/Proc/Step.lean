import Xv6.Proc.Kernel
import Xv6.Lib.Runs

/-!
# Steps of the system

What a process can do next: read or write its memory, take the page fault that an access
raises, or make a system call. An access that faults is a step of its own; the process
makes the access again when the handler has returned. Any process that can be scheduled
may take the next step.
-/

namespace Xv6

/-- What a process did; `r` is the result of a system call. -/
inductive Op where
  | load (i va : Nat) (b : UInt8)
  | store (i va : Nat) (b : UInt8)
  | fault (i : Nat) (write : Bool) (va : Nat)
  | sbrk (i : Nat) (n r : Int)
  | fork (i : Nat) (r : Int)
  | exec (i : Nat) (r : Int)
  | exit (i : Nat)
  | wait (i : Nat) (r : Int)

/-- The processor lets a user access to `va` through the entry `e`. -/
def Pte.allows (e : Pte) (write : Bool) : Bool := e.p && e.u && (!write || e.w)

/-- The access faults. -/
def faults (write : Bool) (va : Nat) (d : PgDir) : Bool :=
  match walkpgdir va d with
  | none => true
  | some e => !e.allows write

/-- The flag `PGFLT_P` of the error code: the fault is on a present page. -/
def presentFlag (va : Nat) (d : PgDir) : Bool :=
  match walkpgdir va d with
  | none => false
  | some e => e.p

/-- One step of process `i`. Addresses and the argument of `sbrk` are 32 bits wide. -/
inductive Step : Op → Kernel → Kernel → Prop where
  | load {k : Kernel} {i va : Nat} {b : UInt8} : i < NPROC → (k.proc i).canRun → va < 2 ^ 32 →
      userRead va (k.proc i).pgdir k.km = some b → Step (.load i va b) k k
  | store {k : Kernel} {i va : Nat} {b : UInt8} {e : Pte} : i < NPROC → (k.proc i).canRun → va < 2 ^ 32 →
      walkpgdir va (k.proc i).pgdir = some e → e.allows true →
      Step (.store i va b) k { k with km := k.km.store e.addr (va % PGSIZE) [b] }
  | fault {k : Kernel} {i va : Nat} {write : Bool} {c : Ctx} : i < NPROC → (k.proc i).canRun → va < 2 ^ 32 →
      faults write va (k.proc i).pgdir →
      castPageFault (presentFlag va (k.proc i).pgdir) va (k.ctx i) = .ok c →
      Step (.fault i write va) k (k.put i c)
  | sbrk {k : Kernel} {i : Nat} {n r : Int} {c : Ctx} : i < NPROC → (k.proc i).canRun →
      -2 ^ 31 ≤ n → n < 2 ^ 31 → sysSbrk n (k.ctx i) = .ok (r, c) → Step (.sbrk i n r) k (k.put i c)
  | fork {k k' : Kernel} {i : Nat} {created : Nat → Inode} {r : Int} : i < NPROC → (k.proc i).canRun →
      fork created i k = .ok (r, k') → Step (.fork i r) k k'
  | exec {k : Kernel} {i : Nat} {ip : Option Inode} {path : String} {argv : List (List UInt8)}
      {created : Nat → Inode} {r : Int} {c : Ctx} : i < NPROC → (k.proc i).canRun →
      exec ip path argv created (k.ctx i) = .ok (r, c) → Step (.exec i r) k (k.put i c)
  | exit {k k' : Kernel} {i : Nat} {unlinked : Bool} : i < NPROC → (k.proc i).canRun →
      exit unlinked i k = .ok k' → Step (.exit i) k k'
  | wait {k k' : Kernel} {i : Nat} {r : Int} : i < NPROC → (k.proc i).canRun →
      wait i k = .ok (some r, k') → Step (.wait i r) k k'

end Xv6
