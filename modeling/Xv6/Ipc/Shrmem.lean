import Xv6.Mem.Kalloc
import Xv6.Lib.Tables

/-!
# Shared memory (`proc.c`)

The pool `shrmems` and the tables `shrmem_sigs` of the processes. A sign may be any
`int`, and 0 marks a free entry in both. The state also keeps what has been done with
the addresses of the pool, oldest first: pages that `kalloc` returned to `make_shrmem`,
addresses given to `kfree`, and addresses read or written.
-/

namespace Xv6

open Tables

/-- Entries of the pool. -/
def SHR_MEM_NUM : Nat := 32768

/-- Entries of a process. -/
def PROC_SHR_MEM_NUM : Nat := 128

/-- What `shrmems[i].addr` holds: 0 before the first use and when `kalloc` failed, the
address of a page, or `(void *)-1` once the page is freed. -/
inductive ShrAddr where
  | null
  | minusOne
  | page (f : Nat)
  deriving DecidableEq, Repr

def ShrAddr.toUint : ShrAddr → Nat
  | .null => 0
  | .minusOne => 0xFFFFFFFF
  | .page f => P2V (f * PGSIZE)

/-- `struct share_memory`. -/
structure ShareMemory where
  addr : ShrAddr := .null
  sig : Int := 0
  deriving DecidableEq, Repr

/-- What the code does with an address of the pool. -/
inductive PoolEvent where
  | got (f : Nat)
  | freed (a : ShrAddr)
  | touched (a : ShrAddr)
  deriving DecidableEq, Repr

/-- The allocator, the pool, and `shrmem_sigs` for each slot of the process table. -/
structure Shm where
  km : Kmem
  shrmems : Nat → ShareMemory := fun _ => {}
  sigs : Nat → Nat → Int := fun _ _ => 0
  events : List PoolEvent := []

namespace Shm

/-- The first entry of the pool with the sign. -/
def findSlot (st : Shm) (sign : Int) : Option Nat :=
  first (fun i => decide ((st.shrmems i).sig = sign)) SHR_MEM_NUM

/-- The first entry of process `cur` with the sign. -/
def findSig (st : Shm) (cur : Nat) (sign : Int) : Option Nat :=
  first (fun j => decide (st.sigs cur j = sign)) PROC_SHR_MEM_NUM

/-- `curproc->shrmem_sigs[j] = sign`. -/
def setSig (st : Shm) (cur j : Nat) (sign : Int) : Shm :=
  { st with sigs := Function.update st.sigs cur (Function.update (st.sigs cur) j sign) }

/-- `shrmems[i]` becomes `entry`. -/
def setSlot (st : Shm) (i : Nat) (entry : ShareMemory) : Shm :=
  { st with shrmems := Function.update st.shrmems i entry }

def event (st : Shm) (e : PoolEvent) : Shm := { st with events := st.events ++ [e] }

/-- `shrmems[i].addr = kalloc(); shrmems[i].sig = sign;` -/
def fillSlot (st : Shm) (i : Nat) (sign : Int) : Shm :=
  match kalloc st.km with
  | (none, km) => { st with km := km }.setSlot i ⟨.null, sign⟩
  | (some f, km) => ({ st with km := km }.setSlot i ⟨.page f, sign⟩).event (.got f)

end Shm

/-- `make_shrmem(sign)` by process `cur`. -/
def makeShrmem (cur : Nat) (sign : Int) (st : Shm) : Int × Shm :=
  match st.findSig cur 0 with
  | none => (-1, st)
  | some j =>
    match st.findSlot 0 with
    | none => (-1, st)
    | some i => (0, (st.fillSlot i sign).setSig cur j sign)

/-- `remove_shrmem(sign)` by process `cur`. -/
def removeShrmem (cur : Nat) (sign : Int) (st : Shm) : Res (Int × Shm) :=
  match st.findSig cur sign with
  | none => .ok (-1, st)
  | some j =>
    match st.findSlot sign with
    | none => .ok (-1, st)
    | some i => do
      let addr := (st.shrmems i).addr
      let km ← kfree addr.toUint st.km
      pure (0, (({ st with km := km }.event (.freed addr)).setSlot i ⟨.minusOne, 0⟩).setSig cur j 0)

/-- `read_shrmem(sign, buffer)`: what is copied to the buffer, `none` for -1. -/
def readShrmem (sign : Int) (st : Shm) : Res (Option (Nat → UInt8) × Shm) :=
  match st.findSlot sign with
  | none => .ok (none, st)
  | some i =>
    match (st.shrmems i).addr with
    | .null => .error .nullDeref
    | .minusOne => .error .outOfBounds
    | .page f => .ok (some (st.km.mem f), st.event (.touched (.page f)))

/-- `strncpy(s, t, len + 1)` from the start of page `f` on: the string and its NUL. What
does not fit goes to the physical pages behind it. -/
def Kmem.strcpy (km : Kmem) (f : Nat) (str : List UInt8) : Kmem :=
  { km with mem := fun g o =>
      if f ≤ g ∧ o < PGSIZE ∧ (g - f) * PGSIZE + o < str.length + 1 then (str ++ [0]).getD ((g - f) * PGSIZE + o) 0
      else km.mem g o }

/-- `write_shrmem(sign, buffer)`; `str` is the string without its NUL. -/
def writeShrmem (sign : Int) (str : List UInt8) (st : Shm) : Res (Int × Shm) :=
  match st.findSlot sign with
  | none => .ok (-1, st)
  | some i =>
    match (st.shrmems i).addr with
    | .null => .error .nullDeref
    | .minusOne => .error .outOfBounds
    | .page f => .ok (0, { st with km := st.km.strcpy f str }.event (.touched (.page f)))

/-- The loop of `exit` over the entries `js`. -/
def exitLoop (cur : Nat) : List Nat → Shm → Res Shm
  | [], st => .ok st
  | j :: js, st =>
    if st.sigs cur j ≠ 0 then do
      let (_, st) ← removeShrmem cur (st.sigs cur j) st
      exitLoop cur js (st.setSig cur j (-1))
    else exitLoop cur js (st.setSig cur j (-1))

/-- The release of shared memory in `exit`. -/
def exitShrmem (cur : Nat) (st : Shm) : Res Shm := exitLoop cur (List.range PROC_SHR_MEM_NUM) st

/-- The end of `allocproc` for slot `q`: a new process owns no shared memory. -/
def resetSigs (q : Nat) (st : Shm) : Shm := { st with sigs := Function.update st.sigs q fun _ => 0 }

end Xv6
