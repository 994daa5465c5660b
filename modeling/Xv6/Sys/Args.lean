import Xv6.Fs.SwapFile
import Xv6.Lib.Words

/-!
# System call arguments (`syscall.c`) and `sys_read`

The kernel reads the arguments of a system call through the user's own `esp`. A fetch
returns its value, `none` for -1, together with the user bytes it has read; whether
those pages are there is another matter (`Xv6.Vm.Fault`).
-/

namespace Xv6

open Words

/-- The current process as the argument checks see it. -/
structure Caller where
  sz : Nat
  stacksize : Nat
  /-- `tf->esp`, as the user left it. -/
  esp : Nat
  /-- What a read at a virtual address yields. -/
  mem : Bytes

/-- What a fetch returns, and the addresses of the bytes it reads, in order. -/
structure Fetched (α : Type) where
  val : Option α
  reads : List Nat

/-- A fetch that returns -1 before it reads anything. -/
def Fetched.refused {α : Type} : Fetched α := ⟨none, []⟩

/-- `fetchint(addr, &i)`. The sums are `uint`. -/
def fetchint (c : Caller) (addr : Nat) : Fetched Nat :=
  if c.sz ≤ addr ∧ addr < c.esp then .refused
  else if c.sz < add32 addr 4 ∧ addr < c.esp then .refused
  else if USERSTACKTOP < add32 addr 4 then .refused
  else ⟨some (getWord (fun j => c.mem (add32 addr j)) 0), [0, 1, 2, 3].map (add32 addr)⟩

/-- The loop of `fetchstr` over the `n` bytes up to `ep`. -/
def scanString (mem : Bytes) (s : Nat) : Nat → Fetched Nat
  | 0 => ⟨none, []⟩
  | n + 1 =>
    if mem s = 0 then ⟨some 0, [s]⟩
    else
      let rest := scanString mem (s + 1) n
      ⟨rest.val.map (· + 1), s :: rest.reads⟩

/-- `fetchstr(addr, &p)`: the length of the string. -/
def fetchstr (c : Caller) (addr : Nat) : Fetched Nat :=
  if (c.sz ≤ addr ∧ addr < c.esp) ∨ USERSTACKTOP < addr then .refused
  else if addr < c.sz then scanString c.mem addr (c.sz - addr)
  else if c.esp ≤ addr ∧ addr < USERSTACKTOP then scanString c.mem addr (USERSTACKTOP - addr)
  else .refused

/-- `argint(n, &i)`. -/
def argint (c : Caller) (n : Nat) : Fetched Nat := fetchint c (add32 c.esp (4 + 4 * n))

/-- `argptr(n, &p, size)` once `argint` has returned `i`: the six checks. -/
def argptrCheck (c : Caller) (i : Nat) (size : Int) : Option Nat :=
  if i < PGSIZE then none
  else if USERSTACKTOP < i then none
  else if c.sz ≤ i ∧ i < sub32 USERSTACKTOP c.stacksize then none
  else if c.sz < addInt32 i size ∧ addInt32 i size < sub32 USERSTACKTOP c.stacksize then none
  else if USERSTACKTOP < addInt32 i size then none
  else if i < c.sz ∧ sub32 USERSTACKTOP c.stacksize ≤ addInt32 i size then none
  else some i

/-- `argptr(n, &p, size)`. -/
def argptr (c : Caller) (n : Nat) (size : Int) : Option Nat := do
  let i ← (argint c n).val
  argptrCheck c i size

/-- What `read` can be called on. -/
inductive FileKind where
  /-- The bytes between `nread` and `nwrite`. -/
  | pipe (data : List UInt8)
  | inode (off : Nat) (ip : Inode)
  /-- The console, with the characters it will deliver. -/
  | dev (input : List UInt8)

/-- `struct file`. -/
structure File where
  readable : Bool
  kind : FileKind

/-- The copy loop of `piperead`: `for (i = 0; i < n; i++)` until the pipe is empty. -/
def piperead (data : List UInt8) (n : Int) : List UInt8 := data.take n.toNat

/-- `consoleread`: it stops at a newline or at end of file (control-D). -/
def consoleread (n : Int) : List UInt8 → List UInt8
  | [] => []
  | c :: cs =>
    if n ≤ 0 then []
    else if c = 4 then []
    else c :: if c = 10 then [] else consoleread (n - 1) cs

/-- `fileread(f, addr, n)`: the bytes it stores from `addr` on. `readi` takes `n` as a `uint`. -/
def fileread (f : File) (n : Int) : List UInt8 :=
  if f.readable then
    match f.kind with
    | .pipe data => piperead data n
    | .inode off ip =>
      match readi ip off (ofInt32 n) with
      | none => []
      | some r => (List.range r).map fun o => ip.data (off + o)
    | .dev input => consoleread n input
  else []

/-- `argfd(n, 0, &f)`. -/
def argfd (c : Caller) (ofile : Nat → Option File) (n : Nat) : Option File := do
  let fd ← (argint c n).val
  if toInt32 fd < 0 ∨ NOFILE ≤ toInt32 fd then none else ofile fd

/-- `sys_read`: where it stores, and what; `none` if an argument is refused. -/
def sysRead (c : Caller) (ofile : Nat → Option File) : Option (Nat × List UInt8) := do
  let f ← argfd c ofile 0
  let n ← (argint c 2).val
  let p ← argptr c 1 (toInt32 n)
  some (p, fileread f (toInt32 n))

end Xv6
