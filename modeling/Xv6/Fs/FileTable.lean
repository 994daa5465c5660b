import Xv6.Lib.Runs
import Xv6.Lib.Tables
import Xv6.Param

/-!
# Open files (`file.c`, `sysfile.c`, `pipe.c`, `fs.c`)

The table of open files, and the descriptors and swap files of the processes that point
into it. A call is a sequence of sections, each of which takes `ftable.lock` once; the
calls of several processes interleave between them. What a call needs from the rest of the
kernel (a path that is found, a page for a pipe, a new process, a swap file that is created
or unlinked) is a parameter of the call.
-/

namespace Xv6.Ftable
open Tables

/-- What an open file refers to: `type` with `pipe` and `writable`, or `ip`. -/
inductive Content where
  | none
  | pipe (p : Nat) (writable : Bool)
  | inode (ip : Nat)
  deriving DecidableEq, Repr

/-- `struct file`. -/
structure File where
  ref : Nat := 0
  type : Content := .none

/-- `ftable.file`. -/
abbrev Table := Nat → File

/-- `filealloc()`. -/
def filealloc (t : Table) : Option (Nat × Table) :=
  (first (fun f => (t f).ref = 0) NFILE).map fun f => (f, Function.update t f { t f with ref := 1 })

/-- `filedup(f)`. -/
def filedup (f : Nat) (t : Table) : Res Table :=
  if (t f).ref < 1 then .error (.panic "filedup")
  else .ok (Function.update t f { t f with ref := (t f).ref + 1 })

/-- `fileclose(f)`, with what it hands to `pipeclose` or `iput`. -/
def fileclose (f : Nat) (t : Table) : Res (Table × Content) :=
  if (t f).ref < 1 then .error (.panic "fileclose")
  else if 0 < (t f).ref - 1 then .ok (Function.update t f { t f with ref := (t f).ref - 1 }, .none)
  else .ok (Function.update t f { ref := 0, type := .none }, (t f).type)

/-! ## Processes -/

/-- Where a process is: it does not exist, runs in user space, or is in a call that has sections left. The swap files
that are still to be created carry the inodes that `create` returns. -/
inductive Task where
  | free
  | idle
  -- the calls of `fileclose` that end a failed `open` or `pipe`
  | drop (fs : List Nat)
  -- `pipealloc` with the first file
  | pipe (f0 : Nat) (page : Option Nat)
  | fork (np : Nat) (created : Nat → Option Nat)
  -- made by the `fork` of another process: descriptors below `fd` have been copied
  | copied (fd : Nat)
  -- the same, and swap files below `i` have been created
  | paged (i : Nat)
  -- `vpfree` and `vpalloc` in `exec`
  | execFree (i : Nat) (created : Nat → Option Nat)
  | execAlloc (i : Nat) (created : Nat → Option Nat)
  -- `exit`, and `vpfree` in it
  | exitFiles (fd : Nat) (unlinked : Bool)
  | exitFree (i : Nat) (unlinked : Bool)

/-- The part of `struct proc` that points to open files. -/
structure Fds where
  task : Task := .free
  ofile : Nat → Option Nat := fun _ => none
  vpfile : Nat → Option Nat := fun _ => none

structure Sys where
  file : Table
  proc : Nat → Fds

def Sys.put (s : Sys) (t : Table) (p : Nat) (x : Fds) : Sys := ⟨t, Function.update s.proc p x⟩

/-- After `userinit`. -/
def boot : Sys := ⟨fun _ => {}, Function.update (fun _ => {}) 0 { task := .idle }⟩

/-- What a section does to the open files. -/
inductive Effect where
  | alloc (f : Nat)
  | set (f : Nat) (c : Content)
  -- the last reference is gone, and `pipeclose` or `iput` is called
  | release (f : Nat) (c : Content)
  deriving DecidableEq, Repr

def released (f : Nat) (c : Content) : List Effect := if c = .none then [] else [.release f c]

abbrev Outcome := Res (Sys × List Effect)

section Calls

variable (s : Sys) (p : Nat)

/-- `fdalloc`. -/
def fdalloc (x : Fds) : Option Nat := first (fun fd => x.ofile fd = none) NOFILE

def Fds.setFd (x : Fds) (fd : Nat) (f : Option Nat) : Fds := { x with ofile := Function.update x.ofile fd f }

/-- `argfd`. -/
def argfd (fd : Nat) : Option Nat := if fd < NOFILE then (s.proc p).ofile fd else none

/-- `sys_open`, from `filealloc` on; the path has led to `ip`, if to anything. -/
def sysOpen (found : Option Nat) : Outcome :=
  match found, filealloc s.file with
  | some ip, some (f, t) =>
    match fdalloc (s.proc p) with
    | none => .ok (s.put t p { s.proc p with task := .drop [f] }, [.alloc f])
    | some fd =>
      .ok (s.put (Function.update t f { t f with type := .inode ip }) p ((s.proc p).setFd fd (some f)),
        [.alloc f, .set f (.inode ip)])
  | _, _ => .ok (s, [])

def sysDup (fd : Nat) : Outcome :=
  match argfd s p fd, fdalloc (s.proc p) with
  | some f, some fd' => do
    let t ← filedup f s.file
    .ok (s.put t p ((s.proc p).setFd fd' (some f)), [])
  | _, _ => .ok (s, [])

def sysClose (fd : Nat) : Outcome :=
  match argfd s p fd with
  | none => .ok (s, [])
  | some f => do
    let (t, c) ← fileclose f s.file
    .ok (s.put t p ((s.proc p).setFd fd none), released f c)

/-- `pipealloc` up to the second `filealloc`; `page` is what `kalloc` will return. -/
def sysPipe (page : Option Nat) : Outcome :=
  match filealloc s.file with
  | none => .ok (s, [])
  | some (f0, t) => .ok (s.put t p { s.proc p with task := .pipe f0 page }, [.alloc f0])

/-- The rest of `sys_pipe`. -/
def pipeRest (f0 : Nat) (page : Option Nat) : Outcome :=
  let x := { s.proc p with task := .idle }
  match filealloc s.file with
  | none => .ok (s.put s.file p { x with task := .drop [f0] }, [])
  | some (f1, t) =>
    match page with
    | none => .ok (s.put t p { x with task := .drop [f0, f1] }, [.alloc f1])
    | some pg =>
      let t := Function.update t f0 { t f0 with type := .pipe pg false }
      let t := Function.update t f1 { t f1 with type := .pipe pg true }
      let effects := [.alloc f1, .set f0 (.pipe pg false), .set f1 (.pipe pg true)]
      match fdalloc x with
      | none => .ok (s.put t p { x with task := .drop [f0, f1] }, effects)
      | some fd0 =>
        match fdalloc (x.setFd fd0 (some f0)) with
        | none => .ok (s.put t p { (x.setFd fd0 (some f0)).setFd fd0 none with task := .drop [f0, f1] }, effects)
        | some fd1 => .ok (s.put t p ((x.setFd fd0 (some f0)).setFd fd1 (some f1)), effects)

/-- One round of `vpalloc` for process `q`. -/
def vpallocRound (q i : Nat) (created : Option Nat) (task : Task) : Outcome :=
  match created with
  | none => .error (.panic "iunlock")
  | some ip =>
    match filealloc s.file with
    | none => .error (.panic "[ERROR] Failed to alloc virtual page file.\n")
    | some (f, t) =>
      .ok (s.put (Function.update t f { t f with type := .inode ip }) q
        { s.proc q with task := task, vpfile := Function.update (s.proc q).vpfile i (some f) },
        [.alloc f, .set f (.inode ip)])

/-- One round of `vpfree`, which leaves the pointer as it is. -/
def vpfreeRound (i : Nat) (task : Task) : Outcome :=
  match (s.proc p).vpfile i with
  | none => .ok (s.put s.file p { s.proc p with task := task }, [])
  | some f => do
    let (t, c) ← fileclose f s.file
    .ok (s.put t p { s.proc p with task := task }, released f c)

/-- One section of the `fork` of `p`, which makes `np`. -/
def forkRound (np : Nat) (created : Nat → Option Nat) : Outcome :=
  match (s.proc np).task with
  | .copied fd =>
    if fd < NOFILE then
      match (s.proc p).ofile fd with
      | none => .ok (s.put s.file np { s.proc np with task := .copied (fd + 1) }, [])
      | some f => do
        let t ← filedup f s.file
        .ok (s.put t np { (s.proc np).setFd fd (some f) with task := .copied (fd + 1) }, [])
    else .ok (s.put s.file np { s.proc np with task := .paged 0 }, [])
  | .paged i =>
    if i < MAX_VPFILES then vpallocRound s np i (created i) (.paged (i + 1))
    else
      let s := s.put s.file np { s.proc np with task := .idle }
      .ok (s.put s.file p { s.proc p with task := .idle }, [])
  | _ => .ok (s, [])

/-- One round of the loop of `exit` over the descriptors. -/
def exitRound (fd : Nat) (unlinked : Bool) : Outcome :=
  let next := { s.proc p with task := .exitFiles (fd + 1) unlinked }
  match (s.proc p).ofile fd with
  | none => .ok (s.put s.file p next, [])
  | some f => do
    let (t, c) ← fileclose f s.file
    .ok (s.put t p (next.setFd fd none), released f c)

/-- The next section of the call that `p` is in. -/
def go : Outcome :=
  let x := s.proc p
  match x.task with
  | .free => .ok (s, [])
  | .idle => .ok (s, [])
  | .copied _ => .ok (s, [])
  | .paged _ => .ok (s, [])
  | .drop [] => .ok (s.put s.file p { x with task := .idle }, [])
  | .drop (f :: fs) => do
    let (t, c) ← fileclose f s.file
    .ok (s.put t p { x with task := .drop fs }, released f c)
  | .pipe f0 page => pipeRest s p f0 page
  | .fork np created => forkRound s p np created
  | .execFree i created =>
    if i < MAX_VPFILES then vpfreeRound s p i (.execFree (i + 1) created)
    else .ok (s.put s.file p { x with task := .execAlloc 0 created }, [])
  | .execAlloc i created =>
    if i < MAX_VPFILES then vpallocRound s p i (created i) (.execAlloc (i + 1) created)
    else .ok (s.put s.file p { x with task := .idle }, [])
  | .exitFiles fd unlinked =>
    if fd < NOFILE then exitRound s p fd unlinked
    else .ok (s.put s.file p { x with task := .exitFree 0 unlinked }, [])
  | .exitFree i unlinked =>
    if i < MAX_VPFILES then vpfreeRound s p i (.exitFree (i + 1) unlinked)
    else if unlinked = false ∨ ∃ j < MAX_VPFILES, x.vpfile j = none then .error (.panic "[ERROR] Remove vpfile error.")
    else .ok (s.put s.file p { x with task := .free }, [])

end Calls

/-! ## Calls -/

inductive Call where
  | open_ (found : Option Nat)
  | dup (fd : Nat)
  | pipe (page : Option Nat)
  | close (fd : Nat)
  -- `allocproc` and `copyuvm` have given `np`, or have failed
  | fork (np : Option Nat) (created : Nat → Option Nat)
  -- whether the image could be loaded
  | exec (loaded : Bool) (created : Nat → Option Nat)
  | exit (unlinked : Bool)

inductive Action where
  -- a process in user space makes a call
  | call (p : Nat) (c : Call)
  | go (p : Nat)

/-- The first section of a call. -/
def call (s : Sys) (p : Nat) : Call → Outcome
  | .open_ found => sysOpen s p found
  | .dup fd => sysDup s p fd
  | .pipe page => sysPipe s p page
  | .close fd => sysClose s p fd
  | .fork none _ => .ok (s, [])
  | .fork (some np) created =>
    match (s.proc np).task with
    | .free =>
      if np < NPROC then
        let s := s.put s.file np { s.proc np with task := .copied 0 }
        .ok (s.put s.file p { s.proc p with task := .fork np created }, [])
      else .ok (s, [])
    | _ => .ok (s, [])
  | .exec false _ => .ok (s, [])
  | .exec true created => .ok (s.put s.file p { s.proc p with task := .execFree 0 created }, [])
  | .exit unlinked =>
    if p = 0 then .error (.panic "init exiting")
    else .ok (s.put s.file p { s.proc p with task := .exitFiles 0 unlinked }, [])

/-- What the processes do; a process that is not there or has nothing to do changes nothing. -/
def act (s : Sys) : Action → Outcome
  | .call p c =>
    match (s.proc p).task with
    | .idle => if p < NPROC then call s p c else .ok (s, [])
    | _ => .ok (s, [])
  | .go p => if p < NPROC then go s p else .ok (s, [])

/-- A step is an action that does not panic. -/
def Step (l : Action × List Effect) (s s' : Sys) : Prop := act s l.1 = .ok (s', l.2)

end Xv6.Ftable
