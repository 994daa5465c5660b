import Xv6.Param
import Xv6.Lib.Ring
import Xv6.Lib.Runs

/-!
# Pipes (`pipe.c`)

A pipe is a ring of `PIPESIZE` bytes with two `uint` counters that run freely. Writers
and readers hold the pipe's lock except while they sleep, so a run is a sequence of
sections: what a thread does from the moment it has the lock until it sleeps or returns.
Other threads take their turn between sections.

A section that finds the pipe full looks at `killed`, which another process may have set
at any time; its value is part of what happens. So is the user memory a writer copies
from.
-/

namespace Xv6
open List
open Runs

def PIPESIZE : Nat := 512

/-- `struct pipe`, without its lock. -/
structure Pipe where
  data : Nat → UInt8
  nread : Nat
  nwrite : Nat
  readopen : Bool
  writeopen : Bool

namespace Pipe

variable {p p' : Pipe} {xs : List UInt8}

/-- The pipe that `pipealloc` makes of a page. -/
def alloc (page : Nat → UInt8) : Pipe where
  data := page
  nread := 0
  nwrite := 0
  readopen := true
  writeopen := true

def isFull (p : Pipe) : Bool := p.nwrite == add32 p.nread PIPESIZE

def isEmpty (p : Pipe) : Bool := p.nread == p.nwrite

/-- `p->data[p->nwrite++ % PIPESIZE] = c`. -/
def put (p : Pipe) (c : UInt8) : Pipe :=
  { p with data := Function.update p.data (p.nwrite % PIPESIZE) c, nwrite := add32 p.nwrite 1 }

/-- `p->data[p->nread++ % PIPESIZE]`: the byte, and the pipe without it. -/
def take (p : Pipe) : UInt8 × Pipe := (p.data (p.nread % PIPESIZE), { p with nread := add32 p.nread 1 })

/-- The bytes between the two counters, oldest first. -/
def buffered (p : Pipe) : List UInt8 :=
  (List.range (sub32 p.nwrite p.nread)).map fun j => p.data ((p.nread + j) % PIPESIZE)

/-- The `for` loop of `pipewrite` from `i` on, up to a full pipe: where it stops. -/
def writeLoop (addr : Nat → UInt8) : Nat → Nat → Pipe → Nat × Pipe
  | 0, i, p => (i, p)
  | left + 1, i, p => if p.isFull then (i, p) else writeLoop addr left (i + 1) (p.put (addr i))

/-- The `for` loop of `piperead`: the bytes it stores. -/
def readLoop : Nat → Pipe → List UInt8 × Pipe
  | 0, p => ([], p)
  | left + 1, p =>
    if p.isEmpty then ([], p)
    else
      let (c, p) := p.take
      let (cs, p) := readLoop left p
      (c :: cs, p)

/-- How a section ends. -/
inductive End where
  | sleep
  | ret (r : Int)
  deriving DecidableEq

/-- A section of `pipewrite(p, addr, n)` at the loop index `i`: where the loop stops, the
pipe, and how the section ends. -/
def pipewrite (addr : Nat → UInt8) (n : Int) (killed : Bool) (i : Nat) (p : Pipe) : Nat × Pipe × End :=
  let (i, p) := p.writeLoop addr (n.toNat - i) i
  if n ≤ i then (i, p, .ret n)
  else if !p.readopen || killed then (i, p, .ret (-1))
  else (i, p, .sleep)

/-- A section of `piperead(p, addr, n)`: the bytes it stores at `addr`. -/
def piperead (n : Int) (killed : Bool) (p : Pipe) : List UInt8 × Pipe × End :=
  if p.isEmpty && p.writeopen then
    if killed then ([], p, .ret (-1)) else ([], p, .sleep)
  else
    let (cs, p) := p.readLoop n.toNat
    (cs, p, .ret cs.length)

end Pipe

/-! ## Threads -/

/-- What a thread is doing with the pipe. A sleeping writer waits on `&p->nwrite`, a
sleeping reader on `&p->nread`. -/
inductive PipeThread where
  | idle
  | writing (i : Nat) (n : Int) (asleep : Bool)
  | reading (n : Int) (asleep : Bool)
  deriving DecidableEq

/-- `wakeup(&p->nread)` and `wakeup(&p->nwrite)`, for one thread. -/
def PipeThread.wakeReader : PipeThread → PipeThread
  | .reading n _ => .reading n false
  | t => t

def PipeThread.wakeWriter : PipeThread → PipeThread
  | .writing i n _ => .writing i n false
  | t => t

/-- A pipe and the threads that use it. -/
structure PipeSys where
  pipe : Pipe
  thread : Nat → PipeThread := fun _ => .idle
  /-- Both ends were closed and the page was freed. -/
  freed : Bool := false

/-- What can happen, with the bytes that change hands. -/
inductive PipeOp where
  | callWrite (t : Nat) (n : Int)
  | callRead (t : Nat) (n : Int)
  | write (t : Nat) (bytes : List UInt8) (result : Pipe.End)
  | read (t : Nat) (n : Int) (bytes : List UInt8) (result : Pipe.End)
  | close (writable : Bool)
  /-- `kill` wakes a thread wherever it sleeps. -/
  | wake (t : Nat)

/-- The state of a thread after a section. -/
def Pipe.End.thread (sleeping : PipeThread) : Pipe.End → PipeThread
  | .sleep => sleeping
  | .ret _ => .idle

namespace PipeSys

/-- After a section of `pipewrite` by `t`. It wakes the readers unless it fails. -/
def wrote (s : PipeSys) (t : Nat) (n : Int) (i : Nat) (p : Pipe) (result : Pipe.End) : PipeSys :=
  let wake := if result = .ret (-1) ∧ ¬ n ≤ i then id else PipeThread.wakeReader
  { s with
    pipe := p
    thread := Function.update (fun u => wake (s.thread u)) t (result.thread (.writing i n true)) }

/-- After a section of `piperead` by `t`. It wakes the writers if it comes to the copy loop. -/
def haveRead (s : PipeSys) (t : Nat) (n : Int) (p : Pipe) (result : Pipe.End) : PipeSys :=
  let wake := if s.pipe.isEmpty && s.pipe.writeopen then id else PipeThread.wakeWriter
  { s with
    pipe := p
    thread := Function.update (fun u => wake (s.thread u)) t (result.thread (.reading n true)) }

/-- `pipeclose(p, writable)`. -/
def pipeclose (s : PipeSys) (writable : Bool) : PipeSys :=
  let p := if writable then { s.pipe with writeopen := false } else { s.pipe with readopen := false }
  { pipe := p
    thread := fun u => if writable then (s.thread u).wakeReader else (s.thread u).wakeWriter
    freed := !p.readopen && !p.writeopen }

end PipeSys

/-- One section, or one event between sections. Nothing happens to a pipe that was freed:
`fileclose` closes an end when no descriptor refers to it any more. -/
inductive PipeStep : PipeOp → PipeSys → PipeSys → Prop where
  | callWrite {s : PipeSys} {t : Nat} {n : Int} : s.freed = false → s.pipe.writeopen = true → s.thread t = .idle →
      PipeStep (.callWrite t n) s { s with thread := Function.update s.thread t (.writing 0 n false) }
  | callRead {s : PipeSys} {t : Nat} {n : Int} : s.freed = false → s.pipe.readopen = true → s.thread t = .idle →
      PipeStep (.callRead t n) s { s with thread := Function.update s.thread t (.reading n false) }
  | write {s : PipeSys} {t i j : Nat} {n : Int} {addr : Nat → UInt8} {killed : Bool} {p : Pipe} {result : Pipe.End} :
      s.freed = false → s.thread t = .writing i n false → s.pipe.pipewrite addr n killed i = (j, p, result) →
      PipeStep (.write t ((List.range' i (j - i)).map addr) result) s (s.wrote t n j p result)
  | read {s : PipeSys} {t : Nat} {n : Int} {killed : Bool} {cs : List UInt8} {p : Pipe} {result : Pipe.End} :
      s.freed = false → s.thread t = .reading n false → s.pipe.piperead n killed = (cs, p, result) →
      PipeStep (.read t n cs result) s (s.haveRead t n p result)
  | close {s : PipeSys} {writable : Bool} : s.freed = false →
      (if writable then s.pipe.writeopen else s.pipe.readopen) = true →
      PipeStep (.close writable) s (s.pipeclose writable)
  | wake {s : PipeSys} {t : Nat} : s.freed = false →
      PipeStep (.wake t) s
        { s with thread := Function.update s.thread t (s.thread t).wakeReader.wakeWriter }

/-- The bytes accepted from writers, in order of acceptance. -/
def PipeOp.accepted : PipeOp → List UInt8
  | .write _ bytes _ => bytes
  | _ => []

/-- The bytes handed to readers. -/
def PipeOp.delivered : PipeOp → List UInt8
  | .read _ _ bytes _ => bytes
  | _ => []

/-! ## The ring -/

namespace Pipe

variable {p p' : Pipe} {xs : List UInt8} {addr : Nat → UInt8}

def ring (p : Pipe) : Ring.Buf UInt8 := ⟨p.data, p.nread, p.nwrite⟩

/-- The pipe holds the bytes `xs`. -/
def Holds (p : Pipe) (xs : List UInt8) : Prop := Ring.Holds (2 ^ 32) PIPESIZE p.ring xs

theorem pipesize_lt : PIPESIZE < 2 ^ 32 := by decide

theorem pipesize_dvd : PIPESIZE ∣ 2 ^ 32 := by decide

theorem Holds.isFull (holds : p.Holds xs) : p.isFull = true ↔ xs.length = PIPESIZE := by
  rw [Pipe.isFull, beq_iff_eq]
  exact Ring.Holds.full_iff holds pipesize_lt

theorem Holds.isEmpty (holds : p.Holds xs) : p.isEmpty = true ↔ xs = [] := by
  rw [Pipe.isEmpty, beq_iff_eq]
  exact Ring.Holds.empty_iff holds pipesize_lt

theorem Holds.put (holds : p.Holds xs) (c : UInt8) (room : p.isFull = false) : (p.put c).Holds (xs ++ [c]) := by
  apply Ring.Holds.push holds pipesize_dvd
  refine Nat.lt_of_le_of_ne (Ring.Holds.fits holds) fun full => ?_
  rw [holds.isFull.2 full] at room
  cases room

theorem Holds.take {c : UInt8} (holds : p.Holds (c :: xs)) : p.take.1 = c ∧ p.take.2.Holds xs :=
  Ring.Holds.pop holds pipesize_dvd

/-- The bytes of the pipe, read off its counters. -/
theorem Holds.buffered (holds : p.Holds xs) : sub32 p.nwrite p.nread = xs.length ∧ p.buffered = xs := by
  have counter : p.nread < 2 ^ 32 := Ring.Holds.counter holds
  have used : sub32 p.nwrite p.nread = p.ring.used (2 ^ 32) := by
    rw [sub32, Nat.mod_eq_of_lt counter]
    rfl
  constructor
  · exact used.trans (Ring.Holds.used_eq holds pipesize_lt)
  · rw [Pipe.buffered, used]
    exact Ring.Holds.items_eq holds pipesize_lt

/-- The ends that are open are the same. -/
def SameEnds (p p' : Pipe) : Prop := p'.readopen = p.readopen ∧ p'.writeopen = p.writeopen

/-- The loop of `pipewrite` appends the bytes it has passed. -/
theorem Holds.writeLoop (left : Nat) :
    ∀ {i j : Nat} {p p' : Pipe} {xs : List UInt8}, p.Holds xs → p.writeLoop addr left i = (j, p') →
      i ≤ j ∧ p'.Holds (xs ++ (List.range' i (j - i)).map addr) ∧ p.SameEnds p' := by
  induction left with
  | zero =>
    intro i j p p' xs holds call
    cases call
    simpa [SameEnds] using holds
  | succ left ih =>
    intro i j p p' xs holds call
    rw [Pipe.writeLoop] at call
    split at call
    · cases call
      simpa [SameEnds] using holds
    · rename_i room
      obtain ⟨le, after, ends⟩ := ih (holds.put (addr i) (by simpa using room)) call
      refine ⟨by omega, ?_, ends⟩
      rwa [show j - i = j - (i + 1) + 1 by omega, List.range'_succ, map_cons, append_cons]

/-- The loop of `piperead` takes the oldest bytes. -/
theorem Holds.readLoop (left : Nat) :
    ∀ {p : Pipe} {xs : List UInt8}, p.Holds xs → (p.readLoop left).1 = xs.take left ∧
      (p.readLoop left).2.Holds (xs.drop left) ∧ p.SameEnds (p.readLoop left).2 := by
  induction left with
  | zero =>
    intro p xs holds
    exact ⟨take_zero.symm, holds, rfl, rfl⟩
  | succ left ih =>
    intro p xs holds
    rw [Pipe.readLoop]
    cases xs with
    | nil =>
      rw [if_pos (holds.isEmpty.2 rfl)]
      exact ⟨rfl, holds, rfl, rfl⟩
    | cons c xs =>
      have some : ¬ p.isEmpty = true := fun empty => cons_ne_nil _ _ (holds.isEmpty.1 empty)
      obtain ⟨first, rest⟩ := holds.take
      obtain ⟨taken, left', ends⟩ := ih rest
      rw [if_neg some]
      refine ⟨?_, left', ends⟩
      rw [take_succ_cons, ← taken, ← first]

/-- A section of `pipewrite` keeps what is there and appends. -/
theorem Holds.pipewrite {n : Int} {killed : Bool} {i j : Nat} {result : End} (holds : p.Holds xs)
    (call : p.pipewrite addr n killed i = (j, p', result)) :
    p'.Holds (xs ++ (List.range' i (j - i)).map addr) := by
  have loop := holds.writeLoop (n.toNat - i) (Eq.refl (p.writeLoop addr (n.toNat - i) i))
  unfold Pipe.pipewrite at call
  simp only at call
  split at call
  · cases call
    exact loop.2.1
  · split at call <;> cases call <;> exact loop.2.1

/-- A section of `piperead` hands out the oldest bytes; it returns 0 at the end of file only. -/
theorem Holds.piperead {n : Int} {killed : Bool} {cs : List UInt8} {result : End} (holds : p.Holds xs)
    (call : p.piperead n killed = (cs, p', result)) :
    (∃ ys, xs = cs ++ ys ∧ p'.Holds ys) ∧ (result = .ret 0 → 0 < n → xs = [] ∧ p.writeopen = false) := by
  unfold Pipe.piperead at call
  split at call
  · split at call
    · cases call
      exact ⟨⟨xs, rfl, holds⟩, by rintro ⟨⟩⟩
    · cases call
      exact ⟨⟨xs, rfl, holds⟩, by rintro ⟨⟩⟩
  · rename_i goesOn
    obtain ⟨taken, rest, _⟩ := holds.readLoop n.toNat
    cases call
    refine ⟨⟨xs.drop n.toNat, ?_, rest⟩, fun zero positive => ?_⟩
    · rw [taken, take_append_drop]
    · have none : (xs.take n.toNat).length = 0 := by
        rw [← taken]
        exact Int.ofNat_inj.1 (End.ret.inj zero)
      have empty : xs = [] := by
        cases xs with
        | nil => rfl
        | cons c xs =>
          rw [length_take, length_cons] at none
          omega
      refine ⟨empty, ?_⟩
      rw [holds.isEmpty.2 empty] at goesOn
      simpa using goesOn

end Pipe

/-! ## Runs -/

section Fifo

variable {s s' s0 : PipeSys} {op : PipeOp} {ops : List PipeOp} {xs : List UInt8}

/-- What a step accepts goes in at one end, what it delivers comes out at the other. -/
theorem PipeStep.fifo (step : PipeStep op s s') (holds : s.pipe.Holds xs) :
    ∃ ys, s'.pipe.Holds ys ∧ xs ++ op.accepted = op.delivered ++ ys := by
  cases step with
  | callWrite => exact ⟨xs, holds, append_nil xs⟩
  | callRead => exact ⟨xs, holds, append_nil xs⟩
  | write _ _ call => exact ⟨_, holds.pipewrite call, rfl⟩
  | read _ _ call =>
    obtain ⟨⟨ys, split, after⟩, _⟩ := holds.piperead call
    exact ⟨ys, after, (append_nil xs).trans split⟩
  | @close _ writable =>
    refine ⟨xs, ?_, append_nil xs⟩
    cases writable <;> exact holds
  | wake => exact ⟨xs, holds, append_nil xs⟩

theorem pipe_run (empty : s0.pipe.Holds []) (run : Trace PipeStep s0 ops s) :
    ∃ xs, s.pipe.Holds xs ∧ ops.flatMap PipeOp.accepted = ops.flatMap PipeOp.delivered ++ xs := by
  refine run.history
    (I := fun ops s => ∃ xs, s.pipe.Holds xs ∧ ops.flatMap PipeOp.accepted = ops.flatMap PipeOp.delivered ++ xs)
    ?_ ⟨[], empty, rfl⟩
  intro ops op s s' before step
  obtain ⟨xs, holds, balance⟩ := before
  obtain ⟨ys, after, moved⟩ := step.fifo holds
  refine ⟨ys, after, ?_⟩
  calc (ops ++ [op]).flatMap PipeOp.accepted
      = ops.flatMap PipeOp.accepted ++ op.accepted := by simp
    _ = ops.flatMap PipeOp.delivered ++ (xs ++ op.accepted) := by rw [balance, append_assoc]
    _ = ops.flatMap PipeOp.delivered ++ (op.delivered ++ ys) := by rw [moved]
    _ = (ops ++ [op]).flatMap PipeOp.delivered ++ ys := by simp

/-- **A pipe is a lossless queue**, from any value of its counters: at most `PIPESIZE`
bytes are in it, the bytes accepted are those delivered and then those buffered, and a
read of a positive number of bytes that returns 0 finds every byte read and the write end
closed. -/
theorem pipe_fifo (same : s0.pipe.nread = s0.pipe.nwrite) (word : s0.pipe.nread < 2 ^ 32)
    (run : Trace PipeStep s0 ops s) :
    sub32 s.pipe.nwrite s.pipe.nread ≤ PIPESIZE ∧
      ops.flatMap PipeOp.accepted = ops.flatMap PipeOp.delivered ++ s.pipe.buffered ∧
      ∀ t n cs s', PipeStep (.read t n cs (.ret 0)) s s' → 0 < n →
        ops.flatMap PipeOp.accepted = ops.flatMap PipeOp.delivered ∧ s.pipe.writeopen = false := by
  have empty : s0.pipe.Holds [] := Ring.Holds.empty word same
  obtain ⟨xs, holds, balance⟩ := pipe_run empty run
  obtain ⟨count, isBuffered⟩ := holds.buffered
  refine ⟨count ▸ Ring.Holds.fits holds, isBuffered.symm ▸ balance, ?_⟩
  intro t n cs s' step positive
  cases step with
  | read _ _ call =>
    obtain ⟨none, closed⟩ := (holds.piperead call).2 rfl positive
    rw [none, List.append_nil] at balance
    exact ⟨balance, closed⟩

end Fifo

/-- An empty pipe whose counters are about to wrap. -/
def wornPipe : PipeSys where
  pipe := { Pipe.alloc fun _ => 0 with nread := 0xffffffff, nwrite := 0xffffffff }

/-- Two bytes go in across the point where `nwrite` wraps. -/
theorem pipe_fifo_wraps :
    ∃ s, Trace PipeStep wornPipe [.callWrite 0 2, .write 0 [104, 105] (.ret 2)] s ∧
      s.pipe.nwrite = 1 ∧ s.pipe.buffered = [104, 105] := by
  have call : PipeStep (.callWrite 0 2) wornPipe _ := .callWrite rfl rfl rfl
  have write := @PipeStep.write { wornPipe with thread := Function.update wornPipe.thread 0 (.writing 0 2 false) }
    0 0 2 2 (fun i => if i = 0 then 104 else 105) false _ (.ret 2) rfl rfl rfl
  have run := Trace.snoc (.snoc .nil call) write
  exact ⟨_, run, rfl, (pipe_fifo rfl (by decide) run).2.1.symm⟩

end Xv6
