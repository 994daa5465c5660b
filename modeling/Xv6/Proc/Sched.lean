import Xv6.Lib.Runs
import Xv6.Proc.Ptable

/-!
# Processes on several CPUs (`proc.c`)

The threads of all processes and the schedulers of all CPUs, interleaved. A step is what
one of them does between two points at which it takes or gives up a lock, or a single
write that `fork` makes without a lock. `ptable.lock` is held by a CPU: a thread that
takes it and calls `sched` leaves it to the scheduler of its CPU, which gives it to the
thread it runs next or releases it. A CPU runs a process, looks for one, or is idle; there
are as many CPUs as a run uses.
-/

namespace Xv6.Sched
open Tables

/-- A CPU: outside of its scheduler's loop over the table, in the loop at slot `j` with `ptable.lock` held, or running
a process (`c->proc`). -/
inductive Cpu where
  | idle
  | scanning (j : Nat)
  | running (p : Nat)
  deriving DecidableEq, Repr

/-- Who can hold a spinlock: a process, or an interrupt handler on a CPU. -/
inductive Agent where
  | proc (p : Nat)
  | intr (c : Nat)
  deriving DecidableEq, Repr

structure Sys where
  nproc : Nat
  initproc : Nat
  nextpid : Nat
  slot : Table
  cpu : Nat → Cpu
  -- the CPU that holds `ptable.lock`
  plock : Option Nat
  -- the holders of the other spinlocks
  lock : Nat → Option Agent

/-- After `userinit`, for a table of `n + 1` slots. -/
def boot (n : Nat) : Sys where
  nproc := n + 1
  initproc := 0
  nextpid := 2
  slot := Function.update (fun _ => {}) 0 { state := .runnable, pid := 1 }
  cpu _ := .idle
  plock := none
  lock _ := none

namespace Sys

/-- The thread of `p` runs on CPU `c` and is at `pc`. -/
def At (s : Sys) (c p : Nat) (pc : Pc) : Prop := s.cpu c = .running p ∧ (s.slot p).pc = pc

/-- An agent outside of `ptable.lock`. -/
def Acts (s : Sys) : Agent → Prop
  | .proc p => ∃ c, s.At c p .free
  | .intr _ => True

/-- `sched` panics unless `ptable.lock` is the only spinlock held. -/
def NoLocks (s : Sys) (p : Nat) : Prop := ∀ l, s.lock l ≠ some (.proc p)

def setSlot (s : Sys) (p : Nat) (x : Slot) : Sys := { s with slot := Function.update s.slot p x }

/-- `sched`: the thread of `p` is switched out, and the scheduler of its CPU goes on after `p` with the lock held. -/
def swtch (s : Sys) (c p : Nat) (x : Slot) : Sys :=
  { s with slot := Function.update s.slot p x, cpu := Function.update s.cpu c (.scanning (p + 1)) }

/-- The thread of `p` leaves the table as `t` and releases `ptable.lock`. -/
def unlock (s : Sys) (p : Nat) (t : Table) : Sys :=
  { s with slot := Function.update t p { t p with pc := .free }, plock := none }

/-- Which parts of the kernel a thread outside of `ptable.lock` can enter: `exit` panics for init, and a `fork` that is
under way is ended first. -/
def Enters (s : Sys) (p : Nat) : Call → Prop
  | .exit => p ≠ s.initproc ∧ (s.slot p).np = none
  | .wait => (s.slot p).np = none
  | .allocproc => (s.slot p).np = none
  | .ready => ∃ q, (s.slot p).np = some (q, true)
  | .sleeping _ _ => False
  | _ => True

end Sys

/-- A process that has been chosen by the scheduler, back in its own thread, and whether it still holds `ptable.lock`. -/
def Slot.resume (x : Slot) : Option (Slot × Bool) :=
  match x.pc with
  | .forkret => some ({ x with state := .running, pc := .free }, false)
  | .yielded => some ({ x with state := .running, pc := .free }, false)
  | .slept l => some ({ x with state := .running, chan := none, pc := .relock l }, false)
  | .waiting => some ({ x with state := .running, chan := none, pc := .locked .wait }, true)
  | .sectioned => some ({ x with state := .running, chan := none, pc := .locked .section_ }, true)
  | _ => none

inductive Event where
  | acquire (a : Agent) (l : Nat)
  | release (a : Agent) (l : Nat)
  -- `acquire(&ptable.lock)`
  | enter (p : Nat) (call : Call)
  | yield (p : Nat)
  -- `release(lk)` in `sleep`
  | unlockSleep (p : Nat)
  | sleep (p : Nat) (ch : Chan)
  -- `sleep` returns
  | relock (p l : Nat)
  | wakeup (a : Agent) (ch : Chan)
  | kill (p : Nat) (pid r : Int)
  | exit (p : Nat)
  -- `wait` of `p` returns the pid of slot `i`
  | reap (p i pid : Nat)
  | waitNone (p : Nat)
  | waitSleep (p : Nat)
  | alloc (p : Nat) (q : Option Nat)
  | setParent (p q : Nat)
  | forkFail (p q : Nat)
  | forkAbandon (p q : Nat)
  -- `fork` of `p` returns the pid of slot `q`
  | ready (p q : Nat)
  | scanStart (c : Nat)
  | scanNext (c : Nat)
  | scanDone (c : Nat)
  | dispatch (c j : Nat)
  | sectionSleep (p : Nat) (ch : Chan)
  | sectionLeave (p : Nat)

/-- What the threads and the schedulers do. -/
inductive Step : Event → Sys → Sys → Prop where
  | acquire {s : Sys} {a : Agent} {l : Nat} : s.Acts a → s.lock l = none →
      Step (.acquire a l) s { s with lock := Function.update s.lock l (some a) }
  | release {s : Sys} {a : Agent} {l : Nat} : s.Acts a → s.lock l = some a →
      Step (.release a l) s { s with lock := Function.update s.lock l none }
  | enter {s : Sys} {c p : Nat} {call : Call} : s.At c p .free → s.plock = none → s.Enters p call →
      Step (.enter p call) s { s.setSlot p { s.slot p with pc := .locked call } with plock := some c }
  | yield {s : Sys} {c p : Nat} : s.At c p (.locked .yield) → s.NoLocks p →
      Step (.yield p) s (s.swtch c p { s.slot p with state := .runnable, pc := .yielded })
  | unlockSleep {s : Sys} {c p l : Nat} {ch : Chan} : s.At c p (.locked (.sleep ch l)) → s.lock l = some (.proc p) →
      Step (.unlockSleep p) s
        { s.setSlot p { s.slot p with pc := .locked (.sleeping ch l) } with lock := Function.update s.lock l none }
  | sleep {s : Sys} {c p l : Nat} {ch : Chan} : s.At c p (.locked (.sleeping ch l)) → s.NoLocks p →
      Step (.sleep p ch) s (s.swtch c p { s.slot p with chan := some ch, state := .sleeping, pc := .slept l })
  | relock {s : Sys} {c p l : Nat} : s.At c p (.relock l) → s.lock l = none →
      Step (.relock p l) s
        { s.setSlot p { s.slot p with pc := .free } with lock := Function.update s.lock l (some (.proc p)) }
  | wakeup {s : Sys} {c p : Nat} {ch : Chan} : s.At c p (.locked (.wakeup ch)) →
      Step (.wakeup (.proc p) ch) s (s.unlock p (wakeup1 s.nproc (some ch) s.slot))
  -- an interrupt handler takes and releases the lock
  | wakeupIntr {s : Sys} {c : Nat} {ch : Chan} : s.plock = none →
      Step (.wakeup (.intr c) ch) s { s with slot := wakeup1 s.nproc (some ch) s.slot }
  | kill {s : Sys} {c p : Nat} {pid r : Int} {t : Table} : s.At c p (.locked (.kill pid)) →
      Sched.kill s.nproc pid s.slot = (r, t) → Step (.kill p pid r) s (s.unlock p t)
  | exit {s : Sys} {c p : Nat} : s.At c p (.locked .exit) → s.Enters p .exit → s.NoLocks p →
      Step (.exit p) s { s with
        slot := Sched.exit s.nproc s.initproc p s.slot
        cpu := Function.update s.cpu c (.scanning (p + 1)) }
  | reap {s : Sys} {c p i : Nat} : s.At c p (.locked .wait) → exited s.nproc p s.slot = some i →
      Step (.reap p i (s.slot i).pid) s (s.unlock p (Sched.reap i s.slot))
  | waitNone {s : Sys} {c p : Nat} : s.At c p (.locked .wait) → exited s.nproc p s.slot = none →
      haveKids s.nproc p s.slot = false ∨ (s.slot p).killed = true → Step (.waitNone p) s (s.unlock p s.slot)
  | waitSleep {s : Sys} {c p : Nat} : s.At c p (.locked .wait) → exited s.nproc p s.slot = none →
      haveKids s.nproc p s.slot = true → (s.slot p).killed = false → s.NoLocks p →
      Step (.waitSleep p) s
        (s.swtch c p { s.slot p with chan := some (.proc p), state := .sleeping, pc := .waiting })
  | allocNone {s : Sys} {c p : Nat} : s.At c p (.locked .allocproc) → unused s.nproc s.slot = none →
      Step (.alloc p none) s (s.unlock p s.slot)
  | alloc {s : Sys} {c p q : Nat} : s.At c p (.locked .allocproc) → s.Enters p .allocproc →
      unused s.nproc s.slot = some q →
      Step (.alloc p (some q)) s
        { (s.setSlot q { s.slot q with state := .embryo, pid := s.nextpid, pc := .forkret }).setSlot p
            { s.slot p with np := some (q, false), pc := .free } with
          plock := none
          nextpid := s.nextpid + 1 }
  -- `np->parent = curproc`, without the lock
  | setParent {s : Sys} {c p q : Nat} : s.At c p .free → (s.slot p).np = some (q, false) →
      Step (.setParent p q) s
        ((s.setSlot q { s.slot q with parent := some p }).setSlot p { s.slot p with np := some (q, true) })
  -- no kernel stack, or `copyuvm` has failed: `np->state = UNUSED`, without the lock
  | forkFail {s : Sys} {c p q : Nat} : s.At c p .free → (s.slot p).np = some (q, false) →
      Step (.forkFail p q) s ((s.setSlot q { s.slot q with state := .unused }).setSlot p { s.slot p with np := none })
  -- `mem_alloc` or `copy_mem` has failed: the child stays as it is
  | forkAbandon {s : Sys} {c p q : Nat} {set_ : Bool} : s.At c p .free → (s.slot p).np = some (q, set_) →
      Step (.forkAbandon p q) s (s.setSlot p { s.slot p with np := none })
  | ready {s : Sys} {c p q : Nat} : s.At c p (.locked .ready) → (s.slot p).np = some (q, true) →
      Step (.ready p q) s
        { (s.setSlot q { s.slot q with state := .runnable }).setSlot p { s.slot p with np := none, pc := .free } with
          plock := none }
  | scanStart {s : Sys} {c : Nat} : s.cpu c = .idle → s.plock = none →
      Step (.scanStart c) s { s with cpu := Function.update s.cpu c (.scanning 0), plock := some c }
  | scanNext {s : Sys} {c j : Nat} : s.cpu c = .scanning j → j < s.nproc → (s.slot j).state ≠ .runnable →
      Step (.scanNext c) s { s with cpu := Function.update s.cpu c (.scanning (j + 1)) }
  | scanDone {s : Sys} {c j : Nat} : s.cpu c = .scanning j → s.nproc ≤ j →
      Step (.scanDone c) s { s with cpu := Function.update s.cpu c .idle, plock := none }
  | dispatch {s : Sys} {c j : Nat} {x : Slot} {keeps : Bool} : s.cpu c = .scanning j → j < s.nproc →
      (s.slot j).state = .runnable → (s.slot j).resume = some (x, keeps) →
      Step (.dispatch c j) s
        { s.setSlot j x with
          cpu := Function.update s.cpu c (.running j)
          plock := if keeps then s.plock else none }
  | sectionSleep {s : Sys} {c p : Nat} {ch : Chan} : s.At c p (.locked .section_) → s.NoLocks p →
      Step (.sectionSleep p ch) s
        (s.swtch c p { s.slot p with chan := some ch, state := .sleeping, pc := .sectioned })
  | sectionWake {s : Sys} {c p : Nat} {ch : Chan} : s.At c p (.locked .section_) →
      Step (.wakeup (.proc p) ch) s { s with slot := wakeup1 s.nproc (some ch) s.slot }
  | sectionLeave {s : Sys} {c p : Nat} : s.At c p (.locked .section_) → Step (.sectionLeave p) s (s.unlock p s.slot)

end Xv6.Sched
