import Xv6.Lib.Tables
import Xv6.Lib.Words
import Xv6.Proc.BootExec

/-!
# `kill` and recycled process slots

`kill` looks for a pid in the whole process table, used slots or not. A slot that is not in
use keeps the pid it had: 0 after `wait`, the pid of a child that was never born after a
failed `fork`. A signal sent to such a slot waits there for the next process that gets the
slot, because `allocproc` does not clear `killed`.
-/

namespace Xv6
open Fallible Runs Tables Words Function

/-- The `int` pid of a process. -/
def Proc.intPid (p : Proc) : Int := toInt32 (p.pid % 2 ^ 32)

/-- The slot that `kill(pid)` finds. -/
def Kernel.target (k : Kernel) (pid : Int) : Option Nat := first (fun i => (k.proc i).intPid = pid) NPROC

/-- `kill(pid)`. -/
def kill (pid : Int) (k : Kernel) : Int × Kernel :=
  match k.target pid with
  | none => (-1, k)
  | some i =>
    let p := k.proc i
    (0, k.setProc i { p with killed := true, state := if p.state = .sleeping then .runnable else p.state })

/-- The calls that signal, make and remove processes. -/
inductive SignalOp where
  | kill (pid r : Int)
  | fork (i : Nat) (r : Int)
  | exit (i : Nat)
  | wait (i : Nat) (r : Int)

inductive SignalStep : SignalOp → Kernel → Kernel → Prop where
  | kill {k k' : Kernel} {pid r : Int} : Xv6.kill pid k = (r, k') → SignalStep (.kill pid r) k k'
  | fork {k k' : Kernel} {i : Nat} {created : Nat → Inode} {r : Int} : i < NPROC → (k.proc i).canRun →
      Xv6.fork created i k = .ok (r, k') → SignalStep (.fork i r) k k'
  | exit {k k' : Kernel} {i : Nat} {unlinked : Bool} : i < NPROC → (k.proc i).canRun →
      Xv6.exit unlinked i k = .ok k' → SignalStep (.exit i) k k'
  | wait {k k' : Kernel} {i : Nat} {r : Int} : i < NPROC → (k.proc i).canRun →
      Xv6.wait i k = .ok (some r, k') → SignalStep (.wait i r) k k'

/-- A successful `kill` has found a process that exists and has marked it and no other. -/
def Signalled (pid : Int) (k k' : Kernel) : Prop :=
  ∃ i < NPROC, (k.proc i).state ≠ .unused ∧ (k.proc i).intPid = pid ∧ (k'.proc i).killed = true ∧
    ∀ j, j ≠ i → k'.proc j = k.proc j

/-- What is promised of one call: a successful `kill` has signalled a process, and a slot that comes into use has no
signal. -/
structure SignalStep.Kept (op : SignalOp) (k k' : Kernel) : Prop where
  kill : ∀ pid, op = .kill pid 0 → Signalled pid k k'
  fresh : ∀ j < NPROC, (k.proc j).state = .unused → (k'.proc j).state ≠ .unused → (k'.proc j).killed = false

/-- The slot that a `kill` finds, if any, is in use. -/
def SignalOp.Aimed (k : Kernel) : SignalOp → Prop
  | .kill pid _ => ∀ i, k.target pid = some i → (k.proc i).state ≠ .unused
  | _ => True

/-- A call whose signal, if it sends one, is aimed at a process. -/
def AimedStep (op : SignalOp) (k k' : Kernel) : Prop := SignalStep op k k' ∧ op.Aimed k

/-- Slots that are not in use have no signal waiting. -/
def Kernel.NoSignals (k : Kernel) : Prop := ∀ j < NPROC, (k.proc j).state = .unused → (k.proc j).killed = false

section Calls

variable {k k' : Kernel} {op : SignalOp} {i j : Nat} {r : Int} {created : Nat → Inode}

/-- What `kill` does. -/
theorem kill_cases {pid : Int} (call : kill pid k = (r, k')) :
    (k.target pid = none ∧ r = -1 ∧ k' = k) ∨
    ∃ i, k.target pid = some i ∧ r = 0 ∧ (k'.proc i).killed = true ∧
      ((k'.proc i).state = .unused ↔ (k.proc i).state = .unused) ∧ ∀ j, j ≠ i → k'.proc j = k.proc j := by
  unfold kill at call
  split at call
  · rename_i missing
    cases call
    exact .inl ⟨missing, rfl, rfl⟩
  · rename_i i found
    cases call
    refine .inr ⟨i, found, rfl, ?_, ?_, ?_⟩
    · simp [Kernel.setProc]
    · simp only [Kernel.setProc, update_self]
      split
      · rename_i asleep
        simp [asleep]
      · exact Iff.rfl
    · intro j other
      exact update_of_ne other ..

theorem Kernel.target_some {pid : Int} (found : k.target pid = some i) : i < NPROC ∧ (k.proc i).intPid = pid := by
  obtain ⟨bound, same, _⟩ := first_some found
  exact ⟨bound, by simpa using same⟩

/-- What a call leaves of a slot that it may have taken: the signal is as it was, and a slot in use stays in use. -/
def Proc.Taken (p p' : Proc) : Prop := p'.killed = p.killed ∧ (p'.state = .unused → p.state = .unused)

theorem Proc.Taken.trans {p p' p'' : Proc} (first : p.Taken p') (second : p'.Taken p'') : p.Taken p'' :=
  ⟨second.1.trans first.1, fun unused => first.2 (second.2 unused)⟩

/-- `allocproc` clears no signal. -/
theorem allocproc_taken {a : Option Nat} (call : allocproc k = (a, k')) (j : Nat) : (k.proc j).Taken (k'.proc j) := by
  cases allocproc_cases call with
  | full => exact ⟨rfl, id⟩
  | @noStack l _ unused => by_cases here : j = l <;> simp [Proc.Taken, here]
  | @noQueue l _ _ _ _ unused => by_cases here : j = l <;> simp [Proc.Taken, here]
  | @found l _ _ _ _ _ unused => by_cases here : j = l <;> simp [Proc.Taken, here]

theorem forkChild_taken {parent child p : Proc} {d : PgDir} (call : forkChild created i parent child d = .ok p) :
    child.Taken p := by
  obtain ⟨files, _, rest⟩ := bind_ok.1 call
  obtain ⟨mq, _, rest⟩ := bind_ok.1 rest
  obtain ⟨vtab, _, rest⟩ := bind_ok.1 rest
  cases rest
  refine ⟨rfl, ?_⟩
  rintro ⟨⟩

/-- **`fork` clears no signal**, whether it succeeds or not. -/
theorem fork_taken (call : fork created i k = .ok (r, k')) (j : Nat) : (k.proc j).Taken (k'.proc j) := by
  unfold fork at call
  split at call
  · rename_i k1 alloc
    cases call
    exact allocproc_taken alloc j
  · rename_i l k1 alloc
    obtain ⟨⟨child, d, km⟩, copy, rest⟩ := bind_ok.1 call
    have parent : ∀ j, (k1.proc j).Taken ((k1.setProc i { k1.proc i with pgdir := d }).proc j) := by
      intro j
      by_cases here : j = i <;> simp [Proc.Taken, Kernel.setProc, here]
    cases child with
    | none =>
      simp only at rest
      split at rest
      · cases rest
      · obtain ⟨_, _, rest⟩ := bind_ok.1 rest
        cases rest
        by_cases here : j = l
        · subst here
          -- the slot was not in use when the call began
          have unused := allocproc_first alloc
          refine ⟨?_, fun _ => by simpa using List.find?_some unused⟩
          simp only [Kernel.setProc, update_self]
          exact (parent j).1.trans (allocproc_taken alloc j).1
        · simp only [Kernel.setProc, update_of_ne here]
          exact (allocproc_taken alloc j).trans (parent j)
    | some d' =>
      obtain ⟨p, made, rest⟩ := bind_ok.1 rest
      cases rest
      refine (allocproc_taken alloc j).trans ((parent j).trans ?_)
      by_cases here : j = l
      · subst here
        simp only [Kernel.setProc, update_self]
        exact forkChild_taken made
      · simp only [Kernel.setProc, update_of_ne here]
        exact ⟨rfl, id⟩

/-- `exit` changes one state and signals nobody. -/
theorem exit_slots {unlinked : Bool} (call : exit unlinked i k = .ok k') :
    (k'.proc i).state = .zombie ∧ ∀ j, (k'.proc j).killed = (k.proc j).killed ∧
      (j ≠ i → (k'.proc j).state = (k.proc j).state) := by
  unfold exit at call
  split at call
  · cases call
  · split at call
    · cases call
    · cases call
      refine ⟨by simp, fun j => ?_⟩
      by_cases here : j = i
      · subst here
        refine ⟨?_, fun not => absurd rfl not⟩
        simp only [update_self]
        split <;> rfl
      · simp only [update_of_ne here]
        constructor
        · split <;> rfl
        · intro _
          split <;> rfl

/-- **One call.** When no signal waits in an unused slot, a call that is aimed at a process keeps the promise and leaves
no such signal. -/
theorem SignalStep.keeps (step : SignalStep op k k') (none_ : k.NoSignals) (aimed : op.Aimed k) :
    SignalStep.Kept op k k' ∧ k'.NoSignals := by
  cases step with
  | @kill _ _ pid r call =>
    rcases kill_cases call with ⟨_, rfl, rfl⟩ | ⟨i, found, rfl, marked, used, others⟩
    · refine ⟨⟨?_, fun j _ unused used => absurd unused used⟩, none_⟩
      rintro _ ⟨⟩
    · have alive := aimed i found
      obtain ⟨bound, isPid⟩ := Kernel.target_some found
      have same : ∀ j, (k.proc j).state = .unused → k'.proc j = k.proc j := by
        intro j unused
        apply others
        rintro rfl
        exact alive unused
      constructor
      · constructor
        · rintro _ ⟨⟩
          exact ⟨i, bound, alive, isPid, marked, others⟩
        · intro j inside unused
          rw [same j unused]
          exact fun used => absurd unused used
      · intro j inside unused
        by_cases here : j = i
        · subst here
          exact absurd (used.1 unused) alive
        · rw [others j here] at unused ⊢
          exact none_ j inside unused
  | fork _ _ call =>
    have taken := fork_taken call
    constructor
    · constructor
      · rintro _ ⟨⟩
      · intro j inside unused _
        rw [(taken j).1]
        exact none_ j inside unused
    · intro j inside unused
      rw [(taken j).1]
      exact none_ j inside ((taken j).2 unused)
  | @exit _ _ i _ _ canRun call =>
    obtain ⟨zombie, slots⟩ := exit_slots call
    constructor
    · constructor
      · rintro _ ⟨⟩
      · intro j inside unused _
        rw [(slots j).1]
        exact none_ j inside unused
    · intro j inside unused
      rw [(slots j).1]
      apply none_ j inside
      by_cases here : j = i
      · subst here
        rw [zombie] at unused
        cases unused
      · rw [← (slots j).2 here]
        exact unused
  | wait _ _ call =>
    cases wait_ok call with
    | none =>
      refine ⟨⟨?_, fun j _ unused used => absurd unused used⟩, none_⟩
      rintro _ ⟨⟩
    | @reaped l f km km' bound parent zombie kstack free freed =>
      constructor
      · constructor
        · rintro _ ⟨⟩
        · intro j inside unused used
          by_cases here : j = l
          · simp [here]
          · simp only [update_of_ne here] at used
            exact absurd unused used
      · intro j inside unused
        by_cases here : j = l
        · simp [here]
        · simp only [update_of_ne here] at unused ⊢
          exact none_ j inside unused

/-- A `kill` that finds an unused slot does not keep the promise. -/
theorem SignalStep.aimed (step : SignalStep op k k') (none_ : k.NoSignals) (kept : SignalStep.Kept op k k') : op.Aimed k := by
  cases step with
  | @kill _ _ pid r call =>
    intro i found unused
    rcases kill_cases call with ⟨missing, _⟩ | ⟨l, found', rfl, marked, _⟩
    · cases found.symm.trans missing
    · cases found.symm.trans found'
      obtain ⟨j, _, alive, _, _, others⟩ := kept.kill pid rfl
      have ne : i ≠ j := by
        rintro rfl
        exact alive unused
      rw [others i ne, none_ i (Kernel.target_some found).1 unused] at marked
      cases marked
  | fork _ _ _ => trivial
  | exit _ _ _ => trivial
  | wait _ _ _ => trivial

theorem Kernel.NoSignals.run {k0 : Kernel} {ls : List SignalOp} (run : Trace AimedStep k0 ls k) (start : k0.NoSignals) :
    k.NoSignals :=
  run.invariant (fun _ _ _ none_ step => (step.1.keeps none_ step.2).2) start

end Calls

section Runs

variable {size : Nat} {init : Bytes} {km0 : Kmem} {k0 k k' : Kernel}

end Runs

end Xv6
