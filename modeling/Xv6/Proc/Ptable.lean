import Xv6.Lib.Tables
import Xv6.Lib.Words
import Xv6.Proc.Proc

/-!
# The process table under its lock (`proc.c`)

What the functions of `proc.c` do to the process table while they hold `ptable.lock`. The
table has `n` slots; the fields are those that the scheduler, `fork`, `exit`, `wait`,
`kill`, `sleep` and `wakeup` use. With them goes the place in the kernel at which the
thread of the process is.
-/

namespace Xv6.Sched
open Tables Words Function List

/-- `void *chan`: the address of a process, or of something else. -/
inductive Chan where
  | proc (i : Nat)
  | other (a : Nat)
  deriving DecidableEq, Repr

/-- What a thread is about to do with `ptable.lock` held. `section_` is any other piece of code that takes the lock. -/
inductive Call where
  | yield
  | sleep (ch : Chan) (l : Nat)
  -- `sleep` after `release(lk)`
  | sleeping (ch : Chan) (l : Nat)
  | wakeup (ch : Chan)
  | kill (pid : Int)
  | exit
  | wait
  | allocproc
  -- the end of `fork`
  | ready
  | section_
  deriving DecidableEq, Repr

/-- Where a thread is: outside of the lock, inside, or switched out, in which case the scheduler returns to it there. -/
inductive Pc where
  | free
  | locked (call : Call)
  -- the end of `sleep`, before `acquire(lk)`
  | relock (l : Nat)
  | forkret
  | yielded
  | slept (l : Nat)
  -- `sleep(chan, &ptable.lock)` in `wait` and elsewhere
  | waiting
  | sectioned
  | dead
  deriving DecidableEq, Repr

/-- A slot of `ptable.proc`. `np` is the child that a `fork` of the process is making, and whether its `parent` is set. -/
structure Slot where
  state : ProcState := .unused
  pid : Nat := 0
  parent : Option Nat := none
  chan : Option Chan := none
  killed : Bool := false
  pc : Pc := .forkret
  np : Option (Nat × Bool) := none

abbrev Table := Nat → Slot

/-- `wakeup1(chan)`. -/
def wakeup1 (n : Nat) (ch : Option Chan) (t : Table) : Table := fun i =>
  if i < n ∧ (t i).state = .sleeping ∧ (t i).chan = ch then { t i with state := .runnable } else t i

/-- `kill(pid)`. -/
def kill (n : Nat) (pid : Int) (t : Table) : Int × Table :=
  match first (fun i => toInt32 ((t i).pid % 2 ^ 32) = pid) n with
  | none => (-1, t)
  | some i =>
    (0, Function.update t i
      { t i with killed := true, state := if (t i).state = .sleeping then .runnable else (t i).state })

/-- The body of the loop of `exit`: an abandoned child is passed to init. -/
def orphan (n initproc p : Nat) (t : Table) (i : Nat) : Table :=
  if (t i).parent = some p then
    let t := Function.update t i { t i with parent := some initproc }
    if (t i).state = .zombie then wakeup1 n (some (.proc initproc)) t else t
  else t

/-- `exit` with the lock held. -/
def exit (n initproc p : Nat) (t : Table) : Table :=
  let t := wakeup1 n ((t p).parent.map .proc) t
  let t := (List.range n).foldl (orphan n initproc p) t
  Function.update t p { t p with state := .zombie, pc := .dead }

/-- The child that the loop of `wait` finds. -/
def exited (n p : Nat) (t : Table) : Option Nat :=
  first (fun i => (t i).parent = some p ∧ (t i).state = .zombie) n

/-- `havekids`. -/
def haveKids (n p : Nat) (t : Table) : Bool := decide (∃ i < n, (t i).parent = some p)

/-- `wait` frees the slot of a child. -/
def reap (i : Nat) (t : Table) : Table :=
  Function.update t i { t i with pid := 0, parent := none, killed := false, state := .unused }

/-- The slot that `allocproc` finds. -/
def unused (n : Nat) (t : Table) : Option Nat := first (fun i => (t i).state = .unused) n

/-! ## What they leave -/

section Bodies

variable {n initproc p i : Nat} {t t' : Table} {x y z : Slot}

/-- A slot after signals and wake-ups: its process may have become runnable. -/
structure Slot.Woken (x y : Slot) : Prop where
  state : y.state = x.state ∨ x.state = .sleeping ∧ y.state = .runnable
  pid : y.pid = x.pid
  parent : y.parent = x.parent
  chan : y.chan = x.chan
  pc : y.pc = x.pc
  np : y.np = x.np

theorem Slot.Woken.refl (x : Slot) : x.Woken x := ⟨.inl rfl, rfl, rfl, rfl, rfl, rfl⟩

theorem Slot.Woken.trans (first : x.Woken y) (second : y.Woken z) : x.Woken z := by
  refine ⟨?_, second.pid.trans first.pid, second.parent.trans first.parent, second.chan.trans first.chan,
    second.pc.trans first.pc, second.np.trans first.np⟩
  rcases second.state with same | ⟨asleep, up⟩
  · rw [same]
    exact first.state
  · rcases first.state with same | ⟨_, awake⟩
    · exact .inr ⟨same ▸ asleep, up⟩
    · rw [awake] at asleep
      cases asleep

theorem wakeup1_woken (n : Nat) (ch : Option Chan) (t : Table) (i : Nat) : (t i).Woken (wakeup1 n ch t i) := by
  unfold wakeup1
  split
  · rename_i asleep
    exact ⟨.inr ⟨asleep.2.1, rfl⟩, rfl, rfl, rfl, rfl, rfl⟩
  · exact .refl _

theorem wakeup1_wakes {ch : Option Chan} (inside : i < n) (chan : (t i).chan = ch) :
    (wakeup1 n ch t i).state ≠ .sleeping := by
  unfold wakeup1
  split
  · simp
  · rename_i awake
    intro asleep
    exact awake ⟨inside, asleep, chan⟩

theorem kill_woken {pid r : Int} (call : kill n pid t = (r, t')) (i : Nat) : (t i).Woken (t' i) := by
  unfold kill at call
  split at call
  · cases call
    exact .refl _
  · rename_i j _
    cases call
    by_cases here : i = j
    · subst here
      simp only [update_self]
      refine ⟨?_, rfl, rfl, rfl, rfl, rfl⟩
      simp only
      split
      · rename_i asleep
        exact .inr ⟨asleep, rfl⟩
      · exact .inl rfl
    · rw [update_of_ne here]
      exact .refl _

/-- A child of `p` becomes one of init. -/
def Slot.adopt (initproc p : Nat) (x : Slot) : Slot :=
  { x with parent := if x.parent = some p then some initproc else x.parent }

/-- A slot after `exit` has passed the children of `p` to init. -/
def Slot.Adopted (initproc p : Nat) (x y : Slot) : Prop := (x.adopt initproc p).Woken y

theorem Slot.Adopted.woken (first : x.Adopted initproc p y) (second : y.Woken z) : x.Adopted initproc p z :=
  Slot.Woken.trans first second

theorem Slot.Woken.adopt (initproc p : Nat) (woken : x.Woken y) : (x.adopt initproc p).Woken (y.adopt initproc p) :=
  ⟨woken.state, woken.pid, by simp only [Slot.adopt, woken.parent], woken.chan, woken.pc, woken.np⟩

theorem Slot.adopt_adopt (x : Slot) : (x.adopt initproc p).adopt initproc p = x.adopt initproc p := by
  unfold Slot.adopt
  congr 1
  dsimp only
  split
  · split <;> rfl
  · rfl

theorem Slot.Woken.adopted (first : x.Woken y) (second : y.Adopted initproc p z) : x.Adopted initproc p z :=
  (first.adopt initproc p).trans second

/-- An adopted slot is not adopted again. -/
theorem Slot.Adopted.again (first : x.Adopted initproc p y) (second : y.Adopted initproc p z) : x.Adopted initproc p z := by
  have moved := Slot.Woken.adopt initproc p first
  rw [Slot.adopt_adopt] at moved
  exact moved.trans second

theorem orphan_adopts (n initproc p : Nat) (t : Table) (j : Nat) :
    (t j).Adopted initproc p (orphan n initproc p t j j) ∧ ∀ i, i ≠ j → (t i).Woken (orphan n initproc p t j i) := by
  unfold orphan
  by_cases child : (t j).parent = some p
  · rw [if_pos child]
    have moved : (t j).Adopted initproc p (update t j { t j with parent := some initproc } j) := by
      rw [Slot.Adopted, Slot.adopt, if_pos child, update_self]
      exact .refl _
    have others : ∀ i, i ≠ j → (t i).Woken (update t j { t j with parent := some initproc } i) := by
      intro i other
      rw [update_of_ne other]
      exact .refl _
    dsimp only
    split
    · constructor
      · exact moved.woken (wakeup1_woken ..)
      · intro i other
        exact (others i other).trans (wakeup1_woken ..)
    · exact ⟨moved, others⟩
  · rw [if_neg child]
    refine ⟨?_, fun i _ => .refl _⟩
    rw [Slot.Adopted, Slot.adopt, if_neg child]
    exact .refl _

/-- The loop of `exit` over the slots `js`. -/
theorem orphans_adopt (n initproc p : Nat) (i : Nat) (js : List Nat) : ∀ t : Table,
    (i ∈ js → (t i).Adopted initproc p (js.foldl (orphan n initproc p) t i)) ∧
      (i ∉ js → (t i).Woken (js.foldl (orphan n initproc p) t i)) := by
  induction js with
  | nil =>
    intro t
    refine ⟨?_, fun _ => .refl _⟩
    rintro ⟨⟩
  | cons j js ih =>
    intro t
    obtain ⟨here, others⟩ := orphan_adopts n initproc p t j
    obtain ⟨inRest, notInRest⟩ := ih (orphan n initproc p t j)
    rw [foldl_cons]
    constructor
    · intro mem
      by_cases is : i = j
      · subst is
        by_cases more : i ∈ js
        · exact here.again (inRest more)
        · exact here.woken (notInRest more)
      · exact (others i is).adopted (inRest ((mem_cons.1 mem).resolve_left is))
    · intro missing
      rw [mem_cons, not_or] at missing
      exact (others i missing.1).trans (notInRest missing.2)

/-- **`exit`**: the process is a zombie, and its children are init's. -/
theorem exit_slots (n initproc p : Nat) (t : Table) :
    ((exit n initproc p t p).state = .zombie ∧ (exit n initproc p t p).pc = .dead ∧ (exit n initproc p t p).np = (t p).np ∧
      (exit n initproc p t p).pid = (t p).pid ∧ (p < n → (exit n initproc p t p).parent =
        if (t p).parent = some p then some initproc else (t p).parent)) ∧
    (∀ i < n, i ≠ p → (t i).Adopted initproc p (exit n initproc p t i)) ∧
    ∀ i, n ≤ i → i ≠ p → (t i).Woken (exit n initproc p t i) := by
  have each := fun i => orphans_adopt n initproc p i (List.range n) (wakeup1 n ((t p).parent.map .proc) t)
  have start := fun i => wakeup1_woken n ((t p).parent.map .proc) t i
  unfold exit
  refine ⟨⟨?_, ?_, ?_, ?_, ?_⟩, ?_, ?_⟩
  · simp
  · simp
  · simp only [update_self]
    by_cases inside : p < n
    · exact ((start p).adopted ((each p).1 (mem_range.2 inside))).np
    · exact ((start p).trans ((each p).2 (by simpa using inside))).np
  · simp only [update_self]
    by_cases inside : p < n
    · exact ((start p).adopted ((each p).1 (mem_range.2 inside))).pid
    · exact ((start p).trans ((each p).2 (by simpa using inside))).pid
  · intro inside
    simp only [update_self]
    exact ((start p).adopted ((each p).1 (mem_range.2 inside))).parent
  · intro i inside other
    simp only [update_of_ne other]
    exact (start i).adopted ((each i).1 (mem_range.2 inside))
  · intro i outside other
    simp only [update_of_ne other]
    exact (start i).trans ((each i).2 (by simpa using outside))

theorem exited_some (found : exited n p t = some i) : i < n ∧ (t i).parent = some p ∧ (t i).state = .zombie := by
  obtain ⟨inside, sat, _⟩ := first_some found
  simpa using And.intro inside sat

theorem exited_none (missing : exited n p t = none) (inside : i < n) (child : (t i).parent = some p) :
    (t i).state ≠ .zombie := by
  have not := first_none missing i inside
  simpa [child] using not

theorem unused_some (found : unused n t = some i) : i < n ∧ (t i).state = .unused := by
  obtain ⟨inside, sat, _⟩ := first_some found
  simpa using And.intro inside sat

end Bodies

end Xv6.Sched
