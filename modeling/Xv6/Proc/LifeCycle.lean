import Xv6.Proc.Sched

/-!
# The life cycle of a process

What a step can do to the stage of life, the parent and the unfinished `fork` of each slot
is said once, by `Change`, and what it can do to the processes that run by `Moves`. From
these follow who runs where, that no process is left without a parent that lives, and that
a zombie is removed by its parent only.
-/

namespace Xv6.Sched
open Runs Function List

/-! ## Families -/

/-- The stage of life of a process; one that has been made and has not exited counts as `runnable`. -/
def stage : ProcState → ProcState
  | .sleeping => .runnable
  | .running => .runnable
  | x => x

/-- The part of a slot that makes the family. -/
structure View where
  stage : ProcState
  parent : Option Nat
  np : Option (Nat × Bool)

def Slot.view (x : Slot) : View := ⟨stage x.state, x.parent, x.np⟩

def Sys.view (s : Sys) (i : Nat) : View := (s.slot i).view

def View.adopt (initproc p : Nat) (x : View) : View :=
  { x with parent := if x.parent = some p then some initproc else x.parent }

/-- Neither an `exit` nor a `wait` that finds a child. -/
def Event.plain : Event → Bool
  | .exit _ => false
  | .reap _ _ _ => false
  | _ => true

/-- What a step can do to the families of a table of `n` slots. -/
inductive Change (n initproc : Nat) (v : Nat → View) : Event → (Nat → View) → Prop where
  | same {e : Event} : e.plain → Change n initproc v e v
  | exit {p : Nat} : (v p).stage = .runnable → p ≠ initproc → (v p).np = none →
      Change n initproc v (.exit p)
        (Function.update (fun i => if i < n then (v i).adopt initproc p else v i) p
          { stage := .zombie, parent := ((v p).adopt initproc p).parent, np := none })
  | reap {p i pid : Nat} : (v p).stage = .runnable → (v i).stage = .zombie → (v i).parent = some p →
      Change n initproc v (.reap p i pid) (Function.update v i { v i with stage := .unused, parent := none })
  | made {e : Event} {p q : Nat} : (v p).stage = .runnable → (v p).np = none → q < n → (v q).stage = .unused →
      e.plain →
      Change n initproc v e
        (Function.update (Function.update v q { v q with stage := .embryo }) p { v p with np := some (q, false) })
  | named {e : Event} {p q : Nat} : (v p).np = some (q, false) → e.plain →
      Change n initproc v e
        (Function.update (Function.update v q { v q with parent := some p }) p { v p with np := some (q, true) })
  | failed {e : Event} {p q : Nat} : (v p).np = some (q, false) → e.plain →
      Change n initproc v e
        (Function.update (Function.update v q { v q with stage := .unused }) p { v p with np := none })
  | abandoned {e : Event} {p : Nat} : e.plain →
      Change n initproc v e (Function.update v p { v p with np := none })
  | readied {e : Event} {p q : Nat} : (v p).np = some (q, true) → e.plain →
      Change n initproc v e
        (Function.update (Function.update v q { v q with stage := .runnable }) p { v p with np := none })

/-- Processes have living parents, and a child that is being made belongs to one `fork`. -/
structure Family (n initproc : Nat) (v : Nat → View) : Prop where
  bound : ∀ i, n ≤ i → (v i).stage = .unused
  init : (v initproc).stage = .runnable
  parents : ∀ i, i ≠ initproc → (v i).stage = .runnable ∨ (v i).stage = .zombie →
    ∃ j, (v i).parent = some j ∧ (v j).stage = .runnable
  forks : ∀ p q b, (v p).np = some (q, b) →
    (v p).stage = .runnable ∧ (v q).stage = .embryo ∧ (v q).parent = if b then some p else none
  once : ∀ p p' q b b', (v p).np = some (q, b) → (v p').np = some (q, b') → p = p'
  blank : ∀ i, (v i).stage = .unused → (v i).parent = none

theorem View.adopt_of_ne {initproc p : Nat} {x : View} (other : x.parent ≠ some p) : x.adopt initproc p = x := by
  rw [View.adopt, if_neg other]

namespace Family

variable {n initproc : Nat} {v : Nat → View} {p q i pid : Nat}

section

variable (family : Family n initproc v)
include family

theorem exit (alive : (v p).stage = .runnable) (notInit : p ≠ initproc) (noFork : (v p).np = none) :
    Family n initproc (update (fun i => if i < n then (v i).adopt initproc p else v i) p
      { stage := .zombie, parent := ((v p).adopt initproc p).parent, np := none }) := by
  -- outside of the table nobody has a parent, so the loop misses nothing
  have same : (fun i => if i < n then (v i).adopt initproc p else v i) = fun i => (v i).adopt initproc p := by
    funext i
    split
    · rfl
    · rename_i outside
      rw [View.adopt_of_ne]
      rw [family.blank i (family.bound i (by omega))]
      simp
  rw [same]
  generalize isW : update (fun i => (v i).adopt initproc p) p
      { stage := .zombie, parent := ((v p).adopt initproc p).parent, np := none } = w
  have here : w p = { stage := .zombie, parent := ((v p).adopt initproc p).parent, np := none } := by
    rw [← isW, update_self]
  have other : ∀ i, i ≠ p → w i = (v i).adopt initproc p := by
    intro i ne
    rw [← isW, update_of_ne ne]
  have initAlive : (w initproc).stage = .runnable := by
    rw [other _ notInit.symm]
    exact family.init
  -- a parent that exits is replaced by init
  have adopted : ∀ i, i ≠ initproc → (v i).stage = .runnable ∨ (v i).stage = .zombie →
      ∃ j, ((v i).adopt initproc p).parent = some j ∧ (w j).stage = .runnable := by
    intro i ne used
    obtain ⟨j, parent, lives⟩ := family.parents i ne used
    by_cases orphan : j = p
    · subst orphan
      exact ⟨initproc, by simp [View.adopt, parent], initAlive⟩
    · refine ⟨j, by simp [View.adopt, parent, orphan], ?_⟩
      rw [other j orphan]
      exact lives
  constructor
  · intro i outside
    have ne : i ≠ p := by
      rintro rfl
      cases alive.symm.trans (family.bound i outside)
    rw [other i ne]
    exact family.bound i outside
  · exact initAlive
  · intro i ne used
    by_cases isP : i = p
    · subst isP
      rw [here]
      exact adopted i ne (.inl alive)
    · rw [other i isP] at used ⊢
      exact adopted i ne used
  · intro p' q b forking
    have ne : p' ≠ p := by
      rintro rfl
      rw [here] at forking
      cases forking
    rw [other p' ne] at forking ⊢
    obtain ⟨lives, embryo, parent⟩ := family.forks p' q b forking
    have neQ : q ≠ p := by
      rintro rfl
      cases alive.symm.trans embryo
    have kept : (v q).parent ≠ some p := by
      rw [parent]
      cases b <;> simp [ne]
    rw [other q neQ, View.adopt_of_ne kept]
    exact ⟨lives, embryo, parent⟩
  · intro p1 p2 q b b' first second
    have old : ∀ p' b, (w p').np = some (q, b) → (v p').np = some (q, b) := by
      intro p' b forking
      by_cases isP : p' = p
      · rw [isP, here] at forking
        cases forking
      · rw [other p' isP] at forking
        exact forking
    exact family.once p1 p2 q b b' (old p1 b first) (old p2 b' second)
  · intro i unused
    by_cases isP : i = p
    · rw [isP, here] at unused
      cases unused
    · rw [other i isP] at unused ⊢
      have none_ := family.blank i unused
      rw [View.adopt_of_ne (by rw [none_]; simp)]
      exact none_

/-- **What keeps a family** besides `exit`: nobody dies, and who is used keeps its parent or gets one that lives. -/
theorem kept {w : Nat → View} (bound : ∀ i, n ≤ i → (w i).stage = .unused)
    (alive : ∀ j, (v j).stage = .runnable → (w j).stage = .runnable)
    (used : ∀ i, (w i).stage = .runnable ∨ (w i).stage = .zombie →
      ((v i).stage = .runnable ∨ (v i).stage = .zombie) ∧ (w i).parent = (v i).parent ∨
        ∃ j, (w i).parent = some j ∧ (v j).stage = .runnable)
    (forks : ∀ p q b, (w p).np = some (q, b) →
      (w p).stage = .runnable ∧ (w q).stage = .embryo ∧ (w q).parent = if b then some p else none)
    (once : ∀ p p' q b b', (w p).np = some (q, b) → (w p').np = some (q, b') → p = p')
    (blank : ∀ i, (w i).stage = .unused → (w i).parent = none) : Family n initproc w := by
  refine ⟨bound, alive _ family.init, fun i ne now => ?_, forks, once, blank⟩
  obtain ⟨old, same⟩ | ⟨j, parent, lives⟩ := used i now
  · obtain ⟨j, parent, lives⟩ := family.parents i ne old
    exact ⟨j, same.trans parent, alive j lives⟩
  · exact ⟨j, parent, alive j lives⟩

/-- A zombie is removed. Nobody has a zombie for a parent. -/
theorem reap (zombie : (v i).stage = .zombie) :
    Family n initproc (update v i { v i with stage := .unused, parent := none }) := by
  have ⟨bound, _, _, forks, once, blank⟩ := family
  apply family.kept <;> grind [update_apply]

/-- `allocproc` takes a slot for a child. -/
theorem make (alive : (v p).stage = .runnable) (inside : q < n)
    (unused : (v q).stage = .unused) :
    Family n initproc
      (update (update v q { v q with stage := .embryo }) p { v p with np := some (q, false) }) := by
  have ⟨bound, _, _, forks, once, blank⟩ := family
  apply family.kept <;> grind [update_apply]

/-- The child gets its parent while it is an embryo. -/
theorem name (forking : (v p).np = some (q, false)) :
    Family n initproc
      (update (update v q { v q with parent := some p }) p { v p with np := some (q, true) }) := by
  have ⟨bound, _, _, forks, once, blank⟩ := family
  obtain ⟨alive, embryo, parent⟩ := forks p q false forking
  apply family.kept <;> grind [update_apply]

/-- The child is given up. -/
theorem fail (forking : (v p).np = some (q, false)) :
    Family n initproc
      (update (update v q { v q with stage := .unused }) p { v p with np := none }) := by
  have ⟨bound, _, _, forks, once, blank⟩ := family
  obtain ⟨alive, embryo, parent⟩ := forks p q false forking
  apply family.kept <;> grind [update_apply]

/-- The child begins to live; its parent is in `fork` and lives. -/
theorem ready (forking : (v p).np = some (q, true)) :
    Family n initproc
      (update (update v q { v q with stage := .runnable }) p { v p with np := none }) := by
  have ⟨bound, _, _, forks, once, blank⟩ := family
  obtain ⟨alive, embryo, parent⟩ := forks p q true forking
  apply family.kept <;> grind [update_apply]

/-- An embryo is left behind. -/
theorem abandon : Family n initproc (update v p { v p with np := none }) := by
  have ⟨bound, _, _, forks, once, blank⟩ := family
  apply family.kept <;> grind [update_apply]

/-- **Families are kept** by every change. -/
theorem change {e : Event} {w : Nat → View} (change : Change n initproc v e w) :
    Family n initproc w := by
  cases change with
  | same _ => exact family
  | exit alive notInit noFork => exact family.exit alive notInit noFork
  | reap _ zombie _ => exact family.reap zombie
  | made alive _ inside unused _ => exact family.make alive inside unused
  | named forking _ => exact family.name forking
  | failed forking _ => exact family.fail forking
  | abandoned _ => exact family.abandon
  | readied forking _ => exact family.ready forking

end

end Family

/-! ## What a step changes -/

/-- A process is running exactly when it is the current process of a CPU, and of one only. -/
structure Placed (s : Sys) : Prop where
  running : ∀ p, (s.slot p).state = .running ↔ ∃ c, s.cpu c = .running p
  alone : ∀ c c' p, s.cpu c = .running p → s.cpu c' = .running p → c = c'

section Change

variable {s s' : Sys} {e : Event} {c p : Nat} {t : Table} {x : Slot} {pc : Pc}

theorem Slot.Woken.view {x y : Slot} (woken : x.Woken y) : y.view = x.view := by
  have same : stage y.state = stage x.state := by
    rcases woken.state with same | ⟨asleep, up⟩
    · rw [same]
    · rw [asleep, up]
      rfl
  rw [Slot.view, Slot.view, same, woken.parent, woken.np]

theorem Sys.view_set (s : Sys) (p : Nat) (x : Slot) : (fun i => (update s.slot p x i).view) = update s.view p x.view := by
  funext i
  by_cases here : i = p
  · subst here
    rw [update_self, update_self]
  · rw [update_of_ne here, update_of_ne here]
    rfl

theorem Sys.view_unlock (s : Sys) (p : Nat) (t : Table) : (s.unlock p t).view = fun i => (t i).view := by
  funext i
  show (update t p { t p with pc := .free } i).view = (t i).view
  by_cases here : i = p
  · subst here
    rw [update_self]
    rfl
  · rw [update_of_ne here]

theorem Sys.At.alive (placed : Placed s) (at_ : s.At c p pc) : (s.view p).stage = .runnable := by
  show stage (s.slot p).state = .runnable
  rw [(placed.running p).2 ⟨c, at_.1⟩]
  rfl

/-- A change of the parts of one slot that no family depends on. -/
theorem Sys.view_same (s : Sys) (p : Nat) {x : Slot} (same : x.view = s.view p) :
    (fun i => (update s.slot p x i).view) = s.view := by
  rw [s.view_set, same, update_eq_self]

theorem Change.of_eq {n initproc : Nat} {v w w' : Nat → View} (change : Change n initproc v e w) (same : w' = w) :
    Change n initproc v e w' :=
  same ▸ change

theorem Change.quiet {n initproc : Nat} {v w : Nat → View} (plain : e.plain) (same : w = v) : Change n initproc v e w :=
  .of_eq (.same plain) same

/-- A change of the families by two slots: that of the child first, then that of the parent. -/
theorem Sys.view_pair (s : Sys) (p q : Nat) (x y : Slot) :
    ((s.setSlot q y).setSlot p x).view = update (update s.view q y.view) p x.view := by
  have inner := s.view_set q y
  have outer := (s.setSlot q y).view_set p x
  rw [show (s.setSlot q y).view = _ from inner] at outer
  exact outer

theorem Slot.resume_some {y : Slot} {keeps : Bool} (resumes : x.resume = some (y, keeps)) :
    y.state = .running ∧ y.parent = x.parent ∧ y.np = x.np := by
  unfold Slot.resume at resumes
  split at resumes <;> cases resumes <;> exact ⟨rfl, rfl, rfl⟩

/-- A process that goes on living in another state. -/
theorem Slot.view_alive {x y : Slot} (after : stage y.state = .runnable) (before : x.view.stage = .runnable)
    (parent : y.parent = x.parent) (np : y.np = x.np) : y.view = x.view := by
  rw [Slot.view, after, parent, np, ← before]
  rfl

theorem exit_view {n initproc : Nat} (inside : p < n) (noFork : (t p).np = none) :
    (fun i => (exit n initproc p t i).view) =
      update (fun i => if i < n then (t i).view.adopt initproc p else (t i).view) p
        { stage := .zombie, parent := ((t p).view.adopt initproc p).parent, np := none } := by
  obtain ⟨⟨zombie, _, np, _, parent⟩, others, outside⟩ := exit_slots n initproc p t
  funext i
  by_cases here : i = p
  · subst here
    rw [update_self, Slot.view, zombie, np, noFork, parent inside]
    rfl
  · rw [update_of_ne here]
    by_cases low : i < n
    · rw [if_pos low, (others i low here).view]
      rfl
    · rw [if_neg low]
      exact (outside i (by omega) here).view

/-- **What a step does to the families.** -/
theorem Step.change (step : Step e s s') (placed : Placed s) (family : Family s.nproc s.initproc s.view) :
    Change s.nproc s.initproc s.view e s'.view := by
  cases step with
  | acquire _ _ => exact .same rfl
  | release _ _ => exact .same rfl
  | enter _ _ _ => exact .quiet rfl (s.view_same _ rfl)
  | yield at_ _ => exact .quiet rfl (s.view_same _ (Slot.view_alive rfl (at_.alive placed) rfl rfl))
  | unlockSleep _ _ => exact .quiet rfl (s.view_same _ rfl)
  | sleep at_ _ => exact .quiet rfl (s.view_same _ (Slot.view_alive rfl (at_.alive placed) rfl rfl))
  | relock _ _ => exact .quiet rfl (s.view_same _ rfl)
  | wakeup _ => exact .quiet rfl ((s.view_unlock _ _).trans (funext fun i => (wakeup1_woken ..).view))
  | wakeupIntr _ => exact .quiet rfl (funext fun i => (wakeup1_woken ..).view)
  | kill _ call => exact .quiet rfl ((s.view_unlock _ _).trans (funext fun i => (kill_woken call i).view))
  | @exit _ c p at_ enters _ =>
    have alive := at_.alive placed
    have inside : p < s.nproc := by
      by_contra outside
      cases alive.symm.trans (family.bound p (not_lt.1 outside))
    exact .of_eq (.exit alive enters.1 enters.2) (exit_view inside enters.2)
  | @reap _ c p i at_ found =>
    obtain ⟨_, parent, zombie⟩ := exited_some found
    refine .of_eq (.reap (at_.alive placed) ?_ parent) ((s.view_unlock p _).trans (s.view_set i _))
    show stage (s.slot i).state = .zombie
    rw [zombie]
    rfl
  | waitNone _ _ _ => exact .quiet rfl (s.view_unlock _ _)
  | waitSleep at_ _ _ _ _ => exact .quiet rfl (s.view_same _ (Slot.view_alive rfl (at_.alive placed) rfl rfl))
  | allocNone _ _ => exact .quiet rfl (s.view_unlock _ _)
  | @alloc _ c p q at_ noFork found =>
    obtain ⟨inside, unused⟩ := unused_some found
    refine .of_eq (.made (at_.alive placed) noFork inside ?_ rfl) (s.view_pair p q _ _)
    show stage (s.slot q).state = .unused
    rw [unused]
    rfl
  | @setParent _ c p q _ forking => exact .of_eq (.named forking rfl) (s.view_pair p q _ _)
  | @forkFail _ c p q _ forking => exact .of_eq (.failed forking rfl) (s.view_pair p q _ _)
  | @forkAbandon _ c p q _ _ _ => exact .of_eq (.abandoned rfl) (s.view_set p _)
  | @ready _ c p q _ forking => exact .of_eq (.readied forking rfl) (s.view_pair p q _ _)
  | scanStart _ _ => exact .same rfl
  | scanNext _ _ _ => exact .same rfl
  | scanDone _ _ => exact .same rfl
  | dispatch _ _ runnable resumes =>
    obtain ⟨running, parent, np⟩ := Slot.resume_some resumes
    refine .quiet rfl (s.view_same _ (Slot.view_alive ?_ ?_ parent np))
    · rw [running]
      rfl
    · show stage (s.slot _).state = .runnable
      rw [runnable]
      rfl
  | sectionSleep at_ _ => exact .quiet rfl (s.view_same _ (Slot.view_alive rfl (at_.alive placed) rfl rfl))
  | sectionWake _ => exact .quiet rfl (funext fun i => (wakeup1_woken ..).view)
  | sectionLeave _ => exact .quiet rfl (s.view_unlock _ _)

end Change

/-! ## Who runs where -/

namespace Placed

variable {s s' : Sys} {c p j : Nat} {t : Table}

/-- Nobody begins or ceases to run. -/
theorem stays (placed : Placed s) (states : ∀ i, (s'.slot i).state = .running ↔ (s.slot i).state = .running)
    (cpus : ∀ c p, s'.cpu c = .running p ↔ s.cpu c = .running p) : Placed s' := by
  constructor
  · intro i
    rw [states i, placed.running i]
    exact exists_congr fun c => (cpus c i).symm
  · intro c c' i one two
    exact placed.alone c c' i ((cpus c i).1 one) ((cpus c' i).1 two)

/-- A process leaves its CPU to the scheduler. -/
theorem leaves (placed : Placed s) (here : s.cpu c = .running p) (cpus : s'.cpu = update s.cpu c (.scanning j))
    (gone : (s'.slot p).state ≠ .running)
    (others : ∀ i, i ≠ p → ((s'.slot i).state = .running ↔ (s.slot i).state = .running)) : Placed s' := by
  have elsewhere : ∀ c' i, s'.cpu c' = .running i ↔ c' ≠ c ∧ s.cpu c' = .running i := by
    intro c' i
    rw [cpus]
    by_cases same : c' = c
    · subst same
      simp
    · simp [same]
  constructor
  · intro i
    by_cases isP : i = p
    · subst isP
      refine ⟨fun runs => absurd runs gone, ?_⟩
      rintro ⟨c', runs⟩
      obtain ⟨other, runs⟩ := (elsewhere c' i).1 runs
      exact absurd (placed.alone c' c i runs here) other
    · rw [others i isP, placed.running i]
      refine exists_congr fun c' => ?_
      rw [elsewhere c' i]
      refine ⟨fun runs => ⟨?_, runs⟩, And.right⟩
      rintro rfl
      cases here.symm.trans runs
      exact isP rfl
  · intro c1 c2 i one two
    exact placed.alone c1 c2 i ((elsewhere c1 i).1 one).2 ((elsewhere c2 i).1 two).2

/-- A scheduler gives its CPU to a process. -/
theorem takes (placed : Placed s) (scan : s.cpu c = .scanning j) (idle : (s.slot p).state ≠ .running)
    (cpus : s'.cpu = update s.cpu c (.running p)) (now : (s'.slot p).state = .running)
    (others : ∀ i, i ≠ p → ((s'.slot i).state = .running ↔ (s.slot i).state = .running)) : Placed s' := by
  have nowhere : ∀ c', s.cpu c' ≠ .running p := fun c' runs => idle ((placed.running p).2 ⟨c', runs⟩)
  have old : ∀ c' i, i ≠ p → (s'.cpu c' = .running i ↔ s.cpu c' = .running i) := by
    intro c' i ne
    rw [cpus]
    by_cases same : c' = c
    · subst same
      simp [scan, ne.symm]
    · simp [same]
  have new : ∀ c', s'.cpu c' = .running p → c' = c := by
    intro c' runs
    by_contra other
    rw [cpus, update_of_ne other] at runs
    exact nowhere c' runs
  constructor
  · intro i
    by_cases isP : i = p
    · subst isP
      refine ⟨fun _ => ⟨c, ?_⟩, fun _ => now⟩
      rw [cpus, update_self]
    · rw [others i isP, placed.running i]
      exact exists_congr fun c' => (old c' i isP).symm
  · intro c1 c2 i one two
    by_cases isP : i = p
    · subst isP
      exact (new c1 one).trans (new c2 two).symm
    · exact placed.alone c1 c2 i ((old c1 i isP).1 one) ((old c2 i isP).1 two)

end Placed

section Placed

variable {s s' : Sys} {e : Event}

theorem Slot.Woken.running {x y : Slot} (woken : x.Woken y) : y.state = .running ↔ x.state = .running := by
  rcases woken.state with same | ⟨asleep, up⟩
  · rw [same]
  · simp [asleep, up]

/-- A slot whose state is kept, or goes from one that does not run to another. -/
theorem update_running {t : Table} {p : Nat} {x : Slot} (same : x.state = .running ↔ (t p).state = .running) (i : Nat) :
    (update t p x i).state = .running ↔ (t i).state = .running := by
  by_cases here : i = p
  · subst here
    rw [update_self]
    exact same
  · rw [update_of_ne here]

theorem Sys.unlock_state (s : Sys) (p : Nat) (t : Table) (i : Nat) : ((s.unlock p t).slot i).state = (t i).state := by
  show (update t p { t p with pc := .free } i).state = _
  by_cases here : i = p
  · subst here
    rw [update_self]
  · rw [update_of_ne here]

/-- A scheduler goes on, or stops. -/
theorem update_cpu {s : Sys} {c : Nat} {x : Cpu} (before : ∀ p, s.cpu c ≠ .running p) (after : ∀ p, x ≠ .running p) (c' p : Nat) :
    update s.cpu c x c' = .running p ↔ s.cpu c' = .running p := by
  by_cases here : c' = c
  · subst here
    rw [update_self]
    exact ⟨fun is => absurd is (after p), fun is => absurd is (before p)⟩
  · rw [update_of_ne here]

/-- Nobody who is not alive runs. -/
theorem stage_running {x : ProcState} (other : stage x ≠ .runnable) : x ≠ .running := by
  rintro rfl
  exact other rfl

/-- Two slots are written, those of a child and of its parent. -/
theorem Sys.pair_running {s : Sys} {p q : Nat} {x y : Slot} (child : y.state = .running ↔ (s.slot q).state = .running)
    (parent : x.state = .running ↔ (s.slot p).state = .running) (i : Nat) :
    (((s.setSlot q y).setSlot p x).slot i).state = .running ↔ (s.slot i).state = .running := by
  show (update (update s.slot q y) p x i).state = .running ↔ _
  by_cases isP : i = p
  · subst isP
    rw [update_self]
    exact parent
  · rw [update_of_ne isP]
    exact update_running child i

theorem update_others {t : Table} {p : Nat} {x : Slot} (i : Nat) (ne : i ≠ p) :
    (update t p x i).state = .running ↔ (t i).state = .running := by
  rw [update_of_ne ne]

/-- **The current processes** after a step. -/
theorem Step.placed (step : Step e s s') (placed : Placed s) (family : Family s.nproc s.initproc s.view) : Placed s' := by
  cases step with
  | acquire _ _ => exact placed.stays (fun _ => Iff.rfl) fun _ _ => Iff.rfl
  | release _ _ => exact placed.stays (fun _ => Iff.rfl) fun _ _ => Iff.rfl
  | enter _ _ _ => exact placed.stays (update_running Iff.rfl) fun _ _ => Iff.rfl
  | yield at_ _ => exact placed.leaves at_.1 rfl (by simp [Sys.swtch]) update_others
  | unlockSleep _ _ => exact placed.stays (update_running Iff.rfl) fun _ _ => Iff.rfl
  | sleep at_ _ => exact placed.leaves at_.1 rfl (by simp [Sys.swtch]) update_others
  | relock _ _ => exact placed.stays (update_running Iff.rfl) fun _ _ => Iff.rfl
  | wakeup _ =>
    refine placed.stays (fun i => ?_) fun _ _ => Iff.rfl
    rw [Sys.unlock_state]
    exact (wakeup1_woken ..).running
  | wakeupIntr _ => exact placed.stays (fun i => (wakeup1_woken ..).running) fun _ _ => Iff.rfl
  | kill _ call =>
    refine placed.stays (fun i => ?_) fun _ _ => Iff.rfl
    rw [Sys.unlock_state]
    exact (kill_woken call i).running
  | @exit _ c p at_ _ _ =>
    obtain ⟨⟨zombie, _⟩, inside, outside⟩ := exit_slots s.nproc s.initproc p s.slot
    refine placed.leaves at_.1 rfl (by simp [zombie]) fun i ne => ?_
    by_cases low : i < s.nproc
    · exact (inside i low ne).running
    · exact (outside i (by omega) ne).running
  | @reap _ c p i at_ found =>
    obtain ⟨_, _, zombie⟩ := exited_some found
    refine placed.stays (fun j => ?_) fun _ _ => Iff.rfl
    rw [Sys.unlock_state]
    exact update_running (by simp [zombie]) j
  | waitNone _ _ _ => exact placed.stays (update_running Iff.rfl) fun _ _ => Iff.rfl
  | waitSleep at_ _ _ _ _ => exact placed.leaves at_.1 rfl (by simp [Sys.swtch]) update_others
  | allocNone _ _ => exact placed.stays (update_running Iff.rfl) fun _ _ => Iff.rfl
  | @alloc _ c p q at_ _ found =>
    have idle := (unused_some found).2
    exact placed.stays (Sys.pair_running (by simp [idle]) Iff.rfl) fun _ _ => Iff.rfl
  | @setParent _ c p q _ forking => exact placed.stays (Sys.pair_running Iff.rfl Iff.rfl) fun _ _ => Iff.rfl
  | @forkFail _ c p q _ forking =>
    have idle : (s.slot q).state ≠ .running := by
      apply stage_running
      intro lives
      cases lives.symm.trans (family.forks p q false forking).2.1
    exact placed.stays (Sys.pair_running (by simp [idle]) Iff.rfl) fun _ _ => Iff.rfl
  | @forkAbandon _ c p q _ _ _ => exact placed.stays (update_running Iff.rfl) fun _ _ => Iff.rfl
  | @ready _ c p q _ forking =>
    have idle : (s.slot q).state ≠ .running := by
      apply stage_running
      intro lives
      cases lives.symm.trans (family.forks p q true forking).2.1
    exact placed.stays (Sys.pair_running (by simp [idle]) Iff.rfl) fun _ _ => Iff.rfl
  | scanStart idle _ => exact placed.stays (fun _ => Iff.rfl) (update_cpu (by simp [idle]) (by simp))
  | scanNext scan _ _ => exact placed.stays (fun _ => Iff.rfl) (update_cpu (by simp [scan]) (by simp))
  | scanDone scan _ => exact placed.stays (fun _ => Iff.rfl) (update_cpu (by simp [scan]) (by simp))
  | dispatch scan _ runnable resumes =>
    refine placed.takes scan (by rw [runnable]; simp) rfl ?_ update_others
    simp only [Sys.setSlot, update_self]
    exact (Slot.resume_some resumes).1
  | sectionSleep at_ _ => exact placed.leaves at_.1 rfl (by simp [Sys.swtch]) update_others
  | sectionWake _ => exact placed.stays (fun i => (wakeup1_woken ..).running) fun _ _ => Iff.rfl
  | sectionLeave _ => exact placed.stays (update_running Iff.rfl) fun _ _ => Iff.rfl

end Placed

/-! ## Runs -/

/-- What holds in every state of a run. -/
structure Lives (s : Sys) : Prop where
  placed : Placed s
  family : Family s.nproc s.initproc s.view

/-- The exits of slot `i`, and the calls of `wait` that have returned for it. -/
def Event.exitOf (i : Nat) : Event → Bool
  | .exit p => p = i
  | _ => false

def Event.waitFor (i : Nat) : Event → Bool
  | .reap _ j _ => j = i
  | _ => false

theorem Event.plain_exitOf {e : Event} (plain : e.plain) (i : Nat) : e.exitOf i = false ∧ e.waitFor i = false := by
  cases e <;> first | exact ⟨rfl, rfl⟩ | cases plain

section Zombies

variable {n initproc : Nat} {v w : Nat → View} {e : Event}

section

variable (change : Change n initproc v e w) (family : Family n initproc v)
include change family

/-- What is not an exit or a `wait` that returns a child keeps the zombies. -/
theorem Change.plain_zombies (plain : e.plain) (i : Nat) :
    (w i).stage = .zombie ↔ (v i).stage = .zombie := by
  cases change with
  | same _ => exact Iff.rfl
  | exit _ _ _ => cases plain
  | reap _ _ _ => cases plain
  | made _ _ _ unused _ => grind [update_apply]
  | named _ _ => grind [update_apply]
  | @failed _ p q forking _ =>
    have embryo := (family.forks p q false forking).2.1
    grind [update_apply]
  | abandoned _ => grind [update_apply]
  | @readied _ p q forking _ =>
    have embryo := (family.forks p q true forking).2.1
    grind [update_apply]

/-- **A zombie is removed by its parent**, in a `wait`. -/
theorem Change.zombie_leaves {i : Nat}
    (before : (v i).stage = .zombie) (after : (w i).stage ≠ .zombie) :
    ∃ p pid, e = .reap p i pid ∧ (v i).parent = some p := by
  cases plain : e.plain with
  | true => exact absurd ((change.plain_zombies family plain i).2 before) after
  | false =>
    cases change with
    | @exit p alive _ _ =>
      exfalso
      apply after
      by_cases here : i = p
      · rw [here, update_self]
      · rw [update_of_ne here]
        split
        · exact before
        · exact before
    | @reap p j pid _ zombie parent =>
      by_cases here : i = j
      · subst here
        exact ⟨p, pid, rfl, parent⟩
      · rw [update_of_ne here] at after
        exact absurd before after
    | _ => simp_all

/-- One exit makes one zombie, and one `wait` removes one. -/
theorem Change.zombie_count (i : Nat) :
    (if e.waitFor i then 1 else 0) + (if (w i).stage = .zombie then 1 else 0) =
      (if e.exitOf i then 1 else 0) + if (v i).stage = .zombie then 1 else 0 := by
  cases plain : e.plain with
  | true =>
    obtain ⟨noExit, noWait⟩ := Event.plain_exitOf plain i
    simp only [noExit, noWait, change.plain_zombies family plain i]
  | false =>
    cases change with
    | @exit p alive _ _ =>
      by_cases here : i = p
      · subst here
        simp [Event.exitOf, Event.waitFor, alive]
      · have other : (if i < n then (v i).adopt initproc p else v i).stage = (v i).stage := by
          split <;> rfl
        simp [Event.exitOf, Event.waitFor, here, Ne.symm here, other]
    | @reap p j pid _ zombie parent =>
      by_cases here : i = j
      · subst here
        simp [Event.exitOf, Event.waitFor, zombie]
      · simp [Event.exitOf, Event.waitFor, here, Ne.symm here]
    | _ => simp_all

end

end Zombies

section Runs

variable {n : Nat} {s s' : Sys} {e : Event} {es : List Event}

/-- The size of the table and init stay. -/
theorem Step.fixed (step : Step e s s') : s'.nproc = s.nproc ∧ s'.initproc = s.initproc := by
  cases step <;> exact ⟨rfl, rfl⟩

theorem Lives.step (lives : Lives s) (step : Step e s s') : Lives s' := by
  refine ⟨step.placed lives.placed lives.family, ?_⟩
  rw [step.fixed.1, step.fixed.2]
  exact lives.family.change (step.change lives.placed lives.family)

theorem boot_slot (n i : Nat) : (boot n).slot i = if i = 0 then { state := .runnable, pid := 1 } else {} := by
  show update (fun _ => ({} : Slot)) 0 { state := .runnable, pid := 1 } i = _
  rw [update_apply]

theorem boot_lives (n : Nat) : Lives (boot n) := by
  have view : ∀ i, (boot n).view i = if i = 0 then ⟨.runnable, none, none⟩ else ⟨.unused, none, none⟩ := by
    intro i
    rw [Sys.view, boot_slot]
    split <;> rfl
  constructor
  · constructor
    · intro p
      have idle : ((boot n).slot p).state ≠ .running := by
        rw [boot_slot]
        split <;> simp
      refine ⟨fun runs => absurd runs idle, ?_⟩
      rintro ⟨c, ⟨⟩⟩
    · rintro c c' p ⟨⟩
  · constructor
    · intro i outside
      rw [view, if_neg]
      rintro rfl
      exact absurd outside (Nat.not_succ_le_zero n)
    · rw [view]
      rfl
    · intro i ne used
      rw [view, if_neg (show ¬ i = 0 from ne)] at used
      simp at used
    · intro p q b forking
      rw [view] at forking
      split at forking <;> cases forking
    · intro p p' q b b' forking _
      rw [view] at forking
      split at forking <;> cases forking
    · intro i _
      rw [view]
      split <;> rfl

theorem Lives.run (run : Trace Step (boot n) es s) : Lives s :=
  run.invariant (fun _ _ _ lives step => lives.step step) (boot_lives n)

theorem view_zombie (s : Sys) (i : Nat) : (s.view i).stage = .zombie ↔ (s.slot i).state = .zombie := by
  show stage (s.slot i).state = .zombie ↔ _
  cases (s.slot i).state <;> simp [stage]

/-- Every exit has been waited for once, or the process is still a zombie. -/
theorem waits_exits (run : Trace Step (boot n) es s) (i : Nat) :
    es.countP (Event.waitFor i) + (if (s.slot i).state = .zombie then 1 else 0) = es.countP (Event.exitOf i) := by
  have both := run.history (I := fun es s => Lives s ∧
      es.countP (Event.waitFor i) + (if (s.slot i).state = .zombie then 1 else 0) = es.countP (Event.exitOf i))
    (fun es e s s' inv step => by
      obtain ⟨lives, count⟩ := inv
      refine ⟨lives.step step, ?_⟩
      have one := (step.change lives.placed lives.family).zombie_count lives.family i
      simp only [view_zombie] at one
      rw [countP_append, countP_append, countP_singleton, countP_singleton]
      omega)
    ⟨boot_lives n, by rw [boot_slot]; split <;> rfl⟩
  exact both.2

/-- **Process life cycle.** -/
theorem process_life_cycle (run : Trace Step (boot n) es s) :
    (s.plock = none →
      (∀ c c' p, s.cpu c = .running p → s.cpu c' = .running p → c = c') ∧
      (∀ p, (s.slot p).state = .running ↔ ∃ c, s.cpu c = .running p) ∧
      ∀ i, i ≠ s.initproc → (s.slot i).state ∈ [.sleeping, .runnable, .running, .zombie] →
        ∃ j, (s.slot i).parent = some j ∧ (s.slot j).state ≠ .unused ∧ (s.slot j).state ≠ .zombie) ∧
    (∀ e s' i, Step e s s' → (s.slot i).state = .zombie → (s'.slot i).state ≠ .zombie →
      ∃ p, e = .reap p i (s.slot i).pid ∧ (s.slot i).parent = some p) ∧
    (∀ i, es.countP (Event.waitFor i) + (if (s.slot i).state = .zombie then 1 else 0) = es.countP (Event.exitOf i)) ∧
    ∀ p s', Step (.waitSleep p) s s' →
      (∃ i < s.nproc, (s.slot i).parent = some p ∧ (s.slot i).state ≠ .unused) ∧
        ∀ i < s.nproc, (s.slot i).parent = some p → (s.slot i).state ≠ .zombie := by
  have lives := Lives.run run
  refine ⟨fun _ => ⟨lives.placed.alone, lives.placed.running, ?_⟩, ?_, waits_exits run, ?_⟩
  · intro i ne used
    have old : (s.view i).stage = .runnable ∨ (s.view i).stage = .zombie := by
      show stage (s.slot i).state = _ ∨ stage (s.slot i).state = _
      revert used
      cases (s.slot i).state <;> simp [stage]
    obtain ⟨j, parent, alive⟩ := lives.family.parents i ne old
    refine ⟨j, parent, ?_, ?_⟩ <;> intro is
    · rw [show (s.view j).stage = stage (s.slot j).state from rfl, is] at alive
      cases alive
    · rw [show (s.view j).stage = stage (s.slot j).state from rfl, is] at alive
      cases alive
  · intro e s' i step before after
    obtain ⟨p, pid, rfl, parent⟩ := (step.change lives.placed lives.family).zombie_leaves lives.family
      ((view_zombie s i).2 before) fun is => after ((view_zombie s' i).1 is)
    cases step
    exact ⟨p, rfl, parent⟩
  · intro p s' step
    cases step with
    | waitSleep _ missing kids _ _ =>
      refine ⟨?_, fun i inside child => exited_none missing inside child⟩
      obtain ⟨i, inside, child⟩ := of_decide_eq_true kids
      refine ⟨i, inside, child, fun unused => ?_⟩
      have none_ := lives.family.blank i (by show stage (s.slot i).state = _; rw [unused]; rfl)
      cases child.symm.trans none_

/-- The first process is given a CPU and makes a child. -/
theorem process_life_cycle_fork : ∃ s, Trace Step (boot 3)
      [.scanStart 0, .dispatch 0 0, .enter 0 .allocproc, .alloc 0 (some 1), .setParent 0 1, .enter 0 .ready, .ready 0 1] s ∧
    s.plock = none ∧ (s.slot 1).state = .runnable ∧
    ∃ j, (s.slot 1).parent = some j ∧ (s.slot j).state ≠ .unused ∧ (s.slot j).state ≠ .zombie := by
  have chosen : Trace Step (boot 3) [.scanStart 0, .dispatch 0 0] _ :=
    (Trace.nil.snoc (.scanStart rfl rfl)).snoc (.dispatch rfl (by decide) rfl rfl)
  have entered := chosen.snoc (show Step (.enter 0 .allocproc) _ _ from .enter (c := 0) ⟨rfl, rfl⟩ rfl rfl)
  have made := entered.snoc (show Step (.alloc 0 (some 1)) _ _ from .alloc (c := 0) ⟨rfl, rfl⟩ rfl rfl)
  have named := made.snoc (show Step (.setParent 0 1) _ _ from .setParent (c := 0) ⟨rfl, rfl⟩ rfl)
  have again := named.snoc (show Step (.enter 0 .ready) _ _ from .enter (c := 0) ⟨rfl, rfl⟩ rfl ⟨1, rfl⟩)
  have run := again.snoc (show Step (.ready 0 1) _ _ from .ready (c := 0) ⟨rfl, rfl⟩ rfl)
  exact ⟨_, run, rfl, rfl, ((process_life_cycle run).1 rfl).2.2 1 (by decide) (.tail _ (.head _))⟩

end Runs

end Xv6.Sched
