import Xv6.Proc.Sleep

/-!
# No wake-up is lost

Threads wait with `while(!cond) sleep(ch, lk)` under `lk`, and others make `cond` true
under `lk` and then call `wakeup(ch)`. What the rest of the kernel does is not restricted:
every step of `Step` may come in between, with any thread on any CPU.
-/

namespace Xv6.Sched
open Runs Function

/-- The kernel and the condition that threads wait for. -/
structure Watch where
  sys : Sys
  cond : Bool
  -- who has found `cond` false since it took the lock
  checked : Nat → Prop
  -- who has made `cond` true and has not finished `wakeup(ch)`
  waking : Agent → Prop

def Watch.boot (n : Nat) (cond : Bool) : Watch := ⟨Sched.boot n, cond, fun _ => False, fun _ => False⟩

namespace Sys

/-- The thread of `p` runs with `ptable.lock` held, outside of `sleep`. -/
def InLock (s : Sys) (p : Nat) : Prop := ∃ c call, s.At c p (.locked call) ∧ call.sleepsWith = none

/-- Who runs with the lock `lk` held; `none` is `ptable.lock`. -/
def Holds (s : Sys) (a : Agent) : Option Nat → Prop
  | some l => s.lock l = some a ∧ (s.Acts a ∨ ∃ p, a = .proc p ∧ s.InLock p)
  | none => ∃ p, a = .proc p ∧ s.InLock p

/-- The process `p` holds the lock `lk`. -/
def Has (s : Sys) (p : Nat) : Option Nat → Prop
  | some l => s.lock l = some (.proc p)
  | none => ∃ c, s.cpu c = .running p ∧ s.plock = some c

end Sys

/-- Who sleeps on `ch` does so with `lk` and after a look at the condition. -/
def Watch.Allows (w : Watch) (ch : Chan) (lk : Option Nat) : Event → Prop
  | .enter p (.sleep ch' l) => ch' = ch → lk = some l ∧ w.checked p
  | .sectionSleep p ch' => ch' = ch → lk = none ∧ w.checked p
  | .waitSleep p => .proc p = ch → lk = none ∧ w.checked p
  | _ => True

inductive Act where
  -- `while(!cond)`
  | check (p : Nat)
  | set (a : Agent) (cond : Bool)
  | kernel (e : Event)

inductive Turn (ch : Chan) (lk : Option Nat) : Act → Watch → Watch → Prop where
  | check {w : Watch} {p : Nat} : w.sys.Holds (.proc p) lk → w.cond = false →
      Turn ch lk (.check p) w { w with checked := fun q => w.checked q ∨ q = p }
  | set {w : Watch} {a : Agent} {cond : Bool} : w.sys.Holds a lk →
      Turn ch lk (.set a cond) w { w with
        cond := cond
        checked := fun q => w.checked q ∧ a ≠ .proc q
        waking := fun b => w.waking b ∨ b = a ∧ cond = true }
  | kernel {w : Watch} {e : Event} {s' : Sys} : Step e w.sys s' → w.Allows ch lk e →
      Turn ch lk (.kernel e) w { w with
        sys := s'
        checked := fun q => w.checked q ∧ s'.Has q lk
        waking := fun b => w.waking b ∧ ¬ Wakes w.sys ch e b }

/-! ## The invariant -/

structure Watched (ch : Chan) (lk : Option Nat) (w : Watch) : Prop where
  lives : Lives w.sys
  locking : Locking w.sys
  checked : ∀ p, w.checked p → w.cond = false ∧ w.sys.Has p lk
  -- in `sleep`, before `release(lk)`
  entering : ∀ p l, (w.sys.slot p).pc = .locked (.sleep ch l) → lk = some l ∧ w.checked p
  -- in `sleep`, after `release(lk)`
  falling : ∀ p l, (w.sys.slot p).pc = .locked (.sleeping ch l) → w.cond = true → ∃ a, w.waking a
  sleepers : ∀ p, (w.sys.slot p).Asleep ch → w.cond = true → ∃ a, w.waking a
  calls : ∀ p, (w.sys.slot p).pc.sleepsWith ≠ none → (w.sys.view p).stage = .runnable

section Kernel

variable {s s' : Sys} {e : Event} {p : Nat} {ch : Chan} {lk : Option Nat}

theorem Sys.Holds.has (locking : Locking s) (holds : s.Holds (.proc p) lk) : s.Has p lk := by
  cases lk with
  | some l => exact holds.1
  | none =>
    obtain ⟨q, is, c, call, at_, _⟩ := holds
    cases is
    exact locking.locked p (Locking.of_at at_)

/-- The lock has one holder. -/
theorem Sys.Has.only {a : Agent} (locking : Locking s) (has : s.Has p lk) (holds : s.Holds a lk) : a = .proc p := by
  cases lk with
  | some l => exact Option.some.inj (holds.1.symm.trans has)
  | none =>
    obtain ⟨q, is, c', call, at_, _⟩ := holds
    obtain ⟨c, runs, lock⟩ := has
    obtain ⟨c'', runs', lock'⟩ := locking.locked q (Locking.of_at at_)
    cases lock.symm.trans lock'
    cases runs.symm.trans runs'
    exact is

/-- A spinlock is given up outside of `ptable.lock`, or by `sleep`. -/
theorem Step.lock_kept {l : Nat} (step : Step e s s') (has : s.lock l = some (.proc p)) :
    s'.lock l = some (.proc p) ∨ (s'.slot p).pc = .free ∨ e = .unlockSleep p := by
  cases step with
  | @acquire _ a l' acts free =>
    by_cases here : l = l'
    · rw [here, free] at has
      cases has
    · exact .inl (by simp only [update_of_ne here]; exact has)
  | @release _ a l' acts holds =>
    by_cases here : l = l'
    · rw [here, holds] at has
      cases has
      obtain ⟨c, at_⟩ := acts
      exact .inr (.inl at_.2)
    · exact .inl (by simp only [update_of_ne here]; exact has)
  | @unlockSleep _ c q l' ch' _ holds =>
    by_cases here : l = l'
    · rw [here, holds] at has
      cases has
      exact .inr (.inr rfl)
    · exact .inl (by simp only [update_of_ne here]; exact has)
  | @relock _ c q l' _ free =>
    by_cases here : l = l'
    · rw [here, free] at has
      cases has
    · exact .inl (by simp only [update_of_ne here]; exact has)
  | _ => exact .inl has

/-- Only `exit` ends a process. -/
theorem Change.stops {n initproc i : Nat} {v v' : Nat → View} (change : Change n initproc v e v') (family : Family n initproc v)
    (before : (v i).stage = .runnable) (after : (v' i).stage ≠ .runnable) : e = .exit i := by
  cases change with
  | same _ => exact absurd before after
  | @exit p _ _ _ =>
    by_cases is : i = p
    · rw [is]
    · rw [update_of_ne is] at after
      exact absurd before (by split at after <;> exact after)
  | @reap p j pid _ zombie _ =>
    by_cases is : i = j
    · rw [is, zombie] at before
      cases before
    · rw [update_of_ne is] at after
      exact absurd before after
  | made _ _ _ unused _ => grind [update_apply]
  | named _ _ => grind [update_apply]
  | @failed _ p q forking _ =>
    have embryo := (family.forks p q false forking).2.1
    grind [update_apply]
  | abandoned _ => grind [update_apply]
  | readied _ _ => grind [update_apply]

theorem Step.stops (step : Step e s s') (lives : Lives s) (before : (s.view p).stage = .runnable)
    (after : (s'.view p).stage ≠ .runnable) : (s'.slot p).pc = .dead := by
  have is := (step.change lives.placed lives.family).stops lives.family before after
  subst is
  cases step with
  | exit _ _ _ => exact (exit_slots _ _ _ _).1.2.1

/-- A thread goes to sleep while it runs. -/
theorem Step.falls (step : Step e s s') (lives : Lives s) (locking : Locking s) (before : (s.slot p).pc.sleepsWith = none)
    (after : (s'.slot p).pc.sleepsWith ≠ none) : (s.view p).stage = .runnable := by
  have inside : (s.slot p).pc.isLocked → (s.view p).stage = .runnable := by
    intro locked
    obtain ⟨c, runs, _⟩ := locking.locked p locked
    exact Sys.At.alive lives.placed ⟨runs, rfl⟩
  have goes := step.goes p
  generalize was : (s.slot p).pc = pc at goes before inside
  generalize (s'.slot p).pc = pc' at goes after
  cases goes with
  | enters =>
    cases step with
    | enter at_ _ _ => exact Sys.At.alive lives.placed at_
  | waits | sectionSleeps => exact inside rfl
  | stays | unlocks | sleeps | wakes => exact absurd before after
  | _ => exact absurd rfl after

theorem Step.calls (step : Step e s s') (lives : Lives s) (locking : Locking s)
    (calls : ∀ p, (s.slot p).pc.sleepsWith ≠ none → (s.view p).stage = .runnable) (p : Nat)
    (sleeps : (s'.slot p).pc.sleepsWith ≠ none) : (s'.view p).stage = .runnable := by
  have before : (s.view p).stage = .runnable := by
    by_cases was : (s.slot p).pc.sleepsWith = none
    · exact step.falls lives locking was sleeps
    · exact calls p was
  by_contra stopped
  rw [step.stops lives before stopped] at sleeps
  exact sleeps rfl

/-- `sleep` returns with its lock held. -/
theorem Step.returns {k : Option Nat} (step : Step e s s') (lives : Lives s) (locking : Locking s)
    (alive : (s.view p).stage = .runnable) (before : (s.slot p).pc.sleepsWith = some k)
    (after : (s'.slot p).pc.sleepsWith = none) : s'.Has p k := by
  have goes := step.goes p
  have locking' := (step.locking locking lives.placed).locked p
  generalize (s.slot p).pc = pc at goes before
  generalize (s'.slot p).pc = pc' at goes after locking'
  cases goes with
  | stays => cases before.symm.trans after
  | made unused =>
    simp [Sys.view, Slot.view, unused, stage] at alive
  | leaves out => cases before.symm.trans out
  | relocks =>
    cases before
    cases step with
    | relock _ _ => exact update_self ..
  | waited | sectioned =>
    cases before
    exact locking' rfl
  | unlocks | sleeps | wakes => cases after
  | _ => cases before

end Kernel

section Watched

variable {n : Nat} {ch : Chan} {lk : Option Nat} {w w' : Watch} {act : Act}

/-- Who sets the condition is not in `sleep` on `ch`, and nobody has looked at it. -/
theorem Watched.set {a : Agent} {cond : Bool} (watched : Watched ch lk w) (holds : w.sys.Holds a lk) :
    Watched ch lk { w with
      cond := cond
      checked := fun q => w.checked q ∧ a ≠ .proc q
      waking := fun b => w.waking b ∨ b = a ∧ cond = true } := by
  refine ⟨watched.lives, watched.locking, ?_, ?_, ?_, ?_, watched.calls⟩
  · intro p checked
    exact absurd ((watched.checked p checked.1).2.only watched.locking holds) checked.2
  · intro p l entering
    obtain ⟨is, checked⟩ := watched.entering p l entering
    obtain ⟨_, has⟩ := watched.checked p checked
    cases has.only watched.locking holds
    subst is
    -- the thread of `p` would be outside of `sleep`
    rcases holds.2 with ⟨c, at_⟩ | ⟨q, same, c, call, at_, out⟩
    · cases at_.2.symm.trans entering
    · cases same
      cases at_.2.symm.trans entering
      cases out
  · intro p l _ now
    exact ⟨a, .inr ⟨rfl, now⟩⟩
  · intro p _ now
    exact ⟨a, .inr ⟨rfl, now⟩⟩

theorem Watched.check {p : Nat} (watched : Watched ch lk w) (holds : w.sys.Holds (.proc p) lk) (clear : w.cond = false) :
    Watched ch lk { w with checked := fun q => w.checked q ∨ q = p } := by
  refine ⟨watched.lives, watched.locking, ?_, ?_, watched.falling, watched.sleepers, watched.calls⟩
  · rintro q (checked | rfl)
    · exact watched.checked q checked
    · exact ⟨clear, holds.has watched.locking⟩
  · intro q l entering
    obtain ⟨is, checked⟩ := watched.entering q l entering
    exact ⟨is, .inl checked⟩

section Kernel

variable {e : Event} {s' : Sys} {p l : Nat}

section

variable (watched : Watched ch lk w) (step : Step e w.sys s')
include watched step

/-- A thread that is in `sleep` before `release(lk)` has looked at the condition and still holds `lk`. -/
theorem Watched.kernel_entering (allowed : w.Allows ch lk e)
    (entering : (s'.slot p).pc = .locked (.sleep ch l)) : lk = some l ∧ w.checked p ∧ s'.Has p lk := by
  have goes := step.goes p
  have kept := fun has : w.sys.lock l = some (.proc p) => step.lock_kept has
  rw [entering] at goes kept
  have before : lk = some l ∧ w.checked p ∧ e ≠ .unlockSleep p := by
    generalize was : (w.sys.slot p).pc = pc at goes
    cases goes with
    | stays => 
      obtain ⟨is, checked⟩ := watched.entering p l was
      refine ⟨is, checked, fun unlock => ?_⟩
      subst unlock
      cases step with
      | unlockSleep at_ _ => simp [Sys.setSlot] at entering
    | enters =>
      obtain ⟨is, checked⟩ := allowed rfl
      exact ⟨is, checked, by simp⟩
  obtain ⟨is, checked, other⟩ := before
  obtain ⟨_, has⟩ := watched.checked p checked
  subst is
  refine ⟨rfl, checked, ?_⟩
  rcases kept has with same | free | unlock
  · exact same
  · cases free
  · exact absurd unlock other

/-- A wake-up under way is still under way, unless nobody is in `sleep` on `ch`. -/
theorem Watched.kernel_waking (waking : ∃ a, w.waking a) :
    (∃ a, w.waking a ∧ ¬ Wakes w.sys ch e a) ∨
      (∀ q, ¬ (s'.slot q).Asleep ch) ∧ ∀ q call, (w.sys.slot q).pc = .locked call → call.sleepsWith = none := by
  obtain ⟨a, waking⟩ := waking
  by_cases wakes : Wakes w.sys ch e a
  · exact .inr ⟨step.awake watched.lives wakes, fun q call => step.waker watched.locking wakes q⟩
  · exact .inl ⟨a, waking, wakes⟩

theorem Watched.kernel_falling
    (falling : (s'.slot p).pc = .locked (.sleeping ch l)) (now : w.cond = true) :
    ∃ a, w.waking a ∧ ¬ Wakes w.sys ch e a := by
  have goes := step.goes p
  rw [falling] at goes
  generalize was : (w.sys.slot p).pc = pc at goes
  cases goes with
  | stays =>
    rcases watched.kernel_waking step (watched.falling p l was now) with waking | ⟨_, out⟩
    · exact waking
    · cases out p _ was
  | unlocks =>
    obtain ⟨_, checked⟩ := watched.entering p l was
    cases (watched.checked p checked).1.symm.trans now
  | enters =>
    cases step with
    | enter _ _ enters => cases enters

theorem Watched.kernel_sleepers (allowed : w.Allows ch lk e)
    (asleep : (s'.slot p).Asleep ch) (now : w.cond = true) : ∃ a, w.waking a ∧ ¬ Wakes w.sys ch e a := by
  have old : (∃ a, w.waking a) → ∃ a, w.waking a ∧ ¬ Wakes w.sys ch e a := by
    intro waking
    rcases watched.kernel_waking step waking with still | ⟨awake, _⟩
    · exact still
    · exact absurd asleep (awake p)
  have unseen : ¬ w.checked p := by
    intro checked
    cases (watched.checked p checked).1.symm.trans now
  cases step.slept p asleep with
  | before asleep => exact old (watched.sleepers p asleep now)
  | sleep falling => exact old (watched.falling p _ falling now)
  | sectionSleep => exact absurd (allowed rfl).2 unseen
  | waitSleep is => exact absurd (allowed is.symm).2 unseen

end

end Kernel

/-- **Every turn** keeps the invariant. -/
theorem Watched.turn (watched : Watched ch lk w) (turn : Turn ch lk act w w') : Watched ch lk w' := by
  cases turn with
  | check holds clear => exact watched.check holds clear
  | set holds => exact watched.set holds
  | kernel step allowed =>
    constructor
    · exact watched.lives.step step
    · exact step.locking watched.locking watched.lives.placed
    · intro p checked
      exact ⟨(watched.checked p checked.1).1, checked.2⟩
    · intro p l entering
      exact watched.kernel_entering step allowed entering
    · intro p l falling now
      exact watched.kernel_falling step falling now
    · intro p asleep now
      exact watched.kernel_sleepers step allowed asleep now
    · exact step.calls watched.lives watched.locking watched.calls

theorem boot_pc (n i : Nat) : ((boot n).slot i).pc = .forkret := by
  rw [boot_slot]
  split <;> rfl

theorem boot_watched (n : Nat) (ch : Chan) (lk : Option Nat) (cond : Bool) : Watched ch lk (.boot n cond) := by
  refine ⟨boot_lives n, ⟨?_, ?_⟩, ?_, ?_, ?_, ?_, ?_⟩
  · intro p locked
    rw [Watch.boot, boot_pc] at locked
    cases locked
  · rintro c j ⟨⟩
  · rintro p ⟨⟩
  · intro p l entering
    rw [Watch.boot, boot_pc] at entering
    cases entering
  · intro p l falling
    rw [Watch.boot, boot_pc] at falling
    cases falling
  · intro p asleep
    have state := asleep.1
    rw [Watch.boot, boot_slot] at state
    split at state <;> cases state
  · intro p sleeps
    rw [Watch.boot, boot_pc] at sleeps
    exact absurd rfl sleeps

/-- **No wake-up is lost.** Nobody sleeps on `ch` while the condition is true, unless one who has made it true has not
finished `wakeup(ch)`; and `sleep` returns with the lock held that it has been given. -/
theorem no_lost_wakeup {cond : Bool} {acts : List Act} (run : Trace (Turn ch lk) (.boot n cond) acts w) :
    (¬ ∃ p, (w.sys.slot p).state = .sleeping ∧ (w.sys.slot p).chan = some ch ∧ w.cond = true ∧ ∀ a, ¬ w.waking a) ∧
    ∀ act w' p k, Turn ch lk act w w' → (w.sys.slot p).pc.sleepsWith = some k → (w'.sys.slot p).pc.sleepsWith = none →
      w'.sys.Has p k := by
  have watched : Watched ch lk w := run.invariant (fun _ _ _ watched turn => watched.turn turn) (boot_watched n ch lk cond)
  constructor
  · rintro ⟨p, sleeping, chan, now, nobody⟩
    obtain ⟨a, waking⟩ := watched.sleepers p ⟨sleeping, chan⟩ now
    exact nobody a waking
  · intro act w' p k turn before after
    have alive := watched.calls p (by rw [before]; simp)
    cases turn with
    | check _ _ => cases before.symm.trans after
    | set _ => cases before.symm.trans after
    | kernel step _ => exact step.returns watched.lives watched.locking alive before after

/-- Init sleeps under lock 5, and an interrupt handler has made the condition true. -/
theorem no_lost_wakeup_interrupt : ∃ w, Trace (Turn (.other 7) (some 5)) (.boot 3 false)
      [.kernel (.scanStart 0), .kernel (.dispatch 0 0), .kernel (.acquire (.proc 0) 5), .check 0,
        .kernel (.enter 0 (.sleep (.other 7) 5)), .kernel (.unlockSleep 0), .kernel (.sleep 0 (.other 7)),
        .kernel (.acquire (.intr 1) 5), .set (.intr 1) true] w ∧
    (w.sys.slot 0).state = .sleeping ∧ w.cond = true ∧ ¬ ∀ a, ¬ w.waking a := by
  have released : ∀ l, Function.update (Function.update (fun _ => none) 5 (some (Agent.proc 0))) 5 none l ≠ some (.proc 0) := by
    intro l
    simp only [Function.update_apply]
    split <;> simp
  have start : Trace (Turn (.other 7) (some 5)) (.boot 3 false) [] (.boot 3 false) := .nil
  have scan := start.snoc (show Turn (.other 7) (some 5) (.kernel (.scanStart 0)) _ _ from .kernel (.scanStart rfl rfl) trivial)
  have runs := scan.snoc (show Turn (.other 7) (some 5) (.kernel (.dispatch 0 0)) _ _ from
    .kernel (.dispatch (j := 0) rfl (by decide) rfl rfl) trivial)
  have locked := runs.snoc (show Turn (.other 7) (some 5) (.kernel (.acquire (.proc 0) 5)) _ _ from
    .kernel (.acquire ⟨0, rfl, rfl⟩ rfl) trivial)
  have checked := locked.snoc (show Turn (.other 7) (some 5) (.check 0) _ _ from
    .check ⟨rfl, .inl ⟨0, rfl, rfl⟩⟩ rfl)
  have enters := checked.snoc (show Turn (.other 7) (some 5) (.kernel (.enter 0 (.sleep (.other 7) 5))) _ _ from
    .kernel (.enter (c := 0) ⟨rfl, rfl⟩ rfl trivial) fun _ => ⟨rfl, .inr rfl⟩)
  have unlocks := enters.snoc (show Turn (.other 7) (some 5) (.kernel (.unlockSleep 0)) _ _ from
    .kernel (.unlockSleep (c := 0) ⟨rfl, rfl⟩ rfl) trivial)
  have sleeps := unlocks.snoc (show Turn (.other 7) (some 5) (.kernel (.sleep 0 (.other 7))) _ _ from
    .kernel (.sleep (c := 0) ⟨rfl, rfl⟩ released) trivial)
  have handler := sleeps.snoc (show Turn (.other 7) (some 5) (.kernel (.acquire (.intr 1) 5)) _ _ from
    .kernel (.acquire trivial rfl) trivial)
  have wakes := handler.snoc (show Turn (.other 7) (some 5) (.set (.intr 1) true) _ _ from .set ⟨rfl, .inl trivial⟩)
  refine ⟨_, wakes, rfl, rfl, fun nobody => ?_⟩
  exact (no_lost_wakeup wakes).1 ⟨0, rfl, rfl, rfl, nobody⟩

end Watched

end Xv6.Sched
