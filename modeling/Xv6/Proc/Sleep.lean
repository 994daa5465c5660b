import Xv6.Proc.LifeCycle

/-!
# `sleep` and `wakeup`

Threads wait for a condition with `while(!cond) sleep(chan, lk)` under `lk`; others make it
true under `lk` and then call `wakeup(chan)`. `sleep` takes `ptable.lock` before it releases
`lk`, and `wakeup` needs `ptable.lock`, so a wake-up that follows the change of the
condition finds the sleeper in the table. When `lk` is `ptable.lock` itself, it is held all
the way.
-/

namespace Xv6.Sched
open Runs Function

/-! ## Who holds `ptable.lock` -/

def Pc.isLocked : Pc → Bool
  | .locked _ => true
  | _ => false

/-- The lock that a call of `sleep` has been given, `none` for `ptable.lock`, while the call has not returned. -/
def Call.sleepsWith : Call → Option (Option Nat)
  | .sleep _ l => some (some l)
  | .sleeping _ l => some (some l)
  | _ => none

def Pc.sleepsWith : Pc → Option (Option Nat)
  | .locked call => call.sleepsWith
  | .slept l => some (some l)
  | .relock l => some (some l)
  | .waiting => some none
  | .sectioned => some none
  | _ => none

/-- The lock is held by the CPU of the process that is inside of it, or of the scheduler that is. -/
structure Locking (s : Sys) : Prop where
  locked : ∀ p, (s.slot p).pc.isLocked → ∃ c, s.cpu c = .running p ∧ s.plock = some c
  scanning : ∀ c j, s.cpu c = .scanning j → s.plock = some c

theorem resume_keeps {x y : Slot} {keeps : Bool} (resumes : x.resume = some (y, keeps)) (locked : y.pc.isLocked) :
    keeps = true := by
  unfold Slot.resume at resumes
  split at resumes
  all_goals cases resumes
  all_goals first | rfl | cases locked

namespace Locking

variable {s s' : Sys} {c p q j : Nat} {call : Call}

theorem of_at (at_ : s.At c p (.locked call)) : (s.slot p).pc.isLocked := by
  rw [at_.2]
  rfl

section

variable (locking : Locking s)
include locking

theorem holds (placed : Placed s) (at_ : s.At c p (.locked call)) : s.plock = some c := by
  obtain ⟨c', runs, lock⟩ := locking.locked p (of_at at_)
  rw [placed.alone c c' p at_.1 runs]
  exact lock

/-- Two threads are not inside at once. -/
theorem alone (one : (s.slot p).pc.isLocked) (other : (s.slot q).pc.isLocked) : q = p := by
  obtain ⟨c, runs, lock⟩ := locking.locked p one
  obtain ⟨c', runs', lock'⟩ := locking.locked q other
  cases lock.symm.trans lock'
  cases runs.symm.trans runs'
  rfl

/-- No scheduler is inside with a thread. -/
theorem no_scan (one : (s.slot p).pc.isLocked) (c j : Nat) : s.cpu c ≠ .scanning j := by
  intro scans
  obtain ⟨c', runs, lock⟩ := locking.locked p one
  cases lock.symm.trans (locking.scanning c j scans)
  cases runs.symm.trans scans

/-- Nobody is inside while the lock is free. -/
theorem free (free : s.plock = none) :
    (∀ q, ¬ (s.slot q).pc.isLocked) ∧ ∀ c j, s.cpu c ≠ .scanning j := by
  constructor
  · intro q locked
    obtain ⟨c, _, lock⟩ := locking.locked q locked
    cases free.symm.trans lock
  · intro c j scans
    cases free.symm.trans (locking.scanning c j scans)

/-- A step that keeps the CPUs and the lock. -/
theorem same (cpus : s'.cpu = s.cpu) (lock : s'.plock = s.plock)
    (pcs : ∀ q, (s'.slot q).pc.isLocked → (s.slot q).pc.isLocked) : Locking s' := by
  constructor
  · intro q locked
    rw [cpus, lock]
    exact locking.locked q (pcs q locked)
  · rw [cpus, lock]
    exact locking.scanning

/-- A thread takes the lock. -/
theorem enter (free : s.plock = none) (here : s.cpu c = .running p) (cpus : s'.cpu = s.cpu)
    (lock : s'.plock = some c) (pcs : ∀ q, q ≠ p → (s'.slot q).pc = (s.slot q).pc) : Locking s' := by
  obtain ⟨unlocked, nobody⟩ := locking.free free
  constructor
  · intro q locked
    by_cases isP : q = p
    · rw [isP, cpus]
      exact ⟨c, here, lock⟩
    · rw [pcs q isP] at locked
      exact absurd locked (unlocked q)
  · intro c' j scans
    rw [cpus] at scans
    exact absurd scans (nobody c' j)

/-- A thread gives the lock up. -/
theorem leave (one : (s.slot p).pc.isLocked) (cpus : s'.cpu = s.cpu)
    (out : ¬ (s'.slot p).pc.isLocked) (pcs : ∀ q, q ≠ p → (s'.slot q).pc.isLocked → (s.slot q).pc.isLocked) : Locking s' := by
  constructor
  · intro q locked
    by_cases isP : q = p
    · rw [isP] at locked
      exact absurd locked out
    · exact absurd (locking.alone one (pcs q isP locked)) isP
  · intro c' j scans
    rw [cpus] at scans
    exact absurd scans (locking.no_scan one c' j)

/-- A thread leaves the lock to the scheduler. -/
theorem swtch (placed : Placed s) (at_ : s.At c p (.locked call))
    (cpus : s'.cpu = update s.cpu c (.scanning j)) (lock : s'.plock = s.plock) (out : ¬ (s'.slot p).pc.isLocked)
    (pcs : ∀ q, q ≠ p → (s'.slot q).pc.isLocked → (s.slot q).pc.isLocked) : Locking s' := by
  constructor
  · intro q locked
    by_cases isP : q = p
    · rw [isP] at locked
      exact absurd locked out
    · exact absurd (locking.alone (of_at at_) (pcs q isP locked)) isP
  · intro c' j' scans
    rw [lock, locking.holds placed at_]
    by_cases here : c' = c
    · rw [here]
    · rw [cpus, update_of_ne here] at scans
      exact absurd scans (locking.no_scan (of_at at_) c' j')

theorem unlock {t : Table} (at_ : s.At c p (.locked call))
    (pcs : ∀ q, ((s.unlock p t).slot q).pc.isLocked → (s.slot q).pc.isLocked) : Locking (s.unlock p t) :=
  locking.leave (of_at at_) rfl (by simp [Sys.unlock, Pc.isLocked]) fun q _ => pcs q

theorem scanStart (free : s.plock = none) :
    Locking { s with cpu := update s.cpu c (.scanning 0), plock := some c } := by
  obtain ⟨unlocked, nobody⟩ := locking.free free
  constructor
  · intro q locked
    exact absurd locked (unlocked q)
  · intro c' j scans
    by_cases here : c' = c
    · rw [here]
    · simp only [update_of_ne here] at scans
      exact absurd scans (nobody c' j)

/-- The lock stays with the only scheduler that is inside, or is given up by it. -/
theorem scan_moves {x : Cpu} {lock : Option Nat} (scan : s.cpu c = .scanning j)
    (kept : ∀ j, x = .scanning j → lock = some c) :
    Locking { s with cpu := update s.cpu c x, plock := lock } := by
  constructor
  · intro q locked
    exact absurd scan (locking.no_scan locked c j)
  · intro c' j' scans
    by_cases here : c' = c
    · subst here
      simp only [update_self] at scans
      exact kept j' scans
    · simp only [update_of_ne here] at scans
      have mine := locking.scanning c j scan
      cases mine.symm.trans (locking.scanning c' j' scans)
      exact absurd rfl here

theorem scanNext (scan : s.cpu c = .scanning j) :
    Locking { s with cpu := update s.cpu c (.scanning (j + 1)) } :=
  locking.scan_moves scan fun _ _ => locking.scanning c j scan

theorem scanDone (scan : s.cpu c = .scanning j) :
    Locking { s with cpu := update s.cpu c .idle, plock := none } :=
  locking.scan_moves scan fun _ done => by cases done

/-- The scheduler passes the lock on to the thread that it returns to, if that one is inside. -/
theorem dispatch {x : Slot} {keeps : Bool} (scan : s.cpu c = .scanning j)
    (resumes : (s.slot j).resume = some (x, keeps)) :
    Locking { s.setSlot j x with
      cpu := update s.cpu c (.running j)
      plock := if keeps then s.plock else none } := by
  constructor
  · intro q locked
    by_cases isJ : q = j
    · subst isJ
      refine ⟨c, by simp, ?_⟩
      simp only [Sys.setSlot, update_self] at locked
      rw [resume_keeps resumes locked]
      exact locking.scanning c _ scan
    · simp only [Sys.setSlot, update_of_ne isJ] at locked
      exact absurd scan (locking.no_scan locked c j)
  · intro c' j' scans
    by_cases here : c' = c
    · subst here
      simp at scans
    · simp only [update_of_ne here] at scans
      have mine := locking.scanning c j scan
      cases mine.symm.trans (locking.scanning c' j' scans)
      exact absurd rfl here

end

end Locking

/-! ## Where a step takes a thread -/

/-- What a step does to the place of the thread of `p`, whose slot is free to be taken if `unused`. -/
inductive Goes (p : Nat) (unused : Prop) : Event → Pc → Pc → Prop where
  | stays {e : Event} {pc : Pc} : Goes p unused e pc pc
  | made {e : Event} {pc : Pc} : unused → Goes p unused e pc .forkret
  | enters {call : Call} : Goes p unused (.enter p call) .free (.locked call)
  | leaves {e : Event} {call : Call} : call.sleepsWith = none → Goes p unused e (.locked call) .free
  | yields : Goes p unused (.yield p) (.locked .yield) .yielded
  | dies : Goes p unused (.exit p) (.locked .exit) .dead
  | starts {c : Nat} : Goes p unused (.dispatch c p) .forkret .free
  | resumes {c : Nat} : Goes p unused (.dispatch c p) .yielded .free
  | unlocks {ch : Chan} {l : Nat} :
      Goes p unused (.unlockSleep p) (.locked (.sleep ch l)) (.locked (.sleeping ch l))
  | sleeps {ch : Chan} {l : Nat} : Goes p unused (.sleep p ch) (.locked (.sleeping ch l)) (.slept l)
  | wakes {c l : Nat} : Goes p unused (.dispatch c p) (.slept l) (.relock l)
  | relocks {l : Nat} : Goes p unused (.relock p l) (.relock l) .free
  | waits : Goes p unused (.waitSleep p) (.locked .wait) .waiting
  | waited {c : Nat} : Goes p unused (.dispatch c p) .waiting (.locked .wait)
  | sectionSleeps {ch : Chan} : Goes p unused (.sectionSleep p ch) (.locked .section_) .sectioned
  | sectioned {c : Nat} : Goes p unused (.dispatch c p) .sectioned (.locked .section_)

section Threads

variable {s s' : Sys} {e : Event} {p : Nat} {t : Table} {x : Slot}

/-- One slot of the table is replaced. -/
theorem update_goes (here : Goes p ((s.slot p).state = .unused) e (s.slot p).pc x.pc)
    (others : ∀ q, q ≠ p → Goes q ((s.slot q).state = .unused) e (s.slot q).pc (t q).pc) (q : Nat) :
    Goes q ((s.slot q).state = .unused) e (s.slot q).pc (update t p x q).pc := by
  by_cases isP : q = p
  · subst isP
    rw [update_self]
    exact here
  · rw [update_of_ne isP]
    exact others q isP

theorem stays_goes (same : ∀ q, (t q).pc = (s.slot q).pc) (q : Nat) :
    Goes q ((s.slot q).state = .unused) e (s.slot q).pc (t q).pc := by
  rw [same q]
  exact .stays

theorem unlock_goes {c : Nat} {call : Call} (at_ : s.At c p (.locked call)) (out : call.sleepsWith = none)
    (same : ∀ q, (t q).pc = (s.slot q).pc) (q : Nat) :
    Goes q ((s.slot q).state = .unused) e (s.slot q).pc ((s.unlock p t).slot q).pc := by
  refine update_goes ?_ (fun q _ => stays_goes same q) q
  rw [at_.2]
  exact .leaves out

theorem pair_pc {q : Nat} {y : Slot} (child : y.pc = (s.slot q).pc) (parent : x.pc = (s.slot p).pc) (i : Nat) :
    (((s.setSlot q y).setSlot p x).slot i).pc = (s.slot i).pc := by
  simp only [Sys.setSlot, update_apply]
  split
  · rename_i isP
    rw [isP, parent]
  · split
    · rename_i isQ
      rw [isQ, child]
    · rfl

theorem resume_goes {c : Nat} {keeps : Bool} (resumes : (s.slot p).resume = some (x, keeps)) :
    Goes p ((s.slot p).state = .unused) (.dispatch c p) (s.slot p).pc x.pc := by
  unfold Slot.resume at resumes
  split at resumes
  all_goals rename_i pc
  all_goals cases resumes
  all_goals rw [pc]
  · exact .starts
  · exact .resumes
  · exact .wakes
  · exact .waited
  · exact .sectioned

/-- **The places of the threads** after a step. -/
theorem Step.goes (step : Step e s s') (q : Nat) :
    Goes q ((s.slot q).state = .unused) e (s.slot q).pc (s'.slot q).pc := by
  cases step with
  | acquire _ _ => exact .stays
  | release _ _ => exact .stays
  | enter at_ _ _ => exact update_goes (at_.2 ▸ .enters) (fun _ _ => .stays) q
  | yield at_ _ => exact update_goes (at_.2 ▸ .yields) (fun _ _ => .stays) q
  | unlockSleep at_ _ => exact update_goes (at_.2 ▸ .unlocks) (fun _ _ => .stays) q
  | sleep at_ _ => exact update_goes (at_.2 ▸ .sleeps) (fun _ _ => .stays) q
  | relock at_ _ => exact update_goes (at_.2 ▸ .relocks) (fun _ _ => .stays) q
  | wakeup at_ => exact unlock_goes at_ rfl (fun i => (wakeup1_woken _ _ _ i).pc) q
  | wakeupIntr _ => exact stays_goes (fun i => (wakeup1_woken _ _ _ i).pc) q
  | kill at_ call => exact unlock_goes at_ rfl (fun i => (kill_woken call i).pc) q
  | @exit _ c p at_ _ _ =>
    obtain ⟨⟨_, dead, _⟩, inside, outside⟩ := exit_slots s.nproc s.initproc p s.slot
    show Goes q _ _ _ (Sched.exit s.nproc s.initproc p s.slot q).pc
    by_cases isP : q = p
    · subst isP
      rw [dead, at_.2]
      exact .dies
    · by_cases low : q < s.nproc
      · rw [(inside q low isP).pc]
        exact .stays
      · rw [(outside q (by omega) isP).pc]
        exact .stays
  | @reap _ c p i at_ found =>
    refine unlock_goes at_ rfl (fun j => ?_) q
    by_cases isI : j = i
    · simp [Sched.reap, isI]
    · simp [Sched.reap, isI]
  | waitNone at_ _ _ => exact unlock_goes at_ rfl (fun _ => rfl) q
  | waitSleep at_ _ _ _ _ => exact update_goes (at_.2 ▸ .waits) (fun _ _ => .stays) q
  | allocNone at_ _ => exact unlock_goes at_ rfl (fun _ => rfl) q
  | alloc at_ _ found =>
    apply update_goes
    · rw [at_.2]
      exact .leaves rfl
    · intro i _
      exact update_goes (.made (unused_some found).2) (fun _ _ => .stays) i
  | setParent _ _ =>
    apply stays_goes
    intro i
    apply pair_pc <;> rfl
  | forkFail _ _ =>
    apply stays_goes
    intro i
    apply pair_pc <;> rfl
  | @forkAbandon _ _ p _ _ _ _ => exact update_goes (x := { s.slot p with np := none }) .stays (fun _ _ => .stays) q
  | ready at_ _ =>
    apply update_goes
    · rw [at_.2]
      exact .leaves rfl
    · intro i _
      apply update_goes
      · exact .stays
      · intro _ _
        exact .stays
  | scanStart _ _ => exact .stays
  | scanNext _ _ _ => exact .stays
  | scanDone _ _ => exact .stays
  | dispatch _ _ _ resumes => exact update_goes (resume_goes resumes) (fun _ _ => .stays) q
  | sectionSleep at_ _ => exact update_goes (at_.2 ▸ .sectionSleeps) (fun _ _ => .stays) q
  | sectionWake _ => exact stays_goes (fun i => (wakeup1_woken _ _ _ i).pc) q
  | sectionLeave at_ => exact unlock_goes at_ rfl (fun _ => rfl) q

/-- Which steps can take a thread into `ptable.lock`. -/
def Event.enters : Event → Bool
  | .enter _ _ => true
  | .dispatch _ _ => true
  | _ => false

theorem Goes.locked {unused : Prop} {pc pc' : Pc} (goes : Goes p unused e pc pc') (plain : e.enters = false)
    (locked : pc'.isLocked) : pc.isLocked := by
  cases goes with
  | stays => exact locked
  | unlocks => rfl
  | enters | waited | sectioned => cases plain
  | _ => cases locked

/-- **Who holds the lock** after a step. -/
theorem Step.locking (step : Step e s s') (locking : Locking s) (placed : Placed s) : Locking s' := by
  have goes := step.goes
  have inside : e.enters = false → ∀ q, (s'.slot q).pc.isLocked → (s.slot q).pc.isLocked :=
    fun plain q => (goes q).locked plain
  cases step with
  | enter at_ free _ =>
    refine locking.enter free at_.1 rfl rfl fun q ne => ?_
    simp only [Sys.setSlot, update_of_ne ne]
  | yield at_ _ => exact locking.swtch placed at_ rfl rfl (by simp [Sys.swtch, Pc.isLocked]) fun q _ => inside rfl q
  | sleep at_ _ => exact locking.swtch placed at_ rfl rfl (by simp [Sys.swtch, Pc.isLocked]) fun q _ => inside rfl q
  | wakeup at_ => exact locking.unlock at_ (inside rfl)
  | kill at_ call => exact locking.unlock at_ (inside rfl)
  | @exit _ c p at_ _ _ =>
    obtain ⟨⟨_, dead, _⟩, _⟩ := exit_slots s.nproc s.initproc p s.slot
    exact locking.swtch placed at_ rfl rfl (by simp [dead, Pc.isLocked]) fun q _ => inside rfl q
  | reap at_ _ => exact locking.unlock at_ (inside rfl)
  | waitNone at_ _ _ => exact locking.unlock at_ (inside rfl)
  | waitSleep at_ _ _ _ _ =>
    exact locking.swtch placed at_ rfl rfl (by simp [Sys.swtch, Pc.isLocked]) fun q _ => inside rfl q
  | allocNone at_ _ => exact locking.unlock at_ (inside rfl)
  | alloc at_ _ _ => exact locking.leave (Locking.of_at at_) rfl (by simp [Sys.setSlot, Pc.isLocked]) fun q _ => inside rfl q
  | ready at_ _ => exact locking.leave (Locking.of_at at_) rfl (by simp [Sys.setSlot, Pc.isLocked]) fun q _ => inside rfl q
  | scanStart idle free => exact locking.scanStart free
  | scanNext scan _ _ => exact locking.scanNext scan
  | scanDone scan _ => exact locking.scanDone scan
  | dispatch scan _ runnable resumes => exact locking.dispatch scan resumes
  | sectionSleep at_ _ =>
    exact locking.swtch placed at_ rfl rfl (by simp [Sys.swtch, Pc.isLocked]) fun q _ => inside rfl q
  | sectionLeave at_ => exact locking.unlock at_ (inside rfl)
  | _ => exact locking.same rfl rfl (inside rfl)

end Threads

/-! ## Who sleeps -/

def Slot.Asleep (x : Slot) (ch : Chan) : Prop := x.state = .sleeping ∧ x.chan = some ch

/-- Why process `p` sleeps on `ch` after a step. -/
inductive Slept (s : Sys) (ch : Chan) (p : Nat) : Event → Prop where
  | before {e : Event} : (s.slot p).Asleep ch → Slept s ch p e
  | sleep {l : Nat} : (s.slot p).pc = .locked (.sleeping ch l) → Slept s ch p (.sleep p ch)
  | sectionSleep : Slept s ch p (.sectionSleep p ch)
  | waitSleep : ch = .proc p → Slept s ch p (.waitSleep p)

section Sleepers

variable {s s' : Sys} {e : Event} {p : Nat} {ch : Chan} {t : Table} {x y : Slot}

theorem Slot.Woken.asleep (woken : x.Woken y) (asleep : y.Asleep ch) : x.Asleep ch := by
  obtain ⟨sleeping, chan⟩ := asleep
  rcases woken.state with same | ⟨_, awake⟩
  · exact ⟨same ▸ sleeping, woken.chan ▸ chan⟩
  · cases awake.symm.trans sleeping

theorem update_slept {q : Nat} (asleep : (update t p x q).Asleep ch) (here : x.Asleep ch → Slept s ch p e)
    (others : ∀ q, (t q).Asleep ch → Slept s ch q e) : Slept s ch q e := by
  by_cases isP : q = p
  · subst isP
    rw [update_self] at asleep
    exact here asleep
  · rw [update_of_ne isP] at asleep
    exact others q asleep

/-- **A process falls asleep** in `sleep` only. -/
theorem Step.slept (step : Step e s s') (q : Nat) (asleep : (s'.slot q).Asleep ch) : Slept s ch q e := by
  cases step with
  | enter _ _ _ => exact update_slept asleep .before fun _ => .before
  | yield _ _ => exact update_slept asleep (fun here => by cases here.1) fun _ => .before
  | unlockSleep _ _ => exact update_slept asleep .before fun _ => .before
  | sleep at_ _ =>
    refine update_slept asleep (fun here => ?_) fun _ => .before
    cases here.2
    exact .sleep at_.2
  | relock _ _ => exact update_slept asleep .before fun _ => .before
  | @wakeup _ _ _ ch' _ =>
    have woken := wakeup1_woken s.nproc (some ch') s.slot
    exact update_slept asleep (fun here => .before ((woken _).asleep here)) fun i other => .before ((woken i).asleep other)
  | wakeupIntr _ => exact .before ((wakeup1_woken _ _ _ q).asleep asleep)
  | kill _ call =>
    have woken := kill_woken call
    exact update_slept asleep (fun here => .before ((woken _).asleep here)) fun i other => .before ((woken i).asleep other)
  | @exit _ c p _ _ _ =>
    obtain ⟨⟨zombie, _⟩, inside, outside⟩ := exit_slots s.nproc s.initproc p s.slot
    by_cases isP : q = p
    · subst isP
      cases zombie.symm.trans asleep.1
    · by_cases low : q < s.nproc
      · exact .before ((inside q low isP).asleep asleep)
      · exact .before ((outside q (by omega) isP).asleep asleep)
  | @reap _ _ p j _ _ =>
    have others : ∀ i, (Sched.reap j s.slot i).Asleep ch → Slept s ch i (.reap p j (s.slot j).pid) :=
      fun i other => update_slept other (fun here => by cases here.1) fun _ => .before
    exact update_slept asleep (others p) others
  | waitNone _ _ _ => exact update_slept asleep .before fun _ => .before
  | waitSleep _ _ _ _ _ =>
    refine update_slept asleep (fun here => ?_) fun _ => .before
    cases here.2
    exact .waitSleep rfl
  | allocNone _ _ => exact update_slept asleep .before fun _ => .before
  | alloc _ _ _ =>
    exact update_slept asleep .before fun i other => update_slept other (fun here => by cases here.1) fun _ => .before
  | setParent _ _ => exact update_slept asleep .before fun i other => update_slept other .before fun _ => .before
  | forkFail _ _ =>
    exact update_slept asleep .before fun i other => update_slept other (fun here => by cases here.1) fun _ => .before
  | forkAbandon _ _ => exact update_slept asleep .before fun _ => .before
  | ready _ _ =>
    exact update_slept asleep .before fun i other => update_slept other (fun here => by cases here.1) fun _ => .before
  | dispatch _ _ _ resumes =>
    refine update_slept asleep (fun here => ?_) fun _ => .before
    cases (Slot.resume_some resumes).1.symm.trans here.1
  | sectionSleep _ _ =>
    refine update_slept asleep (fun here => ?_) fun _ => .before
    cases here.2
    exact .sectionSleep
  | sectionWake _ => exact .before ((wakeup1_woken _ _ _ q).asleep asleep)
  | sectionLeave _ => exact update_slept asleep .before fun _ => .before
  | _ => exact .before asleep

/-- The steps that wake everyone who sleeps on `ch`: `wakeup(ch)`, and `exit` for the parent. -/
inductive Wakes (s : Sys) (ch : Chan) : Event → Agent → Prop where
  | wakeup {a : Agent} : Wakes s ch (.wakeup a ch) a
  | exit {p : Nat} : (s.slot p).parent.map .proc = some ch → Wakes s ch (.exit p) (.proc p)

/-- A sleeper has a slot of the table. -/
theorem Slot.Asleep.inside (lives : Lives s) {q : Nat} (asleep : (s.slot q).Asleep ch) : q < s.nproc := by
  by_contra outside
  have unused := lives.family.bound q (by omega)
  simp [Sys.view, Slot.view, asleep.1, stage] at unused

theorem wakeup1_awake (lives : Lives s) (q : Nat) : ¬ (wakeup1 s.nproc (some ch) s.slot q).Asleep ch := by
  intro asleep
  have before := (wakeup1_woken s.nproc (some ch) s.slot q).asleep asleep
  exact wakeup1_wakes (before.inside lives) before.2 asleep.1

theorem exit_awake (lives : Lives s) (parent : (s.slot p).parent.map .proc = some ch) (q : Nat) :
    ¬ (exit s.nproc s.initproc p s.slot q).Asleep ch := by
  intro asleep
  have woken := orphans_adopt s.nproc s.initproc p q (List.range s.nproc) (wakeup1 s.nproc ((s.slot p).parent.map .proc) s.slot)
  unfold exit at asleep
  by_cases isP : q = p
  · rw [isP, update_self] at asleep
    cases asleep.1
  · rw [update_of_ne isP, parent] at asleep
    rw [parent] at woken
    refine absurd ?_ (wakeup1_awake lives q : ¬ (wakeup1 s.nproc (some ch) s.slot q).Asleep ch)
    by_cases low : q ∈ List.range s.nproc
    · exact (woken.1 low).asleep asleep
    · exact (woken.2 low).asleep asleep

/-- **Nobody sleeps on `ch`** after a step that wakes the sleepers. -/
theorem Step.awake {a : Agent} (step : Step e s s') (lives : Lives s) (wakes : Wakes s ch e a) (q : Nat) :
    ¬ (s'.slot q).Asleep ch := by
  cases wakes with
  | wakeup =>
    cases step with
    | @wakeup _ _ p _ _ =>
      intro asleep
      by_cases isP : q = p
      · subst isP
        simp only [Sys.unlock, update_self] at asleep
        exact wakeup1_awake lives q asleep
      · simp only [Sys.unlock, update_of_ne isP] at asleep
        exact wakeup1_awake lives q asleep
    | wakeupIntr _ => exact wakeup1_awake lives q
    | sectionWake _ => exact wakeup1_awake lives q
  | exit parent =>
    cases step with
    | exit _ _ _ => exact exit_awake lives parent q

/-- Nobody is in `sleep` with the lock held while one who wakes is inside. -/
theorem Step.waker {a : Agent} {call : Call} (step : Step e s s') (locking : Locking s) (wakes : Wakes s ch e a) (q : Nat)
    (locked : (s.slot q).pc = .locked call) : call.sleepsWith = none := by
  have inside : (s.slot q).pc.isLocked := by
    rw [locked]
    rfl
  cases wakes with
  | wakeup =>
    cases step with
    | wakeup at_ =>
      cases locking.alone (Locking.of_at at_) inside
      cases at_.2.symm.trans locked
      rfl
    | wakeupIntr free => exact absurd inside ((locking.free free).1 q)
    | sectionWake at_ =>
      cases locking.alone (Locking.of_at at_) inside
      cases at_.2.symm.trans locked
      rfl
  | exit _ =>
    cases step with
    | exit at_ _ _ =>
      cases locking.alone (Locking.of_at at_) inside
      cases at_.2.symm.trans locked
      rfl

end Sleepers

end Xv6.Sched
