import Xv6.Fs.LogWrite
import Xv6.Lib.Runs
import Xv6.Lib.Tables
import Mathlib.Algebra.BigOperators.Group.Finset.Piecewise
import Mathlib.Algebra.Order.BigOperators.Group.Finset

/-!
# Concurrent operations on the log (`log.c`)

`begin_op` and `end_op` hold the log's lock but for their sleeps and the commit;
`log_write` makes its tests before it takes the lock. A run is a sequence of such
sections by any number of threads. A thread counts the operations it has open: while it
copies from user memory inside one, a page fault may open a second one.

The array `lh.block` is not bounded here: a thread that has passed the test of
`log_write` may find more blocks logged when it gets the lock.
-/

namespace Xv6
open Finset
open Fallible Runs

def MAXOPBLOCKS : Nat := 10

/-- One turn of the loop of `begin_op`: `none` if it sleeps. -/
def beginOp (log : Log) : Option Log :=
  if log.committing then none
  else if LOGSIZE < log.lh.n + (log.outstanding + 1) * MAXOPBLOCKS then none
  else some { log with outstanding := log.outstanding + 1 }

/-- The first section of `end_op`, with `do_commit`. -/
def endOp (log : Log) : Res (Bool × Log) :=
  let log := { log with outstanding := log.outstanding - 1 }
  if log.committing then .error (.panic "log.committing")
  else if log.outstanding = 0 then .ok (true, { log with committing := true })
  else .ok (false, log)

/-- Where a thread is in `commit`. -/
inductive CommitPoint where
  | test | head | install | clear | erase | done
  deriving DecidableEq, Repr

/-- The next part of `commit`, which runs without the lock. -/
def CommitPoint.work (log : Log) (m : Bio) : CommitPoint → CommitPoint × Log × Bio
  | .test => if 0 < log.lh.n then (.head, log, writeLog log m) else (.done, log, m)
  | .head => (.install, log, writeHead log m)
  | .install => (.clear, log, installTrans log m)
  | .clear => (.erase, log.clear, m)
  | .erase => (.done, log, writeHead log m)
  | .done => (.done, log, m)

/-- `k` parts of `commit`, with no other thread between. -/
def CommitPoint.works : Nat → CommitPoint × Log × Bio → CommitPoint × Log × Bio
  | 0, c => c
  | k + 1, (pt, log, m) => works k (pt.work log m)

/-- The parts make up `commit`. -/
theorem commit_eq (log : Log) (m : Bio) : CommitPoint.works 5 (.test, log, m) = (.done, commit log m) := by
  unfold commit
  by_cases some : 0 < log.lh.n
  · simp only [CommitPoint.works, CommitPoint.work, if_pos some]
  · simp only [CommitPoint.works, CommitPoint.work, if_neg some]

/-- What a thread is doing with the log. -/
inductive Spot where
  | run
  | begin (asleep : Bool)
  /-- In `log_write`, past the tests. -/
  | log (blockno : Nat) (data : Block)
  | commit (pt : CommitPoint)

/-- A thread, with the number of operations it has open. -/
structure OpThread where
  depth : Nat := 0
  spot : Spot := .run

/-- `wakeup(&log)`, for one thread. -/
def OpThread.wake (t : OpThread) : OpThread :=
  match t.spot with
  | .begin _ => { t with spot := .begin false }
  | _ => t

structure LogSys where
  log : Log
  bio : Bio
  thread : Nat → OpThread := fun _ => {}

/-- Thread `t` moves to `x`. -/
def LogSys.move (s : LogSys) (t : Nat) (x : OpThread) : LogSys := { s with thread := Function.update s.thread t x }

@[simp] theorem LogSys.move_self (s : LogSys) (t : Nat) (x : OpThread) : (s.move t x).thread t = x :=
  Function.update_self ..

/-- `wakeup(&log)`. -/
def LogSys.wakeup (s : LogSys) : LogSys := { s with thread := fun u => (s.thread u).wake }

/-- The sections. A thread that begins says how many operations it has open already, and
the commit says what it writes into the header. -/
inductive LogOp where
  | begin (t depth : Nat)
  | wait (t depth : Nat)
  | test (t blockno : Nat)
  | log (t blockno : Nat)
  | finish (t : Nat)
  | commit (t : Nat) (header : List Nat)
  | work (t : Nat)
  | done (t : Nat)
  deriving DecidableEq

/-- The thread is at the top of the loop in `begin_op`, or about to call it. -/
def Spot.begins : Spot → Bool
  | .run => true
  | .begin asleep => !asleep
  | _ => false

/-- One section of one of `threads` threads. -/
inductive LogStep (threads : Nat) : LogOp → LogSys → LogSys → Prop where
  | begin {s : LogSys} {t : Nat} {log : Log} : t < threads → (s.thread t).spot.begins = true →
      beginOp s.log = some log →
      LogStep threads (.begin t (s.thread t).depth) s ({ s with log := log }.move t ⟨(s.thread t).depth + 1, .run⟩)
  | wait {s : LogSys} {t : Nat} : t < threads → (s.thread t).spot.begins = true → beginOp s.log = none →
      LogStep threads (.wait t (s.thread t).depth) s (s.move t ⟨(s.thread t).depth, .begin true⟩)
  | test {s : LogSys} {t b : Nat} {data : Block} : t < threads → (s.thread t).spot = .run → 0 < (s.thread t).depth →
      logTest s.log = .ok () →
      LogStep threads (.test t b) s (s.move t ⟨(s.thread t).depth, .log b data⟩)
  | log {s : LogSys} {t b : Nat} {data : Block} : t < threads → (s.thread t).spot = .log b data →
      LogStep threads (.log t b) s
        ({ s with log := s.log.record b, bio := s.bio.dirtied b data }.move t ⟨(s.thread t).depth, .run⟩)
  | leave {s : LogSys} {t : Nat} {log : Log} : t < threads → (s.thread t).spot = .run → 0 < (s.thread t).depth →
      endOp s.log = .ok (false, log) →
      LogStep threads (.finish t) s ({ s with log := log }.wakeup.move t ⟨(s.thread t).depth - 1, .run⟩)
  | last {s : LogSys} {t : Nat} {log : Log} : t < threads → (s.thread t).spot = .run → 0 < (s.thread t).depth →
      endOp s.log = .ok (true, log) →
      LogStep threads (.finish t) s ({ s with log := log }.move t ⟨(s.thread t).depth - 1, .commit .test⟩)
  | commit {s : LogSys} {t : Nat} {pt : CommitPoint} {log : Log} {m : Bio} : t < threads →
      (s.thread t).spot = .commit .head → CommitPoint.head.work s.log s.bio = (pt, log, m) →
      LogStep threads (.commit t s.log.lh.blocks) s ({ s with log := log, bio := m }.move t ⟨(s.thread t).depth, .commit pt⟩)
  | work {s : LogSys} {t : Nat} {pt pt' : CommitPoint} {log : Log} {m : Bio} : t < threads →
      (s.thread t).spot = .commit pt → pt ≠ .head → pt ≠ .done → pt.work s.log s.bio = (pt', log, m) →
      LogStep threads (.work t) s ({ s with log := log, bio := m }.move t ⟨(s.thread t).depth, .commit pt'⟩)
  | done {s : LogSys} {t : Nat} : t < threads → (s.thread t).spot = .commit .done →
      LogStep threads (.done t) s
        ({ s with log := { s.log with committing := false } }.wakeup.move t ⟨(s.thread t).depth, .run⟩)

/-- After `initlog`, with no thread in an operation. -/
structure LogSys.Quiet (s : LogSys) : Prop where
  outstanding : s.log.outstanding = 0
  committing : s.log.committing = false
  empty : s.log.lh.n = 0
  idle : ∀ t, s.thread t = {}

/-! ## Invariant -/

section Invariant

variable {threads t u : Nat} {s s' : LogSys} {op : LogOp} {log : Log} {x : OpThread}

theorem beginOp_some (call : beginOp s.log = some log) :
    s.log.committing = false ∧ s.log.lh.n + (s.log.outstanding + 1) * MAXOPBLOCKS ≤ LOGSIZE ∧
      log = { s.log with outstanding := s.log.outstanding + 1 } := by
  unfold beginOp at call
  split at call
  · cases call
  · rename_i idle
    split at call
    · cases call
    · rename_i room
      exact ⟨by simpa using idle, by omega, (Option.some.inj call).symm⟩

theorem endOp_ok {b : Bool} (call : endOp s.log = .ok (b, log)) :
    s.log.committing = false ∧ (b = true ↔ s.log.outstanding = 1) ∧
      log = { s.log with outstanding := s.log.outstanding - 1, committing := b } := by
  unfold endOp at call
  simp only at call
  split at call
  · cases call
  · rename_i idle
    have off : s.log.committing = false := by simpa using idle
    split at call
    · cases call
      exact ⟨off, by simp; omega, rfl⟩
    · cases call
      exact ⟨off, by simp; omega, by rw [off]⟩

@[simp] theorem OpThread.wake_depth (x : OpThread) : x.wake.depth = x.depth := by
  unfold wake
  split <;> rfl

/-- Waking a thread moves it only inside `begin_op`. -/
theorem OpThread.wake_spot (x : OpThread) : x.wake.spot = x.spot ∨ ∃ asleep, x.spot = .begin asleep ∧ x.wake.spot = .begin false := by
  unfold wake
  split
  · rename_i asleep isBegin
    exact .inr ⟨asleep, isBegin, rfl⟩
  · exact .inl rfl

@[simp] theorem OpThread.wake_commit (x : OpThread) (pt : CommitPoint) : x.wake.spot = .commit pt ↔ x.spot = .commit pt := by
  rcases x.wake_spot with same | ⟨_, before, after⟩
  · rw [same]
  · simp [before, after]

@[simp] theorem OpThread.wake_log (x : OpThread) (b : Nat) (data : Block) : x.wake.spot = .log b data ↔ x.spot = .log b data := by
  rcases x.wake_spot with same | ⟨_, before, after⟩
  · rw [same]
  · simp [before, after]

/-- The operations that are open. -/
def LogSys.opened (s : LogSys) (threads : Nat) : Nat := ∑ t ∈ Finset.range threads, (s.thread t).depth

/-- Thread `t` has moved to `x`; the others have at most been woken. -/
structure Moved (t : Nat) (x : OpThread) (s s' : LogSys) : Prop where
  here : s'.thread t = x
  others : ∀ u, u ≠ t → s'.thread u = s.thread u ∨ s'.thread u = (s.thread u).wake

theorem LogSys.move_moved (s : LogSys) (log : Log) (m : Bio) (t : Nat) (x : OpThread) :
    Moved t x s ({ s with log := log, bio := m }.move t x) where
  here := Function.update_self ..
  others := fun _ apart => .inl (Function.update_of_ne apart ..)

theorem LogSys.wakeup_moved (s : LogSys) (log : Log) (t : Nat) (x : OpThread) :
    Moved t x s ({ s with log := log }.wakeup.move t x) where
  here := Function.update_self ..
  others := fun _ apart => .inr (Function.update_of_ne apart ..)

namespace Moved

section

variable (moved : Moved t x s s') (apart : u ≠ t)
include moved apart

theorem depth : (s'.thread u).depth = (s.thread u).depth := by
  rcases moved.others u apart with same | woken
  · rw [same]
  · rw [woken, OpThread.wake_depth]

theorem commit (pt : CommitPoint) :
    (s'.thread u).spot = .commit pt ↔ (s.thread u).spot = .commit pt := by
  rcases moved.others u apart with same | woken
  · rw [same]
  · rw [woken, OpThread.wake_commit]

theorem logging (b : Nat) (data : Block) :
    (s'.thread u).spot = .log b data ↔ (s.thread u).spot = .log b data := by
  rcases moved.others u apart with same | woken
  · rw [same]
  · rw [woken, OpThread.wake_log]

theorem idle (idle : s.thread u = {}) : s'.thread u = {} := by
  rcases moved.others u apart with same | woken
  · rw [same, idle]
  · rw [woken, idle]
    rfl

end

theorem opened (moved : Moved t x s s') (inside : t < threads) :
    s'.opened threads + (s.thread t).depth = s.opened threads + x.depth := by
  rw [← moved.here]
  exact Tables.sum_change inside fun _ apart => moved.depth apart

end Moved

/-- Who has the log: while a thread commits, no operation is open. -/
structure LogInv (threads : Nat) (s : LogSys) : Prop where
  count : s.log.outstanding = s.opened threads
  outside : ∀ t, threads ≤ t → s.thread t = {}
  logging : ∀ t b data, (s.thread t).spot = .log b data → 0 < (s.thread t).depth
  holder : ∀ t pt, (s.thread t).spot = .commit pt → s.log.committing = true
  alone : ∀ t u pt pt', (s.thread t).spot = .commit pt → (s.thread u).spot = .commit pt' → t = u
  closed : s.log.committing = true → ∀ t, (s.thread t).depth = 0

/-- What a section by thread `t` does to the counters and to the thread. -/
inductive LogEffect (t : Nat) (s : LogSys) (log : Log) (x : OpThread) : Prop where
  | enter : s.log.committing = false → (∀ pt, (s.thread t).spot ≠ .commit pt) →
      s.log.lh.n + (s.log.outstanding + 1) * MAXOPBLOCKS ≤ LOGSIZE → log.lh = s.log.lh →
      log.outstanding = s.log.outstanding + 1 → log.committing = false → x = ⟨(s.thread t).depth + 1, .run⟩ →
      LogEffect t s log x
  | stay : (∀ pt, (s.thread t).spot ≠ .commit pt) → log.outstanding = s.log.outstanding →
      log.committing = s.log.committing → x.depth = (s.thread t).depth → (∀ pt, x.spot ≠ .commit pt) →
      (∀ b data, x.spot = .log b data → 0 < (s.thread t).depth) → LogEffect t s log x
  | leave (last : Bool) : s.log.committing = false → 0 < (s.thread t).depth → (last = true ↔ s.log.outstanding = 1) →
      log.lh = s.log.lh → log.outstanding = s.log.outstanding - 1 → log.committing = last →
      x = ⟨(s.thread t).depth - 1, if last then .commit .test else .run⟩ → LogEffect t s log x
  | work {pt pt' : CommitPoint} : (s.thread t).spot = .commit pt → pt ≠ .done →
      log = (pt.work s.log s.bio).2.1 → pt' = (pt.work s.log s.bio).1 → x = ⟨(s.thread t).depth, .commit pt'⟩ →
      LogEffect t s log x
  | done : (s.thread t).spot = .commit .done → log = { s.log with committing := false } →
      x = ⟨(s.thread t).depth, .run⟩ → LogEffect t s log x

/-- The thread that a section belongs to. -/
def LogOp.thread : LogOp → Nat
  | .begin t _ | .wait t _ | .test t _ | .log t _ | .finish t | .commit t _ | .work t | .done t => t

theorem Spot.begins_commit {spot : Spot} (begins : spot.begins = true) (pt : CommitPoint) : spot ≠ .commit pt := by
  rintro rfl
  cases begins

/-- Everything that a section can do. -/
theorem LogStep.effect (step : LogStep threads op s s') :
    op.thread < threads ∧ ∃ x, Moved op.thread x s s' ∧ LogEffect op.thread s s'.log x := by
  cases step with
  | begin inside begins call =>
    obtain ⟨idle, room, rfl⟩ := beginOp_some call
    exact ⟨inside, _, s.move_moved _ s.bio _ _, .enter idle (Spot.begins_commit begins) room rfl rfl idle rfl⟩
  | wait inside begins _ =>
    refine ⟨inside, _, s.move_moved s.log s.bio _ _, .stay (Spot.begins_commit begins) rfl rfl rfl ?_ ?_⟩
    · rintro _ ⟨⟩
    · rintro _ _ ⟨⟩
  | test inside here deep _ =>
    refine ⟨inside, _, s.move_moved s.log s.bio _ _, .stay ?_ rfl rfl rfl ?_ fun _ _ _ => deep⟩
    · rw [LogOp.thread, here]
      rintro _ ⟨⟩
    · rintro _ ⟨⟩
  | log inside here =>
    refine ⟨inside, _, s.move_moved _ _ _ _, .stay ?_ rfl rfl rfl ?_ ?_⟩
    · rw [LogOp.thread, here]
      rintro _ ⟨⟩
    · rintro _ ⟨⟩
    · rintro _ _ ⟨⟩
  | leave inside here deep call =>
    obtain ⟨idle, last, rfl⟩ := endOp_ok call
    exact ⟨inside, _, s.wakeup_moved _ _ _, .leave false idle deep last rfl rfl rfl rfl⟩
  | last inside here deep call =>
    obtain ⟨idle, last, rfl⟩ := endOp_ok call
    exact ⟨inside, _, s.move_moved _ s.bio _ _, .leave true idle deep last rfl rfl rfl rfl⟩
  | commit inside here work =>
    refine ⟨inside, _, s.move_moved _ _ _ _, .work here (by rintro ⟨⟩) ?_ ?_ rfl⟩
    · rw [work]
      rfl
    · rw [work]
  | work inside here _ notDone work =>
    refine ⟨inside, _, s.move_moved _ _ _ _, .work here notDone ?_ ?_ rfl⟩
    · rw [work]
      rfl
    · rw [work]
  | done inside here => exact ⟨inside, _, s.wakeup_moved _ _ _, .done here rfl rfl⟩

theorem LogSys.Quiet.inv (quiet : s.Quiet) : LogInv threads s where
  count := by
    rw [quiet.outstanding, opened]
    simp [quiet.idle]
  outside := fun t _ => quiet.idle t
  logging := by
    intro t b data here
    rw [quiet.idle t] at here
    cases here
  holder := by
    intro t pt here
    rw [quiet.idle t] at here
    cases here
  alone := by
    intro t u pt pt' here
    rw [quiet.idle t] at here
    cases here
  closed := fun _ t => by rw [quiet.idle t]

theorem CommitPoint.work_counts (pt : CommitPoint) (log : Log) (m : Bio) :
    (pt.work log m).2.1.outstanding = log.outstanding ∧ (pt.work log m).2.1.committing = log.committing := by
  cases pt with
  | test =>
    by_cases some : 0 < log.lh.n
    · rw [work, if_pos some]
      exact ⟨rfl, rfl⟩
    · rw [work, if_neg some]
      exact ⟨rfl, rfl⟩
  | _ => exact ⟨rfl, rfl⟩

/-- While no thread commits and the flag is off, none is at a point of `commit`. -/
theorem LogInv.noCommit (inv : LogInv threads s) (idle : s.log.committing = false) (u : Nat) (pt : CommitPoint) :
    (s.thread u).spot ≠ .commit pt := by
  intro here
  rw [inv.holder u pt here] at idle
  cases idle

/-- A thread with an operation open shuts out the commit. -/
theorem LogInv.idle (inv : LogInv threads s) (deep : 0 < (s.thread t).depth) : s.log.committing = false := by
  cases on : s.log.committing with
  | false => rfl
  | true =>
    have := inv.closed on t
    omega

/-- An open operation is counted. -/
theorem LogInv.outstanding_pos (inv : LogInv threads s) (inside : t < threads) (deep : 0 < (s.thread t).depth) :
    1 ≤ s.log.outstanding := by
  have single := single_le_sum (f := fun t => (s.thread t).depth) (fun _ _ => Nat.zero_le _)
    (mem_range.2 inside)
  have count : s.log.outstanding = ∑ t ∈ Finset.range threads, (s.thread t).depth := inv.count
  omega

theorem LogInv.step (inv : LogInv threads s) (step : LogStep threads op s s') : LogInv threads s' := by
  obtain ⟨inside, x, moved, effect⟩ := step.effect
  generalize op.thread = t at inside moved effect
  have opened := moved.opened inside
  have count := inv.count
  have outside : ∀ u, threads ≤ u → s'.thread u = {} := fun u beyond =>
    moved.idle (by omega) (inv.outside u beyond)
  -- the thread that moved, and the others
  have logging : (∀ b data, x.spot = .log b data → 0 < x.depth) →
      ∀ u b data, (s'.thread u).spot = .log b data → 0 < (s'.thread u).depth := by
    intro mine u b data here
    by_cases same : u = t
    · subst same
      rw [moved.here] at here ⊢
      exact mine b data here
    · rw [moved.depth same]
      exact inv.logging u b data ((moved.logging same b data).1 here)
  have quiet : s.log.committing = false → (∀ pt, x.spot ≠ .commit pt) → ∀ u pt, (s'.thread u).spot ≠ .commit pt := by
    intro idle mine u pt here
    by_cases same : u = t
    · subst same
      rw [moved.here] at here
      exact mine pt here
    · exact inv.noCommit idle u pt ((moved.commit same pt).1 here)
  cases effect with
  | enter idle notHere room header outstanding committing isX =>
    subst isX
    have none := quiet idle (by rintro _ ⟨⟩)
    refine ⟨by rw [outstanding, count]; simp only at opened; omega, outside, logging (by rintro _ _ ⟨⟩), ?_, ?_, ?_⟩
    · exact fun u pt here => absurd here (none u pt)
    · exact fun u _ pt _ here => absurd here (none u pt)
    · intro on
      rw [committing] at on
      cases on
  | stay notHere outstanding committing depth notAfter deep =>
    have back : ∀ u pt, (s'.thread u).spot = .commit pt → (s.thread u).spot = .commit pt := by
      intro u pt here
      by_cases same : u = t
      · subst same
        rw [moved.here] at here
        exact absurd here (notAfter pt)
      · exact (moved.commit same pt).1 here
    refine ⟨by rw [outstanding, count]; omega, outside, logging fun b data here => depth ▸ deep b data here, ?_, ?_, ?_⟩
    · exact fun u pt here => committing ▸ inv.holder u pt (back u pt here)
    · exact fun u v pt pt' here there => inv.alone u v pt pt' (back u pt here) (back v pt' there)
    · intro on u
      rw [committing] at on
      by_cases same : u = t
      · subst same
        rw [moved.here, depth]
        exact inv.closed on u
      · rw [moved.depth same]
        exact inv.closed on u
  | leave last idle deep isLast header outstanding committing isX =>
    subst isX
    have total : s.log.outstanding - 1 = s'.opened threads := by
      simp only at opened
      omega
    have onlyHere : ∀ u pt, (s'.thread u).spot = .commit pt → last = true ∧ u = t := by
      intro u pt here
      by_cases same : u = t
      · subst same
        rw [moved.here] at here
        cases last with
        | true => exact ⟨rfl, rfl⟩
        | false => cases here
      · exact absurd ((moved.commit same pt).1 here) (inv.noCommit idle u pt)
    refine ⟨outstanding.trans total, outside, logging ?_, ?_, ?_, ?_⟩
    · intro b data here
      cases last <;> cases here
    · exact fun u pt here => committing.trans (onlyHere u pt here).1
    · exact fun u v pt pt' here there => (onlyHere u pt here).2.trans (onlyHere v pt' there).2.symm
    · intro on u
      have one := isLast.1 (committing.symm.trans on)
      have zero : s'.opened threads = 0 := by omega
      by_cases beyond : threads ≤ u
      · rw [outside u beyond]
      · exact sum_eq_zero_iff.1 zero u (mem_range.2 (by omega))
  | @work pt pt' here notDone isLog isPt isX =>
    subst isX
    obtain ⟨outstanding, committing⟩ := pt.work_counts s.log s.bio
    rw [← isLog] at outstanding committing
    have on := inv.holder t pt here
    have onlyHere : ∀ u pt', (s'.thread u).spot = .commit pt' → u = t := by
      intro u pt' there
      by_contra apart
      exact apart (inv.alone u t pt' pt ((moved.commit apart pt').1 there) here)
    refine ⟨by rw [outstanding, count]; simp only at opened; omega, outside, logging (by rintro _ _ ⟨⟩), ?_, ?_, ?_⟩
    · exact fun _ _ _ => committing.trans on
    · exact fun u v pt pt' this that => (onlyHere u pt this).trans (onlyHere v pt' that).symm
    · intro _ u
      by_cases same : u = t
      · subst same
        rw [moved.here]
        exact inv.closed on u
      · rw [moved.depth same]
        exact inv.closed on u
  | done here isLog isX =>
    subst isX
    have none : ∀ u pt, (s'.thread u).spot ≠ .commit pt := by
      intro u pt there
      by_cases same : u = t
      · subst same
        rw [moved.here] at there
        cases there
      · exact same (inv.alone u t pt .done ((moved.commit same pt).1 there) here)
    refine ⟨by rw [isLog]; simp only at opened ⊢; omega, outside, logging (by rintro _ _ ⟨⟩), ?_, ?_, ?_⟩
    · exact fun u pt there => absurd there (none u pt)
    · exact fun u _ pt _ there => absurd there (none u pt)
    · intro on
      rw [isLog] at on
      cases on

end Invariant

/-! ## The header -/

section Header

variable {threads t u b : Nat} {s s' : LogSys} {op : LogOp} {ops : List LogOp} {pt : CommitPoint}

/-- How a section changes the list of blocks logged since the last commit. -/
def LogOp.logged (bs : List Nat) : LogOp → List Nat
  | .log _ b => b :: bs
  | .commit _ _ => []
  | _ => bs

/-- The blocks logged since the last commit. -/
def sinceCommit (ops : List LogOp) : List Nat := ops.foldl LogOp.logged []

theorem sinceCommit_snoc (ops : List LogOp) (op : LogOp) : sinceCommit (ops ++ [op]) = op.logged (sinceCommit ops) := by
  rw [sinceCommit, List.foldl_append]
  rfl

/-- The header has been written and the list is not cleared yet. -/
def LogSys.Flushing (s : LogSys) : Prop :=
  ∃ t, (s.thread t).spot = .commit .install ∨ (s.thread t).spot = .commit .clear

/-- The header lists what was logged since the last commit. -/
structure HeaderInv (ops : List LogOp) (s : LogSys) : Prop where
  size : 0 ≤ s.log.lh.n
  distinct : s.log.lh.blocks.Nodup
  flushed : s.Flushing → sinceCommit ops = []
  same : ¬ s.Flushing → ∀ b, b ∈ s.log.lh.blocks ↔ b ∈ sinceCommit ops

theorem LogSys.Quiet.header (quiet : s.Quiet) : HeaderInv [] s := by
  have none : s.log.lh.blocks = [] := by simp [LogHeader.blocks, upto, quiet.empty]
  refine ⟨Int.le_of_eq quiet.empty.symm, none ▸ List.nodup_nil, fun _ => rfl, fun _ b => by rw [none]; rfl⟩

/-- The thread is between the two writes of the header. -/
def Spot.Flushing (spot : Spot) : Prop := spot = .commit .install ∨ spot = .commit .clear

theorem Moved.flushing {x : OpThread} (moved : Moved t x s s') :
    s'.Flushing ↔ x.spot.Flushing ∨ ∃ u, u ≠ t ∧ (s.thread u).spot.Flushing := by
  have others : ∀ u, u ≠ t → ((s'.thread u).spot.Flushing ↔ (s.thread u).spot.Flushing) := fun u apart =>
    or_congr (moved.commit apart .install) (moved.commit apart .clear)
  constructor
  · rintro ⟨u, here⟩
    by_cases same : u = t
    · subst same
      rw [moved.here] at here
      exact .inl here
    · exact .inr ⟨u, same, (others u same).1 here⟩
  · rintro (mine | ⟨u, apart, here⟩)
    · refine ⟨t, ?_⟩
      rw [moved.here]
      exact mine
    · exact ⟨u, (others u apart).2 here⟩

/-- A thread that flushes neither before nor after changes nothing. -/
theorem Moved.flushing_iff {x : OpThread} (moved : Moved t x s s') (before : ¬ (s.thread t).spot.Flushing)
    (after : ¬ x.spot.Flushing) : s'.Flushing ↔ s.Flushing := by
  rw [moved.flushing, or_iff_right after]
  constructor
  · rintro ⟨u, _, here⟩
    exact ⟨u, here⟩
  · rintro ⟨u, here⟩
    refine ⟨u, ?_, here⟩
    rintro rfl
    exact before here

/-- A section that logs nothing, commits nothing and leaves the header alone. -/
theorem HeaderInv.quiet {x : OpThread} (inv : HeaderInv ops s) (moved : Moved t x s s')
    (before : ¬ (s.thread t).spot.Flushing) (after : ¬ x.spot.Flushing) (header : s'.log.lh = s.log.lh)
    (silent : op.logged (sinceCommit ops) = sinceCommit ops) : HeaderInv (ops ++ [op]) s' := by
  have flushing := moved.flushing_iff before after
  refine ⟨header ▸ inv.size, header ▸ inv.distinct, ?_, ?_⟩
  · rw [flushing, sinceCommit_snoc, silent]
    exact inv.flushed
  · rw [flushing, sinceCommit_snoc, silent, header]
    exact inv.same

theorem Spot.flushing_commit : (Spot.commit pt).Flushing ↔ pt = .install ∨ pt = .clear := by
  simp [Spot.Flushing]

theorem Spot.run_flushing : ¬ Spot.run.Flushing := by
  simp [Spot.Flushing]

theorem Spot.begins_flushing {spot : Spot} (begins : spot.begins = true) : ¬ spot.Flushing := by
  rintro (rfl | rfl) <;> cases begins

/-- Only the thread that commits flushes. -/
theorem LogInv.flushing (inv : LogInv threads s) (here : (s.thread t).spot = .commit pt) :
    s.Flushing ↔ pt = .install ∨ pt = .clear := by
  rw [← Spot.flushing_commit, ← here]
  constructor
  · rintro ⟨u, there⟩
    have same : u = t := by
      rcases there with there | there <;> exact inv.alone u t _ _ there here
    exact same ▸ there
  · exact fun flushing => ⟨t, flushing⟩

theorem HeaderInv.work {x : OpThread} (threadsInv : LogInv threads s) (inv : HeaderInv ops s)
    (threadsInv' : LogInv threads s') (moved : Moved t x s s') (here : (s.thread t).spot = .commit pt) (notHead : pt ≠ .head)
    (isLog : s'.log = (pt.work s.log s.bio).2.1) (isX : x.spot = .commit (pt.work s.log s.bio).1)
    (silent : op.logged (sinceCommit ops) = sinceCommit ops) : HeaderInv (ops ++ [op]) s' := by
  have before := threadsInv.flushing here
  have after := threadsInv'.flushing (moved.here ▸ isX)
  have since : sinceCommit (ops ++ [op]) = sinceCommit ops := (sinceCommit_snoc ops op).trans silent
  cases pt with
  | head => exact absurd rfl notHead
  | test =>
    refine inv.quiet moved ?_ ?_ ?_ silent
    · simp [here, Spot.Flushing]
    · rw [isX, CommitPoint.work]
      split <;> simp [Spot.Flushing]
    · rw [isLog, CommitPoint.work]
      split <;> rfl
  | install =>
    have header : s'.log.lh = s.log.lh := by rw [isLog, CommitPoint.work]
    have flushed := inv.flushed (before.2 (.inl rfl))
    refine ⟨header ▸ inv.size, header ▸ inv.distinct, fun _ => since.trans flushed, fun not => absurd ?_ not⟩
    exact after.2 (.inr rfl)
  | clear =>
    have flushed := inv.flushed (before.2 (.inr rfl))
    have empty : s'.log.lh.blocks = [] := by rw [isLog, CommitPoint.work]; rfl
    refine ⟨by rw [isLog]; exact Int.le_refl _, empty ▸ List.nodup_nil, fun _ => since.trans flushed, fun _ b => ?_⟩
    rw [empty, since, flushed]
  | erase =>
    refine inv.quiet moved ?_ ?_ (by rw [isLog, CommitPoint.work]) silent
    · simp [here, Spot.Flushing]
    · simp [isX, CommitPoint.work, Spot.Flushing]
  | done =>
    refine inv.quiet moved ?_ ?_ (by rw [isLog, CommitPoint.work]) silent
    · simp [here, Spot.Flushing]
    · simp [isX, CommitPoint.work, Spot.Flushing]

theorem HeaderInv.step (threadsInv : LogInv threads s) (inv : HeaderInv ops s) (step : LogStep threads op s s') :
    HeaderInv (ops ++ [op]) s' := by
  have threadsInv' := threadsInv.step step
  cases step with
  | begin inside begins call =>
    obtain ⟨_, _, rfl⟩ := beginOp_some call
    exact inv.quiet (s.move_moved _ s.bio _ _) (Spot.begins_flushing begins) Spot.run_flushing rfl rfl
  | wait inside begins _ =>
    refine inv.quiet (s.move_moved s.log s.bio _ _) (Spot.begins_flushing begins) ?_ rfl rfl
    simp [Spot.Flushing]
  | test inside here deep _ =>
    refine inv.quiet (s.move_moved s.log s.bio _ _) (here ▸ Spot.run_flushing) ?_ rfl rfl
    simp [Spot.Flushing]
  | @log _ t b data inside here =>
    have deep := threadsInv.logging t b data here
    have notFlushing : ∀ (s : LogSys), LogInv threads s → 0 < (s.thread t).depth → ¬ s.Flushing := by
      rintro s inv deep ⟨u, there | there⟩
      · exact inv.noCommit (inv.idle deep) u _ there
      · exact inv.noCommit (inv.idle deep) u _ there
    obtain ⟨size, blocks⟩ := LogHeader.record_blocks inv.size b
    have same := inv.same (notFlushing s threadsInv deep)
    have deep' : 0 < ((s.move t ⟨(s.thread t).depth, .run⟩).thread t).depth := by
      rw [LogSys.move_self]
      exact deep
    refine ⟨size, ?_, fun flushing => absurd flushing (notFlushing _ threadsInv' deep'), fun _ c => ?_⟩
    · show (s.log.lh.record b).blocks.Nodup
      rw [blocks]
      split
      · exact inv.distinct
      · rename_i fresh
        exact List.Nodup.append inv.distinct (List.nodup_singleton b) (by simpa using fresh)
    · show c ∈ (s.log.lh.record b).blocks ↔ c ∈ sinceCommit (ops ++ [.log t b])
      rw [blocks, sinceCommit_snoc, LogOp.logged, List.mem_cons, ← same c]
      split
      · rename_i logged
        exact ⟨.inr, fun either => either.elim (fun isB => isB ▸ logged) id⟩
      · rw [List.mem_append, List.mem_singleton, or_comm]
  | leave inside here deep call =>
    obtain ⟨_, _, rfl⟩ := endOp_ok call
    exact inv.quiet (s.wakeup_moved _ _ _) (here ▸ Spot.run_flushing) Spot.run_flushing rfl rfl
  | last inside here deep call =>
    obtain ⟨_, _, rfl⟩ := endOp_ok call
    refine inv.quiet (s.move_moved _ s.bio _ _) (here ▸ Spot.run_flushing) ?_ rfl rfl
    simp [Spot.Flushing]
  | @commit _ t pt log m inside here work =>
    cases work
    refine ⟨inv.size, inv.distinct, fun _ => sinceCommit_snoc .., fun not => absurd ⟨t, .inl ?_⟩ not⟩
    rw [LogSys.move_self]
  | work inside here notHead notDone work =>
    exact inv.work threadsInv threadsInv' (s.move_moved _ _ _ _) here notHead (by rw [work]; rfl) (by rw [work]) rfl
  | done inside here =>
    refine inv.quiet (s.wakeup_moved _ _ _) ?_ Spot.run_flushing rfl rfl
    simp [here, Spot.Flushing]

end Header

/-! ## Runs -/

section Runs

variable {threads t u b : Nat} {s s' s0 s1 : LogSys} {op : LogOp} {ops : List LogOp}

theorem log_run (quiet : s0.Quiet) (run : Trace (LogStep threads) s0 ops s) : LogInv threads s ∧ HeaderInv ops s := by
  refine run.history (I := fun ops s => LogInv threads s ∧ HeaderInv ops s) ?_ ⟨quiet.inv, quiet.header⟩
  intro ops op s s' inv step
  exact ⟨inv.1.step step, inv.2.step inv.1 step⟩

/-- Only `begin_op` and `end_op` of a thread change what it has open. -/
theorem LogStep.depth (step : LogStep threads op s s') (u : Nat) :
    (s'.thread u).depth = (s.thread u).depth ∨
      (op = .begin u (s.thread u).depth ∧ (s'.thread u).depth = (s.thread u).depth + 1) ∨
      (op = .finish u ∧ (s'.thread u).depth + 1 = (s.thread u).depth) := by
  obtain ⟨_, x, moved, _⟩ := step.effect
  by_cases same : u = op.thread
  · subst same
    cases step with
    | begin => exact .inr (.inl ⟨rfl, by simp [LogOp.thread]⟩)
    | wait => exact .inl (by simp [LogOp.thread])
    | test => exact .inl (by simp [LogOp.thread])
    | log => exact .inl (by simp [LogOp.thread])
    | leave _ _ deep _ => exact .inr (.inr ⟨rfl, by simp [LogOp.thread]; omega⟩)
    | last _ _ deep _ => exact .inr (.inr ⟨rfl, by simp [LogOp.thread]; omega⟩)
    | commit => exact .inl (by simp [LogOp.thread])
    | work => exact .inl (by simp [LogOp.thread])
    | done => exact .inl (by simp [LogOp.thread])
  · exact .inl (moved.depth same)

/-- The thread runs one operation after the other. -/
def LogOp.Flat : LogOp → Prop
  | .begin _ depth | .wait _ depth => depth = 0
  | _ => True

def FlatStep (threads : Nat) (op : LogOp) (s s' : LogSys) : Prop := LogStep threads op s s' ∧ op.Flat

theorem flat_depth (quiet : s0.Quiet) (run : Trace (FlatStep threads) s0 ops s) (t : Nat) : (s.thread t).depth ≤ 1 := by
  refine run.invariant (I := fun s => (s.thread t).depth ≤ 1) ?_ (by rw [quiet.idle t]; exact Nat.zero_le 1)
  intro op s s' before step
  obtain ⟨step, flat⟩ := step
  rcases step.depth t with same | ⟨rfl, more⟩ | ⟨_, less⟩
  · omega
  · have first : (s.thread t).depth = 0 := flat
    omega
  · omega

/-- The threads between a completed `begin_op` and their `end_op`. -/
def LogSys.inOp (s : LogSys) (threads : Nat) : Finset Nat :=
  (Finset.range threads).filter fun t => 0 < (s.thread t).depth

end Runs

/-- A log of `size` blocks at block 2 of an empty disk. -/
def LogSys.blank (size : Nat) : LogSys where
  log := { start := 2, size := size }
  bio := { disk := fun _ _ => 0 }

theorem LogSys.blank_quiet (size : Nat) : (LogSys.blank size).Quiet := ⟨rfl, rfl, rfl, fun _ => rfl⟩

theorem logTest_ok {s : LogSys} (room : s.log.lh.n < LOGSIZE) (space : s.log.lh.n < (s.log.size : Int) - 1)
    (opened : 1 ≤ s.log.outstanding) : logTest s.log = .ok () := by
  rw [logTest, if_neg (by omega), if_neg (by omega)]

section Build

variable {threads : Nat} {s s' : LogSys} {op : LogOp} {ops : List LogOp}

/-- A section up to the end of an operation, computed. What is logged is zero. -/
def LogSys.exec (threads : Nat) (op : LogOp) (s : LogSys) : Option LogSys :=
  let x := s.thread op.thread
  if op.thread < threads then
    match op, x.spot with
    | .begin t d, spot =>
      if spot.begins ∧ d = x.depth then (beginOp s.log).map fun log => { s with log := log }.move t ⟨d + 1, .run⟩ else none
    | .wait t d, spot => if spot.begins ∧ d = x.depth ∧ beginOp s.log = none then some (s.move t ⟨d, .begin true⟩) else none
    | .test t b, .run =>
      if 0 < x.depth ∧ logTest s.log = .ok () then some (s.move t ⟨x.depth, .log b fun _ => 0⟩) else none
    | .log t b, .log b' data =>
      if b = b' then some ({ s with log := s.log.record b, bio := s.bio.dirtied b data }.move t ⟨x.depth, .run⟩) else none
    | .finish t, .run =>
      if 0 < x.depth then
        match endOp s.log with
        | .ok (false, log) => some ({ s with log := log }.wakeup.move t ⟨x.depth - 1, .run⟩)
        | .ok (true, log) => some ({ s with log := log }.move t ⟨x.depth - 1, .commit .test⟩)
        | .error _ => none
      else none
    | _, _ => none
  else none

theorem LogSys.exec_step (call : s.exec threads op = some s') : LogStep threads op s s' := by
  unfold exec at call
  dsimp only at call
  split at call
  · rename_i inside
    split at call
    · split at call
      · rename_i here
        dsimp only [LogOp.thread] at here
        obtain ⟨begins, rfl⟩ := here
        obtain ⟨log, begun, rfl⟩ := Option.map_eq_some_iff.1 call
        exact .begin inside begins begun
      · cases call
    · split at call
      · rename_i here
        dsimp only [LogOp.thread] at here
        obtain ⟨begins, rfl, full⟩ := here
        cases call
        exact .wait inside begins full
      · cases call
    · rename_i run
      split at call
      · rename_i here
        cases call
        exact .test inside run here.1 here.2
      · cases call
    · rename_i here
      split at call
      · rename_i same
        subst same
        cases call
        exact .log inside here
      · cases call
    · rename_i run
      split at call
      · rename_i deep
        split at call
        · rename_i ends
          cases call
          exact .leave inside run deep ends
        · rename_i ends
          cases call
          exact .last inside run deep ends
        · cases call
      · cases call
    · cases call
  · cases call

instance : DecidablePred LogOp.Flat
  | .begin _ d | .wait _ d => inferInstanceAs (Decidable (d = 0))
  | .test .. | .log .. | .finish _ | .commit .. | .work _ | .done _ => isTrue trivial

/-- A run in which no thread nests operations, computed. -/
theorem flat_run {α : Type} {f : LogSys → α} {a : α} (flat : ∀ op ∈ ops, op.Flat)
    (ends : (evaluate (LogSys.exec threads) ops s).map f = some a) : ∃ s', Trace (FlatStep threads) s ops s' ∧ f s' = a :=
  Trace.of_evaluate ends fun op mem _ _ call => ⟨LogSys.exec_step call, flat op mem⟩

end Build

end Xv6
