import Xv6.Fs.LogSync

/-!
# Paging inside an operation

A copy from user memory inside an operation, such as the `memmove` of `writei`, may take
a page fault, and the swap I/O of `fifo_replace` writes with operations of its own. The
thread then calls `begin_op` while it is counted in `log.outstanding`. If it has to wait
there, the commit it waits for cannot come before it goes on.
-/

namespace Xv6
open Fallible Runs

/-- The log has room for one more operation beside the open ones, one of which is the
caller's. -/
def Log.Roomy (log : Log) : Prop :=
  (log.outstanding = 1 ∧ log.lh.n ≤ MAXOPBLOCKS) ∨ (log.outstanding = 2 ∧ log.lh.n = 0)

/-- Inside an operation, `begin_op` is called only when the log has room. -/
def LogOp.Roomy (log : Log) : LogOp → Prop
  | .begin _ depth | .wait _ depth => 0 < depth → log.Roomy
  | _ => True

def RoomyStep (threads : Nat) (op : LogOp) (s s' : LogSys) : Prop := LogStep threads op s s' ∧ op.Roomy s.log

section Nested

variable {threads t : Nat} {s s' s0 : LogSys} {op : LogOp} {ops : List LogOp}

theorem beginOp_none (idle : s.log.committing = false) :
    beginOp s.log = none ↔ LOGSIZE < s.log.lh.n + (s.log.outstanding + 1) * MAXOPBLOCKS := by
  rw [beginOp, if_neg (by simp [idle])]
  split
  · rename_i full
    exact ⟨fun _ => full, fun _ => rfl⟩
  · rename_i room
    exact ⟨by rintro ⟨⟩, fun full => absurd full room⟩

/-- An operation inside an operation waits exactly when the log has no room for it. -/
theorem LogInv.waits_iff (inv : LogInv threads s) (header : HeaderInv ops s) (inside : t < threads)
    (deep : 0 < (s.thread t).depth) : beginOp s.log = none ↔ ¬ s.log.Roomy := by
  have opened := inv.outstanding_pos inside deep
  have size := header.size
  rw [beginOp_none (inv.idle deep)]
  simp only [Log.Roomy, MAXOPBLOCKS, LOGSIZE]
  omega

/-- A thread that sleeps in `begin_op` has no operation open. -/
def LogSys.NoneStuck (s : LogSys) : Prop := ∀ t asleep, (s.thread t).spot = .begin asleep → (s.thread t).depth = 0

theorem LogSys.NoneStuck.step (inv : LogInv threads s) (header : HeaderInv ops s) (free : s.NoneStuck)
    (step : RoomyStep threads op s s') : s'.NoneStuck := by
  obtain ⟨step, roomy⟩ := step
  obtain ⟨inside, x, moved, _⟩ := step.effect
  intro u asleep here
  by_cases isT : u = op.thread
  · cases step with
    | @wait _ t _ begins full =>
      have isU : u = t := isT
      subst isU
      rw [LogSys.move_self]
      by_contra deep
      exact (inv.waits_iff header inside (Nat.pos_of_ne_zero deep)).1 full (roomy (Nat.pos_of_ne_zero deep))
    | _ =>
      rw [isT, LogOp.thread, LogSys.move_self] at here
      cases here
  · rcases moved.others u isT with same | woken
    · rw [same] at here ⊢
      exact free u asleep here
    · rw [woken, OpThread.wake_depth]
      rw [woken] at here
      rcases (s.thread u).wake_spot with same | ⟨before, was, _⟩
      · exact free u asleep (same ▸ here)
      · exact free u before was

/-- **Paging I/O does not wait for a commit** in runs in which a thread begins an
operation inside another one only when the log has room; and in any run it waits when the
log has not. -/
theorem paging_never_waits (quiet : s0.Quiet) (run : Trace (LogStep threads) s0 ops s) :
    (∀ t < threads, 0 < (s.thread t).depth → (s.thread t).spot.begins = true →
      ((∃ s', LogStep threads (.wait t (s.thread t).depth) s s') ↔ ¬ s.log.Roomy)) ∧
    (Trace (RoomyStep threads) s0 ops s → ∀ t asleep, (s.thread t).spot = .begin asleep → (s.thread t).depth = 0) := by
  obtain ⟨inv, header⟩ := log_run quiet run
  constructor
  · intro t inside deep begins
    rw [← inv.waits_iff header inside deep]
    constructor
    · rintro ⟨s', step⟩
      generalize isOp : LogOp.wait t (s.thread t).depth = op at step
      cases step with
      | wait _ _ full => exact full
      | _ => cases isOp
    · exact fun full => ⟨_, .wait inside begins full⟩
  · intro roomy
    refine (roomy.history (I := fun ops s => (LogInv threads s ∧ HeaderInv ops s) ∧ s.NoneStuck) ?_
      ⟨⟨quiet.inv, quiet.header⟩, ?_⟩).2
    · intro ops op s s' before step
      exact ⟨⟨before.1.1.step step.1, before.1.2.step before.1.1 step.1⟩, before.2.step before.1.1 before.1.2 step⟩
    · intro t asleep _
      rw [quiet.idle t]

/-- One thread in an operation pages while nothing is logged: it goes on. -/
theorem paging_never_waits_alone :
    ∃ s, Trace (RoomyStep 1) (LogSys.blank 30) [.begin 0 0, .begin 0 1] s ∧
      ∀ t asleep, (s.thread t).spot = .begin asleep → (s.thread t).depth = 0 := by
  have first : RoomyStep 1 (.begin 0 0) (LogSys.blank 30) _ := ⟨LogSys.exec_step rfl, fun deep => absurd deep (by decide)⟩
  have run := (Trace.snoc .nil first).snoc (show RoomyStep 1 (.begin 0 1) _ _ from
    ⟨LogSys.exec_step rfl, fun _ => .inl ⟨rfl, by decide⟩⟩)
  exact ⟨_, run, (paging_never_waits (LogSys.blank_quiet 30) (run.mono fun _ _ _ step => step.1)).2 run⟩

/-- The thread sleeps in `begin_op`. -/
def Spot.asleep : Spot → Bool
  | .begin asleep => asleep
  | _ => false

theorem Spot.asleep_iff {spot : Spot} : spot.asleep = true ↔ spot = .begin true := by
  cases spot with
  | begin asleep => simp [Spot.asleep]
  | _ => simp [Spot.asleep]

/-- When every thread is asleep or outside and the log is full, threads can only come to wait. -/
theorem LogStep.only_wait (full : beginOp s.log = none)
    (parked : ∀ t < threads, (s.thread t).spot.begins = true ∧ (s.thread t).depth = 0 ∨ (s.thread t).spot.asleep = true)
    (step : LogStep threads op s s') : (s.thread op.thread).spot.begins = true ∧ op = .wait op.thread 0 := by
  obtain ⟨inside, _⟩ := step.effect
  have parked := parked op.thread inside
  cases step with
  | begin _ _ call => exact absurd (full.symm.trans call) (by rintro ⟨⟩)
  | @wait _ t _ begins _ =>
    rcases parked with ⟨_, zero⟩ | asleep
    · exact ⟨begins, congrArg (LogOp.wait t) zero⟩
    · rw [show (s.thread t).spot = .begin true from Spot.asleep_iff.1 asleep] at begins
      cases begins
  | test _ here deep _ | leave _ here deep _ | last _ here deep _ =>
    rcases parked with ⟨_, zero⟩ | asleep
    · exact absurd zero (Nat.ne_of_gt deep)
    · rw [LogOp.thread, here] at asleep
      cases asleep
  | log _ here | commit _ here _ | work _ here _ _ _ | done _ here =>
    rw [LogOp.thread, here] at parked
    rcases parked with ⟨begins, _⟩ | asleep
    · cases begins
    · cases asleep

/-- One thread fills ten blocks of the log and another logs one before the first is gone; then it pages. -/
def stuckOps : List LogOp :=
  [.begin 0 0, .begin 1 0] ++ ((List.range' 100 10).flatMap fun b => [.test 1 b, .log 1 b]) ++
    [.test 0 110, .log 0 110, .finish 1, .wait 0 1]

/-- **Deadlock.** Another operation has filled ten blocks of the log and is gone, the
thread has logged one block itself, and takes a page fault. It sleeps in `begin_op` while
it is the one operation that is counted, and the only thing that can still happen is that
the other thread comes to wait as well. -/
theorem paging_deadlock :
    ∃ ops s, Trace (LogStep 2) (LogSys.blank 30) ops s ∧ s.thread 0 = ⟨1, .begin true⟩ ∧ s.log.outstanding = 1 ∧
      ∀ op s', LogStep 2 op s s' → op = .wait 1 0 := by
  have ends : (evaluate (LogSys.exec 2) stuckOps (.blank 30)).map (fun s => decide ((s.thread 0).depth = 1 ∧
      (s.thread 0).spot.asleep = true ∧ (s.thread 1).depth = 0 ∧ (s.thread 1).spot.begins = true ∧ s.log.outstanding = 1 ∧
      beginOp s.log = none)) = some true := by decide +kernel
  obtain ⟨s, run, isS⟩ := Trace.of_evaluate ends fun op _ _ _ call => LogSys.exec_step call
  obtain ⟨depth, asleep, zero, begins, one, full⟩ := of_decide_eq_true isS
  have parked : ∀ t < 2, (s.thread t).spot.begins = true ∧ (s.thread t).depth = 0 ∨ (s.thread t).spot.asleep = true := by
    intro t inside
    have : t = 0 ∨ t = 1 := by omega
    rcases this with rfl | rfl
    · exact .inr asleep
    · exact .inl ⟨begins, zero⟩
  have sleeps := Spot.asleep_iff.1 asleep
  refine ⟨stuckOps, s, run, by rw [← depth, ← sleeps], one, fun op s' step => ?_⟩
  obtain ⟨awake, isWait⟩ := step.only_wait full parked
  have isOne : op.thread = 1 := by
    obtain ⟨inside, _⟩ := step.effect
    by_contra other
    rw [show op.thread = 0 by omega, sleeps] at awake
    cases awake
  rw [isWait, isOne]

end Nested

end Xv6
