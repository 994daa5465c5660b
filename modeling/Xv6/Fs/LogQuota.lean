import Mathlib.Algebra.BigOperators.Ring.Finset
import Xv6.Fs.LogSync

/-!
# The reservation of `begin_op`

`begin_op` lets an operation in when the log has room for `MAXOPBLOCKS` blocks of every
open operation. `log_write` wants room for one more block than the log has: the header
takes one of the `nlog` blocks, and the test is made even when the block is in the
header already. The reservation is enough for operations that log one block less.
-/

namespace Xv6
open Runs List

/-- `nlog` of `mkfs.c`. -/
def nlog : Nat := LOGSIZE

/-- How a section changes the blocks that thread `t` has logged in its operation. -/
def LogOp.opBlock (t : Nat) (bs : List Nat) : LogOp → List Nat
  | .begin u _ => if u = t then [] else bs
  | .log u b => if u = t then bs.insert b else bs
  | _ => bs

/-- The distinct blocks that thread `t` has logged since its last `begin_op`. -/
def opBlocks (t : Nat) (ops : List LogOp) : List Nat := ops.foldl (LogOp.opBlock t) []

/-- Every operation logs at most `quota` distinct blocks. -/
def Within (quota : Nat) (ops : List LogOp) : Prop :=
  ∀ done, done <+: ops → ∀ t, (opBlocks t done).length ≤ quota

section Quota

variable {threads t u : Nat} {s s' s0 : LogSys} {op : LogOp} {ops : List LogOp}

theorem opBlocks_snoc (t : Nat) (ops : List LogOp) (op : LogOp) :
    opBlocks t (ops ++ [op]) = op.opBlock t (opBlocks t ops) := by
  rw [opBlocks, foldl_append]
  rfl

/-- The other threads' sections leave a thread's blocks alone. -/
theorem LogOp.opBlock_other {bs : List Nat} (apart : t ≠ op.thread) : op.opBlock t bs = bs := by
  cases op with
  | begin u d => exact if_neg (Ne.symm apart)
  | log u b => exact if_neg (Ne.symm apart)
  | _ => rfl

theorem Within.init {quota : Nat} (within : Within quota (ops ++ [op])) : Within quota ops :=
  fun done isPrefix => within done (isPrefix.trans (List.prefix_append ..))

/-- The blocks that thread `t` may still log. -/
def slack (ops : List LogOp) (s : LogSys) (t : Nat) : Nat :=
  if 0 < (s.thread t).depth then MAXOPBLOCKS - 1 - (opBlocks t ops).length else 0

/-- The header and what the open operations may add to it fit into the log. -/
structure QuotaInv (threads : Nat) (ops : List LogOp) (s : LogSys) : Prop where
  /-- A commit leaves the header empty. -/
  cleared : ∀ t pt, (s.thread t).spot = .commit pt → pt = .erase ∨ pt = .done → s.log.lh.n = 0
  fresh : s.log.committing = false → s.log.outstanding = 0 → s.log.lh.n = 0
  listed : ∀ t, 0 < (s.thread t).depth → ∀ b ∈ opBlocks t ops, b ∈ s.log.lh.blocks
  fits : s.log.lh.n + ∑ t ∈ Finset.range threads, slack ops s t ≤ LOGSIZE - 2

theorem LogSys.Quiet.quota (quiet : s.Quiet) : QuotaInv threads [] s := by
  refine ⟨?_, fun _ _ => quiet.empty, ?_, ?_⟩
  · exact fun _ _ _ _ => quiet.empty
  · intro t deep
    rw [quiet.idle t] at deep
    exact absurd deep (Nat.lt_irrefl 0)
  · have none : ∀ t ∈ Finset.range threads, slack [] s t = 0 := fun t _ => by rw [slack, quiet.idle t]; rfl
    rw [quiet.empty, Finset.sum_eq_zero none]
    decide

/-- A section leaves the header alone, records a block in it or clears it. -/
theorem LogStep.header (step : LogStep threads op s s') :
    s'.log.lh = s.log.lh ∨ (∃ t b data, op = .log t b ∧ (s.thread t).spot = .log b data ∧ s'.log.lh = s.log.lh.record b) ∨
      ∃ t, op = .work t ∧ (s.thread t).spot = .commit .clear ∧ s'.log.lh.n = 0 := by
  cases step with
  | begin _ _ call =>
    obtain ⟨_, _, rfl⟩ := beginOp_some call
    exact .inl rfl
  | wait => exact .inl rfl
  | test => exact .inl rfl
  | log _ here => exact .inr (.inl ⟨_, _, _, rfl, here, rfl⟩)
  | leave _ _ _ call =>
    obtain ⟨_, _, rfl⟩ := endOp_ok call
    exact .inl rfl
  | last _ _ _ call =>
    obtain ⟨_, _, rfl⟩ := endOp_ok call
    exact .inl rfl
  | commit _ _ work =>
    cases work
    exact .inl rfl
  | @work _ t pt pt' log m _ here _ _ work =>
    cases pt with
    | clear =>
      cases work
      exact .inr (.inr ⟨t, rfl, here, rfl⟩)
    | test =>
      rw [CommitPoint.work] at work
      split at work <;> cases work <;> exact .inl rfl
    | _ =>
      cases work
      exact .inl rfl
  | done => exact .inl rfl

/-- While an operation is open the header only grows. -/
theorem LogStep.header_grows (inv : LogInv threads s) (header : HeaderInv ops s) (step : LogStep threads op s s')
    (deep : 0 < (s'.thread t).depth) {b : Nat} (mem : b ∈ s.log.lh.blocks) : b ∈ s'.log.lh.blocks := by
  rcases step.header with same | ⟨_, c, _, _, _, record⟩ | ⟨u, rfl, here, _⟩
  · rw [same]
    exact mem
  · rw [record, (LogHeader.record_blocks header.size c).2]
    split
    · exact mem
    · exact mem_append_left _ mem
  · have closed := inv.closed (inv.holder u _ here) t
    rcases step.depth t with same | ⟨isBegin, _⟩ | ⟨isFinish, _⟩
    · omega
    · cases isBegin
    · cases isFinish

/-- Only the moving thread's allowance changes. -/
theorem QuotaInv.fits_step (inv : QuotaInv threads ops s) (step : LogStep threads op s s')
    (less : s'.log.lh.n + slack (ops ++ [op]) s' op.thread ≤ s.log.lh.n + slack ops s op.thread) :
    s'.log.lh.n + ∑ t ∈ Finset.range threads, slack (ops ++ [op]) s' t ≤ LOGSIZE - 2 := by
  obtain ⟨inside, x, moved, _⟩ := step.effect
  have others : ∀ u, u ≠ op.thread → slack (ops ++ [op]) s' u = slack ops s u := by
    intro u apart
    rw [slack, slack, moved.depth apart, opBlocks_snoc, LogOp.opBlock_other apart]
  have change := Tables.sum_change inside others
  have fits := inv.fits
  simp only [LOGSIZE] at fits ⊢
  omega

/-- A new operation gets the room that `begin_op` has tested for. -/
theorem QuotaInv.admitted {d : Nat} (inv : LogInv threads s) (quota : QuotaInv threads ops s)
    (inv' : LogInv threads s') (one : ∀ u, (s'.thread u).depth ≤ 1) (step : LogStep threads (.begin t d) s s') :
    s'.log.lh.n + ∑ u ∈ Finset.range threads, slack (ops ++ [.begin t d]) s' u ≤ LOGSIZE - 2 := by
  have each : ∀ u ∈ Finset.range threads, slack (ops ++ [.begin t d]) s' u ≤ (MAXOPBLOCKS - 1) * (s'.thread u).depth := by
    intro u _
    unfold slack
    split
    · have := one u
      rw [show (s'.thread u).depth = 1 by omega]
      omega
    · exact Nat.zero_le _
  have total := Finset.sum_le_sum each
  rw [← Finset.mul_sum] at total
  have count' : s'.log.outstanding = ∑ u ∈ Finset.range threads, (s'.thread u).depth := inv'.count
  cases step with
  | begin _ _ call =>
    obtain ⟨idle, room, rfl⟩ := beginOp_some call
    have fresh := quota.fresh idle
    have count := inv.count
    simp only [LogSys.move, MAXOPBLOCKS, LOGSIZE] at *
    omega

theorem QuotaInv.cleared_step (inv : LogInv threads s) (header : HeaderInv ops s) (quota : QuotaInv threads ops s)
    (step : LogStep threads op s s') {pt : CommitPoint} (here : (s'.thread t).spot = .commit pt)
    (late : pt = .erase ∨ pt = .done) : s'.log.lh.n = 0 := by
  have inv' := inv.step step
  rcases step.header with same | ⟨u, b, data, rfl, logs, _⟩ | ⟨_, _, _, empty⟩
  · obtain ⟨inside, x, moved, effect⟩ := step.effect
    generalize op.thread = v at inside moved effect
    rw [same]
    by_cases isV : t = v
    · subst isV
      rw [moved.here] at here
      cases effect with
      | enter _ _ _ _ _ _ isX =>
        rw [isX] at here
        cases here
      | stay _ _ _ _ notAfter _ => exact absurd here (notAfter pt)
      | leave last _ _ _ _ _ _ isX =>
        rw [isX] at here
        cases last with
        | true =>
          cases here
          rcases late with isErase | isDone
          · cases isErase
          · cases isDone
        | false => cases here
      | @work before after was notDone isLog isPt isX =>
        rw [isX] at here
        cases here
        subst isPt
        cases before with
        | test =>
          rw [CommitPoint.work] at late
          split at late
          · rcases late with isErase | isDone
            · cases isErase
            · cases isDone
          · have := header.size
            omega
        | clear =>
          rw [← same, isLog]
          rfl
        | erase => exact quota.cleared t .erase was (.inl rfl)
        | done => exact absurd rfl notDone
        | _ =>
          rcases late with isErase | isDone
          · cases isErase
          · cases isDone
      | done _ _ isX =>
        rw [isX] at here
        cases here
    · exact quota.cleared t pt ((moved.commit isV pt).1 here) late
  · have deep := inv.logging u b data logs
    rcases step.depth u with same | ⟨isBegin, _⟩ | ⟨isFinish, _⟩
    · exact absurd here (inv'.noCommit (inv'.idle (t := u) (by omega)) t pt)
    · cases isBegin
    · cases isFinish
  · exact empty

theorem QuotaInv.fresh_step (inv : LogInv threads s) (quota : QuotaInv threads ops s) (step : LogStep threads op s s')
    (idle' : s'.log.committing = false) (zero : s'.log.outstanding = 0) : s'.log.lh.n = 0 := by
  have inv' := inv.step step
  rcases step.header with same | ⟨u, b, data, rfl, logs, _⟩ | ⟨_, _, _, empty⟩
  · obtain ⟨inside, x, moved, effect⟩ := step.effect
    generalize op.thread = v at inside moved effect
    have count := inv.count
    rw [same]
    cases effect with
    | enter _ _ _ _ outstanding _ _ => omega
    | stay _ outstanding committing _ _ _ => exact quota.fresh (committing ▸ idle') (outstanding ▸ zero)
    | leave last _ _ isLast _ outstanding committing _ =>
      have isOne := isLast.2 (by omega)
      rw [idle', isOne] at committing
      cases committing
    | @work pt _ here _ isLog _ _ =>
      have on := inv.holder v pt here
      rw [isLog, (pt.work_counts s.log s.bio).2, on] at idle'
      cases idle'
    | done here _ _ => exact quota.cleared v .done here (.inr rfl)
  · have deep := inv.logging u b data logs
    obtain ⟨inside, _⟩ := step.effect
    have inside : u < threads := inside
    rcases step.depth u with same | ⟨isBegin, _⟩ | ⟨isFinish, _⟩
    · have := inv'.outstanding_pos inside (by omega)
      omega
    · cases isBegin
    · cases isFinish
  · exact empty

theorem QuotaInv.listed_step (inv : LogInv threads s) (header : HeaderInv ops s) (quota : QuotaInv threads ops s)
    (step : LogStep threads op s s') (deep : 0 < (s'.thread t).depth) {b : Nat} (mem : b ∈ opBlocks t (ops ++ [op])) :
    b ∈ s'.log.lh.blocks := by
  rw [opBlocks_snoc] at mem
  -- what was listed before the section stays
  have old : (∀ d, op ≠ .begin t d) → b ∈ opBlocks t ops → b ∈ s'.log.lh.blocks := by
    intro notBegin mem
    refine step.header_grows inv header deep (quota.listed t ?_ b mem)
    rcases step.depth t with same | ⟨isBegin, _⟩ | ⟨_, less⟩
    · omega
    · exact absurd isBegin (notBegin _)
    · omega
  by_cases isT : t = op.thread
  · cases op with
    | begin u d =>
      have isU : u = t := isT.symm
      rw [LogOp.opBlock, if_pos isU] at mem
      cases mem
    | log u c =>
      have isU : u = t := isT.symm
      rw [LogOp.opBlock, if_pos isU, mem_insert_iff] at mem
      rcases mem with rfl | mem
      · cases step with
        | log =>
          show b ∈ (s.log.lh.record b).blocks
          rw [(LogHeader.record_blocks header.size b).2]
          split
          · assumption
          · simp
      · exact old (by rintro _ ⟨⟩) mem
    | _ => exact old (by rintro _ ⟨⟩) mem
  · rw [LogOp.opBlock_other isT] at mem
    refine old ?_ mem
    rintro d rfl
    exact isT rfl

theorem LogHeader.blocks_length (lh : LogHeader) : lh.blocks.length = lh.n.toNat := by simp [blocks, upto]

/-- Logging a block uses up as much of the allowance as of the log. -/
theorem QuotaInv.logged {b : Nat} (inv : LogInv threads s) (header : HeaderInv ops s) (quota : QuotaInv threads ops s)
    (bound : (opBlocks t (ops ++ [.log t b])).length ≤ MAXOPBLOCKS - 1) (step : LogStep threads (.log t b) s s') :
    s'.log.lh.n + slack (ops ++ [.log t b]) s' t ≤ s.log.lh.n + slack ops s t := by
  have inserted : opBlocks t (ops ++ [.log t b]) = (opBlocks t ops).insert b := by
    rw [opBlocks_snoc, LogOp.opBlock, if_pos rfl]
  rw [inserted] at bound
  have depth := step.depth t
  cases step with
  | @log _ _ _ data _ here =>
    have deep := inv.logging t b data here
    have deep' : 0 < ((LogSys.move { s with log := s.log.record b, bio := s.bio.dirtied b data } t
        ⟨(s.thread t).depth, .run⟩).thread t).depth := by
      rw [LogSys.move_self]
      exact deep
    obtain ⟨size, blocks⟩ := LogHeader.record_blocks header.size b
    have length := congrArg List.length blocks
    rw [LogHeader.blocks_length] at length
    have length0 := LogHeader.blocks_length s.log.lh
    have size0 := header.size
    rw [slack, slack, if_pos deep, if_pos deep', inserted]
    show (s.log.lh.record b).n + _ ≤ _
    by_cases logged : b ∈ s.log.lh.blocks
    · have longer : (opBlocks t ops).length ≤ ((opBlocks t ops).insert b).length :=
        (List.sublist_insert b (opBlocks t ops)).length_le
      rw [if_pos logged] at length
      omega
    · have fresh : b ∉ opBlocks t ops := fun mem => logged (quota.listed t deep b mem)
      rw [if_neg logged, length_append, length_singleton] at length
      rw [length_insert_of_not_mem fresh] at bound ⊢
      omega

/-- Other sections need no room. -/
theorem QuotaInv.unlogged (header : HeaderInv ops s) (notBegin : ∀ t d, op ≠ .begin t d)
    (notLog : ∀ t b, op ≠ .log t b) (step : LogStep threads op s s') :
    s'.log.lh.n + slack (ops ++ [op]) s' op.thread ≤ s.log.lh.n + slack ops s op.thread := by
  have size := header.size
  have blocks : opBlocks op.thread (ops ++ [op]) = opBlocks op.thread ops := by
    rw [opBlocks_snoc]
    cases op with
    | begin t d => exact absurd rfl (notBegin t d)
    | log t b => exact absurd rfl (notLog t b)
    | _ => rfl
  have shrinks : s'.log.lh.n ≤ s.log.lh.n := by
    rcases step.header with same | ⟨t, b, _, isLog, _⟩ | ⟨_, _, _, empty⟩
    · rw [same]
    · exact absurd isLog (notLog t b)
    · omega
  have less : slack (ops ++ [op]) s' op.thread ≤ slack ops s op.thread := by
    rw [slack, slack, blocks]
    rcases step.depth op.thread with same | ⟨isBegin, _⟩ | ⟨_, less⟩
    · rw [same]
    · exact absurd isBegin (notBegin _ _)
    · split <;> split <;> omega
  omega

theorem QuotaInv.step (inv : LogInv threads s) (header : HeaderInv ops s) (quota : QuotaInv threads ops s)
    (one : ∀ u, (s'.thread u).depth ≤ 1) (within : Within (MAXOPBLOCKS - 1) (ops ++ [op]))
    (step : LogStep threads op s s') : QuotaInv threads (ops ++ [op]) s' where
  cleared := fun _ _ here late => quota.cleared_step inv header step here late
  fresh := fun idle zero => quota.fresh_step inv step idle zero
  listed := fun _ deep _ mem => quota.listed_step inv header step deep mem
  fits := by
    cases op with
    | begin t d => exact quota.admitted inv (inv.step step) one step
    | log t b => exact quota.fits_step step (quota.logged inv header (within _ (List.prefix_refl _) t) step)
    | _ => exact quota.fits_step step (QuotaInv.unlogged header (by rintro _ _ ⟨⟩) (by rintro _ _ ⟨⟩) step)

theorem LogStep.size (step : LogStep threads op s s') : s'.log.size = s.log.size := by
  cases step with
  | begin _ _ call =>
    obtain ⟨_, _, rfl⟩ := beginOp_some call
    rfl
  | leave _ _ _ call =>
    obtain ⟨_, _, rfl⟩ := endOp_ok call
    rfl
  | last _ _ _ call =>
    obtain ⟨_, _, rfl⟩ := endOp_ok call
    rfl
  | commit _ _ work =>
    cases work
    rfl
  | @work _ _ pt _ _ _ _ _ _ _ work =>
    cases pt with
    | test =>
      rw [CommitPoint.work] at work
      split at work <;> cases work <;> rfl
    | _ =>
      cases work
      rfl
  | _ => rfl

/-- The header and the allowances in a run within the quota. -/
theorem quota_run (quiet : s0.Quiet) (run : Trace (FlatStep threads) s0 ops s) :
    Within (MAXOPBLOCKS - 1) ops → QuotaInv threads ops s := by
  induction run with
  | nil => exact fun _ => quiet.quota
  | @snoc ops op s s' before last ih =>
    intro within
    obtain ⟨inv, header⟩ := log_run quiet (before.mono fun _ _ _ step => step.1)
    exact (ih within.init).step inv header (flat_depth quiet (before.snoc last)) within last.1

/-- **The reservation is enough** when every operation logs at most `MAXOPBLOCKS - 1`
distinct blocks: `log_write` does not panic, in any interleaving, on a disk with a log of
`nlog` blocks. -/
theorem log_reservation (quiet : s0.Quiet) (disk : s0.log.size = nlog) (run : Trace (FlatStep threads) s0 ops s)
    (within : Within (MAXOPBLOCKS - 1) ops) : ∀ t ∈ s.inOp threads, logTest s.log = .ok () := by
  intro t mem
  obtain ⟨inside, deep⟩ := Finset.mem_filter.1 mem
  have quota := quota_run quiet run within
  obtain ⟨inv, _⟩ := log_run quiet (run.mono fun _ _ _ step => step.1)
  have size : s.log.size = nlog :=
    run.invariant (I := fun s => s.log.size = nlog) (fun _ _ _ before step => step.1.size.trans before) disk
  have fits := quota.fits
  have isSize : (LOGSIZE : Int) = 30 := rfl
  apply logTest_ok
  · omega
  · rw [size, nlog]
    omega
  · exact inv.outstanding_pos (Finset.mem_range.1 inside) deep

end Quota

/-! ## Filling the log -/

/-- The section logs a block for thread `t`. -/
def LogOp.logs (t : Nat) : LogOp → Bool
  | .log u _ => u == t
  | _ => false

theorem opBlocks_count (t : Nat) (ops : List LogOp) : (opBlocks t ops).length ≤ ops.countP (LogOp.logs t) := by
  induction ops using List.reverseRecOn with
  | nil => exact Nat.le_refl 0
  | append_singleton ops op ih =>
    rw [opBlocks_snoc, countP_append, countP_singleton]
    cases op with
    | log u b =>
      rw [LogOp.opBlock, LogOp.logs]
      by_cases isT : u = t
      · rw [if_pos isT, if_pos (beq_iff_eq.2 isT)]
        by_cases mem : b ∈ opBlocks t ops
        · rw [length_insert_of_mem mem]
          omega
        · rw [length_insert_of_not_mem mem]
          omega
      · rw [if_neg isT]
        omega
    | begin u d =>
      rw [LogOp.opBlock]
      split
      · exact Nat.zero_le _
      · omega
    | _ => exact Nat.le_trans ih (Nat.le_add_right ..)

/-- A run in which no thread logs often stays within the quota. -/
theorem within_count {quota : Nat} {ops : List LogOp} (few : ∀ t, ops.countP (LogOp.logs t) ≤ quota) :
    Within quota ops := fun done isPrefix t =>
  calc (opBlocks t done).length ≤ done.countP (LogOp.logs t) := opBlocks_count t done
    _ ≤ ops.countP (LogOp.logs t) := isPrefix.sublist.countP_le
    _ ≤ quota := few t

/-- Three operations are admitted to an empty log. The first two log ten blocks, the third nine. -/
def fillLog : List LogOp :=
  [.begin 0 0, .begin 1 0, .begin 2 0] ++
    ((List.range' 100 10).flatMap fun b => [.test 0 b, .log 0 b]) ++
    ((List.range' 110 10).flatMap fun b => [.test 1 b, .log 1 b]) ++
    (List.range' 120 9).flatMap fun b => [.test 2 b, .log 2 b]

theorem LogOp.thread_of_logs {t : Nat} {op : LogOp} (logs : op.logs t = true) : op.thread = t := by
  cases op with
  | log u b => exact beq_iff_eq.1 logs
  | _ => cases logs

theorem fillLog_count (t : Nat) : fillLog.countP (LogOp.logs t) ≤ MAXOPBLOCKS := by
  by_cases few : t < 3
  · have each : ∀ t < 3, fillLog.countP (LogOp.logs t) ≤ MAXOPBLOCKS := by decide
    exact each t few
  · have threads : ∀ op ∈ fillLog, op.thread < 3 := by decide
    have none : fillLog.countP (LogOp.logs t) = 0 := countP_eq_zero.2 fun op mem logs => by
      have := threads op mem
      rw [LogOp.thread_of_logs logs] at this
      exact few this
    rw [none]
    exact Nat.zero_le _

/-- Three operations of ten blocks each: the last block does not fit. -/
theorem log_reservation_short :
    ∃ s, Trace (FlatStep 3) (LogSys.blank nlog) fillLog s ∧ Within MAXOPBLOCKS fillLog ∧ 2 ∈ s.inOp 3 ∧
      ((opBlocks 2 fillLog).insert 129).length ≤ MAXOPBLOCKS ∧
      logTest s.log = .error (.panic "too big a transaction") := by
  have ends : (evaluate (LogSys.exec 3) fillLog (.blank nlog)).map (fun s => (decide (2 ∈ s.inOp 3), logTest s.log)) =
      some (true, .error (.panic "too big a transaction")) := by decide +kernel
  obtain ⟨s, run, isS⟩ := flat_run (by decide) ends
  obtain ⟨inOp, full⟩ := Prod.mk.inj isS
  exact ⟨s, run, within_count fillLog_count, of_decide_eq_true inOp, by decide, full⟩

/-- A thread that has logged one block may log another. -/
theorem log_reservation_one :
    ∃ s, Trace (FlatStep 1) (LogSys.blank nlog) [.begin 0 0, .test 0 40, .log 0 40] s ∧ 0 ∈ s.inOp 1 ∧
      logTest s.log = .ok () := by
  have ends : (evaluate (LogSys.exec 1) [.begin 0 0, .test 0 40, .log 0 40] (.blank nlog)).map
      (fun s => decide (0 ∈ s.inOp 1)) = some true := by decide +kernel
  obtain ⟨s, run, isS⟩ := flat_run (by decide) ends
  have inOp := of_decide_eq_true isS
  refine ⟨s, run, inOp, log_reservation (LogSys.blank_quiet nlog) rfl run (within_count fun t => ?_) 0 inOp⟩
  exact Nat.le_trans (List.countP_le_length ..) (by decide)

end Xv6
