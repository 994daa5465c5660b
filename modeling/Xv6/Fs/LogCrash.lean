import Xv6.Fs.Log

/-!
# Crash atomicity of the log

`commit` and `recover_from_log` are first read as lists of block writes. The disk is
then always at one of three stages of a transaction: the header is empty and the home
blocks are old, the header lists the transaction and the log holds its blocks, or the
header is empty and the home blocks are new. Every single write keeps the stage or moves
it on, so this holds wherever the machine stops, in `commit` as in a recovery.
-/

namespace Xv6

open Fallible Words DiskWrites Function List

/-! ## Loops as lists of writes -/

/-- The state after `bwrite` of each block of `ws` in turn. -/
def Bio.writeAll (m : Bio) (ws : List (Nat × Block)) : Bio :=
  ws.foldl (fun m w => m.bwrite w.1 w.2) m

namespace Bio

variable {m : Bio} {ws vs : List (Nat × Block)} {b : Nat}

theorem writeAll_append (m : Bio) (ws vs : List (Nat × Block)) :
    m.writeAll (ws ++ vs) = (m.writeAll ws).writeAll vs :=
  foldl_append

theorem writeAll_disk (m : Bio) (ws : List (Nat × Block)) : (m.writeAll ws).disk = written ws m.disk := by
  induction ws generalizing m with
  | nil => rfl
  | cons w ws ih => exact ih (m.bwrite w.1 w.2)

theorem writeAll_writes (m : Bio) (ws : List (Nat × Block)) : (m.writeAll ws).writes = m.writes ++ ws := by
  induction ws generalizing m with
  | nil => simp [writeAll]
  | cons w ws ih =>
    show ((m.bwrite w.1 w.2).writeAll ws).writes = _
    rw [ih, bwrite, append_assoc, singleton_append]

/-- A block that was written is clean. -/
theorem writeAll_dirty (m : Bio) (ws : List (Nat × Block)) (b : Nat) :
    (m.writeAll ws).dirty b = if b ∈ ws.map Prod.fst then none else m.dirty b := by
  induction ws generalizing m with
  | nil => rfl
  | cons w ws ih =>
    show ((m.bwrite w.1 w.2).writeAll ws).dirty b = _
    rw [ih]
    by_cases later : b ∈ ws.map Prod.fst
    · simp [later]
    · by_cases here : b = w.1
      · simp [bwrite, here]
      · simp [bwrite, later, here]

theorem bread_writeAll (untouched : b ∉ ws.map Prod.fst) : (m.writeAll ws).bread b = m.bread b := by
  rw [bread, writeAll_dirty, if_neg untouched, writeAll_disk, written_notMem untouched, bread]

theorem bread_writeAll_mem (touched : b ∈ ws.map Prod.fst) : (m.writeAll ws).bread b = written ws m.disk b := by
  rw [bread, writeAll_dirty, if_pos touched, writeAll_disk, Option.getD_none]

/-- A loop whose iteration `i` writes the `i`-th block of `ws` writes `ws`. -/
theorem fold_writes {f : Bio → Nat → Bio} (m : Bio) (ws : List (Nat × Block))
    (body : ∀ i (inside : i < ws.length),
      f (m.writeAll (ws.take i)) i = (m.writeAll (ws.take i)).bwrite ws[i].1 ws[i].2) :
    (List.range ws.length).foldl f m = m.writeAll ws := by
  have part : ∀ i ≤ ws.length, (List.range i).foldl f m = m.writeAll (ws.take i) := by
    intro i
    induction i with
    | zero => intro _; rfl
    | succ i ih =>
      intro inside
      rw [range_succ, foldl_append, ih (by omega), foldl_cons, foldl_nil, body i (by omega),
        take_succ_eq_append_getElem (by omega), writeAll_append]
      rfl
  rw [part ws.length (Nat.le_refl _), take_length]

end Bio

/-! ## The header block -/

/-- The in-memory header lists the blocks of `tx`. -/
structure LogHeader.Lists (lh : LogHeader) (tx : List (Nat × Block)) : Prop where
  count : lh.n = tx.length
  block : ∀ i (_ : i < tx.length), lh.block i = tx[i].1

/-- The header block lists the blocks of `tx`. -/
structure HeadLists (buf : Block) (tx : List (Nat × Block)) : Prop where
  count : headN buf = tx.length
  block : ∀ i (_ : i < tx.length), headBlock buf i = tx[i].1

/-- The loop of `write_head` stores the words it visits and no others. -/
theorem headOf_word (lh : LogHeader) (n : Nat) (hb : Block) :
    let after := (List.range n).foldl (fun hb i => putWord hb (4 + 4 * i) (lh.block i)) hb
    getWord after 0 = getWord hb 0 ∧ ∀ i < n, getWord after (4 + 4 * i) = lh.block i % 2 ^ 32 := by
  induction n with
  | zero => simp
  | succ n ih =>
    obtain ⟨count, block⟩ := ih
    simp only [range_succ, foldl_append, foldl_cons, foldl_nil]
    constructor
    · rw [getWord_putWord_disjoint _ _ (by omega), count]
    · intro i below
      by_cases last : i = n
      · rw [last, getWord_putWord]
      · rw [getWord_putWord_disjoint _ _ (by omega), block i (by omega)]

theorem headN_headOf (lh : LogHeader) (hb : Block) (low : 0 ≤ lh.n) (few : lh.n ≤ LOGSIZE) :
    headN (headOf lh hb) = lh.n := by
  rw [headN, headOf, upto, (headOf_word lh lh.n.toNat _).1, getWord_putWord, Nat.mod_eq_of_lt (ofInt32_lt _)]
  apply toInt32_ofInt32
  · omega
  · simp only [LOGSIZE] at few
    omega

theorem headOf_lists {lh : LogHeader} {tx : List (Nat × Block)} (hb : Block) (lists : lh.Lists tx)
    (few : tx.length ≤ LOGSIZE) (uint : ∀ b ∈ tx.map Prod.fst, b < 2 ^ 32) : HeadLists (headOf lh hb) tx := by
  have count := lists.count
  constructor
  · rw [headN_headOf lh hb (by omega) (by omega), count]
  · intro i inside
    have small : tx[i].1 < 2 ^ 32 := uint _ (mem_map_of_mem (getElem_mem inside))
    rw [headBlock, headOf, upto, (headOf_word lh lh.n.toNat _).2 i (by omega), lists.block i inside]
    exact Nat.mod_eq_of_lt small

theorem readHead_lists (log : Log) {m : Bio} {tx : List (Nat × Block)} (head : HeadLists (m.bread log.start) tx)
    (few : tx.length ≤ LOGSIZE) :
    ∃ lh : LogHeader, readHead log m = .ok { log with lh := lh } ∧ lh.Lists tx := by
  have count := head.count
  have bound : ¬ (LOGSIZE : Int) < headN (m.bread log.start) := by omega
  rw [readHead, if_neg bound]
  refine ⟨_, rfl, count, ?_⟩
  intro i inside
  have below : (i : Int) < headN (m.bread log.start) := by omega
  exact (if_pos below).trans (head.block i inside)

/-! ## `commit` and recovery as lists of writes -/

/-- `b` is neither the header nor one of `n` log blocks. -/
def OutsideLog (start n b : Nat) : Prop := b < start ∨ start + n < b

/-- Block numbers and contents that one commit of a log at `start` can take. -/
structure Transaction (start : Nat) (tx : List (Nat × Block)) : Prop where
  few : tx.length ≤ LOGSIZE
  distinct : (tx.map Prod.fst).Nodup
  outside : ∀ b ∈ tx.map Prod.fst, OutsideLog start tx.length b
  uint : ∀ b ∈ tx.map Prod.fst, b < 2 ^ 32

/-- The log lists `tx`, whose contents wait in dirty buffers; no other buffer is dirty. -/
structure Pending (log : Log) (m : Bio) (tx : List (Nat × Block)) : Prop where
  lists : log.lh.Lists tx
  cached : ∀ i (_ : i < tx.length), m.bread tx[i].1 = tx[i].2
  clean : ∀ b ∉ tx.map Prod.fst, m.dirty b = none
  unwritten : m.writes = []

/-- What `write_log` writes: the contents of `tx` behind the header. -/
def logCopies (start : Nat) (tx : List (Nat × Block)) : List (Nat × Block) :=
  tx.mapIdx fun i w => (start + i + 1, w.2)

section Writes

variable {log : Log} {m : Bio} {tx : List (Nat × Block)} {start b : Nat}

@[simp] theorem length_logCopies (start : Nat) (tx : List (Nat × Block)) : (logCopies start tx).length = tx.length := by
  simp [logCopies]

theorem keys_logCopies (start : Nat) (tx : List (Nat × Block)) :
    (logCopies start tx).map Prod.fst = (List.range tx.length).map (start + · + 1) := by
  apply ext_getElem
  · simp
  · intro i _ _
    simp [logCopies]

theorem mem_keys_logCopies : b ∈ (logCopies start tx).map Prod.fst ↔ start < b ∧ b ≤ start + tx.length := by
  rw [keys_logCopies, mem_map]
  constructor
  · rintro ⟨i, inside, rfl⟩
    rw [mem_range] at inside
    omega
  · rintro ⟨low, high⟩
    refine ⟨b - start - 1, ?_, by omega⟩
    rw [mem_range]
    omega

theorem written_logCopies (d : Nat → Block) {i : Nat} (inside : i < tx.length) :
    written (logCopies start tx) d (start + i + 1) = tx[i].2 := by
  apply written_of_nodup
  · rw [keys_logCopies]
    apply Nodup.map _ nodup_range
    intro i j same
    dsimp only at same
    omega
  · rw [mem_iff_getElem]
    exact ⟨i, by simpa using inside, by simp [logCopies]⟩

theorem Transaction.notMem (tr : Transaction start tx) (low : start ≤ b) (high : b ≤ start + tx.length) :
    b ∉ tx.map Prod.fst := by
  intro mem
  have outside := tr.outside b mem
  simp only [OutsideLog] at outside
  omega

theorem writeLog_writes (tr : Transaction log.start tx) (pending : Pending log m tx) :
    writeLog log m = m.writeAll (logCopies log.start tx) := by
  have loop := Bio.fold_writes (f := fun m tail => m.bwrite (log.start + tail + 1) (m.bread (log.lh.block tail)))
    m (logCopies log.start tx) ?_
  · rw [writeLog, upto, pending.lists.count, Int.toNat_natCast]
    simpa using loop
  · intro i inside
    rw [length_logCopies] at inside
    have home : tx[i].1 ∉ ((logCopies log.start tx).take i).map Prod.fst := by
      intro mem
      rw [map_take] at mem
      have copy := mem_keys_logCopies.1 (mem_of_mem_take mem)
      exact tr.notMem (by omega) copy.2 (mem_map_of_mem (getElem_mem inside))
    rw [pending.lists.block i inside, Bio.bread_writeAll home, pending.cached i inside]
    simp [logCopies]

/-- `install_trans` when the log blocks hold the contents of `tx`. -/
theorem installTrans_writes (tr : Transaction log.start tx) (lists : log.lh.Lists tx)
    (logged : ∀ i (_ : i < tx.length), m.bread (log.start + i + 1) = tx[i].2) :
    installTrans log m = m.writeAll tx := by
  rw [installTrans, upto, lists.count, Int.toNat_natCast]
  apply Bio.fold_writes
  intro i inside
  have untouched : log.start + i + 1 ∉ (tx.take i).map Prod.fst := by
    intro mem
    rw [map_take] at mem
    exact tr.notMem (by omega) (by omega) (mem_of_mem_take mem)
  rw [lists.block i inside, Bio.bread_writeAll untouched, logged i inside]

theorem headN_clear (log : Log) (hb : Block) : headN (headOf log.clear.lh hb) = 0 :=
  headN_headOf log.clear.lh hb (Int.le_refl 0) (show (0 : Int) ≤ LOGSIZE by decide)

/-- The writes of `commit`: the log blocks, the header, the home blocks, an empty header. -/
theorem commit_writes (tr : Transaction log.start tx) (pending : Pending log m tx) (some_ : tx ≠ []) :
    ∃ head cleared, HeadLists head tx ∧ headN cleared = 0 ∧
      (commit log m).2 = m.writeAll
        (logCopies log.start tx ++ (log.start, head) :: (tx ++ [(log.start, cleared)])) := by
  have positive : 0 < log.lh.n := by
    have := pending.lists.count
    have := length_pos_iff.2 some_
    omega
  let m1 := m.writeAll (logCopies log.start tx)
  let head := headOf log.lh (m1.bread log.start)
  let m2 := m1.bwrite log.start head
  have logged : ∀ i (_ : i < tx.length), m2.bread (log.start + i + 1) = tx[i].2 := by
    intro i inside
    have copy : log.start + i + 1 ∈ (logCopies log.start tx).map Prod.fst := mem_keys_logCopies.2 (by omega)
    have notHead : log.start + i + 1 ∉ [(log.start, head)].map Prod.fst := by simp; omega
    rw [← written_logCopies m.disk inside, ← Bio.bread_writeAll_mem copy]
    exact Bio.bread_writeAll notHead
  let m3 := m2.writeAll tx
  refine ⟨head, headOf log.clear.lh (m3.bread log.start), headOf_lists _ pending.lists tr.few tr.uint,
    headN_clear log _, ?_⟩
  have run : (commit log m).2 = writeHead log.clear (installTrans log (writeHead log (writeLog log m))) := by
    rw [commit, if_pos positive]
  have first : writeHead log (writeLog log m) = m2 := by rw [writeLog_writes tr pending, writeHead]
  rw [run, first, installTrans_writes tr pending.lists logged, Bio.writeAll_append]
  show _ = m2.writeAll (tx ++ _)
  rw [Bio.writeAll_append]
  rfl

/-- The writes of a recovery on a disk whose header lists `tx`: the home blocks and an
empty header. -/
theorem initlog_writes (nlog : Nat) {d : Nat → Block} (tr : Transaction start tx) (head : HeadLists (d start) tx)
    (logged : ∀ i (_ : i < tx.length), d (start + i + 1) = tx[i].2) :
    ∃ log m cleared, initlog start nlog { disk := d } = .ok (log, m) ∧ headN cleared = 0 ∧
      m.writes = tx ++ [(start, cleared)] ∧ m.disk = written (tx ++ [(start, cleared)]) d := by
  let boot : Log := { start := start, size := nlog }
  obtain ⟨lh, read, lists⟩ := readHead_lists boot (m := { disk := d }) head tr.few
  let log : Log := { boot with lh := lh }
  let m : Bio := { disk := d }
  have install : installTrans log m = m.writeAll tx := installTrans_writes tr lists logged
  have run : initlog start nlog m = .ok (log.clear, writeHead log.clear (m.writeAll tx)) := by
    rw [initlog, if_neg (by decide), recoverFromLog, read, ok_bind]
    show (pure _ : Res _) = _
    rw [install]
    rfl
  refine ⟨_, _, headOf log.clear.lh ((m.writeAll tx).bread start), run, headN_clear log _, ?_, ?_⟩
  · show (m.writeAll tx).writes ++ _ = _
    rw [Bio.writeAll_writes]
    rfl
  · show update (m.writeAll tx).disk _ _ = _
    rw [Bio.writeAll_disk, written_append]
    rfl

end Writes

/-! ## Stages of a transaction on disk -/

/-- No transaction is in the log and the blocks outside it are those of `want`. -/
structure Settled (start n : Nat) (want d : Nat → Block) : Prop where
  empty : headN (d start) = 0
  home : ∀ b, OutsideLog start n b → d b = want b

/-- The header lists `tx` and the log holds it; the home blocks are in no particular state. -/
structure Committed (start : Nat) (tx : List (Nat × Block)) (old d : Nat → Block) : Prop where
  head : HeadLists (d start) tx
  logged : ∀ i (_ : i < tx.length), d (start + i + 1) = tx[i].2
  home : ∀ b, OutsideLog start tx.length b → b ∉ tx.map Prod.fst → d b = old b

/-- The blocks that a transaction which committed, or did not, leaves. -/
def outcome (tx : List (Nat × Block)) (old : Nat → Block) (committed : Bool) : Nat → Block :=
  if committed then written tx old else old

/-- Where a crash can leave the disk. -/
inductive Stage (start : Nat) (tx : List (Nat × Block)) (old : Nat → Block) : Bool → (Nat → Block) → Prop where
  | settled {committed : Bool} {d : Nat → Block} :
      Settled start tx.length (outcome tx old committed) d → Stage start tx old committed d
  | committed {d : Nat → Block} : Committed start tx old d → Stage start tx old true d

section Stages

variable {start : Nat} {tx : List (Nat × Block)} {old d : Nat → Block} {committed : Bool} {cleared : Block}

theorem OutsideLog.ne {n b i : Nat} (outside : OutsideLog start n b) (low : start ≤ i) (high : i ≤ start + n) : i ≠ b := by
  simp only [OutsideLog] at outside
  omega

/-- A home block may be written at any time after the commit. -/
theorem Committed.install (tr : Transaction start tx) (h : Committed start tx old d) :
    ∀ w ∈ tx, Committed start tx old (update d w.1 w.2) := by
  intro w mem
  have key : w.1 ∈ tx.map Prod.fst := mem_map_of_mem mem
  have outside := tr.outside w.1 key
  constructor
  · rw [update_of_ne (outside.ne (by omega) (by omega))]
    exact h.head
  · intro i inside
    rw [update_of_ne (outside.ne (by omega) (by omega))]
    exact h.logged i inside
  · intro b out untouched
    have other : b ≠ w.1 := fun same => untouched (same ▸ key)
    rw [update_of_ne other]
    exact h.home b out untouched

/-- Installing the whole transaction and emptying the header ends it. -/
theorem Committed.settle (h : Committed start tx old d) (empty : headN cleared = 0) :
    Settled start tx.length (outcome tx old true) (written (tx ++ [(start, cleared)]) d) := by
  rw [written_append]
  constructor
  · simpa using empty
  · intro b outside
    have other : b ≠ start := (outside.ne (Nat.le_refl _) (by omega)).symm
    rw [written_cons, written_nil, update_of_ne other]
    apply written_congr
    exact h.home b outside

theorem take_snoc {α : Type} (ws : List α) (w : α) (k : Nat) :
    (ws ++ [w]).take k = ws.take k ∨ (ws ++ [w]).take k = ws ++ [w] := by
  by_cases short : k ≤ ws.length
  · left
    rw [take_append_of_le_length short]
  · right
    apply take_of_length_le
    simp
    omega

/-- Wherever the installation stops, recovery can finish it. -/
theorem Committed.crash (tr : Transaction start tx) (h : Committed start tx old d) (empty : headN cleared = 0) (k : Nat) :
    Stage start tx old true (written ((tx ++ [(start, cleared)]).take k) d) := by
  rcases take_snoc tx (start, cleared) k with part | all
  · rw [part]
    apply Stage.committed
    exact written_take_keeps (fun w mem d h => h.install tr w mem) h k
  · rw [all]
    exact .settled (h.settle empty)

/-- Emptying an empty header changes no other block. -/
theorem Settled.clear {n : Nat} {want : Nat → Block} (h : Settled start n want d) (empty : headN cleared = 0) :
    Settled start n want (update d start cleared) := by
  constructor
  · simpa using empty
  · intro b outside
    rw [update_of_ne (outside.ne (Nat.le_refl _) (by omega)).symm]
    exact h.home b outside

theorem Transaction.nil (start : Nat) : Transaction start [] where
  few := by decide
  distinct := by simp
  outside := by simp
  uint := by simp

/-- Recovery returns from every stage, ends the transaction, and can be interrupted. -/
theorem Stage.recover (nlog : Nat) (tr : Transaction start tx) (stage : Stage start tx old committed d) :
    ∃ log m, initlog start nlog { disk := d } = .ok (log, m) ∧
      Settled start tx.length (outcome tx old committed) m.disk ∧
      ∀ k, Stage start tx old committed (written (m.writes.take k) d) := by
  cases stage with
  | settled h =>
    have none_ : HeadLists (d start) [] := ⟨h.empty, by simp⟩
    obtain ⟨log, m, cleared, run, empty, writes, disk⟩ :=
      initlog_writes nlog (Transaction.nil start) none_ (by simp)
    refine ⟨log, m, run, ?_, ?_⟩
    · rw [disk]
      exact h.clear empty
    · intro k
      rw [writes]
      apply Stage.settled
      apply written_take_keeps _ h
      intro w mem d h
      cases mem_singleton.1 mem
      exact h.clear empty
  | committed h =>
    obtain ⟨log, m, cleared, run, empty, writes, disk⟩ := initlog_writes nlog tr h.head h.logged
    refine ⟨log, m, run, ?_, ?_⟩
    · rw [disk]
      exact h.settle empty
    · intro k
      rw [writes]
      exact h.crash tr empty k

end Stages

/-! ## Crashes -/

/-- The disk after further crashes: each starts a recovery, of whose writes `k` are made. -/
def recoveryCrashes (start nlog : Nat) : List Nat → (Nat → Block) → Res (Nat → Block)
  | [], d => .ok d
  | k :: ks, d => do
    let (_, m) ← initlog start nlog { disk := d }
    recoveryCrashes start nlog ks (written (m.writes.take k) d)

theorem Stage.crashes {start : Nat} {tx : List (Nat × Block)} {old : Nat → Block} {committed : Bool} (nlog : Nat)
    (tr : Transaction start tx) (ks : List Nat) :
    ∀ {d : Nat → Block}, Stage start tx old committed d →
      ∃ d', recoveryCrashes start nlog ks d = .ok d' ∧ Stage start tx old committed d' := by
  induction ks with
  | nil =>
    intro d stage
    exact ⟨d, rfl, stage⟩
  | cons k ks ih =>
    intro d stage
    obtain ⟨log, m, run, _, crash⟩ := stage.recover nlog tr
    obtain ⟨d', rest, stage'⟩ := ih (crash k)
    refine ⟨d', ?_, stage'⟩
    rw [recoveryCrashes, run, ok_bind]
    exact rest

/-- The first `k` writes of `commit` include the header block. -/
def headWritten (log : Log) (m : Bio) (k : Nat) : Bool :=
  log.start ∈ ((commit log m).2.writes.take k).map Prod.fst

/-- Where a crash in `commit` leaves the disk. -/
theorem commit_stage {log : Log} {m : Bio} {tx : List (Nat × Block)} (tr : Transaction log.start tx)
    (pending : Pending log m tx) (clear : headN (m.disk log.start) = 0) (k : Nat) :
    Stage log.start tx m.disk (headWritten log m k) (written ((commit log m).2.writes.take k) m.disk) := by
  have start : Settled log.start tx.length m.disk m.disk := ⟨clear, fun _ _ => rfl⟩
  by_cases none_ : tx = []
  · have idle : (commit log m).2 = m := by
      have count : log.lh.n = 0 := by rw [pending.lists.count, none_]; rfl
      rw [commit, if_neg (by omega)]
    rw [headWritten, idle, pending.unwritten]
    exact .settled (by simpa [outcome] using start)
  · obtain ⟨head, cleared, lists, empty, run⟩ := commit_writes tr pending none_
    have writes : (commit log m).2.writes =
        logCopies log.start tx ++ (log.start, head) :: (tx ++ [(log.start, cleared)]) := by
      rw [run, Bio.writeAll_writes, pending.unwritten, nil_append]
    by_cases early : k ≤ tx.length
    · -- only log blocks are written: the header is still empty
      have take : (commit log m).2.writes.take k = (logCopies log.start tx).take k := by
        rw [writes, take_append_of_le_length (by simpa using early)]
      have unheaded : headWritten log m k = false := by
        rw [headWritten, take, decide_eq_false_iff_not, map_take]
        intro mem
        have := mem_keys_logCopies.1 (mem_of_mem_take mem)
        omega
      rw [unheaded, take]
      apply Stage.settled
      apply written_take_keeps _ start
      intro w mem d h
      have copy := mem_keys_logCopies.1 (mem_map_of_mem mem)
      constructor
      · rw [update_of_ne (by omega)]
        exact h.empty
      · intro b outside
        rw [update_of_ne (outside.ne (by omega) copy.2).symm]
        exact h.home b outside
    · obtain ⟨j, rfl⟩ : ∃ j, k = tx.length + (j + 1) := ⟨k - tx.length - 1, by omega⟩
      have take : (commit log m).2.writes.take (tx.length + (j + 1)) =
          logCopies log.start tx ++ (log.start, head) :: (tx ++ [(log.start, cleared)]).take j := by
        rw [writes, take_append, take_of_length_le (by simp), length_logCopies,
          Nat.add_sub_cancel_left, take_succ_cons]
      have headed : headWritten log m (tx.length + (j + 1)) = true := by
        rw [headWritten, take, decide_eq_true_eq]
        simp
      rw [headed, take, written_append, written_cons]
      refine Committed.crash tr ⟨?_, ?_, ?_⟩ empty j
      · simpa using lists
      · intro i inside
        rw [update_of_ne (by simp; omega)]
        exact written_logCopies _ inside
      · intro b outside _
        rw [update_of_ne (outside.ne (Nat.le_refl _) (by omega)).symm]
        apply written_notMem
        intro mem
        have copy := mem_keys_logCopies.1 mem
        exact outside.ne (by omega) copy.2 rfl

/-- Crash atomicity of the log. The machine stops after `k` of the writes of `commit`, and
then once inside each of any number of recoveries. The recovery that completes leaves an
empty header and, outside the log, the disk of before the transaction or, when the first
`write_head` reached the disk, the disk of after it. -/
theorem commit_crash_atomic {log : Log} {m : Bio} {tx : List (Nat × Block)} (tr : Transaction log.start tx)
    (pending : Pending log m tx) (clear : headN (m.disk log.start) = 0) (k : Nat) (ks : List Nat) (nlog : Nat) :
    ∃ d log' m', recoveryCrashes log.start nlog ks (written ((commit log m).2.writes.take k) m.disk) = .ok d ∧
      initlog log.start nlog { disk := d } = .ok (log', m') ∧ headN (m'.disk log.start) = 0 ∧
      ∀ b, OutsideLog log.start tx.length b →
        m'.disk b = if headWritten log m k then written tx m.disk b else m.disk b := by
  obtain ⟨d, crashes, stage⟩ := (commit_stage tr pending clear k).crashes nlog tr ks
  obtain ⟨log', m', run, settled, _⟩ := stage.recover nlog tr
  refine ⟨d, log', m', crashes, run, settled.empty, ?_⟩
  intro b outside
  rw [settled.home b outside, outcome]
  split <;> rfl

/-- One block is committed, the machine stops before it is installed, and once more in the
middle of the recovery. -/
theorem commit_crash_atomic_block :
    let log : Log := { start := 2, size := 30, lh := { n := 1, block := fun _ => 40 } }
    let data : Block := fun _ => 7
    let m : Bio := { disk := fun _ _ => 0, dirty := Function.update (fun _ => none) 40 (some data) }
    ∃ d log' m', recoveryCrashes 2 30 [1] (written ((commit log m).2.writes.take 2) m.disk) = .ok d ∧
      initlog 2 30 { disk := d } = .ok (log', m') ∧ headN (m'.disk 2) = 0 ∧
      ∀ b, OutsideLog 2 1 b →
        m'.disk b = if headWritten log m 2 then written [(40, data)] m.disk b else m.disk b := by
  intro log data m
  have tr : Transaction log.start [(40, data)] := ⟨by decide, by simp, by simp [OutsideLog, log], by simp⟩
  have clean : ∀ b ∉ [(40, data)].map Prod.fst, m.dirty b = none := by
    intro b other
    have ne : b ≠ 40 := by simpa using other
    simp [m, ne]
  have pending : Pending log m [(40, data)] := ⟨⟨rfl, by simp [log]⟩, by simp [Bio.bread, m], clean, rfl⟩
  exact commit_crash_atomic tr pending (by decide) 2 [1] 30

end Xv6
