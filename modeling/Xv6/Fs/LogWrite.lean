import Xv6.Fs.LogCrash

/-!
# Building a transaction with `log_write`

What a sequence of `log_write` calls leaves in the log is a transaction that `commit`
can take, and committing it has the effect of the calls in their order: a block that is
logged again replaces its earlier contents (log absorption).
-/

namespace Xv6

open Fallible DiskWrites Function List

/-- The tests of `log_write`. -/
def logTest (log : Log) : Res Unit :=
  if LOGSIZE ≤ log.lh.n ∨ (log.size : Int) - 1 ≤ log.lh.n then .error (.panic "too big a transaction")
  else if log.outstanding < 1 then .error (.panic "log_write outside of trans")
  else .ok ()

/-- The section of `log_write`: the header. -/
def LogHeader.record (lh : LogHeader) (blockno : Nat) : LogHeader :=
  let i := lh.find blockno
  { block := Function.update lh.block i blockno
    n := if (i : Int) = lh.n then lh.n + 1 else lh.n }

def Log.record (log : Log) (blockno : Nat) : Log := { log with lh := log.lh.record blockno }

/-- Its effect on the buffer. -/
def Bio.dirtied (m : Bio) (blockno : Nat) (data : Block) : Bio :=
  { m with dirty := Function.update m.dirty blockno (some data) }

/-- `log_write` is its test and its section. -/
theorem logWrite_eq (blockno : Nat) (data : Block) (log : Log) (m : Bio) :
    logWrite blockno data log m =
      (logTest log >>= fun _ => .ok (log.record blockno, m.dirtied blockno data)) := by
  unfold logWrite logTest
  split
  · rfl
  · split <;> rfl

/-- The blocks of the header. -/
def LogHeader.blocks (lh : LogHeader) : List Nat := (upto lh.n).map lh.block

/-- `log_write` appends a block unless it is there. -/
theorem LogHeader.record_blocks {lh : LogHeader} (size : 0 ≤ lh.n) (b : Nat) :
    0 ≤ (lh.record b).n ∧ (lh.record b).blocks = if b ∈ lh.blocks then lh.blocks else lh.blocks ++ [b] := by
  cases search : (upto lh.n).find? fun i => lh.block i = b with
  | some i =>
    have inside : i < lh.n.toNat := mem_range.1 (mem_of_find?_eq_some search)
    have same : lh.block i = b := by simpa using find?_some search
    have index : lh.find b = i := by rw [find, search, Option.getD_some]
    have notLast : ¬ ((i : Int) = lh.n) := by omega
    have keep : lh.record b = lh := by
      simp only [record, index, if_neg notLast]
      rw [← same, update_eq_self]
    rw [keep, if_pos (same ▸ mem_map_of_mem (mem_range.2 inside))]
    exact ⟨size, rfl⟩
  | none =>
    have fresh : b ∉ lh.blocks := by simpa [blocks] using search
    have index : lh.find b = lh.n.toNat := by rw [find, search, Option.getD_none]
    have isLast : (lh.n.toNat : Int) = lh.n := by omega
    rw [if_neg fresh]
    refine ⟨by simp only [record, index, if_pos isLast]; omega, ?_⟩
    simp only [record, index, if_pos isLast, blocks, upto]
    rw [show (lh.n + 1).toNat = lh.n.toNat + 1 by omega, range_succ, map_append, map_singleton,
      update_self]
    congr 1
    apply map_congr_left
    intro i inside
    rw [update_of_ne (Nat.ne_of_lt (mem_range.1 inside))]

theorem LogHeader.lists_iff {lh : LogHeader} {tx : List (Nat × Block)} :
    lh.Lists tx ↔ 0 ≤ lh.n ∧ lh.blocks = tx.map Prod.fst := by
  constructor
  · rintro ⟨count, block⟩
    refine ⟨by omega, ext_getElem (by simp [blocks, upto, count]) fun i _ inside => ?_⟩
    rw [length_map] at inside
    simp [blocks, upto, block i inside]
  · rintro ⟨size, same⟩
    have length := congrArg List.length same
    simp only [blocks, upto, length_map, length_range] at length
    refine ⟨by omega, fun i inside => ?_⟩
    have entry := getElem_of_eq same (show i < lh.blocks.length by simp [same, inside])
    simpa [blocks, upto] using entry

/-- The transaction after `log_write` of block `b`. -/
def absorb (tx : List (Nat × Block)) (b : Nat) (data : Block) : List (Nat × Block) :=
  if b ∈ tx.map Prod.fst then tx.map fun w => if w.1 = b then (b, data) else w else tx ++ [(b, data)]

section

variable {log log' : Log} {m m' : Bio} {tx : List (Nat × Block)} {b : Nat} {data : Block}

theorem keys_absorb (tx : List (Nat × Block)) (b : Nat) (data : Block) :
    (absorb tx b data).map Prod.fst = if b ∈ tx.map Prod.fst then tx.map Prod.fst else tx.map Prod.fst ++ [b] := by
  rw [absorb]
  by_cases logged : b ∈ tx.map Prod.fst
  · rw [if_pos logged, if_pos logged, map_map]
    apply map_congr_left
    intro w _
    by_cases here : w.1 = b <;> simp [here]
  · rw [if_neg logged, if_neg logged]
    simp

theorem mem_keys_absorb {c : Nat} : c ∈ (absorb tx b data).map Prod.fst ↔ c ∈ tx.map Prod.fst ∨ c = b := by
  rw [keys_absorb]
  split
  · rename_i logged
    exact ⟨.inl, fun mem => mem.elim id fun same => same ▸ logged⟩
  · rw [mem_append, mem_singleton]

theorem nodup_absorb (data : Block) (distinct : (tx.map Prod.fst).Nodup) : ((absorb tx b data).map Prod.fst).Nodup := by
  rw [keys_absorb]
  split
  · exact distinct
  · rename_i fresh
    exact Nodup.append distinct (nodup_singleton b) (by simpa using fresh)

/-- Absorbing a block has the effect of writing it last. -/
theorem written_absorb (data : Block) (d : Nat → Block) (distinct : (tx.map Prod.fst).Nodup) :
    written (absorb tx b data) d = written (tx ++ [(b, data)]) d := by
  by_cases logged : b ∈ tx.map Prod.fst
  · funext c
    rw [written_append, written_cons, written_nil]
    have nodup := nodup_absorb (b := b) data distinct
    by_cases here : c = b
    · rw [here, update_self]
      apply written_of_nodup nodup
      obtain ⟨w, mem, key⟩ := mem_map.1 logged
      rw [absorb, if_pos logged]
      exact mem_map.2 ⟨w, mem, by simp [key]⟩
    · rw [update_of_ne here]
      by_cases touched : c ∈ tx.map Prod.fst
      · obtain ⟨⟨c, v⟩, mem, rfl⟩ := mem_map.1 touched
        rw [written_of_nodup distinct mem]
        apply written_of_nodup nodup
        rw [absorb, if_pos logged]
        exact mem_map.2 ⟨(c, v), mem, if_neg here⟩
      · rw [written_notMem touched, written_notMem]
        rwa [keys_absorb, if_pos logged]
  · rw [absorb, if_neg logged]

theorem mem_absorb {w : Nat × Block} (mem : w ∈ absorb tx b data) : w = (b, data) ∨ w ∈ tx ∧ w.1 ≠ b := by
  rw [absorb] at mem
  split at mem
  · obtain ⟨v, inside, rfl⟩ := mem_map.1 mem
    split
    · exact .inl rfl
    · exact .inr ⟨inside, ‹_›⟩
  · rename_i fresh
    rcases mem_append.1 mem with old | new
    · exact .inr ⟨old, fun same => fresh (same ▸ mem_map_of_mem old)⟩
    · exact .inl (mem_singleton.1 new)

/-- The section of `log_write` adds the block to the pending transaction. -/
theorem Pending.record (pending : Pending log m tx) (b : Nat) (data : Block) :
    Pending (log.record b) (m.dirtied b data) (absorb tx b data) := by
  obtain ⟨size, listed⟩ := LogHeader.lists_iff.1 pending.lists
  obtain ⟨size', listed'⟩ := log.lh.record_blocks size b
  refine ⟨LogHeader.lists_iff.2 ⟨size', by rw [keys_absorb, ← listed]; exact listed'⟩, fun i inside => ?_, fun c clean => ?_,
    pending.unwritten⟩
  · rcases mem_absorb (getElem_mem inside) with new | ⟨old, other⟩
    · simp [new, Bio.bread, Bio.dirtied]
    · obtain ⟨j, bound, same⟩ := mem_iff_getElem.1 old
      have cached := pending.cached j bound
      rw [same] at cached
      rw [← cached]
      simp [Bio.bread, Bio.dirtied, other]
  · rw [mem_keys_absorb, not_or] at clean
    exact (update_of_ne clean.2 ..).trans (pending.clean c clean.1)

/-- `log_write` keeps to the size of the log. -/
theorem logWrite_pending (pending : Pending log m tx) (call : logWrite b data log m = .ok (log', m')) :
    Pending log' m' (absorb tx b data) ∧ log'.start = log.start ∧ log'.size = log.size ∧ m'.disk = m.disk ∧
      (absorb tx b data).length ≤ LOGSIZE ∧ (absorb tx b data).length < log.size := by
  have count := pending.lists.count
  have length : (absorb tx b data).length ≤ tx.length + 1 := by
    rw [absorb]
    split <;> simp
  rw [logWrite_eq] at call
  obtain ⟨_, test, result⟩ := bind_ok.1 call
  cases result
  unfold logTest at test
  split at test
  · cases test
  · exact ⟨pending.record b data, rfl, rfl, rfl, by omega, by omega⟩

end

/-- The `log_write` calls of the operations of one transaction, in their order. -/
def logWrites : List (Nat × Block) → Log → Bio → Res (Log × Bio)
  | [], log, m => .ok (log, m)
  | (b, data) :: calls, log, m => do
    let (log, m) ← logWrite b data log m
    logWrites calls log m

/-- Calls of `log_write` for blocks outside the log area, none of which panics, leave a
transaction that `commit` can take; it has the effect of the calls. -/
theorem logWrites_pending (calls : List (Nat × Block)) {log log' : Log} {m m' : Bio} {tx : List (Nat × Block)}
    (few : tx.length ≤ LOGSIZE ∧ tx.length < log.size) (distinct : (tx.map Prod.fst).Nodup) (pending : Pending log m tx)
    (outside : ∀ b ∈ (tx ++ calls).map Prod.fst, OutsideLog log.start (log.size - 1) b ∧ b < 2 ^ 32)
    (run : logWrites calls log m = .ok (log', m')) :
    ∃ tx', Pending log' m' tx' ∧ Transaction log'.start tx' ∧ log'.start = log.start ∧ m'.disk = m.disk ∧
      written tx' m.disk = written (tx ++ calls) m.disk := by
  induction calls generalizing log m tx with
  | nil =>
    cases run
    rw [append_nil] at outside
    refine ⟨tx, pending, ⟨few.1, distinct, ?_, fun b mem => (outside b mem).2⟩, rfl, rfl, by rw [append_nil]⟩
    intro b mem
    have := (outside b mem).1
    simp only [OutsideLog] at this ⊢
    omega
  | cons call calls ih =>
    obtain ⟨b, data⟩ := call
    obtain ⟨⟨log1, m1⟩, first, rest⟩ := bind_ok.1 run
    obtain ⟨pending1, start1, size1, disk1, few1, room1⟩ := logWrite_pending pending first
    have outside1 : ∀ c ∈ (absorb tx b data ++ calls).map Prod.fst,
        OutsideLog log1.start (log1.size - 1) c ∧ c < 2 ^ 32 := by
      intro c mem
      rw [start1, size1]
      apply outside
      rw [map_append, mem_append, mem_keys_absorb] at mem
      rw [map_append, mem_append, map_cons, mem_cons]
      exact or_assoc.1 mem
    obtain ⟨tx', pending', tr, start', disk', effect⟩ :=
      ih ⟨few1, by rw [size1]; exact room1⟩ (nodup_absorb data distinct) pending1 outside1 rest
    refine ⟨tx', pending', tr, start'.trans start1, disk'.trans disk1, ?_⟩
    rw [← disk1, effect, disk1, written_append, written_absorb data m.disk distinct, ← written_append,
      append_assoc, singleton_append]

/-- Two writes of one block. -/
theorem logWrites_pending_twice :
    let calls : List (Nat × Block) := [(40, fun _ => 7), (40, fun _ => 8)]
    ∃ log m tx, logWrites calls { start := 2, size := 30, outstanding := 1 } { disk := fun _ _ => 0 } = .ok (log, m) ∧
      Pending log m tx ∧ written tx (fun _ _ => 0) = written calls fun _ _ => 0 := by
  intro calls
  have idle : Pending { start := 2, size := 30, outstanding := 1 } { disk := fun _ _ => 0 } [] :=
    ⟨⟨rfl, by simp⟩, by simp, by simp, rfl⟩
  have ⟨tx, pending, _, _, _, effect⟩ :=
    logWrites_pending calls (by decide) (by simp) idle (by simp [calls, OutsideLog]) rfl
  exact ⟨_, _, tx, rfl, pending, effect⟩

end Xv6
