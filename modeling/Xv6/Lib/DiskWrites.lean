import Mathlib.Data.List.Nodup

/-!
# Disks and lists of block writes

A disk is a function from block numbers to contents and one block write is atomic. A
program that only writes blocks is the list of its writes, oldest first; if the machine
stops, a prefix of the list has reached the disk. Facts about every crash point come
from `written_take_keeps`: what each single write keeps, every prefix keeps.
-/

namespace DiskWrites
open Function List

variable {ι β : Type} [DecidableEq ι]

/-- The disk after the writes `ws`. -/
def written (ws : List (ι × β)) (d : ι → β) : ι → β :=
  ws.foldl (fun d w => Function.update d w.1 w.2) d

variable {ws vs : List (ι × β)} {d d' : ι → β} {b : ι} {v : β}

@[simp] theorem written_nil (d : ι → β) : written [] d = d := rfl

@[simp] theorem written_cons (w : ι × β) (ws : List (ι × β)) (d : ι → β) :
    written (w :: ws) d = written ws (update d w.1 w.2) := rfl

theorem written_append (ws vs : List (ι × β)) (d : ι → β) :
    written (ws ++ vs) d = written vs (written ws d) :=
  foldl_append

/-- What no write touches stays. -/
theorem written_notMem (untouched : b ∉ ws.map Prod.fst) : written ws d b = d b := by
  induction ws generalizing d with
  | nil => simp
  | cons w ws ih =>
    simp only [map_cons, mem_cons, not_or] at untouched
    rw [written_cons, ih untouched.2, update_of_ne untouched.1]

/-- Where the writes go the old contents do not matter. -/
theorem written_mem (touched : b ∈ ws.map Prod.fst) (d d' : ι → β) : written ws d b = written ws d' b := by
  induction ws generalizing d d' with
  | nil => simp at touched
  | cons w ws ih =>
    rw [written_cons, written_cons]
    by_cases later : b ∈ ws.map Prod.fst
    · exact ih later _ _
    · rw [written_notMem later, written_notMem later]
      simp only [map_cons, mem_cons, later, or_false] at touched
      subst touched
      simp

/-- Disks that agree where nothing is written agree after the writes. -/
theorem written_congr (same : b ∉ ws.map Prod.fst → d b = d' b) : written ws d b = written ws d' b := by
  by_cases touched : b ∈ ws.map Prod.fst
  · exact written_mem touched d d'
  · rw [written_notMem touched, written_notMem touched, same touched]

/-- Writes to distinct blocks all survive. -/
theorem written_of_nodup (distinct : (ws.map Prod.fst).Nodup) (mem : (b, v) ∈ ws) : written ws d b = v := by
  induction ws generalizing d with
  | nil => simp at mem
  | cons w ws ih =>
    rw [map_cons, nodup_cons] at distinct
    rw [written_cons]
    rcases mem_cons.1 mem with same | later
    · subst same
      rw [written_notMem distinct.1]
      simp
    · exact ih distinct.2 later

/-- What every single write keeps holds wherever the machine stops. -/
theorem written_take_keeps {I : (ι → β) → Prop}
    (keeps : ∀ w ∈ ws, ∀ d, I d → I (update d w.1 w.2)) (start : I d) (k : Nat) :
    I (written (ws.take k) d) := by
  induction ws generalizing d k with
  | nil => simpa using start
  | cons w ws ih =>
    cases k with
    | zero => simpa using start
    | succ k =>
      rw [take_succ_cons, written_cons]
      apply ih
      · intro w mem
        exact keeps w (mem_cons_of_mem _ mem)
      · exact keeps w mem_cons_self d start

end DiskWrites
