import Mathlib.Data.List.Basic

/-!
# Lines

A text of lines, each ended by a separator, and how it splits.
-/

namespace Lines
open List

variable {α : Type} {sep : α} {ls : List (List α)}

/-- The lines, each with its separator. -/
def text (sep : α) (ls : List (List α)) : List α := ls.flatMap fun l => l ++ [sep]

@[simp] theorem text_nil : text sep [] = [] := rfl

@[simp] theorem text_cons (l : List α) (ls : List (List α)) : text sep (l :: ls) = l ++ sep :: text sep ls := by
  simp [text]

/-- Nothing before the first separator is a separator. -/
theorem cons_cancel {l m r s : List α} (clean : sep ∉ l) (clean' : sep ∉ m) (same : l ++ sep :: r = m ++ sep :: s) :
    l = m ∧ r = s := by
  obtain ⟨k, rfl, rest⟩ | ⟨k, rfl, rest⟩ := append_eq_append_iff.1 same
  · cases k with
    | nil => exact ⟨by simp, (cons.inj rest).2⟩
    | cons c k => exact absurd (mem_append_right l ((cons.inj rest).1 ▸ mem_cons_self ..)) clean'
  · cases k with
    | nil => exact ⟨by simp, (cons.inj rest).2.symm⟩
    | cons c k => exact absurd (mem_append_right m ((cons.inj rest).1 ▸ mem_cons_self ..)) clean

/-- **A text that begins with some lines** goes on with the others. -/
theorem text_cancel :
    ∀ {ks : List (List α)} {r : List α}, (∀ k ∈ ks, sep ∉ k) → (∀ l ∈ ls, sep ∉ l) → text sep ks ++ r = text sep ls →
      ∃ ms, ls = ks ++ ms ∧ r = text sep ms := by
  induction ls with
  | nil =>
    intro ks r _ _ same
    cases ks with
    | nil => exact ⟨[], rfl, same⟩
    | cons k ks => simp at same
  | cons l ls ih =>
    intro ks r cleanK cleanL same
    cases ks with
    | nil => exact ⟨l :: ls, rfl, same⟩
    | cons k ks =>
      rw [text_cons, text_cons, append_assoc, cons_append] at same
      obtain ⟨rfl, rest⟩ := cons_cancel (cleanK k (mem_cons_self ..)) (cleanL l (mem_cons_self ..)) same
      obtain ⟨ms, rfl, tail⟩ := ih (fun k inside => cleanK k (mem_cons_of_mem _ inside))
        (fun l inside => cleanL l (mem_cons_of_mem _ inside)) rest
      exact ⟨ms, rfl, tail⟩

theorem not_mem_text {c : α} (other : c ≠ sep) : c ∉ text sep ls ↔ ∀ l ∈ ls, c ∉ l := by
  simp [text, other]

/-- A text without a separator has no line. -/
theorem eq_nil_of_not_mem (none : sep ∉ text sep ls) : ls = [] := by
  cases ls with
  | nil => rfl
  | cons l ls => simp at none

end Lines
