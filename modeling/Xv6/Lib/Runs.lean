import Mathlib.Data.List.Induction

/-!
# Labelled runs

`step l s s'` says that the action `l` takes `s` to `s'`. A run is a finite sequence
of actions; `Runs.Trace` keeps the actions it performed, oldest first. Safety facts
come from the rules of invariance: what holds at the start and is kept by each step
holds where the run ends. `Trace.history` lets the invariant speak of the actions
performed so far.
-/

namespace Runs
open List

variable {S L : Type} {ls : List L} {s : S}

/-- The run that performs `ls` in order from `s` ends in `s'`. -/
inductive Trace (step : L → S → S → Prop) (s : S) : List L → S → Prop where
  | nil : Trace step s [] s
  | snoc {ls : List L} {l : L} {t u : S} :
      Trace step s ls t → step l t u → Trace step s (ls ++ [l]) u

variable {step : L → S → S → Prop}

/-- An invariant over the state and the actions performed. -/
theorem Trace.history {I : List L → S → Prop} {t : S} (keeps : ∀ ms l s s', I ms s → step l s s' → I (ms ++ [l]) s')
    (run : Trace step s ls t) (start : I [] s) : I ls t := by
  induction run with
  | nil => exact start
  | snoc _ last ih => exact keeps _ _ _ _ ih last

/-- Rule of invariance: every step keeps `I`, so every run does. -/
theorem Trace.invariant {I : S → Prop} {t : S} (keeps : ∀ l s s', I s → step l s s' → I s') (run : Trace step s ls t)
    (start : I s) : I t :=
  run.history (I := fun _ s => I s) (fun _ => keeps) start

/-- A run whose actions are given in two parts has a state between them. -/
theorem Trace.split {u : S} {ms : List L} (run : Trace step s (ls ++ ms) u) :
    ∃ t, Trace step s ls t ∧ Trace step t ms u := by
  induction ms using List.reverseRecOn generalizing u with
  | nil => exact ⟨u, by simpa using run, .nil⟩
  | append_singleton ms l ih =>
    rw [← append_assoc] at run
    generalize all : ls ++ ms ++ [l] = ks at run
    cases run with
    | nil => simp at all
    | snoc front last =>
      obtain ⟨rfl, same⟩ := append_inj' all rfl
      cases singleton_inj.1 same
      obtain ⟨t, first, second⟩ := ih front
      exact ⟨t, first, .snoc second last⟩

theorem Trace.single {u : S} {l : L} (run : Trace step s [l] u) : step l s u := by
  generalize one : [l] = ks at run
  cases run with
  | nil => cases one
  | @snoc ks m t u front last =>
    have short : ks = [] := by
      have := congrArg List.length one
      simp at this
      exact this
    subst short
    cases singleton_inj.1 one
    generalize none_ : ([] : List L) = ks at front
    cases front with
    | nil => exact last
    | snoc => simp at none_

/-- A run of some steps is a run of any relation that has these steps. -/
theorem Trace.mono {step' : L → S → S → Prop} {t : S} (weaker : ∀ l s s', step l s s' → step' l s s')
    (run : Trace step s ls t) : Trace step' s ls t := by
  induction run with
  | nil => exact .nil
  | snoc _ last ih => exact .snoc ih (weaker _ _ _ last)

/-- Two runs in sequence are one run. -/
theorem Trace.append {t u : S} {ms : List L} (first : Trace step s ls t) (second : Trace step t ms u) :
    Trace step s (ls ++ ms) u := by
  induction second with
  | nil => simpa using first
  | snoc _ last ih => rw [← append_assoc]; exact .snoc ih last

/-! ## Runs that are computed -/

/-- The state after the actions `ls`, where `exec` computes a step. -/
def evaluate (exec : L → S → Option S) (ls : List L) (s : S) : Option S := ls.foldlM (fun s l => exec l s) s

theorem Trace.of_evaluate {α : Type} {exec : L → S → Option S} {f : S → α} {a : α} : ∀ {s : S},
    (evaluate exec ls s).map f = some a → (∀ l ∈ ls, ∀ s s', exec l s = some s' → step l s s') →
      ∃ t, Trace step s ls t ∧ f t = a := by
  induction ls with
  | nil =>
    intro s ends _
    exact ⟨s, .nil, Option.some.inj ends⟩
  | cons l ls ih =>
    intro s ends sound
    rw [evaluate, List.foldlM_cons] at ends
    cases first : exec l s with
    | none =>
      rw [first] at ends
      cases ends
    | some u =>
      rw [first] at ends
      obtain ⟨t, rest, isA⟩ := ih ends fun m mem => sound m (mem_cons_of_mem _ mem)
      exact ⟨t, (Trace.nil.snoc (sound l (mem_cons_self ..) s u first)).append rest, isA⟩

end Runs
