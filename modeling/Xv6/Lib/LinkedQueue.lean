import Mathlib.Data.List.Nodup

/-!
# Doubly linked queues threaded through cells

The cells are named by `ι`; `next` and `prev` give the links stored in them. `Rep next
prev head tail l` says that the queue consists of the cells `l`, first to last. The
lemmas about updates speak of the links after the update pointwise, so that they apply
to any representation of the cells.
-/

namespace LinkedQueue
open List

variable {ι : Type} {x : ι}

/-- Following `next` through the cells. -/
def Forward (next : ι → Option ι) : List ι → Prop
  | [] => True
  | x :: xs => next x = xs.head? ∧ Forward next xs

/-- Each `prev` names the cell before; the first one names `p`. -/
def Backward (prev : ι → Option ι) (p : Option ι) : List ι → Prop
  | [] => True
  | x :: xs => prev x = p ∧ Backward prev (some x) xs

/-- The queue from `head` to `tail` is the list of distinct cells `l`. -/
structure Rep (next prev : ι → Option ι) (head tail : Option ι) (l : List ι) : Prop where
  distinct : l.Nodup
  first : head = l.head?
  last : tail = l.getLast?
  forward : Forward next l
  backward : Backward prev none l

section Links

variable {next next' prev prev' : ι → Option ι} {l : List ι} {p : Option ι}

theorem Forward.congr (h : Forward next l) (same : ∀ x ∈ l, next' x = next x) : Forward next' l := by
  induction l with
  | nil => trivial
  | cons x xs ih =>
    exact ⟨(same x (by simp)).trans h.1, ih h.2 fun y mem => same y (by simp [mem])⟩

theorem Backward.congr (h : Backward prev p l) (same : ∀ x ∈ l, prev' x = prev x) : Backward prev' p l := by
  induction l generalizing p with
  | nil => trivial
  | cons x xs ih =>
    exact ⟨(same x (by simp)).trans h.1, ih h.2 fun y mem => same y (by simp [mem])⟩

/-- Cutting a queue before its last cell: the new last cell gets a null `next`. -/
theorem Forward.cut [DecidableEq ι] (h : Forward next (l ++ [x])) (distinct : (l ++ [x]).Nodup)
    (same : ∀ y ∈ l, next' y = if l.getLast? = some y then none else next y) : Forward next' l := by
  induction l with
  | nil => trivial
  | cons y ys ih =>
    cases ys with
    | nil => exact ⟨by simpa using same y (by simp), trivial⟩
    | cons z zs =>
      have rest : Forward next' (z :: zs) := by
        refine ih h.2 (nodup_cons.1 distinct).2 fun w mem => ?_
        have := same w (by simp [mem_cons.1 mem])
        rwa [getLast?_cons_cons] at this
      refine ⟨?_, rest⟩
      have notLast : (y :: z :: zs).getLast? ≠ some y := by
        intro last
        have inside : y ∈ z :: zs := by
          rw [getLast?_cons_cons] at last
          exact mem_of_getLast? last
        exact (nodup_cons.1 distinct).1 (mem_append_left _ inside)
      rw [same y (by simp), if_neg notLast, h.1]
      rfl

theorem Backward.init (h : Backward prev p (l ++ [x])) : Backward prev p l := by
  induction l generalizing p with
  | nil => trivial
  | cons y ys ih => exact ⟨h.1, ih h.2⟩

/-- The `prev` of the last cell is the cell before it. -/
theorem Backward.last (h : Backward prev p (l ++ [x])) : prev x = (l.getLast?).or p := by
  induction l generalizing p with
  | nil => simpa using h.1
  | cons y ys ih =>
    have := ih h.2
    cases ys with
    | nil => simpa using this
    | cons z zs =>
      rw [getLast?_cons_cons, this]
      cases last : (z :: zs).getLast? with
      | none => simp at last
      | some w => rfl

end Links

section Updates

variable {next next' prev prev' : ι → Option ι} {head tail : Option ι} {l : List ι}

/-- A cell outside the queue is put in front of it. -/
theorem Rep.push [DecidableEq ι] (rep : Rep next prev head tail l) {tail' : Option ι} (fresh : x ∉ l) (link : next' x = head)
    (first : prev' x = none) (nexts : ∀ y ∈ l, next' y = next y)
    (prevs : ∀ y ∈ l, prev' y = if head = some y then some x else prev y)
    (ends : tail' = if head = none then some x else tail) : Rep next' prev' (some x) tail' (x :: l) := by
  refine ⟨nodup_cons.2 ⟨fresh, rep.distinct⟩, rfl, ?_, ⟨by rw [link, rep.first], rep.forward.congr nexts⟩,
    first, ?_⟩
  · rw [ends, rep.first, rep.last]
    cases l with
    | nil => rfl
    | cons y ys => simp [getLast?_cons_cons]
  · have distinct := rep.distinct
    have backward := rep.backward
    rw [rep.first] at prevs
    cases l with
    | nil => trivial
    | cons y ys =>
      refine ⟨by simpa using prevs y (by simp), backward.2.congr fun z mem => ?_⟩
      have ne : y ≠ z := fun same => (nodup_cons.1 distinct).1 (same ▸ mem)
      simpa [ne] using prevs z (by simp [mem])

/-- The last cell of a longer queue is taken off. -/
theorem Rep.pop [DecidableEq ι] (rep : Rep next prev head tail (l ++ [x])) (more : l ≠ [])
    (nexts : ∀ y ∈ l, next' y = if prev x = some y then none else next y) (prevs : ∀ y ∈ l, prev' y = prev y) :
    Rep next' prev' head (prev x) l := by
  have before : prev x = l.getLast? := by
    have := rep.backward.last
    simpa using this
  refine ⟨(nodup_append.1 rep.distinct).1, ?_, before, rep.forward.cut rep.distinct ?_,
    rep.backward.init.congr prevs⟩
  · rw [rep.first]
    cases l with
    | nil => exact absurd rfl more
    | cons y ys => rfl
  · intro y mem
    rw [nexts y mem, before]

theorem Rep.empty (next prev : ι → Option ι) : Rep next prev none none [] :=
  ⟨nodup_nil, rfl, rfl, trivial, trivial⟩

end Updates

/-- A queue with a last cell that has a cell before it. -/
theorem Rep.split_last {next prev : ι → Option ι} {head : Option ι} {l : List ι} {y : ι}
    (rep : Rep next prev head (some x) l) (before : prev x = some y) : ∃ m, l = m ++ [x] ∧ m ≠ [] ∧ m.getLast? = some y := by
  obtain ⟨m, rfl⟩ := getLast?_eq_some_iff.1 rep.last.symm
  have last := rep.backward.last
  rw [before] at last
  cases m with
  | nil => simp at last
  | cons z zs => exact ⟨z :: zs, rfl, by simp, by simpa using last.symm⟩

end LinkedQueue
