import Mathlib.Data.List.Nodup

/-!
# Circular doubly linked lists

The cells are named by `ι`, and `none` is the sentinel from which the list is entered.
`Circle k l` says that the links `k` lead from the sentinel through the cells `l`, each
once, and back, in both directions. `seek` is the loop that follows one of the links until
it finds a cell or is back at the sentinel.
-/

namespace Circle
open List

variable {ι : Type}

structure Links (ι : Type) where
  next : Option ι → Option ι
  prev : Option ι → Option ι

namespace Links

def flip (k : Links ι) : Links ι := ⟨k.prev, k.next⟩

/-- The link between two neighbours. -/
def Joined (k : Links ι) (x y : Option ι) : Prop := k.next x = y ∧ k.prev y = x

/-- From `x` through the cells `l` to `y`. -/
def Path (k : Links ι) : Option ι → List ι → Option ι → Prop
  | x, [], y => k.Joined x y
  | x, c :: l, y => k.Joined x (some c) ∧ k.Path (some c) l y

end Links

structure Holds (k : Links ι) (l : List ι) : Prop where
  distinct : l.Nodup
  path : k.Path none l none

section Paths

variable {k k' : Links ι} {x y z : Option ι} {l m : List ι} {b : ι}

theorem path_append : k.Path x (l ++ b :: m) y ↔ k.Path x l (some b) ∧ k.Path (some b) m y := by
  induction l generalizing x with
  | nil => rfl
  | cons c l ih =>
    show k.Joined x (some c) ∧ k.Path (some c) (l ++ b :: m) y ↔ _
    rw [ih, ← and_assoc]
    rfl

/-- The links that a path uses. -/
theorem path_congr (path : k.Path x l y) (start : k'.next x = k.next x) (finish : k'.prev y = k.prev y)
    (same : ∀ c ∈ l, k'.next (some c) = k.next (some c) ∧ k'.prev (some c) = k.prev (some c)) : k'.Path x l y := by
  induction l generalizing x with
  | nil => exact ⟨start.trans path.1, finish.trans path.2⟩
  | cons c l ih =>
    obtain ⟨joined, rest⟩ := path
    obtain ⟨next, prev⟩ := same c (by simp)
    refine ⟨⟨start.trans joined.1, prev.trans joined.2⟩, ih rest next fun d mem => same d (by simp [mem])⟩

/-- The node before the end of a path. -/
theorem path_prev (path : k.Path x l y) : k.prev y ∈ x :: l.map some := by
  induction l generalizing x with
  | nil => simp [path.2]
  | cons c l ih =>
    have inside := ih path.2
    rw [map_cons]
    exact mem_cons_of_mem _ inside

/-- The last node of a path gets another neighbour. -/
theorem path_retarget (path : k.Path x l y) (distinct : l.Nodup) (start : ∀ c ∈ l, x ≠ some c)
    (last : k'.next (k.prev y) = z) (back : k'.prev z = k.prev y)
    (nexts : ∀ n, n ≠ k.prev y → k'.next n = k.next n) (prevs : ∀ c ∈ l, k'.prev (some c) = k.prev (some c)) :
    k'.Path x l z := by
  induction l generalizing x with
  | nil =>
    rw [path.2] at last back
    exact ⟨last, back⟩
  | cons c l ih =>
    obtain ⟨joined, rest⟩ := path
    have apart : x ≠ k.prev y := by
      intro same
      have mem := path_prev rest
      rw [← same, ← map_cons, mem_map] at mem
      obtain ⟨d, inside, is⟩ := mem
      exact start d inside is.symm
    rw [nodup_cons] at distinct
    refine ⟨⟨(nexts x apart).trans joined.1, (prevs c (by simp)).trans joined.2⟩, ?_⟩
    refine ih rest distinct.2 (fun d mem same => ?_) fun d mem => prevs d (by simp [mem])
    cases same
    exact distinct.1 mem

theorem path_flip (path : k.Path x l y) : k.flip.Path y l.reverse x := by
  induction l generalizing x with
  | nil => exact ⟨path.2, path.1⟩
  | cons c l ih =>
    rw [reverse_cons]
    exact path_append.2 ⟨ih path.2, path.1.2, path.1.1⟩

end Paths

section Cells

variable [DecidableEq ι] {k : Links ι} {l m : List ι} {b : ι}

/-- A cell is taken out: `b->next->prev = b->prev; b->prev->next = b->next`. -/
def Links.unlink (k : Links ι) (b : ι) : Links ι :=
  let k := { k with prev := Function.update k.prev (k.next (some b)) (k.prev (some b)) }
  { k with next := Function.update k.next (k.prev (some b)) (k.next (some b)) }

/-- A cell is put behind the sentinel. -/
def Links.push (k : Links ι) (b : ι) : Links ι :=
  let k := { k with next := Function.update k.next (some b) (k.next none) }
  let k := { k with prev := Function.update k.prev (some b) none }
  let k := { k with prev := Function.update k.prev (k.next none) (some b) }
  { k with next := Function.update k.next none (some b) }

theorem Holds.push (holds : Holds k l) (fresh : b ∉ l) : Holds (k.push b) (b :: l) := by
  refine ⟨nodup_cons.2 ⟨fresh, holds.distinct⟩, ?_⟩
  have path := holds.path
  cases l with
  | nil =>
    have next : k.next none = none := path.1
    refine ⟨⟨?_, ?_⟩, ?_, ?_⟩ <;> simp [Links.push, next]
  | cons c l =>
    obtain ⟨⟨next, prev⟩, rest⟩ := path
    have apart : c ≠ b := by
      intro same
      exact fresh (by simp [same])
    have distinct := nodup_cons.1 holds.distinct
    refine ⟨⟨?_, ?_⟩, ⟨?_, ?_⟩, ?_⟩
    · simp [Links.push]
    · simp [Links.push, next, apart.symm]
    · simp [Links.push, next]
    · simp [Links.push, next]
    · apply path_congr rest
      · simp [Links.push, apart]
      · simp [Links.push, next]
      · intro d mem
        have other : d ≠ b := by
          intro same
          exact fresh (by simp [← same, mem])
        have notC : d ≠ c := by
          intro same
          exact distinct.1 (same ▸ mem)
        constructor
        · simp [Links.push, other]
        · simp [Links.push, next, other, notC]

theorem Holds.unlink (holds : Holds k (l ++ b :: m)) : Holds (k.unlink b) (l ++ m) := by
  obtain ⟨before, after⟩ := path_append.1 holds.path
  have distinct := holds.distinct
  have parts := nodup_append.1 distinct
  have fresh := (nodup_cons.1 parts.2.1).1
  have notB : ∀ c ∈ l, c ≠ b := fun c mem => parts.2.2 c mem b (by simp)
  refine ⟨distinct.sublist ((List.sublist_cons_self b m).append_left l), ?_⟩
  -- the links of `unlink`
  have prevB : (if some b = k.next (some b) then k.prev (some b) else k.prev (some b)) = k.prev (some b) := ite_self _
  have next' : ∀ n, (k.unlink b).next n = if n = k.prev (some b) then k.next (some b) else k.next n := by
    intro n
    simp only [Links.unlink, Function.update_apply, prevB]
  have prev' : ∀ n, (k.unlink b).prev n = if n = k.next (some b) then k.prev (some b) else k.prev n := by
    intro n
    simp only [Links.unlink, Function.update_apply]
  have retarget : (∀ c ∈ l, some c ≠ k.next (some b)) → (k.unlink b).Path none l (k.next (some b)) := by
    intro apart
    refine path_retarget before parts.1 (fun _ _ => by simp) ?_ ?_ ?_ ?_
    · rw [next', if_pos rfl]
    · rw [prev', if_pos rfl]
    · intro n other
      rw [next', if_neg other]
    · intro c mem
      rw [prev', if_neg (apart c mem)]
  cases m with
  | nil =>
    have next : k.next (some b) = none := after.1
    have path := retarget fun c _ => by simp [next]
    rw [next] at path
    rw [append_nil]
    exact path
  | cons d m =>
    obtain ⟨⟨next, _⟩, rest⟩ := after
    have notLast : ∀ c ∈ d :: m, some c ≠ k.prev (some b) := by
      intro c mem same
      have inside := path_prev before
      rw [← same] at inside
      simp only [mem_cons, reduceCtorEq, mem_map, Option.some.injEq, exists_eq_right, false_or] at inside
      exact parts.2.2 c inside c (by simp [mem_cons.1 mem]) rfl
    apply path_append.2
    constructor
    · rw [← next]
      apply retarget
      intro c mem same
      rw [next, Option.some.injEq] at same
      exact parts.2.2 c mem d (by simp) same
    · have dm := nodup_cons.1 (nodup_cons.1 parts.2.1).2
      apply path_congr rest
      · rw [next', if_neg (notLast d (by simp))]
      · rw [prev', next, if_neg (by simp)]
      · intro c mem
        constructor
        · rw [next', if_neg (notLast c (by simp [mem]))]
        · rw [prev', next, if_neg]
          intro same
          cases same
          exact dm.1 mem

/-- The cells in the order in which they are put behind the sentinel. -/
theorem Holds.pushes (holds : Holds k l) (bs : List ι) (distinct : bs.Nodup) (fresh : ∀ b ∈ bs, b ∉ l) :
    Holds (bs.foldl Links.push k) (bs.reverse ++ l) := by
  induction bs generalizing k l with
  | nil => exact holds
  | cons b bs ih =>
    rw [nodup_cons] at distinct
    rw [foldl_cons, reverse_cons, append_assoc]
    refine ih (holds.push (fresh b (by simp))) distinct.2 fun c mem inside => ?_
    rcases mem_cons.1 inside with same | old
    · exact distinct.1 (same ▸ mem)
    · exact fresh c (by simp [mem]) old

end Cells

section Seek

variable {k : Links ι} {l : List ι} {p : ι → Bool} {fuel : Nat}

/-- The loop `for(b = head.next; b != &head; b = b->next) if(p(b)) ...` from a node on; `none` if it has not ended after
`fuel` rounds. -/
def seek (step : Option ι → Option ι) (p : ι → Bool) : Nat → Option ι → Option (Option ι)
  | 0, _ => none
  | _ + 1, none => some none
  | fuel + 1, some b => if p b then some (some b) else seek step p fuel (step (some b))

theorem seek_path {x : Option ι} (path : k.Path x l none) (enough : l.length < fuel) :
    seek k.next p fuel (k.next x) = some (l.find? p) := by
  induction l generalizing x fuel with
  | nil =>
    rw [path.1]
    cases fuel with
    | zero => cases enough
    | succ fuel => rfl
  | cons c l ih =>
    rw [path.1.1]
    cases fuel with
    | zero => cases enough
    | succ fuel =>
      rw [seek, find?_cons]
      cases p c with
      | true => rfl
      | false => exact ih path.2 (by simpa using enough)

theorem Holds.seek_next (holds : Holds k l) (enough : l.length < fuel) :
    seek k.next p fuel (k.next none) = some (l.find? p) := seek_path holds.path enough

theorem Holds.seek_prev (holds : Holds k l) (enough : l.length < fuel) :
    seek k.prev p fuel (k.prev none) = some (l.reverse.find? p) :=
  seek_path (k := k.flip) (path_flip holds.path) (by simpa using enough)

end Seek

end Circle
