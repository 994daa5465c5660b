import Mathlib.Data.List.Basic
import Mathlib.Logic.Function.Iterate

/-!
# Chains of links

One link leaves every cell. `Seg next x l y` says that the links lead from `x` through
the cells `l` to `y`; a circular list is a segment from a cell back to itself, and can be
entered anywhere. `seek` is the loop that follows the links to the first cell it likes.
-/

namespace Chain
open List

variable {ι : Type} {stop : ι → Bool} {c b : ι}

/-- From `x` through the cells `l` to `y`. -/
def Seg (next : ι → ι) : ι → List ι → ι → Prop
  | x, [], y => x = y
  | x, c :: l, y => x = c ∧ Seg next (next c) l y

variable {next next' : ι → ι} {x y z : ι} {l m : List ι}

theorem seg_append : Seg next x (l ++ m) z ↔ ∃ y, Seg next x l y ∧ Seg next y m z := by
  induction l generalizing x with
  | nil => exact ⟨fun seg => ⟨x, rfl, seg⟩, fun ⟨_, same, seg⟩ => (show x = _ from same) ▸ seg⟩
  | cons c l ih =>
    show (x = c ∧ Seg next (next c) (l ++ m) z) ↔ ∃ y, (x = c ∧ Seg next (next c) l y) ∧ Seg next y m z
    rw [ih]
    constructor
    · rintro ⟨start, y, first, rest⟩
      exact ⟨y, ⟨start, first⟩, rest⟩
    · rintro ⟨y, ⟨start, first⟩, rest⟩
      exact ⟨start, y, first, rest⟩

/-- A segment reads the links of its cells. -/
theorem Seg.congr (seg : Seg next x l y) (same : ∀ c ∈ l, next' c = next c) : Seg next' x l y := by
  induction l generalizing x with
  | nil => exact seg
  | cons c l ih =>
    refine ⟨seg.1, ?_⟩
    rw [same c (mem_cons_self ..)]
    exact ih seg.2 fun d inside => same d (mem_cons_of_mem _ inside)

/-- A circular list can be entered at any of its cells. -/
theorem Seg.rotate (seg : Seg next x (l ++ m) x) : ∃ y, Seg next y (m ++ l) y := by
  obtain ⟨y, first, second⟩ := seg_append.1 seg
  exact ⟨y, seg_append.2 ⟨x, second, first⟩⟩

/-- The cell after `c`. -/
theorem Seg.next_eq {d : ι} (seg : Seg next x (l ++ c :: d :: m) y) : next c = d := by
  obtain ⟨_, _, _, rest⟩ := seg_append.1 seg
  exact rest.1

/-- The link of the last cell. -/
theorem Seg.last_eq (seg : Seg next x (l ++ [c]) y) : next c = y := by
  obtain ⟨_, _, _, rest⟩ := seg_append.1 seg
  exact rest

/-- Every cell of a segment is reached by following the links. -/
theorem Seg.reached (seg : Seg next x l y) : ∀ c ∈ l, ∃ i, next^[i] x = c := by
  induction l generalizing x with
  | nil => exact fun c inside => absurd inside not_mem_nil
  | cons d l ih =>
    intro c inside
    obtain ⟨rfl, rest⟩ := seg
    rcases mem_cons.1 inside with rfl | later
    · exact ⟨0, rfl⟩
    · obtain ⟨i, reach⟩ := ih rest c later
      exact ⟨i + 1, reach⟩

/-- The links do not lead out of a circular list. -/
theorem Seg.closed (seg : Seg next x l x) (inside : c ∈ l) : next c ∈ l := by
  obtain ⟨lo, hi, rfl⟩ := append_of_mem inside
  cases hi with
  | nil =>
    rw [seg.last_eq]
    cases lo with
    | nil => exact seg.1 ▸ mem_cons_self ..
    | cons d lo => exact seg.1 ▸ mem_cons_self ..
  | cons d hi =>
    rw [seg.next_eq]
    exact mem_append_right _ (mem_cons_of_mem _ (mem_cons_self ..))

theorem Seg.iterate_mem (seg : Seg next x l x) (inside : c ∈ l) (i : Nat) : next^[i] c ∈ l := by
  induction i generalizing c with
  | zero => exact inside
  | succ i ih => exact ih (seg.closed inside)

/-- A new cell `b` behind `c`. -/
theorem Seg.insert (seg : Seg next x (l ++ c :: m) y) (link : next' c = b) (rest : next' b = next c)
    (same : ∀ d ∈ l ++ m, next' d = next d) : Seg next' x (l ++ c :: b :: m) y := by
  obtain ⟨_, first, start, second⟩ := seg_append.1 seg
  refine seg_append.2 ⟨_, first.congr fun d inside => same d (mem_append_left _ inside), start, link, ?_⟩
  rw [rest]
  exact second.congr fun d inside => same d (mem_append_right _ inside)

/-- The cell `b` behind `c` is left out. -/
theorem Seg.remove (seg : Seg next x (l ++ c :: b :: m) y) (link : next' c = next b) (same : ∀ d ∈ l ++ m, next' d = next d) :
    Seg next' x (l ++ c :: m) y := by
  obtain ⟨_, first, start, _, second⟩ := seg_append.1 seg
  refine seg_append.2 ⟨_, first.congr fun d inside => same d (mem_append_left _ inside), start, ?_⟩
  rw [link]
  exact second.congr fun d inside => same d (mem_append_right _ inside)

/-- A cell put into a list behind its head. -/
theorem head_insert {fs : List ι} (parts : x :: fs = l ++ c :: m) :
    ∃ gs, x :: gs = l ++ c :: b :: m ∧ gs.Perm (b :: fs) := by
  cases l with
  | nil =>
    cases parts
    exact ⟨b :: m, rfl, .refl _⟩
  | cons d l =>
    cases parts
    exact ⟨l ++ c :: b :: m, rfl, (List.Perm.append_left l (.swap _ _ _)).trans perm_middle⟩

/-- A cell taken out of a list behind its head. -/
theorem head_remove {fs : List ι} (parts : x :: fs = l ++ c :: b :: m) :
    ∃ gs, x :: gs = l ++ c :: m ∧ fs.Perm (b :: gs) := by
  cases l with
  | nil =>
    cases parts
    exact ⟨m, rfl, .refl _⟩
  | cons d l =>
    cases parts
    exact ⟨l ++ c :: m, rfl, (List.Perm.append_left l (.swap _ _ _)).trans perm_middle⟩

/-- Follow the links to the first cell that `stop` accepts. -/
def seek (next : ι → ι) (stop : ι → Bool) : Nat → ι → Option ι
  | 0, _ => none
  | fuel + 1, c => if stop c then some c else seek next stop fuel (next c)

theorem seek_more : ∀ {fuel fuel' : Nat} {x : ι}, seek next stop fuel x = some c → fuel ≤ fuel' →
    seek next stop fuel' x = some c := by
  intro fuel
  induction fuel with
  | zero =>
    intro fuel' x found _
    cases found
  | succ fuel ih =>
    intro fuel' x found more
    obtain ⟨k, rfl⟩ : ∃ k, fuel' = k + 1 := ⟨fuel' - 1, by omega⟩
    rw [seek] at found ⊢
    split
    · rename_i here
      rwa [if_pos here] at found
    · rename_i other
      rw [if_neg other] at found
      exact ih found (by omega)

/-- **The loop ends** on a segment with a cell that is accepted. -/
theorem Seg.seek (seg : Seg next x l y) (accepted : ∃ c ∈ l, stop c = true) {fuel : Nat} (enough : l.length ≤ fuel) :
    ∃ c ∈ l, stop c = true ∧ Chain.seek next stop fuel x = some c := by
  induction l generalizing x fuel with
  | nil =>
    obtain ⟨c, inside, _⟩ := accepted
    cases inside
  | cons c l ih =>
    obtain ⟨start, rest⟩ := seg
    subst start
    obtain ⟨k, rfl⟩ : ∃ k, fuel = k + 1 := ⟨fuel - 1, by rw [length_cons] at enough; omega⟩
    rw [Chain.seek]
    split
    · rename_i here
      exact ⟨x, mem_cons_self .., here, rfl⟩
    · rename_i other
      obtain ⟨d, inside, good⟩ := accepted
      have later : d ∈ l := (mem_cons.1 inside).resolve_left fun same => other (same ▸ good)
      obtain ⟨e, insideE, goodE, found⟩ := ih rest ⟨d, later, good⟩ (Nat.le_of_succ_le_succ enough)
      exact ⟨e, mem_cons_of_mem _ insideE, goodE, found⟩

end Chain
