import Mathlib.Data.List.Pairwise
import Mathlib.Data.List.Perm.Basic

/-!
# Memory tiled by spans

A span is a start and a positive length. `Tiles bs O` says that the spans `bs` do not
overlap and make up exactly the addresses `O`. Cutting a span in two and joining two that
touch keep that.
-/

namespace Spans
open List

structure Span where
  start : Nat
  len : Nat

namespace Span

/-- The first address behind the span. -/
def stop (b : Span) : Nat := b.start + b.len

def Has (b : Span) (x : Nat) : Prop := b.start ≤ x ∧ x < b.stop

def Apart (b c : Span) : Prop := b.stop ≤ c.start ∨ c.stop ≤ b.start

instance : Std.Symm Apart := ⟨fun _ _ => Or.symm⟩

end Span

structure Tiles (bs : List Span) (O : Nat → Prop) : Prop where
  cover : ∀ x, O x ↔ ∃ b ∈ bs, b.Has x
  apart : bs.Pairwise Span.Apart
  pos : ∀ b ∈ bs, 0 < b.len

variable {bs cs : List Span} {O : Nat → Prop} {a m n : Nat} {b c : Span}

theorem Tiles.empty : Tiles [] fun _ => False := ⟨fun _ => by simp, .nil, by simp⟩

theorem Tiles.perm (tiles : Tiles bs O) (same : bs.Perm cs) : Tiles cs O where
  cover := fun x => by
    rw [tiles.cover]
    exact exists_congr fun b => and_congr_left fun _ => same.mem_iff
  apart := same.pairwise tiles.apart fun apart => apart.symm
  pos := fun b inside => tiles.pos b (same.mem_iff.2 inside)

theorem Tiles.congr {O' : Nat → Prop} (tiles : Tiles bs O) (same : ∀ x, O' x ↔ O x) : Tiles bs O' :=
  ⟨fun x => (same x).trans (tiles.cover x), tiles.apart, tiles.pos⟩

/-- Two spans of a tiling are the same or apart. -/
theorem Tiles.apart_mem (tiles : Tiles bs O) (first : b ∈ bs) (second : c ∈ bs) (other : b ≠ c) : b.Apart c :=
  tiles.apart.forall first second other

/-- **Cut** a span in two. -/
theorem Tiles.cut (tiles : Tiles (⟨a, m + n⟩ :: bs) O) (left : 0 < m) (right : 0 < n) :
    Tiles (⟨a, m⟩ :: ⟨a + m, n⟩ :: bs) O where
  cover := fun x => by
    rw [tiles.cover]
    simp only [exists_mem_cons_iff, ← or_assoc]
    refine or_congr_left ?_
    simp only [Span.Has, Span.stop]
    omega
  apart := by
    obtain ⟨first, rest⟩ := pairwise_cons.1 tiles.apart
    refine .cons (fun c inside => ?_) (.cons (fun c inside => ?_) rest)
    · rcases mem_cons.1 inside with rfl | inside
      · exact .inl (Nat.le_refl _)
      · have apart := first c inside
        simp only [Span.Apart, Span.stop] at apart ⊢
        omega
    · have apart := first c inside
      simp only [Span.Apart, Span.stop] at apart ⊢
      omega
  pos := by
    intro c inside
    rcases mem_cons.1 inside with rfl | inside
    · exact left
    · rcases mem_cons.1 inside with rfl | inside
      · exact right
      · exact tiles.pos c (mem_cons_of_mem _ inside)

/-- **Join** two spans that touch. -/
theorem Tiles.join (tiles : Tiles (⟨a, m⟩ :: ⟨a + m, n⟩ :: bs) O) : Tiles (⟨a, m + n⟩ :: bs) O where
  cover := fun x => by
    rw [tiles.cover]
    simp only [exists_mem_cons_iff, ← or_assoc]
    refine or_congr_left ?_
    simp only [Span.Has, Span.stop]
    omega
  apart := by
    obtain ⟨first, rest⟩ := pairwise_cons.1 tiles.apart
    obtain ⟨second, rest⟩ := pairwise_cons.1 rest
    refine .cons (fun c inside => ?_) rest
    have low := first c (mem_cons_of_mem _ inside)
    have high := second c inside
    have pos := tiles.pos c (mem_cons_of_mem _ (mem_cons_of_mem _ inside))
    simp only [Span.Apart, Span.stop] at low high ⊢
    omega
  pos := by
    intro c inside
    rcases mem_cons.1 inside with rfl | inside
    · have left := tiles.pos ⟨a, m⟩ (mem_cons_self ..)
      exact Nat.lt_of_lt_of_le left (Nat.le_add_right _ _)
    · exact tiles.pos c (mem_cons_of_mem _ (mem_cons_of_mem _ inside))

/-- **Add** a span of new addresses. -/
theorem Tiles.add (tiles : Tiles bs O) (some : 0 < b.len) (fresh : ∀ x, O x → ¬ b.Has x) :
    Tiles (b :: bs) fun x => O x ∨ b.Has x where
  cover := fun x => by
    rw [exists_mem_cons_iff, tiles.cover, or_comm]
  apart := by
    refine .cons (fun c inside => ?_) tiles.apart
    have pos := tiles.pos c inside
    have no : ∀ x, c.Has x → ¬ b.Has x := fun x has => fresh x ((tiles.cover x).2 ⟨c, inside, has⟩)
    have start := no c.start ⟨Nat.le_refl _, by simp only [Span.stop]; omega⟩
    have other : ¬ c.Has b.start := fun has => no _ has ⟨Nat.le_refl _, by simp only [Span.stop]; omega⟩
    simp only [Span.Apart, Span.Has, Span.stop] at start other ⊢
    omega
  pos := fun c inside => (mem_cons.1 inside).elim (fun same => same ▸ some) (tiles.pos c)

end Spans
