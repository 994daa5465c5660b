import Xv6.Mem.Kalloc
import Xv6.Lib.Runs
import Mathlib.Data.List.Sublists
import Mathlib.Data.List.Range

/-!
# The frame allocator's invariant

The free list, the counter `fpgn` and the share counts describe one set of free pages.
`Kmem.Inv D` says so for the pages `D` that initialisation freed. It is established by
`kinit1`/`kinit2` (`kinitMain_inv`) and kept by every allocator call that respects the
counts (`AllocStep`). The history of a page since its last allocation gives its count.
-/

namespace Xv6
open Fallible Runs Function List

/-- Free list, counter and share counts agree on the pages `D`. -/
structure Kmem.Inv (D : Nat → Prop) (km : Kmem) : Prop where
  nodup : km.freelist.Nodup
  exact : ∀ f, f ∈ km.freelist ↔ D f ∧ km.pcSh f = 0
  count : km.fpgn = km.freelist.length
  outside : ∀ f, ¬ D f → km.pcSh f = 0
  ushort : ∀ f, km.pcSh f < 65536
  range : ∀ f, D f → km.kend ≤ f * PGSIZE ∧ f * PGSIZE < PHYSTOP

/-- Pages `main` frees: from the first page boundary at or above `end` to `PHYSTOP`. -/
def InitPage (kend f : Nat) : Prop :=
  PGROUNDUP kend ≤ f * PGSIZE ∧ f * PGSIZE < PHYSTOP

/-- Distinct pages below `PHYSTOP` are at most `PHYSTOP >> PGSHIFT` many. -/
theorem length_le_phystop {fs : List Nat} (distinct : fs.Nodup) (below : ∀ f ∈ fs, f * PGSIZE < PHYSTOP) :
    fs.length ≤ 57344 := by
  have sub : fs ⊆ List.range 57344 := by
    intro f mem
    have := below f mem
    simp only [PGSIZE, PHYSTOP] at this
    exact mem_range.2 (by omega)
  simpa using (distinct.subperm sub).length_le

namespace Kmem.Inv

variable {D : Nat → Prop} {km : Kmem}

/-- The free list fits the physical memory, so the counter never wraps. -/
theorem length_le (inv : km.Inv D) : km.freelist.length ≤ 57344 :=
  length_le_phystop inv.nodup fun f mem => (inv.range f ((inv.exact f).1 mem).1).2

theorem of_counted (inv : km.Inv D) {f : Nat} (counted : 1 ≤ km.pcSh f) : D f := by
  by_contra outside
  have := inv.outside f outside
  omega

end Kmem.Inv

/-- What `kfree` does to a page whose count is positive. -/
def Kmem.release (km : Kmem) (f : Nat) : Kmem :=
  let km1 := { km with pcSh := Function.update km.pcSh f (km.pcSh f - 1) }
  if km.pcSh f = 1 then km1.push f else km1

section Release

variable (km : Kmem) (f : Nat)

@[simp] theorem Kmem.release_pcSh :
    (km.release f).pcSh = update km.pcSh f (km.pcSh f - 1) := by
  unfold Kmem.release
  split <;> rfl

@[simp] theorem Kmem.release_freelist :
    (km.release f).freelist = if km.pcSh f = 1 then f :: km.freelist else km.freelist := by
  unfold Kmem.release
  split <;> rfl

@[simp] theorem Kmem.release_kend : (km.release f).kend = km.kend := by
  unfold Kmem.release
  split <;> rfl

@[simp] theorem Kmem.release_kdata : (km.release f).kdata = km.kdata := by
  unfold Kmem.release
  split <;> rfl

/-- Only a page whose last reference goes is overwritten. -/
theorem Kmem.release_mem {g : Nat} (h : g ≠ f ∨ km.pcSh f ≠ 1) :
    (km.release f).mem g = km.mem g := by
  unfold Kmem.release
  split
  · rename_i last
    rcases h with ne | more
    · simp [Kmem.push, update_of_ne ne]
    · exact absurd last more
  · rfl

end Release

variable {D : Nat → Prop} {km km' : Kmem} {f : Nat} {mem : Nat → Nat → UInt8} {kend kdata p : Nat}

/-- `kfree` of a counted page in the range it accepts. -/
theorem kfree_release (range : km.kend ≤ f * PGSIZE ∧ f * PGSIZE < PHYSTOP) (counted : 0 < km.pcSh f) :
    kfree (P2V (f * PGSIZE)) km = .ok (km.release f) := by
  have page : V2P (P2V (f * PGSIZE)) / PGSIZE = f := by rw [V2P_P2V_page range.2, page_div]
  have guard : ¬ (P2V (f * PGSIZE) % PGSIZE ≠ 0 ∨ P2V (f * PGSIZE) < km.kend + KERNBASE ∨ PHYSTOP ≤ V2P (P2V (f * PGSIZE))) := by
    rw [V2P_P2V_page range.2, P2V_page range.2]
    simp only [PGSIZE, KERNBASE, PHYSTOP] at *
    omega
  unfold kfree Kmem.release Kmem.uncount
  rw [if_neg guard, page]
  simp only [counted, ↓reduceIte, update_self]
  by_cases last : km.pcSh f = 1
  · simp [last]
  · have : km.pcSh f - 1 ≠ 0 := by omega
    simp [last, this]

theorem kfree_counted (inv : km.Inv D) (counted : 1 ≤ km.pcSh f) :
    kfree (P2V (f * PGSIZE)) km = .ok (km.release f) :=
  kfree_release (inv.range f (inv.of_counted counted)) counted

theorem addPageShare_counted (inv : km.Inv D) (counted : 1 ≤ km.pcSh f) :
    addPageShare (f * PGSIZE) km =
      .ok { km with pcSh := update km.pcSh f ((km.pcSh f + 1) % 65536) } := by
  obtain ⟨low, high⟩ := inv.range f (inv.of_counted counted)
  have inRange : ¬ shareOutOfRange km (f * PGSIZE) := by
    simp only [shareOutOfRange, PGSIZE, PHYSTOP] at *
    omega
  unfold addPageShare
  rw [if_neg inRange, page_div]

theorem redPageShare_counted (inv : km.Inv D) (counted : 1 ≤ km.pcSh f) :
    redPageShare (f * PGSIZE) km =
      .ok { km with pcSh := update km.pcSh f ((km.pcSh f + 65535) % 65536) } := by
  obtain ⟨low, high⟩ := inv.range f (inv.of_counted counted)
  have inRange : ¬ shareOutOfRange km (f * PGSIZE) := by
    simp only [shareOutOfRange, PGSIZE, PHYSTOP] at *
    omega
  unfold redPageShare
  rw [if_neg inRange, page_div]

/-- What a successful `kalloc` does: it takes the head of the free list. -/
theorem kalloc_some (h : kalloc km = (some f, km')) :
    km.freelist = f :: km'.freelist ∧ km'.pcSh = update km.pcSh f 1 ∧
      km'.fpgn = sub32 km.fpgn 1 ∧ km'.mem = km.mem ∧ km'.kend = km.kend ∧ km'.kdata = km.kdata := by
  unfold kalloc at h
  split at h
  · cases h
  · rename_i g rest list
    cases h
    exact ⟨list, rfl, rfl, rfl, rfl, rfl⟩

theorem kalloc_none (h : kalloc km = (none, km')) : km' = km ∧ km.freelist = [] := by
  unfold kalloc at h
  split at h
  · rename_i list
    cases h
    exact ⟨rfl, list⟩
  · cases h

namespace Kmem.Inv

/-- The page `kalloc` returns was free. -/
theorem kalloc_free (inv : km.Inv D) (h : kalloc km = (some f, km')) : D f ∧ km.pcSh f = 0 := by
  have list := (kalloc_some h).1
  exact (inv.exact f).1 (by rw [list]; exact mem_cons_self)

theorem kalloc (inv : km.Inv D) (h : kalloc km = (some f, km')) : km'.Inv D := by
  obtain ⟨list, counts, fpgn, _, kend, _⟩ := kalloc_some h
  obtain ⟨d, zero⟩ := inv.kalloc_free h
  have fresh := nodup_cons.1 (list ▸ inv.nodup)
  have long := inv.length_le
  refine ⟨fresh.2, fun g => ?_, ?_, fun g out => ?_, fun g => ?_, fun g dg => kend ▸ inv.range g dg⟩
  · rw [counts]
    by_cases same : g = f
    · subst same
      simpa using fresh.1
    · rw [update_of_ne same, ← inv.exact g, list]
      simp [same]
  · rw [fpgn, inv.count, list, length_cons]
    rw [list, length_cons] at long
    simp only [sub32]
    omega
  · have same : g ≠ f := by
      rintro rfl
      exact out d
    rw [counts, update_of_ne same]
    exact inv.outside g out
  · rw [counts]
    by_cases same : g = f
    · subst same
      simp
    · rw [update_of_ne same]
      exact inv.ushort g

/-- The counter of the list that `kfree` pushes on. -/
theorem push_count (inv : km.Inv D) : add32 km.fpgn 1 = km.freelist.length + 1 := by
  have long := inv.length_le
  rw [inv.count]
  simp only [add32]
  omega

theorem release (inv : km.Inv D) (counted : 1 ≤ km.pcSh f) : (km.release f).Inv D := by
  have d := inv.of_counted counted
  have small := inv.ushort f
  have absent : f ∉ km.freelist := fun mem => by
    have := ((inv.exact f).1 mem).2
    omega
  refine ⟨?_, fun g => ?_, ?_, fun g out => ?_, fun g => ?_, fun g dg => by simpa using inv.range g dg⟩
  · rw [Kmem.release_freelist]
    split
    · exact nodup_cons.2 ⟨absent, inv.nodup⟩
    · exact inv.nodup
  · rw [Kmem.release_freelist, Kmem.release_pcSh]
    by_cases same : g = f
    · subst same
      by_cases last : km.pcSh g = 1
      · simp [last, d]
      · simp only [last, ↓reduceIte, update_self]
        exact ⟨fun mem => absurd mem absent, fun h => by omega⟩
    · rw [update_of_ne same, ← inv.exact g]
      split <;> simp [same]
  · rw [Kmem.release_freelist]
    unfold Kmem.release
    split
    · simpa [Kmem.push] using inv.push_count
    · exact inv.count
  · have same : g ≠ f := by
      rintro rfl
      exact out d
    rw [Kmem.release_pcSh, update_of_ne same]
    exact inv.outside g out
  · rw [Kmem.release_pcSh]
    by_cases same : g = f
    · subst same
      rw [update_self]
      omega
    · rw [update_of_ne same]
      exact inv.ushort g

/-- Moving a positive count to another positive count frees nothing. -/
theorem recount (inv : km.Inv D) {n : Nat} (counted : 1 ≤ km.pcSh f) (pos : 1 ≤ n) (small : n < 65536) :
    Kmem.Inv D { km with pcSh := update km.pcSh f n } := by
  have d := inv.of_counted counted
  refine ⟨inv.nodup, fun g => ?_, inv.count, fun g out => ?_, fun g => ?_, inv.range⟩
  · by_cases same : g = f
    · subst same
      rw [inv.exact g]
      simp only [update_self]
      omega
    · rw [inv.exact g]
      simp [update_of_ne same]
  · have same : g ≠ f := by
      rintro rfl
      exact out d
    simpa [update_of_ne same] using inv.outside g out
  · by_cases same : g = f
    · subst same
      simpa using small
    · simpa [update_of_ne same] using inv.ushort g

end Kmem.Inv

/-! ## Initialisation -/

/-- `kfree` accepts the address `p`. -/
def Freeable (kend p : Nat) : Prop :=
  p % PGSIZE = 0 ∧ kend + KERNBASE ≤ p ∧ V2P p < PHYSTOP

theorem kfree_zero (ok : Freeable km.kend p) (zero : km.pcSh (V2P p / PGSIZE) = 0) :
    kfree p km = .ok (km.push (V2P p / PGSIZE)) := by
  obtain ⟨aligned, low, high⟩ := ok
  have guard : ¬ (p % PGSIZE ≠ 0 ∨ p < km.kend + KERNBASE ∨ PHYSTOP ≤ V2P p) := by omega
  unfold kfree Kmem.uncount
  rw [if_neg guard]
  simp [zero]

theorem kfree_linker (h : kfree p km = .ok km') : km'.kend = km.kend ∧ km'.kdata = km.kdata := by
  unfold kfree at h
  split at h
  · cases h
  · have kept : (km.uncount (V2P p / PGSIZE)).kend = km.kend ∧ (km.uncount (V2P p / PGSIZE)).kdata = km.kdata := by
      unfold Kmem.uncount
      split <;> exact ⟨rfl, rfl⟩
    simp only at h
    split at h <;> cases h <;> exact kept

theorem kfree_freeable (h : kfree p km = .ok km') : Freeable km.kend p := by
  unfold kfree at h
  split at h
  · cases h
  · simp only [Freeable]
    omega

/-- What the loop of `freerange` does to pages that are not counted. -/
theorem freerangeLoop_ok (ps : List Nat) (km : Kmem)
    (ok : ∀ p ∈ ps, Freeable km.kend p) (zero : ∀ p ∈ ps, km.pcSh (V2P p / PGSIZE) = 0) :
    ∃ km', freerangeLoop ps km = .ok km' ∧ km'.pcSh = km.pcSh ∧ km'.kend = km.kend ∧
      km'.freelist = (ps.map (V2P · / PGSIZE)).reverse ++ km.freelist ∧
      km'.fpgn % 2 ^ 32 = (km.fpgn + ps.length) % 2 ^ 32 ∧ (km.fpgn < 2 ^ 32 → km'.fpgn < 2 ^ 32) := by
  induction ps generalizing km with
  | nil => exact ⟨km, rfl, rfl, rfl, by simp, by simp, id⟩
  | cons p ps ih =>
    have same : update km.pcSh (V2P p / PGSIZE) 0 = km.pcSh := by
      rw [← zero p (by simp), update_eq_self]
    have pushed := kfree_zero (ok p (by simp)) (zero p (by simp))
    obtain ⟨km', run, counts, kend, list, fpgn, small⟩ :=
      ih { km.push (V2P p / PGSIZE) with pcSh := update km.pcSh (V2P p / PGSIZE) 0 }
        (fun q mem => ok q (by simp [mem])) (fun q mem => by simpa [same] using zero q (by simp [mem]))
    refine ⟨km', ?_, by rw [counts, same], kend, ?_, ?_, fun _ => small ?_⟩
    · unfold freerangeLoop
      rw [pushed]
      exact run
    · simp [list, Kmem.push]
    · rw [fpgn, length_cons]
      simp only [Kmem.push, add32]
      omega
    · simp only [Kmem.push, add32]
      omega

theorem freerangeLoop_freeable {ps : List Nat} (h : freerangeLoop ps km = .ok km') :
    ∀ p ∈ ps, Freeable km.kend p := by
  induction ps generalizing km with
  | nil => simp
  | cons p ps ih =>
    unfold freerangeLoop at h
    obtain ⟨km1, freed, rest⟩ := bind_ok.1 h
    have here := kfree_freeable freed
    have kend := (kfree_linker freed).1
    intro q mem
    rcases mem_cons.1 mem with rfl | mem
    · exact here
    · have := ih rest q mem
      simpa [kend] using this

/-- Numbers of the pages that `freerange` visits. -/
def rangePages (vstart vend : Nat) : List Nat :=
  (pageRange (PGROUNDUP vstart) (vend + 1 - PGSIZE)).map (V2P · / PGSIZE)

theorem mem_rangePages {vstart vend g : Nat} (low : KERNBASE ≤ PGROUNDUP vstart)
    (high : vend ≤ PHYSTOP + KERNBASE) :
    g ∈ rangePages vstart vend ↔
      PGROUNDUP vstart ≤ g * PGSIZE + KERNBASE ∧ (g + 1) * PGSIZE + KERNBASE ≤ vend := by
  have aligned := PGROUNDUP_mod vstart
  simp only [rangePages, mem_map, mem_pageRange, V2P, sub32, PGSIZE, KERNBASE, PHYSTOP] at *
  constructor
  · rintro ⟨p, ⟨k, rfl, below⟩, rfl⟩
    omega
  · rintro ⟨from_, upto⟩
    exact ⟨g * 4096 + 2147483648, ⟨g + 524288 - PGROUNDUP vstart / 4096, by omega, by omega⟩, by omega⟩

theorem rangePages_nodup {vstart vend : Nat} (low : KERNBASE ≤ PGROUNDUP vstart)
    (high : vend ≤ PHYSTOP + KERNBASE) : (rangePages vstart vend).Nodup := by
  refine Nodup.map_on ?_ (pageRange_nodup _ _)
  have aligned := PGROUNDUP_mod vstart
  intro p hp q hq same
  obtain ⟨j, rfl, below⟩ := mem_pageRange.1 hp
  obtain ⟨k, rfl, below'⟩ := mem_pageRange.1 hq
  simp only [V2P, sub32, PGSIZE, KERNBASE, PHYSTOP] at *
  omega

/-- `freerange` puts exactly the pages of its range on the list, each once. -/
theorem freerange_ok (km : Kmem) (vstart vend : Nat)
    (ok : ∀ p ∈ pageRange (PGROUNDUP vstart) (vend + 1 - PGSIZE), Freeable km.kend p)
    (zero : ∀ g, km.pcSh g = 0) :
    ∃ km', freerange vstart vend km = .ok km' ∧ km'.pcSh = km.pcSh ∧ km'.kend = km.kend ∧
      km'.freelist = (rangePages vstart vend).reverse ++ km.freelist ∧
      km'.fpgn % 2 ^ 32 = (km.fpgn + (rangePages vstart vend).length) % 2 ^ 32 ∧
      (km.fpgn < 2 ^ 32 → km'.fpgn < 2 ^ 32) := by
  obtain ⟨km', run, counts, kend, list, fpgn, small⟩ := freerangeLoop_ok _ km ok (fun _ _ => zero _)
  exact ⟨km', run, counts, kend, list, by simpa [rangePages] using fpgn, small⟩

theorem kinitMain_freeable (boot : kinitMain kend kdata mem = .ok km) : kend ≤ 0x400000 := by
  obtain ⟨km1, first, second⟩ := bind_ok.1 boot
  have kend1 : km1.kend = kend := by
    obtain ⟨km1', run, _, kept, _⟩ := freerange_ok _ _ _
      (freerangeLoop_freeable first) (fun g => rfl)
    cases run.symm.trans first
    exact kept
  have start := freerangeLoop_freeable second (P2V 0x400000) (mem_pageRange.2 ⟨0, by decide, by decide⟩)
  have := start.2.1
  rw [kend1, show P2V 0x400000 = 0x80400000 by decide] at this
  simp only [KERNBASE] at this
  omega

/-- After the calls of `main` the list holds the pages between `end` and `PHYSTOP`,
each once, and no page is counted. -/
theorem kinitMain_list (kdata : Nat) (mem : Nat → Nat → UInt8) (low : kend ≤ 0x400000) :
    ∃ km, kinitMain kend kdata mem = .ok km ∧ km.pcSh = (fun _ => 0) ∧ km.kend = kend ∧
      km.freelist = (rangePages (P2V 0x400000) (P2V PHYSTOP)).reverse ++
        (rangePages (kend + KERNBASE) (P2V 0x400000)).reverse ∧
      km.fpgn % 2 ^ 32 = km.freelist.length % 2 ^ 32 ∧ km.fpgn < 2 ^ 32 := by
  have freeable : ∀ vstart vend, kend + KERNBASE ≤ PGROUNDUP vstart → vend ≤ PHYSTOP + KERNBASE →
      ∀ p ∈ pageRange (PGROUNDUP vstart) (vend + 1 - PGSIZE), Freeable kend p := by
    intro vstart vend from_ upto p mem
    obtain ⟨k, rfl, below⟩ := mem_pageRange.1 mem
    have aligned := PGROUNDUP_mod vstart
    simp only [Freeable, V2P, sub32, PGSIZE, KERNBASE, PHYSTOP] at *
    omega
  have top : P2V PHYSTOP = PHYSTOP + KERNBASE := by decide
  have mid : P2V 0x400000 = 0x80400000 := by decide
  have midUp : PGROUNDUP 0x80400000 = 0x80400000 := by decide
  obtain ⟨km1, run1, counts1, kend1, list1, fpgn1, small1⟩ :=
    freerange_ok { Kmem.bss kend kdata mem with fpgn := 0 } (kend + KERNBASE) (P2V 0x400000)
      (freeable _ _ (le_PGROUNDUP _) (by rw [mid]; decide)) (fun g => rfl)
  obtain ⟨km2, run2, counts2, kend2, list2, fpgn2, small2⟩ :=
    freerange_ok km1 (P2V 0x400000) (P2V PHYSTOP)
      (by
        rw [kend1]
        exact freeable _ _ (by rw [mid, midUp]; simp only [KERNBASE]; omega) (by rw [top]))
      (fun g => by rw [counts1]; rfl)
  refine ⟨km2, ?_, by rw [counts2, counts1]; rfl, by rw [kend2, kend1]; rfl, ?_, ?_, small2 (small1 (by simp))⟩
  · unfold kinitMain kinit1 kinit2
    rw [run1, ok_bind, run2]
  · rw [list2, list1]
    simp [Kmem.bss]
  · rw [fpgn2, list2, list1]
    simp only [Kmem.bss, length_append, length_reverse, length_nil] at *
    omega

/-- **Initialisation.** The invariant holds when `main` has called `kinit1` and `kinit2`. -/
theorem kinitMain_inv (boot : kinitMain kend kdata mem = .ok km) : km.Inv (InitPage kend) := by
  have low := kinitMain_freeable boot
  obtain ⟨km', run, counts, kend', list, fpgn, small⟩ := kinitMain_list kdata mem low
  cases run.symm.trans boot
  have mid : P2V 0x400000 = 0x80400000 := by decide
  have top : P2V PHYSTOP = PHYSTOP + KERNBASE := by decide
  have midUp : PGROUNDUP 0x80400000 = 0x80400000 := by decide
  have up : PGROUNDUP (kend + KERNBASE) = PGROUNDUP kend + KERNBASE := by
    simp only [PGROUNDUP, PGSIZE, KERNBASE]
    omega
  have members : ∀ g, g ∈ km.freelist ↔ InitPage kend g := by
    intro g
    rw [list, mem_append, mem_reverse, mem_reverse,
      mem_rangePages (by rw [mid, midUp]; decide) (by rw [top]),
      mem_rangePages (by rw [up]; omega) (by rw [mid]; decide), mid, midUp, top, up]
    simp only [InitPage, PGROUNDUP, PGSIZE, KERNBASE, PHYSTOP]
    omega
  have distinct : km.freelist.Nodup := by
    rw [list]
    refine Nodup.append (nodup_reverse.2 (rangePages_nodup (by rw [mid, midUp]; decide) (by rw [top])))
      (nodup_reverse.2 (rangePages_nodup (by rw [up]; omega) (by rw [mid]; decide))) ?_
    intro g hg hg'
    rw [mem_reverse, mem_rangePages (by rw [mid, midUp]; decide) (by rw [top]), mid, midUp] at hg
    rw [mem_reverse, mem_rangePages (by rw [up]; omega) (by rw [mid]; decide), mid] at hg'
    simp only [PGSIZE, KERNBASE] at hg hg'
    omega
  have range : ∀ g, InitPage kend g → km.kend ≤ g * PGSIZE ∧ g * PGSIZE < PHYSTOP := fun g d =>
    ⟨kend' ▸ (le_PGROUNDUP kend).trans d.1, d.2⟩
  have long := length_le_phystop distinct fun g mem => (range g ((members g).1 mem)).2
  exact ⟨distinct, fun g => by rw [members, counts]; simp, by omega, fun g _ => by rw [counts],
    fun g => by rw [counts]; simp, range⟩

/-! ## The linker's symbols -/

theorem freerangeLoop_linker (ps : List Nat) :
    ∀ km : Kmem, freerangeLoop ps km = .ok km' → km'.kend = km.kend ∧ km'.kdata = km.kdata := by
  induction ps with
  | nil =>
    intro km call
    cases call
    exact ⟨rfl, rfl⟩
  | cons p ps ih =>
    intro km call
    obtain ⟨km1, free, rest⟩ := bind_ok.1 call
    obtain ⟨kend, kdata⟩ := kfree_linker free
    obtain ⟨kend', kdata'⟩ := ih _ rest
    exact ⟨kend'.trans kend, kdata'.trans kdata⟩

theorem kinitMain_linker (boot : kinitMain kend kdata mem = .ok km) : km.kend = kend ∧ km.kdata = kdata := by
  obtain ⟨km1, first, second⟩ := bind_ok.1 boot
  obtain ⟨kend1, kdata1⟩ := freerangeLoop_linker _ _ first
  obtain ⟨kend2, kdata2⟩ := freerangeLoop_linker _ _ second
  exact ⟨kend2.trans kend1, kdata2.trans kdata1⟩

end Xv6
