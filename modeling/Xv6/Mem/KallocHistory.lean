import Xv6.Mem.KallocInv

/-!
# Histories of the frame allocator

A run of `kalloc`, `kfree`, `add_page_share` and `red_page_share` calls after
initialisation. `history f` counts the shares and the releases of page `f` since its
last allocation; the share count is one more than the shares less the releases, as
long as it stays within its `ushort`.
-/

namespace Xv6
open Fallible Runs Function List

variable {ls : List AllocEvent} {h : Option (Nat × Nat)} {D : Nat → Prop} {km : Kmem} {n : Nat}

/-- One allocator call: `kalloc` with its result, or a call on page `f`. -/
inductive AllocEvent where
  | alloc (r : Option Nat)
  | free (f : Nat)
  | add (f : Nat)
  | red (f : Nat)

/-- Calls made only on pages that are in use; `red_page_share` only on shared ones,
which is what `cast_page_fault` checks first. -/
inductive AllocStep : AllocEvent → Kmem → Kmem → Prop where
  | alloc {km km' : Kmem} {r : Option Nat} : kalloc km = (r, km') → AllocStep (.alloc r) km km'
  | free {km km' : Kmem} {f : Nat} : 1 ≤ km.pcSh f → kfree (P2V (f * PGSIZE)) km = .ok km' →
      AllocStep (.free f) km km'
  | add {km km' : Kmem} {f : Nat} : 1 ≤ km.pcSh f → addPageShare (f * PGSIZE) km = .ok km' →
      AllocStep (.add f) km km'
  | red {km km' : Kmem} {f : Nat} : 2 ≤ km.pcSh f → redPageShare (f * PGSIZE) km = .ok km' →
      AllocStep (.red f) km km'

/-- A call that does not take a share count past 65535. -/
def CountedStep (e : AllocEvent) (km km' : Kmem) : Prop :=
  AllocStep e km km' ∧ ∀ f, e = .add f → km.pcSh f < 65535

/-- Shares and releases of page `f` since its last allocation, if it had one. -/
def historyStep (f : Nat) (h : Option (Nat × Nat)) : AllocEvent → Option (Nat × Nat)
  | .alloc r => if r = some f then some (0, 0) else h
  | .add g => if g = f then h.map fun h => (h.1 + 1, h.2) else h
  | .free g => if g = f then h.map fun h => (h.1, h.2 + 1) else h
  | .red g => if g = f then h.map fun h => (h.1, h.2 + 1) else h

def history (f : Nat) (ls : List AllocEvent) : Option (Nat × Nat) :=
  ls.foldl (historyStep f) none

theorem history_snoc (f : Nat) (ls : List AllocEvent) (e : AllocEvent) :
    history f (ls ++ [e]) = historyStep f (history f ls) e := by
  simp [history]

/-- The count `n` of a page as its history tells it; `d` says that the page is in the
initialised range. -/
def CountOf (d : Prop) (n : Nat) : Option (Nat × Nat) → Prop
  | none => n = 0
  | some (shares, releases) => d ∧ releases ≤ shares + 1 ∧ n = shares + 1 - releases

/-- The allocator's invariant together with the history of every page. -/
structure Accounted (D : Nat → Prop) (ls : List AllocEvent) (km : Kmem) : Prop where
  inv : km.Inv D
  counts : ∀ f, CountOf (D f) (km.pcSh f) (history f ls)

theorem CountOf.add {d : Prop} (c : CountOf d n h) (pos : 1 ≤ n) : CountOf d (n + 1) (h.map fun h => (h.1 + 1, h.2)) := by
  cases h with
  | none => simp only [CountOf] at c; omega
  | some h =>
    obtain ⟨k, m⟩ := h
    simp only [CountOf, Option.map_some] at *
    exact ⟨c.1, by omega⟩

theorem CountOf.drop {d : Prop} (c : CountOf d n h) (pos : 1 ≤ n) : CountOf d (n - 1) (h.map fun h => (h.1, h.2 + 1)) := by
  cases h with
  | none => simp only [CountOf] at c; omega
  | some h =>
    obtain ⟨k, m⟩ := h
    simp only [CountOf, Option.map_some] at *
    exact ⟨c.1, by omega⟩

/-- Only page `f` changes its count and its history. -/
theorem counts_update {e : AllocEvent} {f : Nat} {pcSh : Nat → Nat} (counts : ∀ g, CountOf (D g) (km.pcSh g) (history g ls))
    (update : pcSh = update km.pcSh f n) (here : CountOf (D f) n (historyStep f (history f ls) e))
    (others : ∀ g, g ≠ f → historyStep g (history g ls) e = history g ls) :
    ∀ g, CountOf (D g) (pcSh g) (history g (ls ++ [e])) := by
  intro g
  rw [history_snoc, update]
  by_cases same : g = f
  · subst same
    rw [update_self]
    exact here
  · rw [update_of_ne same, others g same]
    exact counts g

/-- Each call keeps the accounting. -/
theorem Accounted.step {e : AllocEvent} {km' : Kmem} (acc : Accounted D ls km) (step : CountedStep e km km') :
    Accounted D (ls ++ [e]) km' := by
  obtain ⟨step, nowrap⟩ := step
  obtain ⟨inv, counts⟩ := acc
  cases step with
  | @alloc _ _ r call =>
    cases r with
    | none =>
      obtain ⟨rfl, -⟩ := kalloc_none call
      exact ⟨inv, fun g => by simpa [history_snoc, historyStep] using counts g⟩
    | some f =>
      refine ⟨inv.kalloc call, counts_update counts (kalloc_some call).2.1 ?_ ?_⟩
      · simpa [historyStep, CountOf] using (inv.kalloc_free call).1
      · intro g ne
        simp [historyStep, Ne.symm ne]
  | @free _ _ f counted call =>
    rw [kfree_counted inv counted] at call
    cases call
    refine ⟨inv.release counted, counts_update counts (Kmem.release_pcSh km f) ?_ ?_⟩
    · simpa [historyStep] using (counts f).drop counted
    · intro g ne
      simp [historyStep, Ne.symm ne]
  | @add _ _ f counted call =>
    rw [addPageShare_counted inv counted] at call
    cases call
    have small := nowrap f rfl
    rw [Nat.mod_eq_of_lt (by omega)]
    refine ⟨inv.recount counted (by omega) (by omega), counts_update counts rfl ?_ ?_⟩
    · simpa [historyStep] using (counts f).add counted
    · intro g ne
      simp [historyStep, Ne.symm ne]
  | @red _ _ f shared call =>
    rw [redPageShare_counted inv (by omega)] at call
    cases call
    have small := inv.ushort f
    have less : (km.pcSh f + 65535) % 65536 = km.pcSh f - 1 := by omega
    rw [less]
    refine ⟨inv.recount (by omega) (by omega) (by omega), counts_update counts rfl ?_ ?_⟩
    · simpa [historyStep] using (counts f).drop (by omega)
    · intro g ne
      simp [historyStep, Ne.symm ne]

/-- Every run of counted calls after initialisation is accounted for. -/
theorem Accounted.run {kend kdata : Nat} {mem : Nat → Nat → UInt8} {km0 : Kmem} (boot : kinitMain kend kdata mem = .ok km0)
    (run : Trace CountedStep km0 ls km) : Accounted (InitPage kend) ls km := by
  refine run.history (I := fun ls km => Accounted (InitPage kend) ls km)
    (fun _ _ _ _ acc step => acc.step step) ⟨kinitMain_inv boot, fun f => ?_⟩
  have zero : km0.pcSh = fun _ => 0 := by
    obtain ⟨km', run', counts, _⟩ := kinitMain_list kdata mem (kinitMain_freeable boot)
    cases run'.symm.trans boot
    exact counts
  simp [history, CountOf, zero]

/-- **The frame allocator.** After any run of counted calls the free list has no
duplicates and holds exactly the uncounted pages of the initialised range, `fpgn` is
its length, `kalloc` returns a page that is free and whose earlier allocations have
all been released, and a page allocated and shared `k` times is free exactly when it
has been released `k + 1` times. -/
theorem frame_allocator_accounts {kend kdata : Nat} {mem : Nat → Nat → UInt8} {km0 km : Kmem}
    {ls : List AllocEvent} (boot : kinitMain kend kdata mem = .ok km0)
    (run : Trace CountedStep km0 ls km) :
    km.freelist.Nodup ∧
    (∀ f, f ∈ km.freelist ↔ InitPage kend f ∧ km.pcSh f = 0) ∧
    km.fpgn = km.freelist.length ∧
    (∀ f km', kalloc km = (some f, km') → f ∈ km.freelist ∧
      (history f ls = none ∨ ∃ k, history f ls = some (k, k + 1))) ∧
    (∀ f k m, history f ls = some (k, m) → m ≤ k + 1 ∧ (f ∈ km.freelist ↔ m = k + 1)) := by
  obtain ⟨inv, counts⟩ := Accounted.run boot run
  refine ⟨inv.nodup, inv.exact, inv.count, fun f km' call => ?_, fun f k m hist => ?_⟩
  · have free := inv.kalloc_free call
    refine ⟨(inv.exact f).2 free, ?_⟩
    have here := counts f
    cases hist : history f ls with
    | none => exact .inl rfl
    | some h =>
      obtain ⟨k, m⟩ := h
      rw [hist] at here
      simp only [CountOf] at here
      exact .inr ⟨k, by simp only [Option.some.injEq, Prod.mk.injEq, true_and]; omega⟩
  · have here := counts f
    rw [hist] at here
    obtain ⟨d, bound, count⟩ := here
    refine ⟨bound, ?_⟩
    constructor
    · intro mem
      have := ((inv.exact f).1 mem).2
      omega
    · intro all
      exact (inv.exact f).2 ⟨d, by omega⟩

/-- The kernel that the examples boot: `end` at 2 MB. -/
def bootKmem : Res Kmem := kinitMain 0x200000 0x180000 fun _ _ => 0

theorem bootKmem_free : ∃ km, bootKmem = .ok km ∧ km.freelist.length = 56832 := by
  obtain ⟨km, run, _, _, list, _⟩ :=
    @kinitMain_list 0x200000 0x180000 (fun _ _ => 0) (by decide)
  refine ⟨km, run, ?_⟩
  rw [list]
  simp only [rangePages, pageRange, length_append, length_reverse, length_map, length_range]
  decide

theorem bootKmem_ok : ∃ km f km', bootKmem = .ok km ∧ kalloc km = (some f, km') := by
  obtain ⟨km, run, count⟩ := bootKmem_free
  cases free : km.freelist with
  | nil => simp [free] at count
  | cons f rest => exact ⟨km, f, _, run, by unfold kalloc; rw [free]⟩

/-- One allocation after `main`'s calls: the page leaves the list. -/
theorem frame_allocator_accounts_alloc :
    ∃ km0 f km, bootKmem = .ok km0 ∧ kalloc km0 = (some f, km) ∧ km.freelist.Nodup ∧
      km.fpgn = km.freelist.length ∧ f ∉ km.freelist := by
  obtain ⟨km0, f, km, boot, call⟩ := bootKmem_ok
  have run : Trace CountedStep km0 [.alloc (some f)] km :=
    .snoc .nil ⟨.alloc call, fun g h => by cases h⟩
  obtain ⟨nodup, -, count, -, freed⟩ := frame_allocator_accounts boot run
  refine ⟨km0, f, km, boot, call, nodup, count, fun mem => ?_⟩
  have := (freed f 0 0 (by simp [history, historyStep])).2.1 mem
  omega

/-- Repeated sharing of one page, up to the largest count. -/
theorem share_repeatedly {f : Nat} (inv : km.Inv D) (n : Nat) (one : km.pcSh f = 1) (bound : n < 65535) :
    ∃ km', Trace AllocStep km (List.replicate n (.add f)) km' ∧ km'.Inv D ∧
      km'.pcSh f = n + 1 ∧ km'.freelist = km.freelist := by
  induction n with
  | zero => exact ⟨km, .nil, inv, by simpa using one, rfl⟩
  | succ n ih =>
    obtain ⟨km1, run, inv1, count, list⟩ := ih (by omega)
    have call := addPageShare_counted inv1 (f := f) (by omega)
    rw [count, Nat.mod_eq_of_lt (by omega)] at call
    refine ⟨_, ?_, inv1.recount (f := f) (n := n + 1 + 1) (by omega) (by omega) (by omega), ?_, list⟩
    · rw [List.replicate_succ']
      exact run.snoc (.add (by omega) call)
    · simp

/-- A page shared 65535 times has the count of a free page, and is not free. -/
theorem share_count_wraps :
    ∃ km0 km ls f, bootKmem = .ok km0 ∧ Trace AllocStep km0 ls km ∧
      InitPage 0x200000 f ∧ km.pcSh f = 0 ∧ f ∉ km.freelist := by
  obtain ⟨km0, f, km1, boot, call⟩ := bootKmem_ok
  have inv0 := kinitMain_inv boot
  have inv1 := inv0.kalloc call
  obtain ⟨list, counts, _⟩ := kalloc_some call
  obtain ⟨km2, run, inv2, count, list2⟩ :=
    share_repeatedly (f := f) inv1 65534 (by rw [counts, Function.update_self]) (by decide)
  have last := addPageShare_counted inv2 (f := f) (by omega)
  have first : Trace AllocStep km0 [.alloc (some f)] km1 := .snoc .nil (.alloc call)
  refine ⟨km0, _, _, f, boot, (first.append run).snoc (.add (by omega) last), (inv0.kalloc_free call).1, ?_, ?_⟩
  · simp [count]
  · rw [list2]
    exact (List.nodup_cons.1 (list ▸ inv0.nodup)).1

end Xv6
