import Xv6.User.UmallocRun

/-!
# Huge requests to the user heap allocator

Three computations of `malloc` and `morecore` are modulo 2 ^ 32 or turn an unsigned number
into an `int`: the rounding to units, the bytes asked of `sbrk`, and the argument of `sbrk`.
Here `malloc` is followed for every `uint`, also where they wrap.
-/

namespace Xv6
open Chain Spans Runs Function List

variable {sbrk : Nat → Option Nat}

/-- The byte at `x` was obtained: a call of `sbrk` whose argument is not negative as an `int` returned it. -/
def Heap.Granted (h : Heap) (x : Nat) : Prop := ∃ k a, (k, some a) ∈ h.calls ∧ k < 2 ^ 31 ∧ (Span.mk a k).Has x

/-- No call so far wrapped to a negative argument. -/
def Heap.Positive (h : Heap) : Prop := ∀ k a, (k, some a) ∈ h.calls → k < 2 ^ 31

/-- What `sbrk` may answer: the old break, above everything obtained. Only an argument that is not negative
obtains the bytes from there on; the header `morecore` writes there is within the address space. -/
def Heap.Sbrks (h : Heap) (sbrk : Nat → Option Nat) : Prop :=
  ∀ k a, sbrk k = some a → h.base + HDRSIZE ≤ a ∧ (∀ x, h.Obtained x → x < a) ∧ a + HDRSIZE < 2 ^ 32 ∧
    (k < 2 ^ 31 → a + k < 2 ^ 32)

/-- A block that the links lead to from `freep` has `n` units. -/
def Heap.HasFree (h : Heap) (n : Nat) : Prop := h.freep ≠ 0 ∧ ∃ i, n ≤ h.size (h.ptr^[i] h.freep)

/-- The argument of `sbrk` when `malloc` finds no block. -/
def sbrkBytes (nbytes : Nat) : Nat := Heap.coreUnits (Heap.units nbytes) * HDRSIZE % 2 ^ 32

section Wraps

variable {h : Heap} {fs bs : List Nat} {a n p : Nat}

theorem Heap.carve_calls (n prev p : Nat) : (h.carve n prev p).2.calls = h.calls := by
  unfold carve
  split <;> rfl

/-- The block handed out is the end of `p`. -/
theorem Heap.carve_pointer {prev m : Nat} (size : h.size p = m + n) :
    (h.carve n prev p).1 = if m = 0 then hdrAdd p 1 else hdrAdd (hdrAdd p m) 1 := by
  unfold carve
  rw [size, Nat.add_sub_cancel]
  by_cases exact : m = 0
  · rw [if_pos (by omega), if_pos exact]
  · rw [if_neg (by omega), if_neg exact]

/-- `free` of a block above all others: it goes behind the last one, `p`, or into it. -/
theorem Heap.link_last (other : p ≠ a) (last : h.ptr p = h.base) (zero : h.size h.base = 0) (low : h.base ≠ a)
    (word : h.size a < 2 ^ 32) :
    (h.link a p).freep = p ∧ (h.link a p).calls = h.calls ∧
      (∀ c, c ≠ a → c ≠ p → (h.link a p).ptr c = h.ptr c ∧ (h.link a p).size c = h.size c) ∧
      (hdrAdd p (h.size p) = a → (h.link a p).size p = add32 (h.size p) (h.size a) ∧
        ((h.link a p).ptr p = h.base ∨ (h.link a p).ptr p = h.ptr h.base)) ∧
      (hdrAdd p (h.size p) ≠ a → (h.link a p).ptr p = a ∧ (h.link a p).size a = h.size a) := by
  have same : add32 (h.size a) 0 = h.size a := Nat.mod_eq_of_lt word
  have back := other.symm
  have up := low.symm
  unfold link
  dsimp only
  rw [last, zero, same, update_eq_self]
  split <;> dsimp only <;> split
  all_goals
    rename_i touch
    refine ⟨rfl, rfl, fun c notA notP => ⟨?_, ?_⟩, fun joined => ?_, fun apart => ?_⟩
  all_goals simp_all

/-- The size of a block put behind the last one is believed: the search then takes the block at `a`. -/
theorem Heap.taken (chain : Seg h.ptr h.base (h.base :: fs) h.base) (sorted : (h.base :: fs).Pairwise (· < ·))
    (zero : h.size h.base = 0) (units : ∀ c ∈ fs, 0 < h.size c) {lo : List Nat} (parts : h.base :: fs = lo ++ [p])
    (above : ∀ c ∈ h.base :: fs, c < a) (inside : a + HDRSIZE < 2 ^ 32) (own : h.size a = n) (some : 0 < n)
    (word : n ≤ 2 ^ 29) (small : ∀ c ∈ fs, h.size c < n) :
    ∃ fuel h', Heap.mallocLoop n fuel p ((h.link a p).ptr p) (h.link a p) = Option.some (a + HDRSIZE, h') ∧ h'.calls = h.calls := by
  rw [parts] at chain sorted
  have isLast : p ∈ h.base :: fs := parts ▸ mem_append_right _ (mem_singleton_self _)
  have low : p < a := above p isLast
  have baseLow : h.base < a := above _ (mem_cons_self ..)
  have pointer : hdrAdd a 1 = a + HDRSIZE := by
    rw [hdrAdd_eq (by rwa [Nat.one_mul]), Nat.one_mul]
  obtain ⟨freep, calls, frame, joined, apart⟩ := Heap.link_last (h := h) (a := a) (p := p) (Nat.ne_of_lt low) chain.last_eq
    zero (Nat.ne_of_lt baseLow) (by rw [own]; omega)
  by_cases touch : hdrAdd p (h.size p) = a
  · obtain ⟨size, next⟩ := joined touch
    -- `base` has no units, so the block that was joined is a free one
    have free : p ∈ fs := (mem_cons.1 isLast).resolve_left fun isBase => by
      rw [isBase, zero, hdrAdd_eq (by rw [Nat.zero_mul]; omega), Nat.zero_mul] at touch
      omega
    have positive := units p free
    have less := small p free
    have sum : (h.link a p).size p = h.size p + n := by
      rw [size, own]
      exact Nat.mod_eq_of_lt (by omega)
    have before : ∀ c ∈ lo, c < p := fun c member =>
      (pairwise_append.1 sorted).2.2 c member p (mem_singleton_self _)
    have sameLo : ∀ c ∈ lo, (h.link a p).ptr c = h.ptr c ∧ (h.link a p).size c = h.size c := fun c member => by
      have less := before c member
      exact frame c (by omega) (by omega)
    obtain ⟨y, first, isY, _⟩ := seg_append.1 chain
    subst isY
    obtain ⟨ws, within, seg⟩ : ∃ ws, (∀ c ∈ ws, c ∈ lo) ∧ Seg (h.link a y).ptr ((h.link a y).ptr y) ws y := by
      rcases next with isBase | isFirst
      · exact ⟨lo, fun _ member => member, isBase ▸ first.congr fun c member => (sameLo c member).1⟩
      · cases lo with
        | nil =>
          cases parts
          cases free
        | cons c ws =>
          have isBase : h.base = c := first.1
          refine ⟨ws, fun d member => mem_cons_of_mem _ member, ?_⟩
          rw [isFirst, isBase]
          exact first.2.congr fun d member => (sameLo d (mem_cons_of_mem _ member)).1
    have whole : Seg (h.link a y).ptr ((h.link a y).ptr y) (ws ++ [(h.link a y).freep]) ((h.link a y).ptr y) := by
      rw [freep]
      exact seg_append.2 ⟨y, seg, rfl, rfl⟩
    have notIn : (h.link a y).freep ∉ ws := fun member => by
      rw [freep] at member
      exact Nat.lt_irrefl _ (before y (within y member))
    have tooSmall : ∀ c ∈ ws, (h.link a y).size c < n := fun c member => by
      rw [(sameLo c (within c member)).2]
      have inList : c ∈ h.base :: fs := parts ▸ mem_append_left _ (within c member)
      rcases mem_cons.1 inList with isBase | free
      · rw [isBase, zero]
        exact some
      · exact small c free
    rcases Heap.mallocLoop_search (n := n) 0 whole notIn rfl with ⟨prev, q, _, looked, _, fits, run⟩ | ⟨none, _⟩
    · have isP : q = y := by
        rcases mem_append.1 looked with early | last
        · exact absurd fits (Nat.not_le_of_lt (tooSmall q early))
        · exact (mem_singleton.1 last).trans freep
      subst isP
      refine ⟨_, _, run.trans (congrArg Option.some (Prod.ext ?_ rfl)), (Heap.carve_calls ..).trans calls⟩
      rw [Heap.carve_pointer sum, if_neg (Nat.ne_of_gt positive), touch]
      exact pointer
    · have small := none y (by rw [freep]; exact mem_append_right _ (mem_singleton_self _))
      omega
  · obtain ⟨next, size⟩ := apart touch
    rw [own] at size
    refine ⟨1, _, ?_, (Heap.carve_calls n p a).trans calls⟩
    rw [next, Heap.mallocLoop, if_pos (Nat.le_of_eq size.symm)]
    refine congrArg Option.some (Prod.ext ?_ rfl)
    rw [Heap.carve_pointer (size.trans (Nat.zero_add n).symm), if_pos rfl]
    exact pointer

/-- **A wrapped request is granted**: without a block of `n` units, and with an answer of `sbrk` to the wrapped
number of bytes, `malloc` hands out `n` units at that answer. -/
theorem Heap.Lists.wrapped (lists : h.Lists fs bs []) (entry : h.freep ∈ h.base :: fs) (answers : h.answers = [sbrk])
    (small : ∀ c ∈ fs, h.size c < n) (large : 4096 ≤ n) (word : n ≤ 2 ^ 29) (answer : sbrk (n * HDRSIZE % 2 ^ 32) = some a)
    (sbrks : h.Sbrks sbrk) :
    ∃ fuel h', Heap.mallocLoop n fuel h.freep (h.ptr h.freep) h = some (a + HDRSIZE, h') ∧
      h'.calls = h.calls ++ [(n * HDRSIZE % 2 ^ 32, some a)] := by
  obtain ⟨above, fresh, inside, _⟩ := sbrks _ a answer
  -- one unit at `a` would be a proper block, and `free` looks for its place by the address alone
  obtain ⟨unit, _⟩ := lists.grow [] Nat.one_pos above fresh (by rwa [Nat.one_mul])
  obtain ⟨lo, p, hi, found, parts, _, high⟩ := unit.seek entry (Nat.lt_succ_self _)
  have below : ∀ c ∈ h.base :: fs, c < a := fun c member => by
    rcases mem_cons.1 member with rfl | free
    · simp only [HDRSIZE] at above
      omega
    · obtain ⟨_, _, some⟩ := lists.free_inside free
      refine fresh c ((lists.tiles.cover c).2 ⟨_, mem_map_of_mem (mem_append_left _ free), Nat.le_refl _, ?_⟩)
      simp only [span, Span.stop, HDRSIZE]
      omega
  have none : hi = [] := eq_nil_iff_forall_not_mem.2 fun c member => by
    have whole : c ∈ h.base :: fs := parts ▸ mem_append_right _ (mem_cons_of_mem _ member)
    exact Nat.lt_asymm (high c member) (below c whole)
  subst none
  let h1 : Heap :=
    { h with
      answers := []
      calls := h.calls ++ [(n * HDRSIZE % 2 ^ 32, some a)]
      size := update h.size a n }
  have own : h1.size a = n := update_self ..
  have sizes : ∀ c ∈ h.base :: fs, h1.size c = h.size c := fun c member =>
    update_of_ne (Nat.ne_of_lt (below c member)) ..
  have sizesFs : ∀ c ∈ fs, h1.size c = h.size c := fun c free => sizes c (mem_cons_of_mem _ free)
  obtain ⟨fuel, h', run, calls⟩ := Heap.taken (h := h1) lists.chain lists.sorted
    ((sizes _ (mem_cons_self ..)).trans lists.zero)
    (fun c free => by rw [sizesFs c free]; exact (lists.free_inside free).2.2) parts below inside own (by omega) word
    fun c free => by rw [sizesFs c free]; exact small c free
  have core : ∀ fuel, fs.length + 1 ≤ fuel → h.morecore fuel n = some ((h1.link a p).freep, h1.link a p) := fun fuel enough => by
    refine morecore_more ?_ enough
    have back : sub32 (hdrAdd a 1) HDRSIZE = a := by
      rw [hdrAdd_eq (by rwa [Nat.one_mul]), Nat.one_mul]
      simp only [sub32, HDRSIZE] at inside ⊢
      omega
    unfold Heap.morecore coreUnits
    rw [answers, if_neg (by omega)]
    dsimp only
    rw [answer]
    dsimp only
    rw [Heap.free, back]
    have found' : Chain.seek h1.ptr (h1.stops a) (fs.length + 1) h1.freep = some p := found
    exact congrArg (Option.map _) (congrArg (Option.map _) found')
  have freep : (h1.link a p).freep = p := rfl
  have isP : p ≠ 0 := lists.freep_ne (parts ▸ mem_append_right _ (mem_singleton_self _))
  refine ⟨_, h', (lists.mallocLoop_round entry (by omega) small (fs.length + 1 + fuel)).trans ?_, calls⟩
  rw [refill, core _ (Nat.le_add_right ..)]
  dsimp only
  rw [freep, if_neg isP]
  exact mallocLoop_more run (Nat.le_add_left ..)

/-- Without a block of `n` units, and with no answer of `sbrk`, `malloc` returns null. -/
theorem Heap.Lists.refused (lists : h.Lists fs bs []) (entry : h.freep ∈ h.base :: fs) (answers : h.answers = [sbrk])
    (some : 0 < n) (small : ∀ c ∈ fs, h.size c < n) (answer : sbrk (coreUnits n * HDRSIZE % 2 ^ 32) = none)
    (word : h.base + HDRSIZE < 2 ^ 32) :
    ∃ fuel h', Heap.mallocLoop n fuel h.freep (h.ptr h.freep) h = .some (0, h') ∧ h'.Good bs ∧
      h'.calls = h.calls ++ [(coreUnits n * HDRSIZE % 2 ^ 32, none)] := by
  let h1 : Heap := { h with answers := [], calls := h.calls ++ [(coreUnits n * HDRSIZE % 2 ^ 32, none)] }
  have obtained : ∀ x, h1.Obtained x ↔ h.Obtained x := fun x => by
    rw [Heap.obtained_append]
    exact or_iff_left fun ⟨_, null, _⟩ => by cases null
  have lists' : h1.Lists fs bs [] := lists.congr rfl obtained (fun _ _ => rfl) fun _ _ => rfl
  refine ⟨_, h1, (lists.mallocLoop_round entry some small 0).trans ?_, ⟨lists'.base, word, .inr ⟨fs, lists', entry⟩⟩, rfl⟩
  unfold refill Heap.morecore
  rw [answers]
  dsimp only
  rw [answer]
  rfl

end Wraps

section Requests

variable {h h' : Heap} {bs : List Nat} {b n x nbytes : Nat}

theorem Heap.Positive.granted (positive : h.Positive) : h.Granted x ↔ h.Obtained x := by
  constructor
  · rintro ⟨k, a, call, _, has⟩
    exact ⟨k, a, call, has⟩
  · rintro ⟨k, a, call, has⟩
    exact ⟨k, a, call, positive k a call, has⟩

theorem Heap.Positive.snoc {k : Nat} {answer : Option Nat} (positive : h.Positive) (calls : h'.calls = h.calls ++ [(k, answer)])
    (last : answer ≠ none → k < 2 ^ 31) : h'.Positive := by
  intro j a call
  rw [calls] at call
  rcases mem_append.1 call with old | new
  · exact positive j a old
  · cases mem_singleton.1 new
    exact last (Option.some_ne_none a)

/-- The block handed out was obtained. -/
theorem Heap.Handed.block (handed : h.Handed h' bs b n) :
    b + HDRSIZE < 2 ^ 32 ∧ (∀ x, b ≤ x → x < b + n * HDRSIZE → h'.Obtained x) ∧ ∀ x, h'.Obtained x → x + 1 < 2 ^ 32 := by
  obtain ⟨_, _, ⟨_, none, _⟩ | ⟨fs, lists, _⟩⟩ := handed.good
  · cases none
  have member : b ∈ fs ++ b :: bs := mem_append_right _ (mem_cons_self ..)
  obtain ⟨_, ends, some⟩ := lists.inside member
  refine ⟨?_, fun x low high => ?_, fun x has => (lists.user x has).2⟩
  · simp only [span, Span.stop, HDRSIZE] at ends ⊢
    omega
  refine (lists.tiles.cover x).2 ⟨_, mem_map_of_mem member, low, ?_⟩
  simpa only [span, Span.stop, handed.own] using high

theorem units_wide (inside : nbytes + HDRSIZE ≤ 2 ^ 32) :
    nbytes + HDRSIZE ≤ Heap.units nbytes * HDRSIZE ∧ Heap.units nbytes ≤ 2 ^ 29 := by
  simp only [HDRSIZE] at inside
  have least : nbytes + HDRSIZE - 1 < 2 ^ 32 := by
    simp only [HDRSIZE]
    omega
  rw [Heap.units, Nat.mod_eq_of_lt least]
  simp only [HDRSIZE]
  omega

/-- The rounding wraps to one unit, the header alone. -/
theorem units_wrapped (uint : nbytes < 2 ^ 32) (beyond : 2 ^ 32 < nbytes + HDRSIZE) : Heap.units nbytes = 1 := by
  simp only [HDRSIZE, Heap.units] at beyond ⊢
  omega

/-- The argument of `sbrk` stays an `int` for requests up to `2 ^ 31 - 16`. -/
theorem coreUnits_small (small : nbytes + 16 ≤ 2 ^ 31) : Heap.coreUnits (Heap.units nbytes) * HDRSIZE < 2 ^ 31 := by
  have least : nbytes + HDRSIZE - 1 < 2 ^ 32 := by
    simp only [HDRSIZE]
    omega
  rw [Heap.units, Nat.mod_eq_of_lt least, Heap.coreUnits]
  split <;> simp only [HDRSIZE] at * <;> omega

theorem coreUnits_large (large : 2 ^ 31 < nbytes + 16) (inside : nbytes + HDRSIZE ≤ 2 ^ 32) :
    2 ^ 28 ≤ Heap.units nbytes ∧ Heap.coreUnits (Heap.units nbytes) = Heap.units nbytes := by
  simp only [HDRSIZE] at inside
  have least : nbytes + HDRSIZE - 1 < 2 ^ 32 := by
    simp only [HDRSIZE]
    omega
  have many : 2 ^ 28 ≤ Heap.units nbytes := by
    rw [Heap.units, Nat.mod_eq_of_lt least]
    simp only [HDRSIZE]
    omega
  exact ⟨many, if_neg (by omega)⟩

/-- The free blocks are those the links lead to. -/
theorem Heap.Good.hasFree (good : h.Good bs) {fs : List Nat} (lists : h.enter.Lists fs bs []) (some : 0 < n) :
    h.HasFree n ↔ ∃ c ∈ fs, n ≤ h.enter.size c := by
  obtain ⟨_, _, ⟨null, _, nothing⟩ | ⟨gs, now, entry⟩⟩ := good
  · refine ⟨fun has => absurd null has.1, fun ⟨c, free, _⟩ => ?_⟩
    have positive := (lists.free_inside free).2.2
    have has : h.enter.Obtained c := (lists.tiles.cover c).2
      ⟨_, mem_map_of_mem (mem_append_left _ free), Nat.le_refl _, by simp only [span, Span.stop, HDRSIZE]; omega⟩
    rw [Heap.enter, if_pos null] at has
    exact absurd has (nothing c)
  · have same : h.enter = h := if_neg (now.freep_ne entry)
    rw [same] at lists ⊢
    have start : h.freep ∈ h.base :: fs := by
      obtain ⟨i, reach⟩ := now.chain.reached _ entry
      exact reach ▸ lists.chain.iterate_mem (mem_cons_self ..) i
    constructor
    · rintro ⟨_, i, fits⟩
      refine ⟨_, (mem_cons.1 (lists.chain.iterate_mem start i)).resolve_left fun isBase => ?_, fits⟩
      rw [isBase, lists.zero] at fits
      omega
    · rintro ⟨c, free, fits⟩
      refine ⟨now.freep_ne entry, ?_⟩
      obtain ⟨lo, hi, parts⟩ := append_of_mem start
      have chain := lists.chain
      rw [parts] at chain
      obtain ⟨y, turned⟩ := chain.rotate
      have here : y = h.freep := turned.1
      subst here
      have member : c ∈ h.freep :: hi ++ lo := by
        have whole : c ∈ lo ++ h.freep :: hi := parts ▸ mem_cons_of_mem _ free
        exact mem_append.2 (mem_append.1 whole).symm
      obtain ⟨i, reach⟩ := turned.reached c member
      exact ⟨i, reach ▸ fits⟩

/-- The bytes asked for, from the pointer `r` on, were obtained. -/
def Heap.Contains (h : Heap) (r nbytes : Nat) : Prop := ∀ x, r ≤ x → x < r + nbytes → h.Granted x

/-- A block with room contains the bytes asked for. -/
theorem Heap.Handed.contains (handed : h.Handed h' bs b n) (positive : h'.Positive) (room : nbytes + HDRSIZE ≤ n * HDRSIZE) :
    h'.Contains (b + HDRSIZE) nbytes := by
  intro x low high
  exact positive.granted.2 (handed.block.2.1 x (by omega) (by omega))

/-- No block contains bytes up to the end of the address space. -/
theorem Heap.Handed.not_contains (handed : h.Handed h' bs b n) (beyond : 2 ^ 32 < nbytes + HDRSIZE) :
    ¬ h'.Contains (b + HDRSIZE) nbytes := by
  intro contains
  obtain ⟨ends, _, user⟩ := handed.block
  obtain ⟨k, a, call, _, has⟩ := contains (2 ^ 32 - 1) (by omega) (by omega)
  exact absurd (user _ ⟨k, a, call, has⟩) (by omega)

/-- More rounds give the same result of `malloc`. -/
theorem Heap.malloc_same {fuel fuel' : Nat} {r r' : Nat × Heap} (run : h.malloc fuel nbytes = some r)
    (run' : h.malloc fuel' nbytes = some r') : r = r' :=
  Option.some.inj ((mallocLoop_more run (Nat.le_max_left fuel fuel')).symm.trans
    (mallocLoop_more run' (Nat.le_max_right fuel fuel')))

theorem Heap.Sbrks.congr (sbrks : h.Sbrks sbrk) (base : h'.base = h.base) (calls : h'.calls = h.calls) : h'.Sbrks sbrk := by
  intro k a answer
  obtain ⟨above, fresh, rest⟩ := sbrks k a answer
  refine ⟨by rw [base]; exact above, fun x has => fresh x ?_, rest⟩
  rwa [Obtained, calls] at has

/-- When the argument of `sbrk` does not wrap and it answers, a block of `n` units is handed out. -/
theorem Heap.Lists.served {fs : List Nat} (lists : h.Lists fs bs []) (entry : h.freep ∈ h.base :: fs)
    (answers : h.answers = [sbrk]) (sbrks : h.Sbrks sbrk) (positive : h.Positive) (some : 0 < n)
    (int : coreUnits n * HDRSIZE < 2 ^ 31) (answer : sbrk (coreUnits n * HDRSIZE) ≠ none) (word : h.base + HDRSIZE < 2 ^ 32) :
    ∃ fuel b h', Heap.mallocLoop n fuel h.freep (h.ptr h.freep) h = .some (b + HDRSIZE, h') ∧ h.Handed h' bs b n ∧
      h'.Positive := by
  have less : n ≤ coreUnits n := by
    unfold coreUnits
    split <;> omega
  have fresh : h.FreshAt (coreUnits n * HDRSIZE) (sbrk (coreUnits n * HDRSIZE)) := fun a isA => by
    obtain ⟨above, below, _, ends⟩ := sbrks _ a isA
    exact ⟨above, below, ends int⟩
  have small : n * HDRSIZE < 2 ^ 32 := by
    simp only [HDRSIZE] at int ⊢
    omega
  obtain ⟨fuel, h', ⟨b, run, handed, calls⟩ | ⟨_, _, failed, _⟩⟩ := lists.mallocLoop entry answers some small fresh word
  · refine ⟨fuel, b, h', run, handed, ?_⟩
    rcases calls with same | ⟨a, more⟩
    · rw [Positive, same]
      exact positive
    · exact positive.snoc more fun _ => int
  · exact absurd failed answer

/-- **One request**, for every `uint`: the call returns, and the block contains the bytes exactly when nothing wrapped
or nothing was handed out. -/
theorem Heap.Good.request (good : h.Good bs) (positive : h.Positive) (answers : h.answers = [sbrk]) (sbrks : h.Sbrks sbrk)
    (uint : nbytes < 2 ^ 32) :
    ∃ fuel r h', h.malloc fuel nbytes = some (r, h') ∧
      ((r ≠ 0 → h'.Contains r nbytes) ↔
        nbytes + 16 ≤ 2 ^ 31 ∨ nbytes + HDRSIZE ≤ 2 ^ 32 ∧ h.HasFree (units nbytes) ∨
          ¬ h.HasFree (units nbytes) ∧ sbrk (sbrkBytes nbytes) = none) := by
  obtain ⟨fs, lists, entry, base, calls, same, _⟩ := good.enter
  have one : 0 < units nbytes := Nat.succ_pos _
  have word : h.enter.base + HDRSIZE < 2 ^ 32 := by rw [base]; exact good.2.1
  have answersE := same.trans answers
  have positiveE : h.enter.Positive := by rw [Positive, calls]; exact positive
  have sbrksE := sbrks.congr base calls
  have hasFree := good.hasFree lists one
  have nonnull : ∀ b, b + HDRSIZE ≠ 0 := fun b => Nat.ne_of_gt (Nat.lt_of_lt_of_le (by decide) (Nat.le_add_left ..))
  by_cases found : h.HasFree (units nbytes)
  · obtain ⟨b, h', run, handed, callsE⟩ := lists.mallocLoop_found entry one word (hasFree.1 found) 0
    refine ⟨_, _, h', run, ?_⟩
    by_cases inside : nbytes + HDRSIZE ≤ 2 ^ 32
    · have positive' : h'.Positive := by rw [Positive, callsE]; exact positiveE
      exact iff_of_true (fun _ => handed.contains positive' (units_wide inside).1) (.inr (.inl ⟨inside, found⟩))
    · refine iff_of_false (fun contains => handed.not_contains (Nat.lt_of_not_le inside) (contains (nonnull b))) ?_
      rintro (small | ⟨fits, _⟩ | ⟨none, _⟩)
      · simp only [HDRSIZE] at inside
        omega
      · exact inside fits
      · exact none found
  have small : ∀ c ∈ fs, h.enter.size c < units nbytes := fun c free =>
    Nat.lt_of_not_le fun fits => found (hasFree.2 ⟨c, free, fits⟩)
  cases answer : sbrk (sbrkBytes nbytes) with
  | none =>
    obtain ⟨fuel, h', run, _⟩ := lists.refused entry answersE one small answer word
    exact ⟨fuel, 0, h', run, iff_of_true (fun some => absurd rfl some) (.inr (.inr ⟨found, rfl⟩))⟩
  | some a =>
    -- without a block only a request that does not wrap is safe
    have only : (nbytes + 16 ≤ 2 ^ 31 ∨ nbytes + HDRSIZE ≤ 2 ^ 32 ∧ h.HasFree (units nbytes) ∨
        ¬ h.HasFree (units nbytes) ∧ some a = none) ↔ nbytes + 16 ≤ 2 ^ 31 := by
      simp only [found, and_false, reduceCtorEq, or_false]
    rw [only]
    by_cases wraps : 2 ^ 31 < nbytes + 16 ∧ nbytes + HDRSIZE ≤ 2 ^ 32
    · obtain ⟨many, isCore⟩ := coreUnits_large wraps.1 wraps.2
      rw [sbrkBytes, isCore] at answer
      obtain ⟨fuel, h', run, callsE⟩ := lists.wrapped entry answersE small (by omega) (units_wide wraps.2).2 answer sbrksE
      refine ⟨fuel, _, h', run, iff_of_false (fun contains => ?_) (by omega)⟩
      obtain ⟨_, fresh, _⟩ := sbrksE _ a answer
      obtain ⟨k, c, call, int, has⟩ := contains (nonnull a) (a + HDRSIZE) (Nat.le_refl _) (by omega)
      rw [callsE] at call
      rcases mem_append.1 call with old | new
      · have below := fresh _ ⟨k, c, old, has⟩
        omega
      · cases mem_singleton.1 new
        have wide := (units_wide wraps.2).2
        simp only [Span.Has, Span.stop, HDRSIZE] at int has
        omega
    · have int : coreUnits (units nbytes) * HDRSIZE < 2 ^ 31 := by
        by_cases request : nbytes + 16 ≤ 2 ^ 31
        · exact coreUnits_small request
        · rw [units_wrapped uint (by omega)]
          decide
      have answer' : sbrk (coreUnits (units nbytes) * HDRSIZE) ≠ none := by
        rw [sbrkBytes, Nat.mod_eq_of_lt (by omega)] at answer
        rw [answer]
        exact Option.some_ne_none a
      obtain ⟨fuel, b, h', run, handed, positive'⟩ := lists.served entry answersE sbrksE positiveE one int answer' word
      refine ⟨fuel, _, h', run, ?_⟩
      by_cases request : nbytes + 16 ≤ 2 ^ 31
      · have inside : nbytes + HDRSIZE ≤ 2 ^ 32 := by simp only [HDRSIZE]; omega
        exact iff_of_true (fun _ => handed.contains positive' (units_wide inside).1) request
      · exact iff_of_false (fun contains => handed.not_contains (by omega) (contains (nonnull b))) request

/-- **Huge requests**: from every state between calls whose earlier calls did not wrap, `malloc` returns, and a pointer
it returns has the bytes asked for behind it exactly for a request whose bytes, with header and rounding, are
an `int`; for one that a free block has room for; and when there is no such block and `sbrk` fails. -/
theorem malloc_huge_iff (good : h.Good bs) (positive : h.Positive) {sbrk : Nat → Option Nat} (answers : h.answers = [sbrk])
    (sbrks : h.Sbrks sbrk) (uint : nbytes < 2 ^ 32) :
    (∃ fuel r h', h.malloc fuel nbytes = some (r, h')) ∧
    ((∀ fuel r h', h.malloc fuel nbytes = some (r, h') → r ≠ 0 → h'.Contains r nbytes) ↔
      nbytes + 16 ≤ 2 ^ 31 ∨ nbytes + HDRSIZE ≤ 2 ^ 32 ∧ h.HasFree (Heap.units nbytes) ∨
        ¬ h.HasFree (Heap.units nbytes) ∧ sbrk (sbrkBytes nbytes) = none) := by
  obtain ⟨fuel, r, h', run, safe⟩ := good.request positive answers sbrks uint
  refine ⟨⟨fuel, r, h', run⟩, Iff.trans ⟨fun all => all fuel r h' run, fun one fuel' r' g run' => ?_⟩ safe⟩
  cases Heap.malloc_same run run'
  exact one

end Requests

/-- The heap before the first call, with 40960 bytes to give at 8192. -/
def freshHeap : Heap := { startHeap.heap with answers := [fun k => if k ≤ 40960 then some 8192 else none] }

/-- Ten bytes are within the limit. -/
theorem malloc_huge_iff_small : ∃ h', freshHeap.malloc 4 10 = some (40944, h') ∧ h'.Contains 40944 10 := by
  have nothing : ∀ x, ¬ freshHeap.Obtained x := by
    rintro x ⟨_, _, member, _⟩
    cases member
  have good : freshHeap.Good [] := ⟨by decide, by decide, .inl ⟨rfl, rfl, nothing⟩⟩
  have sbrks : freshHeap.Sbrks fun k => if k ≤ 40960 then some 8192 else none := by
    intro k a answer
    dsimp only at answer
    split at answer
    · rename_i small
      cases answer
      exact ⟨by decide, fun x has => absurd has (nothing x), by decide, fun _ => by omega⟩
    · cases answer
  have safe := (@malloc_huge_iff _ _ 10 good (fun k a call => by cases call) _ rfl sbrks (by decide)).2.2 (.inl (by decide))
  exact ⟨_, rfl, safe 4 40944 _ rfl (by decide)⟩

/-- The largest request is rounded to one unit, the header: the pointer is the end of the memory obtained. -/
theorem malloc_wraps_to_header :
    ∃ h', freshHeap.malloc 4 (2 ^ 32 - 1) = some (40960, h') ∧ h'.calls = [(32768, some 8192)] ∧ ¬ h'.Granted 40960 := by
  refine ⟨_, rfl, rfl, ?_⟩
  rintro ⟨k, a, call, _, has⟩
  cases List.mem_singleton.1 call
  exact absurd has.2 (by decide)

end Xv6
