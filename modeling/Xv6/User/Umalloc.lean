import Xv6.Lib.Chain
import Xv6.Lib.Runs
import Xv6.Lib.Spans
import Xv6.Param

/-!
# The user heap allocator

A `Header` is eight bytes, a pointer and a size in units of headers. The free blocks are a
circular list in address order, entered at `freep`, with the static header `base` below
all of them. Pointers and sizes are `uint`; `p + n` on a `Header` pointer is
`p + 8 * n` modulo 2 ^ 32.
-/

namespace Xv6
open Chain Spans Runs Function List

variable {sbrk : Nat → Option Nat} {fuel : Nat}

/-- `sizeof(Header)`. -/
def HDRSIZE : Nat := 8

/-- `p + n` on a `Header` pointer. -/
def hdrAdd (p n : Nat) : Nat := add32 p (n * HDRSIZE)

/-- The memory the allocator reads and writes: the fields of the header at each address, and
`freep`, null at first. The system is there as the answers its next calls of `sbrk` would get, by
the number of bytes asked for, and the calls made with their answers, where `none` is -1. -/
structure Heap where
  /-- The address of `base`. -/
  base : Nat
  ptr : Nat → Nat
  size : Nat → Nat
  freep : Nat := 0
  answers : List (Nat → Option Nat) := []
  calls : List (Nat × Option Nat) := []

namespace Heap

/-- The loop of `free` stops at `p`, by its condition or by the `break`. -/
def stops (h : Heap) (bp p : Nat) : Bool :=
  (bp > p && bp < h.ptr p) || (p ≥ h.ptr p && (bp > p || bp < h.ptr p))

/-- `free` behind its loop: `bp` goes in between `p` and the block behind it, joined to each that it touches. -/
def link (h : Heap) (bp p : Nat) : Heap :=
  let q := h.ptr p
  let h :=
    if hdrAdd bp (h.size bp) = q then
      { h with
        size := Function.update h.size bp (add32 (h.size bp) (h.size q))
        ptr := Function.update h.ptr bp (h.ptr q) }
    else { h with ptr := Function.update h.ptr bp q }
  let h :=
    if hdrAdd p (h.size p) = bp then
      { h with
        size := Function.update h.size p (add32 (h.size p) (h.size bp))
        ptr := Function.update h.ptr p (h.ptr bp) }
    else { h with ptr := Function.update h.ptr p bp }
  { h with freep := p }

/-- `free`, with a bound on the rounds of its loop. -/
def free (fuel ap : Nat) (h : Heap) : Option Heap :=
  let bp := sub32 ap HDRSIZE
  (seek h.ptr (h.stops bp) fuel h.freep).map (h.link bp)

/-- What `morecore` asks for at least. -/
def coreUnits (nu : Nat) : Nat := if nu < 4096 then 4096 else nu

/-- `morecore`; 0 is the null pointer. -/
def morecore (fuel nu : Nat) (h : Heap) : Option (Nat × Heap) :=
  let nu := coreUnits nu
  let k := nu * HDRSIZE % 2 ^ 32
  match h.answers with
  | [] => none
  | sbrk :: answers =>
    let h := { h with answers := answers, calls := h.calls ++ [(k, sbrk k)] }
    match sbrk k with
    | none => some (0, h)
    | some hp =>
      let h := { h with size := Function.update h.size hp nu }
      (h.free fuel (hdrAdd hp 1)).map fun h => (h.freep, h)

/-- `malloc` when the block `p` behind `prevp` is large enough. -/
def carve (nunits prevp p : Nat) (h : Heap) : Nat × Heap :=
  if h.size p = nunits then
    (hdrAdd p 1, { h with ptr := Function.update h.ptr prevp (h.ptr p), freep := prevp })
  else
    let left := h.size p - nunits
    let b := hdrAdd p left
    (hdrAdd b 1, { h with size := Function.update (Function.update h.size p left) b nunits, freep := prevp })

/-- The loop of `malloc`. -/
def mallocLoop (nunits : Nat) : Nat → Nat → Nat → Heap → Option (Nat × Heap)
  | 0, _, _, _ => none
  | fuel + 1, prevp, p, h =>
    if nunits ≤ h.size p then some (h.carve nunits prevp p)
    else if p = h.freep then
      match h.morecore fuel nunits with
      | none => none
      | some (p, h) => if p = 0 then some (0, h) else mallocLoop nunits fuel p (h.ptr p) h
    else mallocLoop nunits fuel p (h.ptr p) h

/-- The units for `nbytes`, with the header. -/
def units (nbytes : Nat) : Nat := (nbytes + HDRSIZE - 1) % 2 ^ 32 / HDRSIZE + 1

/-- `malloc` before its loop: the first call makes the circular list of `base`. -/
def enter (h : Heap) : Heap :=
  if h.freep = 0 then
    { h with freep := h.base, ptr := Function.update h.ptr h.base h.base, size := Function.update h.size h.base 0 }
  else h

/-- `malloc`; 0 is the null pointer. -/
def malloc (fuel nbytes : Nat) (h : Heap) : Option (Nat × Heap) :=
  mallocLoop (units nbytes) fuel h.enter.freep (h.enter.ptr h.enter.freep) h.enter

/-- The span of the block at `a`, with its header. -/
def span (h : Heap) (a : Nat) : Span := ⟨a, h.size a * HDRSIZE⟩

/-- The bytes obtained from `sbrk`. -/
def Obtained (h : Heap) (x : Nat) : Prop := ∃ k a, (k, some a) ∈ h.calls ∧ (Span.mk a k).Has x

end Heap

/-! ## The lists of blocks -/

/-- **The blocks of the heap**: `fs` are the free ones in list order and `bs` the others. No free
block touches the next one, those in `loose` apart. -/
structure Heap.Lists (h : Heap) (fs bs loose : List Nat) : Prop where
  base : 0 < h.base
  chain : Seg h.ptr h.base (h.base :: fs) h.base
  sorted : (h.base :: fs).Pairwise (· < ·)
  zero : h.size h.base = 0
  tiles : Tiles ((fs ++ bs).map h.span) h.Obtained
  user : ∀ x, h.Obtained x → h.base + HDRSIZE ≤ x ∧ x + 1 < 2 ^ 32
  apart : ∀ a ∈ fs, a ∉ loose → (h.span a).stop ∉ fs

namespace Heap.Lists

variable {h h' : Heap} {fs fs' bs bs' loose loose' lo hi : List Nat} {a b p x y : Nat}

section

variable (lists : h.Lists fs bs loose)
include lists

/-- A block lies above `base`, within the address space, and has a unit. -/
theorem inside (block : a ∈ fs ++ bs) :
    h.base + HDRSIZE ≤ a ∧ (h.span a).stop < 2 ^ 32 ∧ 0 < h.size a := by
  have member := mem_map_of_mem (f := h.span) block
  have positive : 0 < h.size a * HDRSIZE := lists.tiles.pos _ member
  have first := lists.user a ((lists.tiles.cover a).2 ⟨_, member, Nat.le_refl _, by simp only [span, Span.stop]; omega⟩)
  have last := lists.user (a + h.size a * HDRSIZE - 1)
    ((lists.tiles.cover _).2 ⟨_, member, by simp only [span]; omega, by simp only [span, Span.stop]; omega⟩)
  refine ⟨first.1, ?_, Nat.pos_of_mul_pos_right positive⟩
  simp only [span, Span.stop]
  omega

theorem free_inside (block : a ∈ fs) :
    h.base + HDRSIZE ≤ a ∧ (h.span a).stop < 2 ^ 32 ∧ 0 < h.size a := lists.inside (mem_append_left _ block)

/-- A block ends before the next one begins. -/
theorem stop_le (first : a ∈ fs ++ bs) (second : b ∈ fs ++ bs) (less : a < b) :
    (h.span a).stop ≤ b := by
  have other : h.span a ≠ h.span b := fun same => Nat.ne_of_lt less (congrArg Span.start same)
  have apart := lists.tiles.apart_mem (mem_map_of_mem first) (mem_map_of_mem second) other
  have some := (lists.inside second).2.2
  simp only [Span.Apart, span, Span.stop, HDRSIZE] at apart ⊢
  omega

theorem distinct : (fs ++ bs).Nodup := by
  refine (pairwise_map.1 lists.tiles.apart).imp_of_mem fun {a b} first _ apart same => ?_
  subst same
  have some := (lists.inside first).2.2
  simp only [Span.Apart, span, Span.stop, HDRSIZE] at apart
  omega

/-- Only the headers of blocks matter. -/
theorem congr (base : h'.base = h.base) (obtained : ∀ x, h'.Obtained x ↔ h.Obtained x)
    (ptr : ∀ a ∈ h.base :: fs, h'.ptr a = h.ptr a) (size : ∀ a ∈ h.base :: (fs ++ bs), h'.size a = h.size a) :
    h'.Lists fs bs loose := by
  have spans : ∀ a ∈ fs ++ bs, h'.span a = h.span a := fun a block => by
    rw [span, span, size a (mem_cons_of_mem _ block)]
  have same : h'.Obtained = h.Obtained := funext fun x => propext (obtained x)
  refine ⟨base ▸ lists.base, ?_, base ▸ lists.sorted, ?_, ?_, ?_, ?_⟩
  · rw [base]
    exact lists.chain.congr ptr
  · rw [base, size _ (mem_cons_self ..), lists.zero]
  · rw [map_congr_left spans, same]
    exact lists.tiles
  · rw [same, base]
    exact lists.user
  · intro a block tight
    rw [spans a (mem_append_left _ block)]
    exact lists.apart a block tight

theorem lt_stop (block : a ∈ fs ++ bs) : a < (h.span a).stop := by
  have some := (lists.inside block).2.2
  simp only [span, Span.stop, HDRSIZE]
  omega

theorem used_ne (free : a ∈ fs) (used : b ∈ bs) : a ≠ b :=
  (nodup_append.1 lists.distinct).2.2 a free b used

/-- The list around a block. -/
theorem around (parts : h.base :: fs = lo ++ p :: hi) :
    Seg h.ptr h.base (lo ++ p :: hi) h.base ∧ p ∈ h.base :: fs ∧ (∀ c ∈ lo, c < p) ∧ (∀ c ∈ hi, p < c) ∧
      lo.Pairwise (· < ·) ∧ hi.Pairwise (· < ·) := by
  have sorted := lists.sorted
  have chain := lists.chain
  rw [parts, pairwise_append, pairwise_cons] at sorted
  rw [parts] at chain ⊢
  exact ⟨chain, mem_append_right _ (mem_cons_self ..), fun c below => sorted.2.2 c below p (mem_cons_self ..),
    sorted.2.1.1, sorted.1, sorted.2.1.2⟩

end

/-- Another block than `base` is free. -/
theorem free_of_ne (member : a ∈ h.base :: fs) (other : a ≠ h.base) : a ∈ fs := (mem_cons.1 member).resolve_left other

/-- The list without the block behind `x`. -/
theorem removed (lists : h.Lists fs bs loose) (parts : h.base :: fs = lo ++ x :: y :: hi) :
    ∃ fs', h.base :: fs' = lo ++ x :: hi ∧ fs.Perm (y :: fs') ∧ (h.base :: fs').Pairwise (· < ·) ∧
      Seg (update h.ptr x (h.ptr y)) h.base (h.base :: fs') h.base := by
  obtain ⟨fs', parts', perm⟩ := head_remove parts
  obtain ⟨chain, _, lows, highs, _⟩ := lists.around parts
  refine ⟨fs', parts', perm, ?_, ?_⟩
  · have whole := lists.sorted
    rw [parts] at whole
    rw [parts']
    exact whole.sublist (List.Sublist.append_left (.cons_cons _ (.cons _ (.refl _))) lo)
  · rw [parts']
    refine chain.remove (update_self ..) fun d member => update_of_ne ?_ ..
    rcases mem_append.1 member with inLo | inHi
    · exact Nat.ne_of_lt (lows d inLo)
    · exact Nat.ne_of_gt (highs d (mem_cons_of_mem _ inHi))

end Heap.Lists

theorem hdrAdd_eq {a n : Nat} (inside : a + n * HDRSIZE < 2 ^ 32) : hdrAdd a n = a + n * HDRSIZE := Nat.mod_eq_of_lt inside

/-- The address behind a block. -/
theorem Heap.hdrAdd_stop {h : Heap} {a : Nat} (inside : (h.span a).stop < 2 ^ 32) : hdrAdd a (h.size a) = (h.span a).stop :=
  hdrAdd_eq inside

section Links

variable {h : Heap} {fs bs loose lo hi : List Nat} {bp p q : Nat}

/-- `bp` behind `p`, before any joining. -/
def Heap.insert (h : Heap) (bp p : Nat) : Heap := { h with ptr := Function.update (Function.update h.ptr bp (h.ptr p)) p bp }

theorem Heap.Lists.insert (lists : h.Lists fs (bp :: bs) []) (parts : h.base :: fs = lo ++ p :: hi) (low : p < bp)
    (high : ∀ c ∈ hi, bp < c) :
    ∃ fs', h.base :: fs' = lo ++ p :: bp :: hi ∧ (h.insert bp p).Lists fs' bs [bp, p] ∧ fs'.Perm (bp :: fs) := by
  obtain ⟨chain, pMember, lows, behind, below, above⟩ := lists.around parts
  obtain ⟨fs', parts', perm⟩ := head_insert (b := bp) parts
  have used : bp ∈ bp :: bs := mem_cons_self ..
  have bpAbove := (lists.inside (mem_append_right fs used)).1
  have whole : ∀ d ∈ lo ++ hi, d ∈ h.base :: fs := fun d member => by
    rw [parts]
    rcases mem_append.1 member with inLo | inHi
    · exact mem_append_left _ inLo
    · exact mem_append_right _ (mem_cons_of_mem _ inHi)
  refine ⟨fs', parts', ⟨lists.base, ?_, ?_, lists.zero, ?_, lists.user, ?_⟩, perm⟩
  · show Seg _ h.base (h.base :: fs') h.base
    rw [parts']
    refine chain.insert (update_self ..) ?_ fun d member => ?_
    · show update (update h.ptr bp (h.ptr p)) p bp bp = h.ptr p
      rw [update_of_ne (by omega), update_self]
    · have notP : d ≠ p := by
        rcases mem_append.1 member with inLo | inHi
        · exact Nat.ne_of_lt (lows d inLo)
        · exact Nat.ne_of_gt (behind d inHi)
      have notBp : d ≠ bp := by
        rcases mem_cons.1 (whole d member) with isBase | free
        · simp only [HDRSIZE] at bpAbove
          omega
        · exact lists.used_ne free used
      show update (update h.ptr bp (h.ptr p)) p bp d = h.ptr d
      rw [update_of_ne notP, update_of_ne notBp]
  · show (h.base :: fs').Pairwise (· < ·)
    rw [parts', pairwise_append, pairwise_cons, pairwise_cons]
    refine ⟨below, ⟨fun c member => ?_, high, above⟩, fun c inLo d member => ?_⟩
    · rcases mem_cons.1 member with rfl | inHi
      · exact low
      · exact behind c inHi
    · have belowP := lows c inLo
      rcases mem_cons.1 member with rfl | later
      · exact belowP
      · rcases mem_cons.1 later with rfl | inHi
        · exact Nat.lt_trans belowP low
        · exact Nat.lt_trans belowP (behind d inHi)
  · exact lists.tiles.perm (((perm.append_right bs).trans perm_middle.symm).symm.map _)
  · intro a free tight stops
    have notBp : a ≠ bp := fun same => tight (same ▸ mem_cons_self ..)
    have notP : a ≠ p := fun same => tight (same ▸ mem_cons_of_mem _ (mem_cons_self ..))
    have old : a ∈ fs := (mem_cons.1 (perm.mem_iff.1 free)).resolve_left notBp
    have less := lists.lt_stop (mem_append_left _ old)
    rcases mem_cons.1 (perm.mem_iff.1 stops) with here | still
    · -- a block below `bp` is `p` or ends at `p` at the latest
      have same : (h.span a).stop = bp := here
      have member : a ∈ lo ++ p :: hi := parts ▸ mem_cons_of_mem _ old
      rcases mem_append.1 member with inLo | other
      · have belowP := lows a inLo
        have aAbove := (lists.free_inside old).1
        have ends := lists.stop_le (mem_append_left _ old) (mem_append_left _ (free_of_ne pMember (by omega))) belowP
        omega
      · rcases mem_cons.1 other with isP | inHi
        · exact notP isP
        · have beyond := high a inHi
          omega
    · exact lists.apart a old not_mem_nil still

/-- Join the free block `x` to the one behind it if they touch. -/
def Heap.join (h : Heap) (x : Nat) : Heap :=
  if hdrAdd x (h.size x) = h.ptr x then
    { h with
      size := Function.update h.size x (add32 (h.size x) (h.size (h.ptr x)))
      ptr := Function.update h.ptr x (h.ptr (h.ptr x)) }
  else h

/-- Two neighbours that touch become one. -/
theorem Heap.Lists.merge {x y : Nat} (lists : h.Lists fs bs (x :: loose)) (parts : h.base :: fs = lo ++ x :: y :: hi)
    (free : x ∈ fs) (touch : (h.span x).stop = y) (tight : y ∉ loose) :
    ∃ fs', h.base :: fs' = lo ++ x :: hi ∧ fs.Perm (y :: fs') ∧
      Lists { h with size := update h.size x (h.size x + h.size y), ptr := update h.ptr x (h.ptr y) }
        fs' bs loose := by
  obtain ⟨fs', parts', perm, sorted, chain⟩ := lists.removed parts
  have less : x < y := (lists.around parts).2.2.2.1 y (mem_cons_self ..)
  have keeps : ∀ c ∈ fs', c ∈ fs := fun c member => perm.mem_iff.2 (mem_cons_of_mem _ member)
  have yFree : y ∈ fs := perm.mem_iff.2 (mem_cons_self ..)
  have stays : x ∈ fs' := (mem_cons.1 (perm.mem_iff.1 free)).resolve_left (Nat.ne_of_lt less)
  have above := (lists.free_inside free).1
  obtain ⟨rest, rests⟩ : ∃ rest, fs'.Perm (x :: rest) := ⟨_, perm_cons_erase stays⟩
  have blocks : (fs ++ bs).Perm (x :: y :: (rest ++ bs)) :=
    (perm.append_right bs).trans (((rests.cons y).append_right bs).trans (.swap ..))
  have apartX : ∀ c ∈ rest ++ bs, c ≠ x := by
    have distinct := blocks.nodup_iff.1 lists.distinct
    rintro c member rfl
    exact (nodup_cons.1 distinct).1 (mem_cons_of_mem _ member)
  have spanY : h.span y = ⟨x + h.size x * HDRSIZE, h.size y * HDRSIZE⟩ := by
    rw [span, ← touch]
    rfl
  refine ⟨fs', parts', perm, ⟨lists.base, chain, sorted, ?_, ?_, lists.user, ?_⟩⟩
  · show update h.size x _ h.base = 0
    rw [update_of_ne (by simp only [HDRSIZE] at above; omega), lists.zero]
  · have joined := lists.tiles.perm (blocks.map h.span)
    rw [map_cons, map_cons, spanY] at joined
    have one := Tiles.join joined
    rw [← Nat.add_mul] at one
    refine Tiles.perm ?_ (((rests.append_right bs).map _).symm)
    rw [cons_append, map_cons]
    have same : (rest ++ bs).map h.span = (rest ++ bs).map fun c =>
        (⟨c, update h.size x (h.size x + h.size y) c * HDRSIZE⟩ : Span) :=
      map_congr_left fun c member => by rw [update_of_ne (apartX c member), span]
    rw [same] at one
    have first : (⟨x, (h.size x + h.size y) * HDRSIZE⟩ : Span) =
        ⟨x, update h.size x (h.size x + h.size y) x * HDRSIZE⟩ := by rw [update_self]
    rw [first] at one
    exact one
  · intro a member tightA
    show a + update h.size x (h.size x + h.size y) a * HDRSIZE ∉ fs'
    by_cases isX : a = x
    · subst isX
      have notLoose : y ∉ a :: loose := fun inside =>
        (mem_cons.1 inside).elim (fun same => Nat.ne_of_lt less same.symm) tight
      have far := lists.apart y yFree notLoose
      rw [spanY] at far
      rw [update_self, Nat.add_mul, ← Nat.add_assoc]
      exact fun inside => far (keeps _ inside)
    · rw [update_of_ne isX]
      have notLoose : a ∉ x :: loose := fun inside => (mem_cons.1 inside).elim isX tightA
      exact fun inside => lists.apart a (keeps a member) notLoose (keeps _ inside)

theorem Heap.join_frame (h : Heap) (x : Nat) : (h.join x).base = h.base ∧ (h.join x).freep = h.freep ∧
    (h.join x).calls = h.calls ∧ (h.join x).answers = h.answers ∧ ∀ c, c ≠ x → (h.join x).size c = h.size c := by
  unfold join
  split
  · exact ⟨rfl, rfl, rfl, rfl, fun c other => update_of_ne other ..⟩
  · exact ⟨rfl, rfl, rfl, rfl, fun c _ => rfl⟩

/-- **Joining** leaves no free block that touches the one behind `x`. -/
theorem Heap.Lists.join {x : Nat} (lists : h.Lists fs bs (x :: loose)) (free : x ∈ fs) (below : ∀ y ∈ loose, y < x) :
    ∃ fs', (h.join x).Lists fs' bs loose ∧ (∀ c ∈ fs, c ≤ x → c ∈ fs') ∧
      ∀ c ∈ fs, ∃ d ∈ fs', h.size c ≤ (h.join x).size d := by
  obtain ⟨above, ends, some⟩ := lists.free_inside free
  have later := lists.lt_stop (mem_append_left _ free)
  obtain ⟨lo, hi, parts⟩ := append_of_mem (mem_cons_of_mem h.base free)
  obtain ⟨chain, _, lows, behind, _, highs⟩ := lists.around parts
  have order : ∀ c ∈ fs, c ≤ x ∨ c ∈ hi := fun c member => by
    have whole : c ∈ lo ++ x :: hi := parts ▸ mem_cons_of_mem _ member
    rcases mem_append.1 whole with inLo | other
    · exact .inl (Nat.le_of_lt (lows c inLo))
    · exact (mem_cons.1 other).imp Nat.le_of_eq id
  -- when nothing is joined, `x` already ends before the next free block
  have kept : ∀ {h' : Heap}, h' = h → (h.span x).stop ∉ fs →
      ∃ fs', h'.Lists fs' bs loose ∧ (∀ c ∈ fs, c ≤ x → c ∈ fs') ∧ ∀ c ∈ fs, ∃ d ∈ fs', h.size c ≤ h'.size d := by
    rintro _ rfl gap
    refine ⟨fs, { lists with apart := fun a member tight => ?_ }, fun c member _ => member,
      fun c member => ⟨c, member, Nat.le_refl _⟩⟩
    by_cases isX : a = x
    · exact isX ▸ gap
    · exact lists.apart a member fun inside => (mem_cons.1 inside).elim isX tight
  unfold Heap.join
  cases hi with
  | nil =>
    have last : h.ptr x = h.base := chain.last_eq
    rw [last]
    have gap : (h.span x).stop ∉ fs := fun member => by
      rcases order _ member with le | none
      · omega
      · cases none
    refine kept (if_neg fun same => ?_) gap
    rw [hdrAdd_stop ends] at same
    omega
  | cons y hi =>
    have next : h.ptr x = y := chain.next_eq
    have less : x < y := behind y (mem_cons_self ..)
    have member : y ∈ h.base :: fs := parts ▸ mem_append_right _ (mem_cons_of_mem _ (mem_cons_self ..))
    have yFree : y ∈ fs := free_of_ne member (by omega)
    have yInside := lists.free_inside yFree
    rw [next, hdrAdd_stop ends]
    by_cases touch : (h.span x).stop = y
    · have sum : add32 (h.size x) (h.size y) = h.size x + h.size y := by
        have yEnds := yInside.2.1
        have end' := touch
        simp only [span, Span.stop, HDRSIZE] at yEnds end'
        exact Nat.mod_eq_of_lt (by omega)
      obtain ⟨fs', _, perm, merged⟩ := lists.merge parts free touch fun inside => by
        have low := below y inside
        omega
      rw [if_pos touch, sum]
      have stays : ∀ c ∈ fs, c ≤ x → c ∈ fs' := fun c member le =>
        (mem_cons.1 (perm.mem_iff.1 member)).resolve_left fun isY => by omega
      refine ⟨fs', merged, stays, fun c member => ?_⟩
      by_cases absorbed : c = x ∨ c = y
      · refine ⟨x, stays x free (Nat.le_refl _), ?_⟩
        show h.size c ≤ update h.size x _ x
        rw [update_self]
        rcases absorbed with rfl | rfl <;> omega
      · refine ⟨c, (mem_cons.1 (perm.mem_iff.1 member)).resolve_left fun isY => absorbed (.inr isY), ?_⟩
        show h.size c ≤ update h.size x _ c
        exact Nat.le_of_eq (update_of_ne (fun isX => absorbed (.inl isX)) ..).symm
    · refine kept (if_neg touch) fun member => ?_
      have reach := lists.stop_le (mem_append_left _ free) (mem_append_left _ yFree) less
      rcases order _ member with le | inHi
      · omega
      · rcases mem_cons.1 inHi with isY | beyond
        · exact touch isY
        · have far := (pairwise_cons.1 highs).1 _ beyond
          omega

/-- `base` is never joined to a block. -/
theorem Heap.Lists.join_base (lists : h.Lists fs bs loose) (some : fs ≠ []) (isBase : p = h.base) : h.join p = h := by
  subst isBase
  cases fs with
  | nil => exact absurd rfl some
  | cons q fs =>
    have next : h.ptr h.base = q := lists.chain.2.1
    have less := (pairwise_cons.1 lists.sorted).1 q (mem_cons_self ..)
    have above := lists.free_inside (mem_cons_self ..)
    have word : h.base < 2 ^ 32 := by
      have ends := above.2.1
      simp only [span, Span.stop, HDRSIZE] at ends
      omega
    refine if_neg fun touch => ?_
    rw [lists.zero, next, hdrAdd_eq (by rw [Nat.zero_mul]; exact word), Nat.zero_mul] at touch
    omega

/-- **What `free` does behind its loop**: put `bp` in, join it to the block behind it, and the one before to it. -/
theorem Heap.link_eq (other : p ≠ bp) (far : h.ptr p ≠ bp) (lone : hdrAdd bp (h.size bp) = h.ptr p → h.ptr p ≠ p) :
    h.link bp p = { ((h.insert bp p).join bp).join p with freep := p } := by
  have pBp : (h.insert bp p).ptr bp = h.ptr p := by simp [insert, other.symm]
  have sizes : (h.insert bp p).size = h.size := rfl
  have first : (h.insert bp p).join bp =
      if hdrAdd bp (h.size bp) = h.ptr p then
        { h with
          size := update h.size bp (add32 (h.size bp) (h.size (h.ptr p)))
          ptr := update (update h.ptr bp (h.ptr (h.ptr p))) p bp }
      else { h with ptr := update (update h.ptr bp (h.ptr p)) p bp } := by
    rw [join, pBp, sizes]
    by_cases touch : hdrAdd bp (h.size bp) = h.ptr p
    · rw [if_pos touch, if_pos touch]
      have beyond : (h.insert bp p).ptr (h.ptr p) = h.ptr (h.ptr p) := by simp [insert, lone touch, far]
      rw [beyond]
      simp only [insert, update_comm other, update_idem]
    · rw [if_neg touch, if_neg touch]
      rfl
  rw [first, link]
  dsimp only
  split
  · rw [join]
    simp only [update_self, update_of_ne other, update_of_ne other.symm]
    split
    · simp only [update_idem]
    · rfl
  · rw [join]
    simp only [update_self, update_of_ne other.symm]
    split
    · simp only [update_idem]
    · rfl

end Links


section Free

variable {h : Heap} {fs bs : List Nat} {bp p : Nat}

/-- Where an address above the head falls in a sorted list. -/
theorem sorted_split {x b : Nat} : ∀ {l : List Nat}, (x :: l).Pairwise (· < ·) → x < b → b ∉ l →
    ∃ lo p hi, x :: l = lo ++ p :: hi ∧ p < b ∧ ∀ c ∈ hi, b < c := by
  intro l
  induction l generalizing x with
  | nil => exact fun _ less _ => ⟨[], x, [], rfl, less, by simp⟩
  | cons y l ih =>
    intro sorted less fresh
    obtain ⟨_, rest⟩ := pairwise_cons.1 sorted
    by_cases below : y < b
    · obtain ⟨lo, p, hi, parts, low, high⟩ := ih rest below fun inside => fresh (mem_cons_of_mem _ inside)
      exact ⟨x :: lo, p, hi, by rw [parts]; rfl, low, high⟩
    · have notY : y ≠ b := fun same => fresh (same ▸ mem_cons_self ..)
      have above : b < y := by omega
      refine ⟨[], x, y :: l, rfl, less, fun c inside => ?_⟩
      rcases mem_cons.1 inside with rfl | later
      · exact above
      · exact Nat.lt_trans above ((pairwise_cons.1 rest).1 c later)

/-- What the loop of `free` looks for. -/
theorem Heap.Lists.stops_iff (lists : h.Lists fs (bp :: bs) []) {lo hi : List Nat} (parts : h.base :: fs = lo ++ p :: hi) :
    h.stops bp p = true ↔ p < bp ∧ ∀ c ∈ hi, bp < c := by
  have above := (lists.inside (mem_append_right fs (mem_cons_self ..))).1
  obtain ⟨chain, member, _, behind, _, highs⟩ := lists.around parts
  have baseLe : h.base ≤ p := by
    rcases mem_cons.1 member with isBase | free
    · omega
    · have pAbove := (lists.free_inside free).1
      omega
  simp only [Heap.stops, Bool.or_eq_true, Bool.and_eq_true, decide_eq_true_eq, gt_iff_lt, ge_iff_le]
  cases hi with
  | nil =>
    have last : h.ptr p = h.base := chain.last_eq
    rw [last]
    simp only [not_mem_nil, false_imp_iff, implies_true, and_true]
    omega
  | cons q hi =>
    have next : h.ptr p = q := chain.next_eq
    have less := behind q (mem_cons_self ..)
    rw [next]
    constructor
    · intro stop
      refine ⟨by omega, fun c member => ?_⟩
      rcases mem_cons.1 member with rfl | later
      · omega
      · have far := (pairwise_cons.1 highs).1 c later
        omega
    · rintro ⟨low, high⟩
      exact .inl ⟨low, high q (mem_cons_self ..)⟩

/-- **The loop of `free` ends**, at the place of `bp`. -/
theorem Heap.Lists.seek (lists : h.Lists fs (bp :: bs) []) (entry : h.freep ∈ h.base :: fs) (enough : fs.length < fuel) :
    ∃ lo p hi, Chain.seek h.ptr (h.stops bp) fuel h.freep = some p ∧ h.base :: fs = lo ++ p :: hi ∧ p < bp ∧ ∀ c ∈ hi, bp < c := by
  have above := (lists.inside (mem_append_right fs (mem_cons_self ..))).1
  have fresh : bp ∉ fs := fun free => lists.used_ne free (mem_cons_self ..) rfl
  obtain ⟨lo, p, hi, parts, place⟩ := sorted_split lists.sorted (show h.base < bp by simp only [HDRSIZE] at above; omega) fresh
  have stops := (lists.stops_iff parts).2 place
  obtain ⟨front, back, entered⟩ := append_of_mem entry
  have chain := lists.chain
  rw [entered] at chain
  obtain ⟨y, turned⟩ := chain.rotate
  have start : y = h.freep := turned.1
  have same : ∀ c, c ∈ (h.freep :: back) ++ front ↔ c ∈ h.base :: fs := fun c => by
    rw [entered, mem_append, mem_append, or_comm]
  have length : ((h.freep :: back) ++ front).length ≤ fuel := by
    have count := congrArg List.length entered
    simp only [length_append, length_cons] at count ⊢
    omega
  obtain ⟨c, member, stopsC, found⟩ := turned.seek ⟨p, (same p).2 (lists.around parts).2.1, stops⟩ length
  obtain ⟨lo, hi, parts⟩ := append_of_mem ((same c).1 member)
  exact ⟨lo, c, hi, start ▸ found, parts, (lists.stops_iff parts).1 stopsC⟩

/-- **`free`** returns, and the block is free. -/
theorem Heap.Lists.free (lists : h.Lists fs (bp :: bs) []) (entry : h.freep ∈ h.base :: fs) (enough : fs.length < fuel) :
    ∃ h' fs', h.free fuel (hdrAdd bp 1) = some h' ∧ h'.Lists fs' bs [] ∧ h'.freep ∈ h'.base :: fs' ∧
      (h'.base = h.base ∧ h'.calls = h.calls ∧ h'.answers = h.answers) ∧ (∀ c ∈ bs, h'.size c = h.size c) ∧
      ∃ c ∈ fs', h.size bp ≤ h'.size c := by
  obtain ⟨above, ends, some⟩ := lists.inside (mem_append_right fs (mem_cons_self ..))
  obtain ⟨lo, p, hi, found, parts, low, high⟩ := lists.seek entry enough
  obtain ⟨fs1, parts1, lists1, perm1⟩ := lists.insert parts low high
  have bpFree : bp ∈ fs1 := perm1.mem_iff.2 (mem_cons_self ..)
  obtain ⟨chain, pMember, _⟩ := lists.around parts
  have less := lists.lt_stop (mem_append_right fs (mem_cons_self ..))
  have next : h.ptr p ∈ h.base :: hi := by
    cases hi with
    | nil => exact chain.last_eq ▸ mem_cons_self ..
    | cons q hi => exact mem_cons_of_mem _ (chain.next_eq ▸ mem_cons_self ..)
  have far : h.ptr p ≠ bp := fun same => by
    rcases mem_cons.1 next with isBase | inHi
    · simp only [HDRSIZE] at above
      omega
    · have beyond := high _ inHi
      omega
  have entries : sub32 (hdrAdd bp 1) HDRSIZE = bp := by
    simp only [span, Span.stop, HDRSIZE] at ends
    simp only [hdrAdd, add32, sub32, HDRSIZE]
    omega
  have run : h.free fuel (hdrAdd bp 1) = .some { ((h.insert bp p).join bp).join p with freep := p } := by
    rw [Heap.free, entries, found, Option.map_some, link_eq (by omega) far]
    intro touch
    rw [hdrAdd_stop ends] at touch
    omega
  obtain ⟨fs2, lists2, stays2, sizes2⟩ := lists1.join bpFree fun y inside => mem_singleton.1 inside ▸ low
  obtain ⟨base2, _, calls2, answers2, frame2⟩ := (h.insert bp p).join_frame bp
  obtain ⟨base3, _, calls3, answers3, frame3⟩ := ((h.insert bp p).join bp).join_frame p
  have notIn : ∀ c ∈ bs, c ≠ bp ∧ c ≠ p := fun c member => by
    have used : c ∈ bp :: bs := mem_cons_of_mem _ member
    refine ⟨fun same => (nodup_cons.1 (nodup_append.1 lists.distinct).2.1).1 (same ▸ member), fun same => ?_⟩
    rcases mem_cons.1 pMember with isBase | free
    · have cAbove := (lists.inside (mem_append_right fs used)).1
      simp only [HDRSIZE] at cAbove
      omega
    · exact lists.used_ne free used same.symm
  -- the block before is `base`, which is never joined, or a free block
  obtain ⟨fs3, lists3, entry3, sizes3⟩ : ∃ fs3, (((h.insert bp p).join bp).join p).Lists fs3 bs [] ∧ p ∈ h.base :: fs3 ∧
      ∀ c ∈ fs2, ∃ d ∈ fs3, ((h.insert bp p).join bp).size c ≤ (((h.insert bp p).join bp).join p).size d := by
    rcases mem_cons.1 pMember with isBase | free
    · rw [lists2.join_base (fun none => not_mem_nil (none ▸ stays2 bp bpFree (Nat.le_refl _))) (isBase.trans base2.symm)]
      refine ⟨fs2, { lists2 with apart := fun a member _ => lists2.apart a member fun same => ?_ },
        isBase ▸ mem_cons_self .., fun c member => ⟨c, member, Nat.le_refl _⟩⟩
      have aAbove := (lists2.free_inside member).1
      rw [mem_singleton.1 same, base2, isBase] at aAbove
      exact absurd aAbove (Nat.not_le.2 (Nat.lt_add_of_pos_right (Nat.zero_lt_succ 7)))
    · have still := stays2 p (perm1.mem_iff.2 (mem_cons_of_mem _ free)) (Nat.le_of_lt low)
      obtain ⟨fs3, lists3, stays3, sizes3⟩ := lists2.join still fun y none => absurd none not_mem_nil
      exact ⟨fs3, lists3, mem_cons_of_mem _ (stays3 p still (Nat.le_refl _)), sizes3⟩
  refine ⟨_, fs3, run, lists3.congr rfl (fun _ => .rfl) (fun _ _ => rfl) (fun _ _ => rfl), ?_, ⟨base3.trans base2, calls3.trans calls2,
    answers3.trans answers2⟩, fun c member => ?_, ?_⟩
  · show p ∈ (((h.insert bp p).join bp).join p).base :: fs3
    rw [base3.trans base2]
    exact entry3
  · exact (frame3 c (notIn c member).2).trans (frame2 c (notIn c member).1)
  · obtain ⟨c, free2, le2⟩ := sizes2 bp bpFree
    obtain ⟨d, free3, le3⟩ := sizes3 c free2
    exact ⟨d, free3, Nat.le_trans le2 le3⟩

end Free

section Carve

variable {h : Heap} {fs bs lo hi : List Nat} {p q n : Nat}

/-- A block taken out of the free list as it is. -/
theorem Heap.Lists.unlink (lists : h.Lists fs bs []) (parts : h.base :: fs = lo ++ p :: q :: hi) :
    ∃ fs', h.base :: fs' = lo ++ p :: hi ∧ Lists { h with ptr := update h.ptr p (h.ptr q) } fs' (q :: bs) [] := by
  obtain ⟨fs', parts', perm, sorted, chain⟩ := lists.removed parts
  have keeps : ∀ c ∈ fs', c ∈ fs := fun c member => perm.mem_iff.2 (mem_cons_of_mem _ member)
  refine ⟨fs', parts', ⟨lists.base, chain, sorted, lists.zero, ?_, lists.user, fun a member _ inside => ?_⟩⟩
  · exact lists.tiles.perm (((perm.append_right bs).trans perm_middle.symm).map _)
  · exact lists.apart a (keeps a member) not_mem_nil (keeps _ inside)

/-- The last `n` units of the free block `p` become the block `b`. -/
def Heap.trim (h : Heap) (p b n : Nat) : Heap :=
  { h with size := Function.update (Function.update h.size p (h.size p - n)) b n }

theorem Heap.Lists.trim {b : Nat} (lists : h.Lists fs bs []) (free : p ∈ fs) (some : 0 < n) (less : n < h.size p)
    (isB : b = p + (h.size p - n) * HDRSIZE) :
    (h.trim p b n).Lists fs (b :: bs) [] ∧ b + n * HDRSIZE = (h.span p).stop ∧
      (∀ c ∈ bs, (h.trim p b n).size c = h.size c) ∧ (h.trim p b n).size b = n := by
  obtain ⟨above, ends, _⟩ := lists.free_inside free
  have total : (h.size p - n) * HDRSIZE + n * HDRSIZE = h.size p * HDRSIZE := by
    rw [← Nat.add_mul, Nat.sub_add_cancel (Nat.le_of_lt less)]
  have stop : b + n * HDRSIZE = (h.span p).stop := by
    simp only [span, Span.stop]
    omega
  have later : p < b := by
    simp only [HDRSIZE] at isB
    omega
  have fresh : b ∉ fs ++ bs := fun member => by
    have reach := lists.stop_le (mem_append_left _ free) member later
    simp only [HDRSIZE] at stop
    omega
  obtain ⟨rest, rests⟩ : ∃ rest, fs.Perm (p :: rest) := ⟨_, perm_cons_erase free⟩
  have blocks : (fs ++ bs).Perm (p :: (rest ++ bs)) := rests.append_right bs
  have notP : ∀ c ∈ rest ++ bs, c ≠ p := by
    have distinct := blocks.nodup_iff.1 lists.distinct
    rintro c member rfl
    exact (nodup_cons.1 distinct).1 member
  have sizeOf : ∀ c ∈ fs ++ bs, c ≠ p → (h.trim p b n).size c = h.size c := fun c member other =>
    (update_of_ne (fun same : c = b => fresh (same ▸ member)) ..).trans (update_of_ne other ..)
  have sizeP : (h.trim p b n).size p = h.size p - n :=
    (update_of_ne (Nat.ne_of_lt later) ..).trans (update_self ..)
  have sizeB : (h.trim p b n).size b = n := update_self ..
  have outside : ∀ c ∈ bs, (h.trim p b n).size c = h.size c := fun c member =>
    sizeOf c (mem_append_right _ member) (notP c (mem_append_right _ member))
  refine ⟨⟨lists.base, lists.chain, lists.sorted, ?_, ?_, lists.user, fun a member _ => ?_⟩, stop, outside, sizeB⟩
  · show update (update h.size p (h.size p - n)) b n h.base = 0
    simp only [HDRSIZE] at above
    rw [update_of_ne (by omega), update_of_ne (by omega), lists.zero]
  · have cut := lists.tiles.perm (blocks.map h.span)
    rw [map_cons, span, ← total] at cut
    have two := Tiles.cut cut (Nat.mul_pos (Nat.sub_pos_of_lt less) (Nat.zero_lt_succ 7)) (Nat.mul_pos some (Nat.zero_lt_succ 7))
    have same : (rest ++ bs).map h.span = (rest ++ bs).map (h.trim p b n).span := map_congr_left fun c member => by
      rw [span, span, sizeOf c (blocks.mem_iff.2 (mem_cons_of_mem _ member)) (notP c member)]
    rw [← isB, same] at two
    have back : (p :: b :: (rest ++ bs)).Perm (fs ++ b :: bs) :=
      (List.Perm.swap ..).trans ((blocks.symm.cons b).trans perm_middle.symm)
    refine Tiles.perm ?_ (back.map _)
    rw [map_cons, map_cons, span, span, sizeP, sizeB]
    exact two
  · rw [span, Span.stop]
    by_cases isP : a = p
    · rw [isP, sizeP, ← isB]
      exact fun inside => fresh (mem_append_left _ inside)
    · rw [sizeOf a (mem_append_left _ member) isP]
      exact lists.apart a member not_mem_nil

/-- **`carve`**: a block of `n` units that was free is handed out. -/
theorem Heap.Lists.carve (lists : h.Lists fs bs []) (prev : p ∈ h.base :: fs) (next : h.ptr p = q) (some : 0 < n)
    (fits : n ≤ h.size q) :
    ∃ b fs', (h.carve n p q).1 = b + HDRSIZE ∧ (h.carve n p q).2.Lists fs' (b :: bs) [] ∧
      (h.carve n p q).2.freep ∈ (h.carve n p q).2.base :: fs' ∧
      ((h.carve n p q).2.base = h.base ∧ (h.carve n p q).2.calls = h.calls) ∧
      (∀ c ∈ bs, (h.carve n p q).2.size c = h.size c) ∧ (h.carve n p q).2.size b = n := by
  obtain ⟨lo, hi, parts⟩ := append_of_mem prev
  have chain := (lists.around parts).1
  have notBase : q ≠ h.base := fun same => by
    rw [same, lists.zero] at fits
    omega
  cases hi with
  | nil => exact absurd (next.symm.trans chain.last_eq) notBase
  | cons r hi =>
    have isQ : r = q := chain.next_eq.symm.trans next
    subst isQ
    have member : r ∈ h.base :: fs := parts ▸ mem_append_right _ (mem_cons_of_mem _ (mem_cons_self ..))
    have free : r ∈ fs := free_of_ne member notBase
    obtain ⟨_, ends, _⟩ := lists.free_inside free
    rw [Heap.carve]
    split
    · rename_i exactly
      obtain ⟨fs', parts', lists'⟩ := lists.unlink parts
      refine ⟨r, fs', ?_, lists'.congr rfl (fun _ => .rfl) (fun _ _ => rfl) (fun _ _ => rfl), ?_, ⟨rfl, rfl⟩, fun _ _ => rfl, exactly⟩
      · simp only [span, Span.stop, HDRSIZE] at ends
        rw [hdrAdd_eq (by simp only [HDRSIZE]; omega), Nat.one_mul]
      · show p ∈ h.base :: fs'
        rw [parts']
        exact mem_append_right _ (mem_cons_self ..)
    · rename_i larger
      have less : n < h.size r := by omega
      obtain ⟨lists', stop, sizes, own⟩ := lists.trim free some less rfl
      have inside : r + (h.size r - n) * HDRSIZE + HDRSIZE < 2 ^ 32 := by
        simp only [HDRSIZE] at stop ⊢
        omega
      have place : hdrAdd r (h.size r - n) = r + (h.size r - n) * HDRSIZE := hdrAdd_eq (by omega)
      dsimp only
      rw [place]
      refine ⟨_, fs, ?_, lists'.congr rfl (fun _ => .rfl) (fun _ _ => rfl) (fun _ _ => rfl), prev, ⟨rfl, rfl⟩, sizes, own⟩
      rw [hdrAdd_eq (by rw [Nat.one_mul]; exact inside), Nat.one_mul]

end Carve

/-- A new region of `k` bytes: above `base` and all that was obtained before, with an end below 2 ^ 32. -/
def Heap.FreshAt (h : Heap) (k : Nat) (answer : Option Nat) : Prop :=
  ∀ a, answer = some a → h.base + HDRSIZE ≤ a ∧ (∀ x, h.Obtained x → x < a) ∧ a + k < 2 ^ 32

/-- **What `sbrk` may answer**: -1 or a new region. -/
def Heap.Fresh (h : Heap) (sbrk : Nat → Option Nat) : Prop := ∀ k, h.FreshAt k (sbrk k)

theorem Heap.FreshAt.congr {h h' : Heap} {k : Nat} {answer : Option Nat} (fresh : h.FreshAt k answer) (base : h'.base = h.base)
    (calls : h'.calls = h.calls) : h'.FreshAt k answer := by
  intro a given
  obtain ⟨above, later, ends⟩ := fresh a given
  refine ⟨base ▸ above, fun x has => later x ?_, ends⟩
  rwa [Obtained, calls] at has

section More

variable {h : Heap} {fs bs : List Nat} {a n nu : Nat}

/-- The heap with a new region in one block. -/
def Heap.grow (h : Heap) (answers : List (Nat → Option Nat)) (a nu : Nat) : Heap :=
  { h with
    answers := answers
    calls := h.calls ++ [(nu * HDRSIZE, some a)]
    size := Function.update h.size a nu }

theorem Heap.obtained_append (h : Heap) (x k : Nat) (answer : Option Nat) (answers : List (Nat → Option Nat)) :
    Obtained { h with answers := answers, calls := h.calls ++ [(k, answer)] } x ↔
      h.Obtained x ∨ ∃ a, answer = some a ∧ (Span.mk a k).Has x := by
  constructor
  · rintro ⟨k', a, member, has⟩
    rcases mem_append.1 member with old | new
    · exact .inl ⟨k', a, old, has⟩
    · cases mem_singleton.1 new
      exact .inr ⟨a, rfl, has⟩
  · rintro (⟨k', a, member, has⟩ | ⟨a, rfl, has⟩)
    · exact ⟨k', a, mem_append_left _ member, has⟩
    · exact ⟨k, a, mem_append_right _ (mem_singleton_self _), has⟩

/-- A new region is a block of its own. -/
theorem Heap.Lists.grow (lists : h.Lists fs bs []) (answers : List (Nat → Option Nat)) (some : 0 < nu)
    (above : h.base + HDRSIZE ≤ a) (fresh : ∀ x, h.Obtained x → x < a) (inside : a + nu * HDRSIZE < 2 ^ 32) :
    (h.grow answers a nu).Lists fs (a :: bs) [] ∧ ∀ c ∈ bs, (h.grow answers a nu).size c = h.size c := by
  have below : ∀ c ∈ fs ++ bs, (h.span c).stop ≤ a := fun c member => by
    have positive := (lists.inside member).2.2
    have last : (h.span c).Has ((h.span c).stop - 1) := by
      simp only [Span.Has, span, Span.stop, HDRSIZE]
      omega
    have lower := fresh _ ((lists.tiles.cover _).2 ⟨_, mem_map_of_mem member, last⟩)
    omega
  have other : ∀ c ∈ fs ++ bs, c ≠ a := fun c member => by
    have positive := (lists.inside member).2.2
    have ends := below c member
    simp only [span, Span.stop, HDRSIZE] at ends
    omega
  have sizes : ∀ c ∈ fs ++ bs, (h.grow answers a nu).size c = h.size c := fun c member =>
    update_of_ne (other c member) ..
  have obtained : ∀ x, (h.grow answers a nu).Obtained x ↔ h.Obtained x ∨ (Span.mk a (nu * HDRSIZE)).Has x := fun x => by
    refine (h.obtained_append x (nu * HDRSIZE) (.some a) answers).trans (or_congr_right ?_)
    simp
  have spans : ∀ c ∈ fs ++ bs, (h.grow answers a nu).span c = h.span c := fun c member => by
    rw [span, span, sizes c member]
  refine ⟨⟨lists.base, lists.chain, lists.sorted, ?_, ?_, fun x has => ?_, fun c member _ => ?_⟩, fun c member =>
    sizes c (mem_append_right _ member)⟩
  · show update h.size a nu h.base = 0
    rw [update_of_ne (by simp only [HDRSIZE] at above; omega), lists.zero]
  · have added := lists.tiles.add (b := ⟨a, nu * HDRSIZE⟩) (Nat.mul_pos some (Nat.zero_lt_succ 7)) fun x old has => by
      have lower := fresh x old
      have start := has.1
      dsimp only at start
      omega
    have own : (h.grow answers a nu).span a = ⟨a, nu * HDRSIZE⟩ := by
      rw [span, show (h.grow answers a nu).size a = nu from update_self ..]
    have whole : Tiles ((a :: (fs ++ bs)).map (h.grow answers a nu).span) (h.grow answers a nu).Obtained := by
      rw [map_cons, own, map_congr_left spans]
      exact added.congr obtained
    exact whole.perm (perm_middle.symm.map _)
  · rcases (obtained x).1 has with old | new
    · exact lists.user x old
    · simp only [Span.Has, Span.stop] at new
      exact ⟨Nat.le_trans above new.1, by omega⟩
  · rw [spans c (mem_append_left _ member)]
    exact lists.apart c member not_mem_nil

/-- **`morecore`** fails when `sbrk` does; otherwise there is a free block of `nu` units. -/
theorem Heap.Lists.morecore (lists : h.Lists fs bs []) (entry : h.freep ∈ h.base :: fs) (answers : h.answers = [sbrk])
    (small : nu * HDRSIZE < 2 ^ 32) (fresh : h.FreshAt (coreUnits nu * HDRSIZE) (sbrk (coreUnits nu * HDRSIZE)))
    (enough : fs.length < fuel) :
    (sbrk (coreUnits nu * HDRSIZE) = none ∧ ∃ h', h.morecore fuel nu = some (0, h') ∧
      h'.calls = h.calls ++ [(coreUnits nu * HDRSIZE, none)] ∧ h'.Lists fs bs [] ∧ h'.freep ∈ h'.base :: fs ∧
      h'.base = h.base ∧ h'.size = h.size) ∨
    ∃ a h' fs', h.morecore fuel nu = some (h'.freep, h') ∧ h'.calls = h.calls ++ [(coreUnits nu * HDRSIZE, some a)] ∧
      h'.Lists fs' bs [] ∧ h'.freep ∈ h'.base :: fs' ∧ h'.base = h.base ∧ (∀ c ∈ bs, h'.size c = h.size c) ∧
      ∃ c ∈ fs', nu ≤ h'.size c := by
  obtain ⟨mu, isMu⟩ : ∃ mu, mu = coreUnits nu := ⟨_, rfl⟩
  rw [← isMu] at fresh ⊢
  have bytes : mu * HDRSIZE % 2 ^ 32 = mu * HDRSIZE := by
    apply Nat.mod_eq_of_lt
    rw [isMu, coreUnits]
    simp only [HDRSIZE] at small ⊢
    split <;> omega
  have large : nu ≤ mu ∧ 0 < mu := by
    rw [isMu, coreUnits]
    split <;> omega
  unfold Heap.morecore
  rw [← isMu, answers]
  dsimp only
  rw [bytes]
  cases answer : sbrk (mu * HDRSIZE) with
  | none =>
    refine .inl ⟨rfl, _, rfl, rfl, lists.congr rfl (fun x => ?_) (fun _ _ => rfl) (fun _ _ => rfl), entry, rfl, rfl⟩
    exact (h.obtained_append x _ none []).trans (by simp)
  | some a =>
    obtain ⟨above, later, inside⟩ := fresh a answer
    obtain ⟨grown, sizes⟩ := lists.grow [] large.2 above later inside
    obtain ⟨h', fs', run, lists', entry', ⟨base, calls, _⟩, sizes', c, free, size⟩ := grown.free entry enough
    refine .inr ⟨a, h', fs', ?_, calls, lists', entry', base, fun c member => ?_, c, free, ?_⟩
    · show ((h.grow [] a mu).free fuel (hdrAdd a 1)).map _ = _
      rw [run]
      rfl
    · exact (sizes' c member).trans (sizes c member)
    · rw [show (h.grow [] a mu).size a = mu from update_self ..] at size
      omega

end More

section Malloc

variable {h : Heap} {fs bs : List Nat} {n : Nat}

/-- What `malloc` does when the search has come round to `freep`. -/
def Heap.refill (nunits fuel : Nat) (h : Heap) : Option (Nat × Heap) :=
  match h.morecore fuel nunits with
  | none => none
  | some (p, h) => if p = 0 then some (0, h) else mallocLoop nunits fuel p (h.ptr p) h

/-- **The search of `malloc`**, over the blocks `ws` still to look at, the last of which is `freep`. -/
theorem Heap.mallocLoop_search (fuel : Nat) : ∀ {ws : List Nat} {prevp p y : Nat}, Seg h.ptr p (ws ++ [h.freep]) y →
    h.freep ∉ ws → h.ptr prevp = p →
      (∃ prev q, (prev = prevp ∨ prev ∈ ws ++ [h.freep]) ∧ q ∈ ws ++ [h.freep] ∧ h.ptr prev = q ∧ n ≤ h.size q ∧
        mallocLoop n (ws.length + 1 + fuel) prevp p h = some (h.carve n prev q)) ∨
      (∀ c ∈ ws ++ [h.freep], h.size c < n) ∧ mallocLoop n (ws.length + 1 + fuel) prevp p h = h.refill n fuel := by
  intro ws
  induction ws with
  | nil =>
    intro prevp p y seg _ next
    have here : p = h.freep := seg.1
    rw [length_nil, Nat.zero_add, Nat.add_comm, mallocLoop]
    by_cases fits : n ≤ h.size p
    · exact .inl ⟨prevp, p, .inl rfl, here ▸ mem_singleton_self _, next, fits, if_pos fits⟩
    · refine .inr ⟨fun c member => ?_, ?_⟩
      · rw [mem_singleton.1 member, ← here]
        exact Nat.lt_of_not_le fits
      · rw [if_neg fits, if_pos here]
        rfl
  | cons c ws ih =>
    intro prevp p y seg other next
    obtain ⟨start, rest⟩ := seg
    subst start
    have notLast : p ≠ h.freep := fun same => other (same ▸ mem_cons_self ..)
    rw [length_cons, show ws.length + 1 + 1 + fuel = ws.length + 1 + fuel + 1 by omega, mallocLoop]
    by_cases fits : n ≤ h.size p
    · exact .inl ⟨prevp, p, .inl rfl, mem_cons_self .., next, fits, if_pos fits⟩
    · rw [if_neg fits, if_neg notLast]
      rcases ih rest (fun inside => other (mem_cons_of_mem _ inside)) rfl with
        ⟨prev, q, member, looked, link, enough, run⟩ | ⟨none, run⟩
      · refine .inl ⟨prev, q, .inr ?_, mem_cons_of_mem _ looked, link, enough, run⟩
        rcases member with rfl | member
        · exact mem_cons_self ..
        · exact mem_cons_of_mem _ member
      · refine .inr ⟨fun c member => ?_, run⟩
        rcases mem_cons.1 member with rfl | later
        · exact Nat.lt_of_not_le fits
        · exact none c later

/-- The whole search, from `freep` round to `freep`. -/
theorem Heap.Lists.search (lists : h.Lists fs bs []) (entry : h.freep ∈ h.base :: fs) (n fuel : Nat) :
    (∃ prev q, prev ∈ h.base :: fs ∧ q ∈ h.base :: fs ∧ h.ptr prev = q ∧ n ≤ h.size q ∧
      mallocLoop n (fs.length + 1 + fuel) h.freep (h.ptr h.freep) h = some (h.carve n prev q)) ∨
    (∀ c ∈ h.base :: fs, h.size c < n) ∧
      mallocLoop n (fs.length + 1 + fuel) h.freep (h.ptr h.freep) h = h.refill n fuel := by
  obtain ⟨lo, hi, parts⟩ := append_of_mem entry
  obtain ⟨chain, _, lows, behind, _⟩ := lists.around parts
  rw [show lo ++ h.freep :: hi = (lo ++ [h.freep]) ++ hi by simp] at chain
  obtain ⟨y, first, second⟩ := seg_append.1 chain
  have start : h.ptr h.freep = y := first.last_eq
  have turned : Seg h.ptr (h.ptr h.freep) ((hi ++ lo) ++ [h.freep]) y := by
    rw [start, append_assoc]
    exact seg_append.2 ⟨_, second, first⟩
  have other : h.freep ∉ hi ++ lo := fun member => by
    rcases mem_append.1 member with inHi | inLo
    · exact Nat.lt_irrefl _ (behind _ inHi)
    · exact Nat.lt_irrefl _ (lows _ inLo)
  have same : ∀ c, c ∈ (hi ++ lo) ++ [h.freep] ↔ c ∈ h.base :: fs := fun c => by
    rw [parts]
    simp only [mem_append, mem_cons, not_mem_nil, or_false]
    constructor
    · rintro ((inHi | inLo) | isLast)
      · exact .inr (.inr inHi)
      · exact .inl inLo
      · exact .inr (.inl isLast)
    · rintro (inLo | isLast | inHi)
      · exact .inl (.inr inLo)
      · exact .inr isLast
      · exact .inl (.inl inHi)
  have length : fs.length = (hi ++ lo).length := by
    have count := congrArg List.length parts
    simp only [length_append, length_cons] at count ⊢
    omega
  rw [length]
  rcases mallocLoop_search (n := n) fuel turned other rfl with ⟨prev, q, member, looked, link, enough, run⟩ | ⟨none, run⟩
  · refine .inl ⟨prev, q, ?_, (same q).1 looked, link, enough, run⟩
    rcases member with rfl | member
    · exact entry
    · exact (same prev).1 member
  · exact .inr ⟨fun c member => none c ((same c).2 member), run⟩

/-! More rounds do not change a result. -/

theorem Heap.free_more {fuel' ap : Nat} {h' : Heap} (run : h.free fuel ap = some h') (more : fuel ≤ fuel') :
    h.free fuel' ap = some h' := by
  obtain ⟨p, found, link⟩ := Option.map_eq_some_iff.1 run
  rw [Heap.free, seek_more found more, Option.map_some, link]

theorem Heap.morecore_more {fuel' nu : Nat} {r : Nat × Heap} (run : h.morecore fuel nu = some r) (more : fuel ≤ fuel') :
    h.morecore fuel' nu = some r := by
  unfold Heap.morecore at run ⊢
  cases isAnswers : h.answers with
  | nil =>
    rw [isAnswers] at run
    cases run
  | cons sbrk answers =>
    rw [isAnswers] at run
    dsimp only at run ⊢
    generalize coreUnits nu = mu at run ⊢
    cases answer : sbrk (mu * HDRSIZE % 2 ^ 32) with
    | none =>
      rw [answer] at run
      exact run
    | some a =>
      rw [answer] at run
      obtain ⟨h', freed, result⟩ := Option.map_eq_some_iff.1 run
      dsimp only
      rw [free_more freed more, Option.map_some, result]

theorem Heap.mallocLoop_more : ∀ {fuel fuel' prevp p : Nat} {h : Heap} {r : Nat × Heap},
    mallocLoop n fuel prevp p h = some r → fuel ≤ fuel' → mallocLoop n fuel' prevp p h = some r := by
  intro fuel
  induction fuel with
  | zero =>
    intro fuel' prevp p h r run _
    cases run
  | succ fuel ih =>
    intro fuel' prevp p h r run more
    obtain ⟨k, rfl⟩ : ∃ k, fuel' = k + 1 := ⟨fuel' - 1, by omega⟩
    have le : fuel ≤ k := by omega
    rw [mallocLoop] at run ⊢
    split
    · rename_i fits
      rwa [if_pos fits] at run
    rename_i small
    rw [if_neg small] at run
    split
    · rename_i last
      rw [if_pos last] at run
      cases core : h.morecore fuel n with
      | none =>
        rw [core] at run
        cases run
      | some r' =>
        obtain ⟨q, h'⟩ := r'
        rw [core] at run
        rw [morecore_more core le]
        dsimp only at run ⊢
        split
        · rename_i null
          rwa [if_pos null] at run
        · rename_i found
          rw [if_neg found] at run
          exact ih run le
    · rename_i other
      rw [if_neg other] at run
      exact ih run le

/-- **The states between calls**: nothing yet, or the blocks as they should be. `bs` are the blocks in use. -/
def Heap.Good (h : Heap) (bs : List Nat) : Prop :=
  0 < h.base ∧ h.base + HDRSIZE < 2 ^ 32 ∧
    (h.freep = 0 ∧ bs = [] ∧ (∀ x, ¬ h.Obtained x) ∨ ∃ fs, h.Lists fs bs [] ∧ h.freep ∈ h.base :: fs)

theorem Heap.Lists.freep_ne (lists : h.Lists fs bs []) {p : Nat} (member : p ∈ h.base :: fs) : p ≠ 0 := by
  have positive := lists.base
  rcases mem_cons.1 member with rfl | free
  · exact Nat.ne_of_gt positive
  · have above := (lists.free_inside free).1
    omega

theorem Heap.Good.enter (good : h.Good bs) :
    ∃ fs, h.enter.Lists fs bs [] ∧ h.enter.freep ∈ h.enter.base :: fs ∧ h.enter.base = h.base ∧ h.enter.calls = h.calls ∧
      h.enter.answers = h.answers ∧ ∀ c ∈ bs, h.enter.size c = h.size c := by
  obtain ⟨positive, word, ⟨first, rfl, none⟩ | ⟨fs, lists, entry⟩⟩ := good
  · rw [Heap.enter, if_pos first]
    refine ⟨[], ⟨positive, ⟨rfl, update_self ..⟩, pairwise_singleton .., update_self .., ?_, ?_, ?_⟩,
      mem_cons_self .., rfl, rfl, rfl, fun c member => absurd member not_mem_nil⟩
    · exact Tiles.empty.congr fun x => ⟨fun has => none x has, False.elim⟩
    · exact fun x has => absurd has (none x)
    · exact fun a member => absurd member not_mem_nil
  · rw [Heap.enter, if_neg (lists.freep_ne entry)]
    exact ⟨fs, lists, entry, rfl, rfl, rfl, fun _ _ => rfl⟩

/-- What `malloc` leaves when it hands out the block `b` of `n` units. -/
structure Heap.Handed (h h' : Heap) (bs : List Nat) (b n : Nat) : Prop where
  good : h'.Good (b :: bs)
  base : h'.base = h.base
  own : h'.size b = n
  others : ∀ c ∈ bs, h'.size c = h.size c

section

variable (lists : h.Lists fs bs []) (entry : h.freep ∈ h.base :: fs)
include lists entry

/-- A block that is large enough is found. -/
theorem Heap.Lists.mallocLoop_found (some : 0 < n)
    (word : h.base + HDRSIZE < 2 ^ 32) (found : ∃ c ∈ fs, n ≤ h.size c) (fuel : Nat) :
    ∃ b h', Heap.mallocLoop n (fs.length + 1 + fuel) h.freep (h.ptr h.freep) h = .some (b + HDRSIZE, h') ∧ h.Handed h' bs b n ∧
      h'.calls = h.calls := by
  obtain ⟨c, free, large⟩ := found
  rcases lists.search entry n fuel with ⟨prev, q, member, _, link, fits, run⟩ | ⟨none, _⟩
  · obtain ⟨b, fs', pointer, lists', entry', ⟨base, calls⟩, sizes, own⟩ := lists.carve member link some fits
    refine ⟨b, _, run.trans (by rw [← pointer]), ⟨?_, base, own, sizes⟩, calls⟩
    exact ⟨lists'.base, by rw [base]; exact word, .inr ⟨fs', lists', entry'⟩⟩
  · exact absurd large (Nat.not_le_of_lt (none c (mem_cons_of_mem _ free)))

/-- Without one the search comes round to `freep`. -/
theorem Heap.Lists.mallocLoop_round (some : 0 < n)
    (small : ∀ c ∈ fs, h.size c < n) (fuel : Nat) :
    Heap.mallocLoop n (fs.length + 1 + fuel) h.freep (h.ptr h.freep) h = h.refill n fuel := by
  rcases lists.search entry n fuel with ⟨_, q, _, looked, _, fits, _⟩ | ⟨_, run⟩
  · rcases mem_cons.1 looked with isBase | free
    · rw [isBase, lists.zero] at fits
      omega
    · exact absurd fits (Nat.not_le_of_lt (small q free))
  · exact run

/-- **The loop of `malloc` returns**: a block of `n` units, or null when there is none and `sbrk` fails. -/
theorem Heap.Lists.mallocLoop (answers : h.answers = [sbrk]) (some : 0 < n) (small : n * HDRSIZE < 2 ^ 32)
    (fresh : h.FreshAt (coreUnits n * HDRSIZE) (sbrk (coreUnits n * HDRSIZE))) (word : h.base + HDRSIZE < 2 ^ 32) :
    ∃ fuel h', (∃ b, Heap.mallocLoop n fuel h.freep (h.ptr h.freep) h = .some (b + HDRSIZE, h') ∧ h.Handed h' bs b n ∧
        (h'.calls = h.calls ∨ ∃ a, h'.calls = h.calls ++ [(coreUnits n * HDRSIZE, .some a)])) ∨
      (Heap.mallocLoop n fuel h.freep (h.ptr h.freep) h = .some (0, h') ∧ (∀ c ∈ fs, h.size c < n) ∧
        sbrk (coreUnits n * HDRSIZE) = none ∧ h'.calls = h.calls ++ [(coreUnits n * HDRSIZE, none)] ∧ h'.Good bs ∧
        h'.base = h.base ∧ h'.size = h.size) := by
  by_cases found : ∃ c ∈ fs, n ≤ h.size c
  · obtain ⟨b, h', run, handed, calls⟩ := lists.mallocLoop_found entry some word found 0
    exact ⟨_, h', .inl ⟨b, run, handed, .inl calls⟩⟩
  have none : ∀ c ∈ fs, h.size c < n := fun c free => Nat.lt_of_not_le fun fits => found ⟨c, free, fits⟩
  have round := lists.mallocLoop_round entry some none
  rcases lists.morecore entry answers small fresh (Nat.lt_succ_self _) with
    ⟨failed, h', core, calls, lists', entry', base, sizes⟩ | ⟨a, h', fs', core, calls, lists', entry', base, sizes, large⟩
  · refine ⟨_, h', .inr ⟨(round (fs.length + 1)).trans ?_, none, failed, calls,
      ⟨lists'.base, by rw [base]; exact word, .inr ⟨fs, lists', entry'⟩⟩, base, sizes⟩⟩
    rw [refill, core]
    rfl
  · obtain ⟨fuel, leFs, leFs'⟩ : ∃ fuel, fs.length + 1 ≤ fuel ∧ fs'.length + 1 ≤ fuel := ⟨fs.length + 1 + (fs'.length + 1), by omega, by omega⟩
    have again : h.refill n fuel = Heap.mallocLoop n (fs'.length + 1 + (fuel - (fs'.length + 1))) h'.freep (h'.ptr h'.freep) h' := by
      rw [refill, morecore_more core leFs]
      dsimp only
      rw [if_neg (lists'.freep_ne entry'), Nat.add_sub_cancel' leFs']
    obtain ⟨b, h2, run, handed, same⟩ := lists'.mallocLoop_found entry' some (by rw [base]; exact word) large (fuel - (fs'.length + 1))
    refine ⟨_, h2, .inl ⟨b, (round fuel).trans (again.trans run), ⟨handed.good, handed.base.trans base, handed.own, ?_⟩,
      .inr ⟨a, same.trans calls⟩⟩⟩
    exact fun d inUse => (handed.others d inUse).trans (sizes d inUse)

end

theorem units_room {nbytes : Nat} (small : nbytes < 2 ^ 30) :
    nbytes + HDRSIZE ≤ Heap.units nbytes * HDRSIZE ∧ Heap.units nbytes * HDRSIZE < 2 ^ 32 ∧ 0 < Heap.units nbytes := by
  have least : nbytes + HDRSIZE - 1 < 2 ^ 32 := by
    simp only [HDRSIZE]
    omega
  rw [Heap.units, Nat.mod_eq_of_lt least]
  simp only [HDRSIZE]
  omega

/-- **`malloc` returns**: a block with room for the bytes asked for, or null when `sbrk` fails. -/
theorem Heap.Good.malloc (good : h.Good bs) (answers : h.answers = [sbrk]) (fresh : h.Fresh sbrk) {nbytes : Nat}
    (small : nbytes < 2 ^ 30) :
    ∃ fuel h', (∃ b, h.malloc fuel nbytes = some (b + HDRSIZE, h') ∧ h.Handed h' bs b (units nbytes)) ∨
      ∃ k, h.malloc fuel nbytes = some (0, h') ∧ h'.calls = h.calls ++ [(k, none)] ∧ h'.Good bs ∧ h'.base = h.base ∧
        ∀ c ∈ bs, h'.size c = h.size c := by
  obtain ⟨_, inside, positive⟩ := units_room small
  obtain ⟨fs, lists, entry, base, calls, same, sizes⟩ := good.enter
  have freshE := (fresh (coreUnits (units nbytes) * HDRSIZE)).congr base calls
  obtain ⟨fuel, h', ⟨b, run, handed, _⟩ | ⟨run, _, _, calls', good', base', sizes'⟩⟩ :=
    lists.mallocLoop entry (same.trans answers) positive inside freshE (by rw [base]; exact good.2.1)
  · exact ⟨fuel, h', .inl ⟨b, run, ⟨handed.good, handed.base.trans base, handed.own,
      fun c member => (handed.others c member).trans (sizes c member)⟩⟩⟩
  · refine ⟨fuel, h', .inr ⟨_, run, calls'.trans (by rw [calls]), good', base'.trans base, fun c member => ?_⟩⟩
    rw [sizes', sizes c member]

end Malloc

end Xv6
