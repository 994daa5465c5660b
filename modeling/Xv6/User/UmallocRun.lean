import Xv6.User.Umalloc

/-!
# Runs of the user heap allocator

A run is a sequence of calls of `malloc` and `free`, and of writes of the program into the
blocks it holds. What `sbrk` answers is chosen anew for every call.
-/

namespace Xv6
open Chain Spans Runs List

/-- The heap, and the pointers handed out with the bytes they were asked for. -/
structure MallocSys where
  heap : Heap
  live : List (Nat × Nat) := []

/-- The block of a pointer that was handed out. -/
def blockOf (l : Nat × Nat) : Nat := l.1 - HDRSIZE

/-- The program writes to its own bytes: a header is read back unless it overlaps them. -/
structure MallocSys.Writes (s : MallocSys) (h : Heap) : Prop where
  base : h.base = s.heap.base
  freep : h.freep = s.heap.freep
  calls : h.calls = s.heap.calls
  outside : ∀ x, (∀ l ∈ s.live, x + HDRSIZE ≤ l.1 ∨ l.1 + l.2 ≤ x) → h.ptr x = s.heap.ptr x ∧ h.size x = s.heap.size x

inductive MallocOp where
  | malloc (nbytes r : Nat)
  | free (ap : Nat)
  | write

inductive MallocStep : MallocOp → MallocSys → MallocSys → Prop where
  | malloc {s : MallocSys} {fuel nbytes r : Nat} {sbrk : Nat → Option Nat} {h : Heap} :
      nbytes < 2 ^ 30 → s.heap.Fresh sbrk → Heap.malloc fuel nbytes { s.heap with answers := [sbrk] } = some (r, h) →
      MallocStep (.malloc nbytes r) s ⟨h, if r = 0 then s.live else (r, nbytes) :: s.live⟩
  | free {s : MallocSys} {fuel ap nbytes : Nat} {h : Heap} :
      (ap, nbytes) ∈ s.live → s.heap.free fuel ap = some h → MallocStep (.free ap) s ⟨h, s.live.erase (ap, nbytes)⟩
  | write {s : MallocSys} {h : Heap} : s.Writes h → MallocStep .write s { s with heap := h }

/-- **The invariant**: the blocks are as they should be, and every one in use has room for its bytes. -/
structure MallocSys.Sound (s : MallocSys) : Prop where
  good : s.heap.Good (s.live.map blockOf)
  room : ∀ l ∈ s.live, HDRSIZE ≤ l.1 ∧ l.2 + HDRSIZE ≤ s.heap.size (blockOf l) * HDRSIZE

section Steps

variable {s s' : MallocSys} {h : Heap} {fs bs cs : List Nat}

theorem Heap.Lists.perm (lists : h.Lists fs bs []) (same : bs.Perm cs) : h.Lists fs cs [] :=
  { lists with tiles := lists.tiles.perm ((same.append_left fs).map _) }

/-- What `sbrk` will answer is not part of the blocks. -/
theorem Heap.Good.answers (good : h.Good bs) (answers : List (Nat → Option Nat)) : Heap.Good { h with answers := answers } bs := by
  obtain ⟨positive, word, start | ⟨fs, lists, entry⟩⟩ := good
  · exact ⟨positive, word, .inl start⟩
  · exact ⟨positive, word, .inr ⟨fs, lists.congr rfl (fun _ => .rfl) (fun _ _ => rfl) (fun _ _ => rfl), entry⟩⟩

theorem blockOf_add (b n : Nat) : blockOf (b + HDRSIZE, n) = b := Nat.add_sub_cancel ..

/-- `malloc` from a sound state: a new pointer, or null and `sbrk` failed. -/
theorem MallocSys.Sound.malloc (sound : s.Sound) {sbrk : Nat → Option Nat} (fresh : s.heap.Fresh sbrk) {nbytes : Nat}
    (small : nbytes < 2 ^ 30) :
    ∃ fuel r h', Heap.malloc fuel nbytes { s.heap with answers := [sbrk] } = some (r, h') ∧
      MallocSys.Sound ⟨h', if r = 0 then s.live else (r, nbytes) :: s.live⟩ ∧
      (r = 0 → ∃ k, h'.calls = s.heap.calls ++ [(k, none)]) := by
  obtain ⟨fuel, h', ⟨b, run, handed⟩ | ⟨k, run, calls, good, _, sizes⟩⟩ :=
    (sound.good.answers [sbrk]).malloc rfl (fun k => (fresh k).congr rfl rfl) small
  · have some : b + HDRSIZE ≠ 0 := by simp only [HDRSIZE]; omega
    refine ⟨fuel, _, h', run, ⟨?_, fun l member => ?_⟩, fun null => absurd null some⟩
    · rw [if_neg some, map_cons, blockOf_add]
      exact handed.good
    · rw [if_neg some] at member
      rcases mem_cons.1 member with rfl | old
      · refine ⟨Nat.le_add_left .., ?_⟩
        rw [blockOf_add, handed.own]
        exact (units_room small).1
      · rw [handed.others _ (mem_map_of_mem old)]
        exact sound.room l old
  · refine ⟨fuel, 0, h', run, ⟨good, fun l member => ?_⟩, fun _ => ⟨k, calls⟩⟩
    rw [sizes _ (mem_map_of_mem member)]
    exact sound.room l member

/-- `free` of a pointer that is held. -/
theorem MallocSys.Sound.free (sound : s.Sound) {l : Nat × Nat} (held : l ∈ s.live) :
    ∃ fuel h', s.heap.free fuel l.1 = some h' ∧ MallocSys.Sound ⟨h', s.live.erase l⟩ := by
  obtain ⟨positive, word, ⟨_, none, _⟩ | ⟨fs, lists, entry⟩⟩ := sound.good
  · exact absurd (none ▸ mem_map_of_mem held) not_mem_nil
  have erased := perm_cons_erase held
  have lists' := lists.perm (erased.map blockOf)
  obtain ⟨h', fs', run, freed, entry', ⟨base, _⟩, sizes, _⟩ := lists'.free entry (Nat.lt_succ_self _)
  have pointer : hdrAdd (blockOf l) 1 = l.1 := by
    obtain ⟨_, ends, some⟩ := lists'.inside (mem_append_right _ (mem_cons_self ..))
    have low := (sound.room l held).1
    simp only [Heap.span, Span.stop, blockOf, HDRSIZE] at ends some low
    rw [hdrAdd_eq (by simp only [blockOf, HDRSIZE]; omega)]
    simp only [blockOf, HDRSIZE]
    omega
  rw [pointer] at run
  refine ⟨_, h', run, ⟨⟨base ▸ positive, base ▸ word, .inr ⟨fs', freed, entry'⟩⟩, fun k member => ?_⟩⟩
  dsimp only at member ⊢
  rw [sizes _ (mem_map_of_mem member)]
  exact sound.room k (mem_of_mem_erase member)

/-- Writes of the program do not reach a header. -/
theorem MallocSys.Sound.write (sound : s.Sound) (writes : s.Writes h) : MallocSys.Sound { s with heap := h } := by
  obtain ⟨positive, word, start | ⟨fs, lists, entry⟩⟩ := sound.good
  · refine ⟨⟨by rw [writes.base]; exact positive, by rw [writes.base]; exact word, .inl ⟨writes.freep.trans start.1, start.2.1, ?_⟩⟩, ?_⟩
    · intro x has
      rw [Heap.Obtained, writes.calls] at has
      exact start.2.2 x has
    · intro l held
      exact absurd (start.2.1 ▸ mem_map_of_mem held) not_mem_nil
  · have headers : ∀ c ∈ s.heap.base :: (fs ++ s.live.map blockOf), h.ptr c = s.heap.ptr c ∧ h.size c = s.heap.size c := by
      intro c member
      refine writes.outside c fun l held => ?_
      obtain ⟨low, room⟩ := sound.room l held
      have block : blockOf l ∈ fs ++ s.live.map blockOf := mem_append_right _ (mem_map_of_mem held)
      have pointer : l.1 = blockOf l + HDRSIZE := (Nat.sub_add_cancel low).symm
      have above := (lists.inside block).1
      have stop : (s.heap.span (blockOf l)).stop = blockOf l + s.heap.size (blockOf l) * HDRSIZE := rfl
      rcases mem_cons.1 member with rfl | other
      · exact .inl (by omega)
      · rcases Nat.lt_trichotomy c (blockOf l) with less | same | more
        · have ends := lists.stop_le other block less
          have some := (lists.inside other).2.2
          simp only [Heap.span, Span.stop, HDRSIZE] at ends pointer ⊢
          exact .inl (by omega)
        · exact .inl (by omega)
        · have ends := lists.stop_le block other more
          exact .inr (by omega)
    refine ⟨⟨by rw [writes.base]; exact positive, by rw [writes.base]; exact word, .inr ⟨fs, ?_, ?_⟩⟩, fun l held => ?_⟩
    · refine lists.congr writes.base (fun x => ?_) (fun c member => (headers c ?_).1) fun c member => (headers c member).2
      · rw [Heap.Obtained, Heap.Obtained, writes.calls]
      · exact (mem_cons.1 member).elim (fun same => same ▸ mem_cons_self ..)
          fun free => mem_cons_of_mem _ (mem_append_left _ free)
    · show h.freep ∈ h.base :: fs
      rw [writes.freep, writes.base]
      exact entry
    · dsimp only at held ⊢
      rw [(headers _ (mem_cons_of_mem _ (mem_append_right _ (mem_map_of_mem held)))).2]
      exact sound.room l held

/-- **Every step keeps the invariant.** -/
theorem MallocStep.sound {op : MallocOp} (step : MallocStep op s s') (sound : s.Sound) : s'.Sound := by
  cases step with
  | @malloc _ fuel nbytes r sbrk h small fresh run =>
    obtain ⟨fuel', r', h', run', sound', _⟩ := sound.malloc fresh small
    have same := (Heap.mallocLoop_more run (Nat.le_max_left fuel fuel')).symm.trans
      (Heap.mallocLoop_more run' (Nat.le_max_right fuel fuel'))
    cases same
    exact sound'
  | @free _ fuel ap nbytes h held run =>
    obtain ⟨fuel', h', run', sound'⟩ := sound.free held
    have same := (Heap.free_more run (Nat.le_max_left fuel fuel')).symm.trans
      (Heap.free_more run' (Nat.le_max_right fuel fuel'))
    cases same
    exact sound'
  | write writes => exact sound.write writes

end Steps

/-- **The heap in order**, with the free blocks `fs`: the list from `freep` is circular, in
address order with one wrap at `base`; no free block touches another; the free blocks and
those in use are apart and make up what was obtained; and every block in use has room. -/
structure MallocSys.Ordered (s : MallocSys) (fs : List Nat) : Prop where
  circular : ∃ lo hi, s.heap.base :: fs = lo ++ s.heap.freep :: hi ∧
    Seg s.heap.ptr s.heap.freep (s.heap.freep :: hi ++ lo) s.heap.freep
  increasing : (s.heap.base :: fs).Pairwise (· < ·)
  gaps : ∀ a ∈ fs, ∀ b ∈ fs, (s.heap.span a).stop ≠ b
  tiled : Tiles ((fs ++ s.live.map blockOf).map s.heap.span) s.heap.Obtained
  room : ∀ l ∈ s.live, (s.heap.span (blockOf l)).start + HDRSIZE = l.1 ∧ l.1 + l.2 ≤ (s.heap.span (blockOf l)).stop

section Run

variable {s s0 : MallocSys} {ops : List MallocOp}

theorem MallocSys.Sound.ordered (sound : s.Sound) :
    (s.heap.freep = 0 ∧ s.live = [] ∧ ∀ x, ¬ s.heap.Obtained x) ∨ ∃ fs, s.Ordered fs := by
  obtain ⟨_, _, ⟨start, none, nothing⟩ | ⟨fs, lists, entry⟩⟩ := sound.good
  · exact .inl ⟨start, map_eq_nil_iff.1 none, nothing⟩
  · obtain ⟨lo, hi, parts⟩ := append_of_mem entry
    have chain := lists.chain
    rw [parts] at chain
    obtain ⟨y, turned⟩ := chain.rotate
    have here : y = s.heap.freep := turned.1
    subst here
    refine .inr ⟨fs, ⟨lo, hi, parts, turned⟩, lists.sorted, fun a free b other touch => ?_, lists.tiles, fun l held => ?_⟩
    · exact lists.apart a free not_mem_nil (touch ▸ other)
    · obtain ⟨low, room⟩ := sound.room l held
      have pointer : blockOf l + HDRSIZE = l.1 := Nat.sub_add_cancel low
      refine ⟨pointer, ?_⟩
      show l.1 + l.2 ≤ blockOf l + s.heap.size (blockOf l) * HDRSIZE
      omega

/-- **The user heap allocator**, over every run of `malloc` and `free` and of writes to the
blocks in use: the heap is in order, both calls return, and `malloc` returns null only when
`sbrk` failed. -/
theorem malloc_run_ordered (start : s0.heap.freep = 0) (none : s0.live = []) (calls : s0.heap.calls = [])
    (base : 0 < s0.heap.base) (word : s0.heap.base + HDRSIZE < 2 ^ 32) (run : Trace MallocStep s0 ops s) :
    ((s.heap.freep = 0 ∧ s.live = [] ∧ ∀ x, ¬ s.heap.Obtained x) ∨ ∃ fs, s.Ordered fs) ∧
    (∀ nbytes sbrk, nbytes < 2 ^ 30 → s.heap.Fresh sbrk →
      ∃ fuel r h, Heap.malloc fuel nbytes { s.heap with answers := [sbrk] } = some (r, h)) ∧
    (∀ l ∈ s.live, ∃ fuel h, s.heap.free fuel l.1 = some h) ∧
    ∀ nbytes s', MallocStep (.malloc nbytes 0) s s' → ∃ k, s'.heap.calls = s.heap.calls ++ [(k, Option.none)] := by
  have sound : s.Sound := by
    refine run.invariant (fun op s s' sound step => step.sound sound) ⟨⟨base, word, .inl ⟨start, by rw [none]; rfl, ?_⟩⟩, ?_⟩
    · rintro x ⟨k, a, member, _⟩
      rw [calls] at member
      cases member
    · rw [none]
      exact fun l held => absurd held List.not_mem_nil
  refine ⟨sound.ordered, fun nbytes sbrk small fresh => ?_, fun l held => ?_, fun nbytes s' step => ?_⟩
  · obtain ⟨fuel, r, h, result, _⟩ := sound.malloc fresh small
    exact ⟨fuel, r, h, result⟩
  · obtain ⟨fuel, h, result, _⟩ := sound.free held
    exact ⟨fuel, h, result⟩
  · generalize isOp : MallocOp.malloc nbytes 0 = op at step
    cases step with
    | @malloc _ fuel nbytes' r sbrk h small fresh result =>
      cases isOp
      obtain ⟨fuel', r', h', result', _, null⟩ := sound.malloc fresh small
      have same := (Heap.mallocLoop_more result (Nat.le_max_left fuel fuel')).symm.trans
        (Heap.mallocLoop_more result' (Nat.le_max_right fuel fuel'))
      cases same
      exact null rfl
    | free _ _ => cases isOp
    | write _ => cases isOp

end Run

/-- A heap before the first call, with `base` at 1000. -/
def startHeap : MallocSys where
  heap := { base := 1000, ptr := fun _ => 0, size := fun _ => 0 }

/-- The first answer of `sbrk`, when everything it gives lies at 8192. -/
theorem startHeap_fresh : startHeap.heap.Fresh fun k => if k ≤ 40960 then some 8192 else none := by
  intro k a answer
  dsimp only at answer
  split at answer
  · rename_i small
    cases answer
    refine ⟨by decide, ?_, by omega⟩
    rintro x ⟨_, _, member, _⟩
    cases member
  · cases answer

/-- Ten bytes from a fresh heap, and back. -/
theorem malloc_run_ordered_once :
    ∃ s, Trace MallocStep startHeap [.malloc 10 40944, .free 40944] s ∧ s.live = [] ∧ ∃ fs, s.Ordered fs := by
  have taken := @MallocStep.malloc startHeap 4 10 40944 _ _ (by decide) startHeap_fresh rfl
  have run := Trace.snoc (.snoc .nil taken) (@MallocStep.free _ 4 40944 10 _ (List.mem_cons_self ..) rfl)
  refine ⟨_, run, rfl, ?_⟩
  exact (malloc_run_ordered rfl rfl rfl (by decide) (by decide) run).1.resolve_left fun start => by
    exact absurd start.1 (by decide)

end Xv6
