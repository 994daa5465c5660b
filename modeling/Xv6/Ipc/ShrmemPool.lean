import Xv6.Ipc.ShrmemSys
import Mathlib.Algebra.Order.BigOperators.Group.Finset

/-!
# The pages of the pool

The events of a run tell which pages `make_shrmem` has got and not given back
(`segments`). As long as no call uses the sign 0 and `make_shrmem` finds a free page,
these are the pages of the pool: every address that is read, written or freed is one of
them, and none is lost.
-/

namespace Xv6

open RefCount Tables Fallible Runs Function List

/-! ## The events of a run -/

/-- Pages that `make_shrmem` got and that have not been freed since. -/
def segments (es : List PoolEvent) : Finset Nat :=
  es.foldl (fun s e =>
    match e with
    | .got f => insert f s
    | .freed (.page f) => s.erase f
    | _ => s) ∅

/-- An address that is freed, read or written is a page of `s`. -/
def PoolEvent.Allowed (s : Finset Nat) : PoolEvent → Prop
  | .got _ => True
  | .freed a => ∃ f ∈ s, a = .page f
  | .touched a => ∃ f ∈ s, a = .page f

/-- Every event concerns a page that `make_shrmem` had got and nobody had freed. -/
def WellUsed (es : List PoolEvent) : Prop :=
  ∀ xs e ys, es = xs ++ e :: ys → e.Allowed (segments xs)

section Events

variable {es : List PoolEvent} {e : PoolEvent} {f g : Nat}

theorem mem_segments_got : g ∈ segments (es ++ [.got f]) ↔ g = f ∨ g ∈ segments es := by
  simp [segments]

theorem mem_segments_freed : g ∈ segments (es ++ [.freed (.page f)]) ↔ g ≠ f ∧ g ∈ segments es := by
  simp [segments]

theorem segments_touched (es : List PoolEvent) (a : ShrAddr) : segments (es ++ [.touched a]) = segments es := by
  simp [segments]

theorem WellUsed.nil : WellUsed [] := by
  intro xs e ys split
  simp at split

theorem WellUsed.snoc (used : WellUsed es) (allowed : e.Allowed (segments es)) : WellUsed (es ++ [e]) := by
  intro xs e' ys split
  rcases append_eq_append_iff.1 split with ⟨zs, first, second⟩ | ⟨zs, first, second⟩
  · -- the event is the new one
    cases zs with
    | nil =>
      rw [append_nil] at first
      cases second
      rwa [first]
    | cons z zs => simp at second
  · cases zs with
    | nil =>
      rw [append_nil] at first
      cases second
      rwa [← first]
    | cons z zs =>
      cases second
      exact used xs e' zs first

end Events

/-! ## The pool in order -/

namespace Shm

variable {D : Nat → Prop} {R : Use Nat} {st st' : Shm} {i j cur f : Nat} {km : Kmem} {sign r : Int}

/-- Exactly the entries with a sign hold pages, and the pages are those of the events. -/
structure Tidy (st : Shm) : Prop where
  pages : ∀ i < SHR_MEM_NUM, (st.shrmems i).sig ≠ 0 ↔ ∃ f, (st.shrmems i).addr = .page f
  ledger : ∀ f, f ∈ segments st.events ↔ ∃ i < SHR_MEM_NUM, (st.shrmems i).addr = .page f
  log : WellUsed st.events

/-- The page of entry `i` is among those of the entries other than `l`. -/
theorem rest_pos {l : Nat} (inside : i < SHR_MEM_NUM) (addr : (st.shrmems i).addr = .page f) (ne : i ≠ l) :
    0 < total (st.rest l) f := by
  have use : (st.shrmems i).use = ref f true := by rw [ShareMemory.use, addr]
  have mem : i ∈ (Finset.range SHR_MEM_NUM).erase l := Finset.mem_erase.2 ⟨ne, Finset.mem_range.2 inside⟩
  have more : total (st.shrmems i).use f ≤ total (st.rest l) f := by
    rw [rest, total_sum]
    exact Finset.single_le_sum (f := fun l => total (st.shrmems l).use f) (fun _ _ => Nat.zero_le _) mem
  rw [use, total_ref_self] at more
  exact more

/-- Two entries never hold the same page. -/
theorem page_unique (acct : Acct D (R + st.use) st.km) (insideI : i < SHR_MEM_NUM) (insideJ : j < SHR_MEM_NUM)
    (addrI : (st.shrmems i).addr = .page f) (addrJ : (st.shrmems j).addr = .page f) : i = j := by
  by_contra ne
  have pageI : (st.shrmems i).use = ref f true := by rw [ShareMemory.use, addrI]
  rw [st.use_split insideI, pageI, ← add_assoc] at acct
  have alone := acct.counted.exclusive
  have more := rest_pos insideJ addrJ (Ne.symm ne)
  rw [total_add] at alone
  omega

/-- Entry `i` is replaced by `e`, and the pages of the events follow. -/
theorem Tidy.replace {e : ShareMemory} (tidy : st.Tidy) (slots : st'.shrmems = update st.shrmems i e)
    (inside : i < SHR_MEM_NUM) (entry : e.sig ≠ 0 ↔ ∃ f, e.addr = .page f)
    (ledger : ∀ f, f ∈ segments st'.events ↔
      e.addr = .page f ∨ ∃ l < SHR_MEM_NUM, l ≠ i ∧ (st.shrmems l).addr = .page f)
    (log : WellUsed st'.events) : st'.Tidy := by
  have here : st'.shrmems i = e := by rw [slots, update_self]
  have there : ∀ l, l ≠ i → st'.shrmems l = st.shrmems l := fun l ne => by rw [slots, update_of_ne ne]
  refine ⟨?_, ?_, log⟩
  · intro l insideL
    by_cases same : l = i
    · rw [same, here]
      exact entry
    · rw [there l same]
      exact tidy.pages l insideL
  · intro f
    rw [ledger]
    constructor
    · rintro (addr | ⟨l, insideL, ne, addr⟩)
      · exact ⟨i, inside, by rw [here]; exact addr⟩
      · exact ⟨l, insideL, by rw [there l ne]; exact addr⟩
    · rintro ⟨l, insideL, addr⟩
      by_cases same : l = i
      · rw [same, here] at addr
        exact .inl addr
      · rw [there l same] at addr
        exact .inr ⟨l, insideL, same, addr⟩

/-- A free entry gets a page from `kalloc`. -/
theorem Tidy.fill (tidy : st.Tidy) (inside : i < SHR_MEM_NUM) (free : (st.shrmems i).sig = 0) (nonzero : sign ≠ 0)
    (page : st.km.freelist ≠ []) : (st.fillSlot i sign).Tidy := by
  obtain ⟨g, rest, list⟩ : ∃ g rest, st.km.freelist = g :: rest := exists_cons_of_ne_nil page
  obtain ⟨km, alloc⟩ : ∃ km, kalloc st.km = (some g, km) := by
    rw [kalloc, list]
    exact ⟨_, rfl⟩
  have filled : st.fillSlot i sign = ({ st with km := km }.setSlot i ⟨.page g, sign⟩).event (.got g) := by
    rw [fillSlot, alloc]
  have empty : ∀ f, (st.shrmems i).addr ≠ .page f := fun f addr => (tidy.pages i inside).2 ⟨f, addr⟩ free
  rw [filled]
  refine tidy.replace (e := ⟨.page g, sign⟩) rfl inside ⟨fun _ => ⟨g, rfl⟩, fun _ => nonzero⟩ ?_ (tidy.log.snoc trivial)
  intro f
  show f ∈ segments (st.events ++ [.got g]) ↔ _
  rw [mem_segments_got, tidy.ledger]
  constructor
  · rintro (rfl | ⟨l, insideL, addr⟩)
    · exact .inl rfl
    · refine .inr ⟨l, insideL, ?_, addr⟩
      rintro rfl
      exact empty f addr
  · rintro (same | ⟨l, insideL, _, addr⟩)
    · cases same
      exact .inl rfl
    · exact .inr ⟨l, insideL, addr⟩

/-- The page of an entry is freed. -/
theorem Tidy.removed (tidy : st.Tidy) (acct : Acct D (R + st.use) st.km) (inside : i < SHR_MEM_NUM)
    (addr : (st.shrmems i).addr = .page f) (cur j : Nat) (km : Kmem) : (st.removed cur i j km).Tidy := by
  have segment : f ∈ segments st.events := (tidy.ledger f).2 ⟨i, inside, addr⟩
  have events : (st.removed cur i j km).events = st.events ++ [.freed (.page f)] := by rw [← addr]; rfl
  refine tidy.replace (e := ⟨.minusOne, 0⟩) rfl inside (by simp) ?_ ?_
  · intro g
    rw [events, mem_segments_freed, tidy.ledger]
    constructor
    · rintro ⟨ne, l, insideL, addrL⟩
      refine .inr ⟨l, insideL, ?_, addrL⟩
      rintro rfl
      rw [addr] at addrL
      cases addrL
      exact ne rfl
    · rintro (never | ⟨l, insideL, other, addrL⟩)
      · cases never
      · refine ⟨?_, l, insideL, addrL⟩
        rintro rfl
        exact other (page_unique acct insideL inside addrL addr)
  · rw [events]
    exact tidy.log.snoc ⟨f, segment, rfl⟩

theorem Tidy.touch (tidy : st.Tidy) (inside : i < SHR_MEM_NUM) (addr : (st.shrmems i).addr = .page f) (km : Kmem) :
    ({ st with km := km }.event (.touched (.page f))).Tidy := by
  have segment : f ∈ segments st.events := (tidy.ledger f).2 ⟨i, inside, addr⟩
  refine ⟨tidy.pages, ?_, tidy.log.snoc ⟨f, segment, rfl⟩⟩
  intro g
  show g ∈ segments (st.events ++ [.touched (.page f)]) ↔ _
  rw [segments_touched]
  exact tidy.ledger g

theorem Tidy.remove (tidy : st.Tidy) (acct : Acct D (R + st.use) st.km)
    (call : removeShrmem cur sign st = .ok (r, st')) : st'.Tidy := by
  rcases removeShrmem_cases call with ⟨_, rfl, _⟩ | ⟨j, i, f, km, _, _, foundSlot, addr, _, rfl⟩
  · exact tidy
  · exact tidy.removed acct (findSlot_some foundSlot).1 addr cur j km

/-- With a sign other than 0 `remove_shrmem` does not panic. -/
theorem Tidy.remove_returns (tidy : st.Tidy) (acct : Acct D (R + st.use) st.km) (nonzero : sign ≠ 0) (cur : Nat) :
    ∃ r st', removeShrmem cur sign st = .ok (r, st') := by
  apply removeShrmem_returns acct
  intro i inside here
  apply (tidy.pages i inside).1
  rw [here]
  exact nonzero

/-- The pool while `exit` releases entries. -/
theorem Tidy.exit (tidy : st.Tidy) (acct : Acct D (R + st.use) st.km) (cur : Nat) :
    (∃ st', exitShrmem cur st = .ok st') ∧ ∀ st', exitShrmem cur st = .ok st' → st'.Tidy := by
  let I : List Nat → Shm → Prop := fun _ st => st.Tidy ∧ Acct D (R + st.use) st.km
  have keep : ∀ (u : Shm) j, u.Tidy ∧ Acct D (R + u.use) u.km →
      (u.setSig cur j (-1)).Tidy ∧ Acct D (R + (u.setSig cur j (-1)).use) (u.setSig cur j (-1)).km :=
    fun u j ⟨tidy, acct⟩ => ⟨⟨tidy.pages, tidy.ledger, tidy.log⟩, acct⟩
  constructor
  · apply exitLoop_returns (I := I) (fun j _ u inv _ => keep u j inv) _ _ st ⟨tidy, acct⟩
    intro j js u inv used
    obtain ⟨r, u', call⟩ := inv.1.remove_returns inv.2 used cur
    exact ⟨r, u', call, keep u' j ⟨inv.1.remove inv.2 call, (remove_books inv.2 call).1⟩⟩
  · intro st' run
    refine (exitLoop_rule (I := I) (fun j _ u inv _ => keep u j inv) ?_ run ⟨tidy, acct⟩).1
    intro j js u r u' inv _ call
    exact keep u' j ⟨inv.1.remove inv.2 call, (remove_books inv.2 call).1⟩

/-- Each page of `S` is still a segment, or free again. -/
def Returned (S : Finset Nat) (st : Shm) : Prop := ∀ f ∈ S, f ∈ segments st.events ∨ f ∈ st.km.freelist

/-- A page that leaves the pool goes to the free list. -/
theorem Returned.remove {S : Finset Nat} (returned : st.Returned S) (acct : Acct D (R + st.use) st.km)
    (call : removeShrmem cur sign st = .ok (r, st')) : st'.Returned S := by
  rcases removeShrmem_cases call with ⟨_, rfl, _⟩ | ⟨j, i, f, km, _, _, foundSlot, addr, free, rfl⟩
  · exact returned
  · have inside := (findSlot_some foundSlot).1
    cases (freeSlot_acct acct inside addr).1.symm.trans free
    have events : (st.removed cur i j (st.km.release f)).events = st.events ++ [.freed (.page f)] := by rw [← addr]; rfl
    have page : (st.shrmems i).use = ref f true := by rw [ShareMemory.use, addr]
    rw [st.use_split inside, page, ← add_assoc] at acct
    have one : st.km.pcSh f = 1 := by rw [acct.count, acct.counted.exclusive]
    have list : (st.km.release f).freelist = f :: st.km.freelist := by rw [Kmem.release_freelist, if_pos one]
    intro g mem
    rw [events, mem_segments_freed]
    show _ ∨ g ∈ (st.km.release f).freelist
    rw [list, mem_cons]
    by_cases same : g = f
    · exact .inr (.inl same)
    · rcases returned g mem with segment | onList
      · exact .inl ⟨same, segment⟩
      · exact .inr (.inr onList)

theorem Returned.exit {S : Finset Nat} (returned : st.Returned S) (acct : Acct D (R + st.use) st.km)
    (run : exitShrmem cur st = .ok st') : st'.Returned S := by
  refine (exitLoop_rule (I := fun _ u => u.Returned S ∧ Acct D (R + u.use) u.km) (fun _ _ _ inv _ => inv) ?_ run
    ⟨returned, acct⟩).1
  intro j js u r u' inv _ call
  have returned' : u'.Returned S := inv.1.remove inv.2 call
  exact ⟨returned', (remove_books inv.2 call).1⟩

end Shm

/-! ## Careful runs -/

/-- The call does not use the sign 0, and a `make_shrmem` that gets as far as `kalloc` finds
a free page. -/
def ShmOp.Careful (op : ShmOp) (st : ShmSys) : Prop :=
  match op with
  | .make p sign _ => sign ≠ 0 ∧ (st.findSig p 0 ≠ none → st.findSlot 0 ≠ none → st.km.freelist ≠ [])
  | .remove _ sign _ => sign ≠ 0
  | .read _ sign _ => sign ≠ 0
  | .write _ sign _ _ => sign ≠ 0
  | _ => True

/-- A step whose call is careful. -/
def CarefulStep (D : Nat → Prop) (op : ShmOp) (st st' : ShmSys) : Prop := ShmStep D op st st' ∧ op.Careful st

namespace ShmSys

variable {D : Nat → Prop} {st st' : ShmSys} {op : ShmOp} {ops : List ShmOp} {km : Kmem} {R : Use Nat}

theorem tidy_step (inv : st.Inv D) (tidy : st.Tidy) (step : CarefulStep D op st st') : st'.Tidy := by
  obtain ⟨step, careful⟩ := step
  cases step with
  | make _ _ call =>
    rcases makeShrmem_cases call with ⟨_, rfl⟩ | ⟨j, i, _, foundSig, foundSlot, rfl⟩
    · exact tidy
    · obtain ⟨inside, free, _⟩ := Shm.findSlot_some foundSlot
      have page := careful.2 (by rw [foundSig]; rintro ⟨⟩) (by rw [foundSlot]; rintro ⟨⟩)
      have filled := tidy.fill inside free careful.1 page
      exact ⟨filled.pages, filled.ledger, filled.log⟩
  | remove _ _ call => exact tidy.remove inv.acct call
  | read _ _ call =>
    rcases readShrmem_cases call with ⟨_, rfl, _⟩ | ⟨i, f, found, addr, _, rfl⟩
    · exact tidy
    · exact tidy.touch (Shm.findSlot_some found).1 addr st.km
  | write _ _ call =>
    rcases writeShrmem_cases call with ⟨_, rfl, _⟩ | ⟨i, f, found, addr, _, rfl⟩
    · exact tidy
    · exact tidy.touch (Shm.findSlot_some found).1 addr _
  | fork => exact ⟨tidy.pages, tidy.ledger, tidy.log⟩
  | exit _ _ run => exact (tidy.exit inv.acct _).2 _ run
  | rest => exact ⟨tidy.pages, tidy.ledger, tidy.log⟩

theorem tidy_boot (km : Kmem) (R : Use Nat) : (ShmSys.boot km R).Tidy where
  pages := by
    intro i _
    constructor
    · exact fun used => absurd rfl used
    · rintro ⟨f, addr⟩
      cases addr
  ledger := by
    intro f
    constructor
    · exact fun mem => absurd mem (Finset.notMem_empty f)
    · rintro ⟨i, _, addr⟩
      cases addr
  log := .nil

/-- The books and the pool are in order in every state of a careful run. -/
theorem careful_run (acct : Acct D R km) (run : Trace (CarefulStep D) (.boot km R) ops st) : st.Inv D ∧ st.Tidy :=
  run.invariant (I := fun st => st.Inv D ∧ st.Tidy)
    (fun _ _ _ inv step => ⟨inv.1.step step.1, tidy_step inv.1 inv.2 step⟩) ⟨.boot acct, tidy_boot km R⟩

/-- A page that leaves the pool in a step is on the free list after it. -/
theorem returned_step (inv : st.Inv D) (step : CarefulStep D op st st') {f : Nat} (mem : f ∈ segments st.events)
    (gone : f ∉ segments st'.events) : f ∈ st'.km.freelist := by
  have start : st.Returned (segments st.events) := fun g mem => .inl mem
  have either : f ∈ segments st'.events ∨ f ∈ st'.km.freelist := by
    obtain ⟨step, careful⟩ := step
    cases step with
    | make _ _ call =>
      rcases makeShrmem_cases call with ⟨_, rfl⟩ | ⟨j, i, _, _, _, rfl⟩
      · exact .inl mem
      · left
        show f ∈ segments (st.fillSlot i _).events
        rw [Shm.fillSlot]
        split
        · exact mem
        · exact mem_segments_got.2 (.inr mem)
    | remove _ _ call => exact start.remove inv.acct call f mem
    | read _ _ call =>
      rcases readShrmem_cases call with ⟨_, rfl, _⟩ | ⟨i, g, _, _, _, rfl⟩
      · exact .inl mem
      · exact .inl ((segments_touched st.events (.page g)).symm ▸ mem)
    | write _ _ call =>
      rcases writeShrmem_cases call with ⟨_, rfl, _⟩ | ⟨i, g, _, _, _, rfl⟩
      · exact .inl mem
      · exact .inl ((segments_touched st.events (.page g)).symm ▸ mem)
    | fork => exact .inl mem
    | exit _ _ run => exact start.exit inv.acct run f mem
    | rest => exact .inl mem
  exact either.resolve_left gone

/-- Where an entry of a live process comes from: it was there, or the step made it. -/
theorem entry_step {q l : Nat} (step : ShmStep D op st st') (live : st'.live q) (used : st'.sigs q l ≠ 0) :
    op = .make q (st'.sigs q l) 0 ∨ (st.live q = true ∧ st.sigs q l = st'.sigs q l ∧ op ≠ .exit q) := by
  cases step with
  | @make _ p sign _ _ _ _ call =>
    rcases makeShrmem_cases call with ⟨_, rfl⟩ | ⟨j, i, rfl, _, _, rfl⟩
    · exact .inr ⟨live, rfl, by rintro ⟨⟩⟩
    · have entry := (st.fillSlot i sign).sigs_setSig p j sign q l
      rw [st.fillSlot_sigs i sign] at entry
      split at entry
      · rename_i mine
        left
        show ShmOp.make p sign 0 = .make q (((st.fillSlot i sign).setSig p j sign).sigs q l) 0
        rw [entry, mine.1]
      · exact .inr ⟨live, entry.symm, by rintro ⟨⟩⟩
  | @remove _ p sign _ shm _ _ call =>
    right
    refine ⟨live, ?_, by rintro ⟨⟩⟩
    rcases removeShrmem_sigs call with same | ⟨j, cleared⟩
    · rw [same]
    · have entry := st.sigs_setSig p j 0 q l
      have here : shm.sigs q l ≠ 0 := used
      show st.sigs q l = shm.sigs q l
      rw [cleared] at here ⊢
      split at entry
      · exact absurd entry here
      · exact entry.symm
  | read _ _ call =>
    rcases readShrmem_cases call with ⟨_, rfl, _⟩ | ⟨_, _, _, _, _, rfl⟩
    · exact .inr ⟨live, rfl, by rintro ⟨⟩⟩
    · exact .inr ⟨live, rfl, by rintro ⟨⟩⟩
  | write _ _ call =>
    rcases writeShrmem_cases call with ⟨_, rfl, _⟩ | ⟨_, _, _, _, _, rfl⟩
    · exact .inr ⟨live, rfl, by rintro ⟨⟩⟩
    · exact .inr ⟨live, rfl, by rintro ⟨⟩⟩
  | @fork _ p new ok km R _ _ _ _ _ =>
    right
    have other : q ≠ new := by
      rintro rfl
      apply used
      show update st.sigs q (fun _ => 0) q l = 0
      rw [update_self]
    have liveQ : (update st.live new ok) q = true := live
    rw [update_of_ne other] at liveQ
    refine ⟨liveQ, ?_, by rintro ⟨⟩⟩
    show st.sigs q l = update st.sigs new (fun _ => 0) q l
    rw [update_of_ne other]
  | @exit _ p shm _ _ run =>
    right
    have liveQ : (update st.live p false) q = true := live
    have other : q ≠ p := by
      rintro rfl
      rw [update_self] at liveQ
      cases liveQ
    rw [update_of_ne other] at liveQ
    refine ⟨liveQ, ?_, ?_⟩
    · show st.sigs q l = shm.sigs q l
      rw [exitShrmem_sigs run q other]
    · rintro ⟨⟩
      exact other rfl
  | rest => exact .inr ⟨live, rfl, by rintro ⟨⟩⟩

/-- The entries of a process that has not exited come from calls that it made. -/
def Made (ops : List ShmOp) (st : ShmSys) : Prop :=
  ∀ p, st.live p → ∀ j, st.sigs p j ≠ 0 → ∃ xs ys, ops = xs ++ .make p (st.sigs p j) 0 :: ys ∧ .exit p ∉ ys

theorem Made.step (made : Made ops st) (step : ShmStep D op st st') : Made (ops ++ [op]) st' := by
  intro p live j used
  rcases entry_step step live used with new | ⟨before, same, stays⟩
  · exact ⟨ops, [], by rw [new], by rintro ⟨⟩⟩
  · obtain ⟨xs, ys, split, quiet⟩ := made p before j (by rw [same]; exact used)
    rw [same] at split
    refine ⟨xs, ys ++ [op], by rw [split]; simp, ?_⟩
    intro mem
    rcases mem_append.1 mem with old | last
    · exact quiet old
    · exact stays (mem_singleton.1 last).symm

/-- When every process that made a segment has exited, no segment is left. -/
theorem segments_empty (inv : st.Inv D) (tidy : st.Tidy) (made : Made ops st)
    (exited : ∀ xs p s ys, ops = xs ++ .make p s 0 :: ys → .exit p ∈ ys) : segments st.events = ∅ := by
  rw [Finset.eq_empty_iff_forall_notMem]
  intro f mem
  obtain ⟨i, inside, addr⟩ := (tidy.ledger f).1 mem
  have used : (st.shrmems i).sig ≠ 0 := (tidy.pages i inside).2 ⟨f, addr⟩
  have slot : 0 < st.slots (st.shrmems i).sig := tally_pos.2 ⟨i, inside, rfl⟩
  rw [inv.counts _ used, held, Finset.sum_pos_iff] at slot
  obtain ⟨p, _, entry⟩ := slot
  split at entry
  · rename_i live
    obtain ⟨j, _, here⟩ := tally_pos.1 entry
    obtain ⟨xs, ys, split, quiet⟩ := made p live j (by rw [here]; exact used)
    exact quiet (exited xs p _ ys split)
  · omega

end ShmSys

/-! ## Main results -/

section Results

variable {D : Nat → Prop} {km : Kmem} {R : Use Nat} {ops : List ShmOp} {st : ShmSys}

/-- Ownership accounting. For each sign but 0 the pool has as many entries as the processes
that have not exited; entries with a sign hold distinct pages; when every process that made a
segment has exited all segment pages have been given back, and a page that is given back is
on the free list after the step. -/
theorem shrmem_ownership (acct : Acct D R km) (run : Trace (CarefulStep D) (.boot km R) ops st) :
    (∀ s, s ≠ 0 → st.slots s = st.held s) ∧
      (∀ i < SHR_MEM_NUM, ∀ j < SHR_MEM_NUM, (st.shrmems i).sig ≠ 0 → (st.shrmems j).sig ≠ 0 → i ≠ j →
        ∃ f g, (st.shrmems i).addr = .page f ∧ (st.shrmems j).addr = .page g ∧ f ≠ g) ∧
      ((∀ xs p s ys, ops = xs ++ .make p s 0 :: ys → .exit p ∈ ys) → segments st.events = ∅) ∧
      ∀ op st', CarefulStep D op st st' →
        ∀ f ∈ segments st.events, f ∉ segments st'.events → f ∈ st'.km.freelist := by
  obtain ⟨inv, tidy⟩ := ShmSys.careful_run acct run
  have made : ShmSys.Made ops st := run.history (fun _ _ _ _ made step => made.step step.1) fun _ _ _ used => absurd rfl used
  refine ⟨inv.counts, ?_, ShmSys.segments_empty inv tidy made, fun _ _ step f mem gone =>
    ShmSys.returned_step inv step mem gone⟩
  intro i insideI j insideJ usedI usedJ ne
  obtain ⟨f, addrI⟩ := (tidy.pages i insideI).1 usedI
  obtain ⟨g, addrJ⟩ := (tidy.pages j insideJ).1 usedJ
  refine ⟨f, g, addrI, addrJ, ?_⟩
  rintro rfl
  exact ne (Shm.page_unique inv.acct insideI insideJ addrI addrJ)

end Results

/-! ## Examples -/

/-- An allocator with the free pages `fs`. -/
def freePages (fs : List Nat) : Kmem where
  kend := 0x200000
  kdata := 0x180000
  freelist := fs
  fpgn := fs.length
  pcSh := fun _ => 0
  mem := fun _ _ => 0

theorem freePages_acct {fs : List Nat} (nodup : fs.Nodup) (range : ∀ f ∈ fs, 0x200000 ≤ f * PGSIZE ∧ f * PGSIZE < PHYSTOP) :
    Acct (· ∈ fs) 0 (freePages fs) where
  inv := {
    nodup := nodup
    exact := fun _ => ⟨fun mem => ⟨mem, rfl⟩, And.left⟩
    count := rfl
    outside := fun _ _ => rfl
    ushort := fun _ => Nat.succ_pos _
    range := range }
  counted := ⟨fun _ pos => absurd pos (Nat.lt_irrefl 0), fun _ pos => absurd pos (Nat.lt_irrefl 0)⟩

/-- The first process makes a segment. -/
def oneSegment : ShmSys := { ShmSys.boot (freePages [0x300]) 0 with toShm := (makeShrmem 0 7 { km := freePages [0x300] }).2 }

theorem oneSegment_run : Acct (· ∈ [0x300]) 0 (freePages [0x300]) ∧
    Trace (CarefulStep (· ∈ [0x300])) (.boot (freePages [0x300]) 0) [.make 0 7 0] oneSegment := by
  refine ⟨freePages_acct (by decide) (by decide), .snoc .nil ⟨.make (by decide) rfl rfl, ?_⟩⟩
  exact ⟨by decide, fun _ _ => by decide⟩

theorem shrmem_ownership_make : oneSegment.slots 7 = oneSegment.held 7 :=
  (shrmem_ownership oneSegment_run.1 oneSegment_run.2).1 7 (by decide)

end Xv6
