import Xv6.Ipc.ShrmemBooks

/-!
# Processes that share memory

The system as far as shared memory goes: the pool, which slots of the process table
belong to a process that has not exited, and the references that the rest of the kernel
holds. Each call is one step. `fork`, `exec` and whatever else the kernel does change the
allocator and memory as they like, provided they leave alone the pages others refer to.

In every run `pc_sh` counts the pages of the pool and, for each sign but 0, the pool has
as many entries as the processes together.
-/

namespace Xv6

open RefCount Tables Fallible Function List

structure ShmSys extends Shm where
  live : Nat → Bool
  others : Use Nat

/-- The state after `shrmeminit` and `userinit`: one process, an empty pool. -/
def ShmSys.boot (km : Kmem) (others : Use Nat) : ShmSys where
  km := km
  live := fun p => p = 0
  others := others

/-- The system after `fork` has set up slot `q`, successfully or not. -/
def ShmSys.forked (st : ShmSys) (q : Nat) (ok : Bool) (km : Kmem) (others : Use Nat) : ShmSys where
  toShm := { resetSigs q st.toShm with km := km }
  live := Function.update st.live q ok
  others := others

/-- The system after process `p` has exited. -/
def ShmSys.exited (st : ShmSys) (p : Nat) (shm : Shm) : ShmSys :=
  { st with toShm := shm, live := Function.update st.live p false }

/-- What a process did; `r` is the result of the call. -/
inductive ShmOp where
  | make (p : Nat) (sign r : Int)
  | remove (p : Nat) (sign r : Int)
  | read (p : Nat) (sign : Int) (page : Option (Nat → UInt8))
  | write (p : Nat) (sign : Int) (str : List UInt8) (r : Int)
  | fork (p q : Nat) (ok : Bool)
  | exit (p : Nat)
  /-- `exec`, and whatever else the kernel does. -/
  | rest

/-- The rest of the kernel trades the references `R` for `R'` and keeps its books, and the
pages of everybody else. -/
def Respects (D : Nat → Prop) (R : Use Nat) (km : Kmem) (R' : Use Nat) (km' : Kmem) : Prop :=
  ∀ U, Acct D (R + U) km → Acct D (R' + U) km' ∧ Kept U km km'

/-- One step of the system. A new process is put into a slot `q` that none uses; when
`fork` fails late the slot stays free. -/
inductive ShmStep (D : Nat → Prop) : ShmOp → ShmSys → ShmSys → Prop where
  | make {st : ShmSys} {p : Nat} {sign r : Int} {shm : Shm} : p < NPROC → st.live p →
      makeShrmem p sign st.toShm = (r, shm) → ShmStep D (.make p sign r) st { st with toShm := shm }
  | remove {st : ShmSys} {p : Nat} {sign r : Int} {shm : Shm} : p < NPROC → st.live p →
      removeShrmem p sign st.toShm = .ok (r, shm) → ShmStep D (.remove p sign r) st { st with toShm := shm }
  | read {st : ShmSys} {p : Nat} {sign : Int} {page : Option (Nat → UInt8)} {shm : Shm} : p < NPROC → st.live p →
      readShrmem sign st.toShm = .ok (page, shm) → ShmStep D (.read p sign page) st { st with toShm := shm }
  | write {st : ShmSys} {p : Nat} {sign r : Int} {str : List UInt8} {shm : Shm} : p < NPROC → st.live p →
      writeShrmem sign str st.toShm = .ok (r, shm) → ShmStep D (.write p sign str r) st { st with toShm := shm }
  | fork {st : ShmSys} {p q : Nat} {ok : Bool} {km : Kmem} {R : Use Nat} : p < NPROC → st.live p →
      q < NPROC → st.live q = false → Respects D st.others st.km R km →
      ShmStep D (.fork p q ok) st (st.forked q ok km R)
  | exit {st : ShmSys} {p : Nat} {shm : Shm} : p < NPROC → st.live p → exitShrmem p st.toShm = .ok shm →
      ShmStep D (.exit p) st (st.exited p shm)
  | rest {st : ShmSys} {km : Kmem} {R : Use Nat} : Respects D st.others st.km R km →
      ShmStep D .rest st { st with km := km, others := R }

/-! ## `exit` -/

section Exit

variable {cur : Nat} {D : Nat → Prop} {R : Use Nat} {I : List Nat → Shm → Prop}

/-- Rule for the loop of `exit`: an invariant over the entries left and the state. -/
theorem exitLoop_rule (skip : ∀ j js st, I (j :: js) st → st.sigs cur j = 0 → I js (st.setSig cur j (-1)))
    (release : ∀ j js st r st1, I (j :: js) st → st.sigs cur j ≠ 0 → removeShrmem cur (st.sigs cur j) st = .ok (r, st1) → I js (st1.setSig cur j (-1)))
    {js : List Nat} {st st' : Shm} (run : exitLoop cur js st = .ok st') (start : I js st) : I [] st' := by
  induction js generalizing st with
  | nil =>
    cases run
    exact start
  | cons j js ih =>
    rw [exitLoop] at run
    split at run
    · rename_i used
      obtain ⟨⟨r, st1⟩, call, rest⟩ := bind_ok.1 run
      exact ih rest (release j js st r st1 start used call)
    · rename_i free
      exact ih run (skip j js st start (not_not.1 free))

/-- The loop returns when each of its calls does. -/
theorem exitLoop_returns (skip : ∀ j js st, I (j :: js) st → st.sigs cur j = 0 → I js (st.setSig cur j (-1)))
    (release : ∀ j js st, I (j :: js) st → st.sigs cur j ≠ 0 → ∃ r st1, removeShrmem cur (st.sigs cur j) st = .ok (r, st1) ∧ I js (st1.setSig cur j (-1)))
    (js : List Nat) : ∀ st, I js st → ∃ st', exitLoop cur js st = .ok st' := by
  induction js with
  | nil =>
    intro st _
    exact ⟨st, rfl⟩
  | cons j js ih =>
    intro st start
    rw [exitLoop]
    split
    · rename_i used
      obtain ⟨r, st1, call, next⟩ := release j js st start used
      rw [call, ok_bind]
      exact ih _ next
    · rename_i free
      exact ih _ (skip j js st start (not_not.1 free))

/-- `exit` changes no other process's entries. -/
theorem exitShrmem_sigs {st st' : Shm} (run : exitShrmem cur st = .ok st') : ∀ p, p ≠ cur → st'.sigs p = st.sigs p := by
  refine exitLoop_rule (I := fun _ u => ∀ p, p ≠ cur → u.sigs p = st.sigs p) ?_ ?_ run (fun _ _ => rfl)
  · intro j js u same _ p ne
    rw [Shm.sigs_setSig_of_ne ne, same p ne]
  · intro j js u r u' same _ call p ne
    rw [Shm.sigs_setSig_of_ne ne, ← same p ne]
    rcases removeShrmem_sigs call with eq | ⟨l, eq⟩
    · rw [eq]
    · rw [eq, Shm.sigs_setSig_of_ne ne]

end Exit

namespace Shm

variable {D : Nat → Prop} {R : Use Nat} {st st' : Shm} {cur i j f : Nat} {km : Kmem} {sign r s : Int}

theorem removed_acct (acct : Acct D (R + st.use) st.km) (inside : i < SHR_MEM_NUM)
    (addr : (st.shrmems i).addr = .page f) (free : kfree (P2V (f * PGSIZE)) st.km = .ok km) :
    Acct D (R + (st.removed cur i j km).use) km ∧ Kept (R + st.rest i) st.km km := by
  obtain ⟨freed, acct', kept⟩ := freeSlot_acct acct inside addr
  cases freed.symm.trans free
  refine ⟨?_, kept⟩
  have use : (st.removed cur i j (st.km.release f)).use = st.rest i + 0 := st.use_setSlot inside ⟨.minusOne, 0⟩
  rw [use, add_zero]
  exact acct'

theorem removed_slots (inside : i < SHR_MEM_NUM) (nonzero : s ≠ 0) :
    (st.removed cur i j km).slots s + (if (st.shrmems i).sig = s then 1 else 0) = st.slots s := by
  have moved := st.slots_setSlot inside ⟨.minusOne, 0⟩ s
  rw [if_neg nonzero.symm, Nat.add_zero] at moved
  exact moved

/-- One call of `remove_shrmem` that returns: the books, and the entry it clears. -/
theorem remove_books (acct : Acct D (R + st.use) st.km) (call : removeShrmem cur sign st = .ok (r, st')) :
    Acct D (R + st'.use) st'.km ∧
      (st' = st ∧ r = -1 ∧ (st.findSig cur sign = none ∨ st.findSlot sign = none) ∨
        ∃ j, st.findSig cur sign = some j ∧ r = 0 ∧ st'.sigs = (st.setSig cur j 0).sigs ∧
          ∀ s, s ≠ 0 → st'.slots s + (if sign = s then 1 else 0) = st.slots s) := by
  rcases removeShrmem_cases call with ⟨rfl, rfl, missing⟩ | ⟨j, i, f, km, rfl, foundSig, foundSlot, addr, free, rfl⟩
  · exact ⟨acct, .inl ⟨rfl, rfl, missing⟩⟩
  · obtain ⟨inside, here, _⟩ := findSlot_some foundSlot
    refine ⟨(removed_acct acct inside addr free).1, .inr ⟨j, foundSig, rfl, rfl, ?_⟩⟩
    intro s nonzero
    rw [← here]
    exact removed_slots inside nonzero

/-- What the loop of `exit` keeps: the entries `js` are still to be released, and the pool
has their entries beside the `base` of the other processes. -/
structure Releasing (D : Nat → Prop) (R : Use Nat) (cur : Nat) (base : Int → Nat) (sigs : Nat → Nat → Int)
    (js : List Nat) (st : Shm) : Prop where
  sorted : js.Pairwise (· < ·)
  inside : ∀ j ∈ js, j < PROC_SHR_MEM_NUM
  acct : Acct D (R + st.use) st.km
  counts : ∀ s, s ≠ 0 → st.slots s = base s + js.countP fun j => st.sigs cur j = s
  others : ∀ p, p ≠ cur → st.sigs p = sigs p

variable {base : Int → Nat} {sigs : Nat → Nat → Int} {js : List Nat}

/-- The next entry becomes -1, `u` having changed no entry behind it. -/
theorem Releasing.next {u : Shm} (inv : Releasing D R cur base sigs (j :: js) st) (acct : Acct D (R + u.use) u.km)
    (counts : ∀ s, s ≠ 0 → u.slots s + (if st.sigs cur j = s then 1 else 0) = st.slots s)
    (later : ∀ l ∈ js, u.sigs cur l = st.sigs cur l) (others : ∀ p, p ≠ cur → u.sigs p = st.sigs p) :
    Releasing D R cur base sigs js (u.setSig cur j (-1)) where
  sorted := (pairwise_cons.1 inv.sorted).2
  inside := fun l mem => inv.inside l (mem_cons_of_mem j mem)
  acct := acct
  counts := by
    intro s nonzero
    have before := inv.counts s nonzero
    have now := counts s nonzero
    have tail : js.countP (fun l => (u.setSig cur j (-1)).sigs cur l = s) = js.countP fun l => st.sigs cur l = s := by
      apply countP_congr
      intro l mem
      have after : j < l := (pairwise_cons.1 inv.sorted).1 l mem
      have here : (u.setSig cur j (-1)).sigs cur l = st.sigs cur l := by
        show update u.sigs cur (update (u.sigs cur) j (-1)) cur l = _
        rw [update_self, update_of_ne (by omega), later l mem]
      rw [here]
    have slots : (u.setSig cur j (-1)).slots s = u.slots s := rfl
    rw [tail, slots]
    rw [countP_cons] at before
    simp only [decide_eq_true_eq] at before
    omega
  others := fun p ne => (sigs_setSig_of_ne ne).trans ((others p ne).trans (inv.others p ne))

theorem Releasing.skip (inv : Releasing D R cur base sigs (j :: js) st) (free : st.sigs cur j = 0) :
    Releasing D R cur base sigs js (st.setSig cur j (-1)) := by
  apply inv.next inv.acct
  · intro s nonzero
    rw [free, if_neg nonzero.symm, Nat.add_zero]
  · intro l _
    rfl
  · intro p _
    rfl

/-- An entry that is left is also in the pool, so its call frees one entry of the pool. -/
theorem Releasing.release (inv : Releasing D R cur base sigs (j :: js) st) (used : st.sigs cur j ≠ 0)
    (call : removeShrmem cur (st.sigs cur j) st = .ok (r, st')) :
    Releasing D R cur base sigs js (st'.setSig cur j (-1)) := by
  have inside := inv.inside j mem_cons_self
  obtain ⟨acct, ⟨_, _, missing⟩ | ⟨j', found, _, cleared, slots⟩⟩ := remove_books inv.acct call
  · rcases missing with noSig | noSlot
    · exact absurd rfl (tally_eq_zero.1 (findSig_none noSig) j inside)
    · have counts := inv.counts _ used
      rw [findSlot_none noSlot, countP_cons, if_pos (decide_eq_true rfl)] at counts
      omega
  · -- the entry that is cleared is this one or, for the sign -1, one before it
    have before : j' ≤ j := by
      by_contra after
      exact (findSig_some found).2.2 j (by omega) rfl
    apply inv.next acct slots
    · intro l mem
      have after : j < l := (pairwise_cons.1 inv.sorted).1 l mem
      rw [cleared]
      show update st.sigs cur (update (st.sigs cur) j' 0) cur l = _
      rw [update_self, update_of_ne (by omega)]
    · intro p ne
      rw [cleared, sigs_setSig_of_ne ne]

theorem Releasing.start (acct : Acct D (R + st.use) st.km)
    (counts : ∀ s, s ≠ 0 → st.slots s = base s + st.entries cur s) :
    Releasing D R cur base st.sigs (List.range PROC_SHR_MEM_NUM) st where
  sorted := pairwise_lt_range
  inside := fun j mem => mem_range.1 mem
  acct := acct
  counts := by
    intro s nonzero
    rw [counts s nonzero, entries, tally_eq_countP]
  others := fun _ _ => rfl

/-- `exit` gives back exactly the entries of the process. -/
theorem exit_books (acct : Acct D (R + st.use) st.km) (counts : ∀ s, s ≠ 0 → st.slots s = base s + st.entries cur s)
    (run : exitShrmem cur st = .ok st') : Releasing D R cur base st.sigs [] st' :=
  exitLoop_rule (I := Releasing D R cur base st.sigs) (fun _ _ _ inv free => inv.skip free)
    (fun _ _ _ _ _ inv used call => inv.release used call) run (.start acct counts)

end Shm

/-! ## The invariant of every run -/

namespace ShmSys

variable {D : Nat → Prop} {st st' : ShmSys} {op : ShmOp} {p : Nat} {s : Int} {shm : Shm}

/-- Entries with the sign, over all processes that have not exited. -/
def held (st : ShmSys) (s : Int) : Nat :=
  ∑ p ∈ Finset.range NPROC, if st.live p then st.entries p s else 0

/-- The same without process `p`. -/
def heldBeside (st : ShmSys) (p : Nat) (s : Int) : Nat :=
  ∑ q ∈ (Finset.range NPROC).erase p, if st.live q then st.entries q s else 0

theorem held_split (st : ShmSys) (bound : p < NPROC) (s : Int) :
    st.held s = st.heldBeside p s + if st.live p then st.entries p s else 0 :=
  (Finset.sum_erase_add _ (fun q => if st.live q then st.entries q s else 0) (Finset.mem_range.2 bound)).symm

theorem heldBeside_congr (live : ∀ q, q ≠ p → st'.live q = st.live q) (sigs : ∀ q, q ≠ p → st'.sigs q = st.sigs q) :
    st'.heldBeside p s = st.heldBeside p s := by
  apply Finset.sum_congr rfl
  intro q mem
  have ne := Finset.ne_of_mem_erase mem
  have same : st'.entries q s = st.entries q s := by rw [Shm.entries, sigs q ne, Shm.entries]
  rw [live q ne, same]

/-- `pc_sh` counts the pages of the pool, and the pool has the entries of the processes. -/
structure Inv (D : Nat → Prop) (st : ShmSys) : Prop where
  acct : Acct D (st.others + st.use) st.km
  counts : ∀ s, s ≠ 0 → st.slots s = st.held s

theorem Inv.boot {km : Kmem} {R : Use Nat} (acct : Acct D R km) : (ShmSys.boot km R).Inv D where
  acct := by
    have none_ : (ShmSys.boot km R).use = 0 := Finset.sum_eq_zero fun _ _ => rfl
    rw [none_, add_zero]
    exact acct
  counts := by
    intro s nonzero
    have slots : (ShmSys.boot km R).slots s = 0 := tally_eq_zero.2 fun _ _ => nonzero.symm
    rw [slots]
    symm
    apply Finset.sum_eq_zero
    intro q _
    have entries : (ShmSys.boot km R).entries q s = 0 := tally_eq_zero.2 fun _ _ => nonzero.symm
    rw [entries, ite_self]

/-- A step in which only process `p` changes its entries. -/
theorem held_update (bound : p < NPROC) (live : st.live p) (same : st'.live = st.live)
    (sigs : ∀ q, q ≠ p → st'.sigs q = st.sigs q) :
    st'.held s = st.heldBeside p s + st'.entries p s := by
  have here : st'.live p = true := by rw [same]; exact live
  rw [st'.held_split bound, if_pos here, heldBeside_congr (fun q _ => by rw [same]) sigs]

theorem Inv.make {sign r : Int} (inv : st.Inv D) (bound : p < NPROC) (live : st.live p)
    (call : makeShrmem p sign st.toShm = (r, shm)) : ({ st with toShm := shm } : ShmSys).Inv D := by
  rcases makeShrmem_cases call with ⟨_, rfl⟩ | ⟨j, i, _, foundSig, foundSlot, rfl⟩
  · exact inv
  · obtain ⟨inside, free, _⟩ := Shm.findSlot_some foundSlot
    obtain ⟨insideJ, freeJ, _⟩ := Shm.findSig_some foundSig
    have acct := (Shm.fillSlot_acct sign inv.acct inside).1
    have sigs := st.fillSlot_sigs i sign
    refine ⟨acct, ?_⟩
    intro s nonzero
    have slots := st.fillSlot_slots sign inside free nonzero
    have entries := (st.fillSlot i sign).entries_setSig insideJ p sign s
    have before : (st.fillSlot i sign).entries p s = st.entries p s := by rw [Shm.entries, sigs, Shm.entries]
    rw [sigs, freeJ, if_neg nonzero.symm, before] at entries
    have split := st.held_split bound s
    rw [if_pos live] at split
    have after : ({ st with toShm := (st.fillSlot i sign).setSig p j sign } : ShmSys).held s =
        st.heldBeside p s + ((st.fillSlot i sign).setSig p j sign).entries p s :=
      held_update bound live rfl fun q ne => (Shm.sigs_setSig_of_ne ne).trans (by rw [sigs])
    have counts := inv.counts s nonzero
    rw [after]
    show (st.fillSlot i sign).slots s = _
    omega

theorem Inv.remove {sign r : Int} (inv : st.Inv D) (bound : p < NPROC) (live : st.live p)
    (call : removeShrmem p sign st.toShm = .ok (r, shm)) : ({ st with toShm := shm } : ShmSys).Inv D := by
  obtain ⟨acct, ⟨rfl, _, _⟩ | ⟨j, found, _, cleared, slots⟩⟩ := Shm.remove_books inv.acct call
  · exact inv
  · obtain ⟨inside, here, _⟩ := Shm.findSig_some found
    refine ⟨acct, ?_⟩
    intro s nonzero
    have entries := st.entries_setSig inside p 0 s
    have now : shm.entries p s = (st.setSig p j 0).entries p s := by rw [Shm.entries, cleared, Shm.entries]
    rw [here, if_neg nonzero.symm] at entries
    have split := st.held_split bound s
    rw [if_pos live] at split
    have after : ({ st with toShm := shm } : ShmSys).held s = st.heldBeside p s + shm.entries p s :=
      held_update bound live rfl fun q ne => by
        show shm.sigs q = _
        rw [cleared, Shm.sigs_setSig_of_ne ne]
    have counts := inv.counts s nonzero
    have freed := slots s nonzero
    rw [after]
    show shm.slots s = _
    omega

theorem Inv.exit (inv : st.Inv D) (bound : p < NPROC) (live : st.live p) (run : exitShrmem p st.toShm = .ok shm) :
    (st.exited p shm).Inv D := by
  have counts : ∀ s, s ≠ 0 → st.slots s = st.heldBeside p s + st.entries p s := by
    intro s nonzero
    have split := st.held_split bound s
    rw [if_pos live] at split
    rw [inv.counts s nonzero, split]
  have done := Shm.exit_books inv.acct counts run
  refine ⟨done.acct, ?_⟩
  intro s nonzero
  have dead : (st.exited p shm).live p = false := update_self ..
  have beside : (st.exited p shm).heldBeside p s = st.heldBeside p s :=
    heldBeside_congr (fun q ne => update_of_ne ne _ _) done.others
  rw [held_split _ bound, beside, dead]
  exact done.counts s nonzero

theorem Inv.respects {km : Kmem} {R : Use Nat} (inv : st.Inv D) (change : Respects D st.others st.km R km) :
    ({ st with km := km, others := R } : ShmSys).Inv D :=
  ⟨(change st.use inv.acct).1, inv.counts⟩

/-- A new process has no entries. -/
theorem Inv.fork {km : Kmem} {R : Use Nat} {ok : Bool} (inv : st.Inv D) (bound : p < NPROC) (dead : st.live p = false)
    (change : Respects D st.others st.km R km) : (st.forked p ok km R).Inv D := by
  refine ⟨(change st.use inv.acct).1, ?_⟩
  intro s nonzero
  have none_ : (st.forked p ok km R).entries p s = 0 := by
    apply tally_eq_zero.2
    intro l _
    show update st.sigs p (fun _ => 0) p l ≠ s
    rw [update_self]
    exact nonzero.symm
  have split := st.held_split bound s
  rw [dead] at split
  have beside : (st.forked p ok km R).heldBeside p s = st.heldBeside p s :=
    heldBeside_congr (fun q ne => update_of_ne ne _ _) fun q ne => update_of_ne ne _ _
  rw [held_split _ bound, beside, none_, ite_self]
  show st.slots s = _
  rw [inv.counts s nonzero, split]
  rfl

/-- Every step keeps the books, whatever the signs and whether or not `kalloc` succeeds. -/
theorem Inv.step (inv : st.Inv D) (step : ShmStep D op st st') : st'.Inv D := by
  cases step with
  | make bound live call => exact inv.make bound live call
  | remove bound live call => exact inv.remove bound live call
  | read bound live call =>
    rcases readShrmem_cases call with ⟨_, rfl, _⟩ | ⟨i, f, _, _, _, rfl⟩
    · exact inv
    · exact ⟨inv.acct, inv.counts⟩
  | write bound live call =>
    rcases writeShrmem_cases call with ⟨_, rfl, _⟩ | ⟨i, f, _, _, _, rfl⟩
    · exact inv
    · exact ⟨inv.acct.of_mem _, inv.counts⟩
  | fork _ _ bound dead change => exact inv.fork bound dead change
  | exit bound live run => exact inv.exit bound live run
  | rest change => exact inv.respects change

end ShmSys

end Xv6
