import Xv6.Ipc.ShrmemPool

/-!
# A segment as a register

The pool is searched by sign and the first match wins, so a write and a later read reach
the same page only as long as the sign has one entry. If `make_shrmem(s)` is called only
when the pool has no entry with the sign `s`, the entry of the process that made it stays
the only one until that process removes it or exits, and keeps what was written.
-/

namespace Xv6

open RefCount Tables Fallible Runs Function List

variable {R : Use Nat}

/-- What the calls must respect for the sign `s`: it is made only when nobody has it and a
page is free, and no string is longer than a page. -/
def ShmOp.Single (s : Int) (op : ShmOp) (st : ShmSys) : Prop :=
  match op with
  | .make p sign _ =>
    sign = s → st.slots s = 0 ∧ (st.findSig p 0 ≠ none → st.findSlot 0 ≠ none → st.km.freelist ≠ [])
  | .write _ _ str _ => str.length < PGSIZE
  | _ => True

def SingleStep (D : Nat → Prop) (s : Int) (op : ShmOp) (st st' : ShmSys) : Prop := ShmStep D op st st' ∧ op.Single s st

/-- Process `p` has the only entry with the sign `s`, entry `i` of the pool with page `f`. -/
structure Segment (D : Nat → Prop) (p : Nat) (s : Int) (i f : Nat) (st : ShmSys) : Prop where
  inv : st.Inv D
  bound : p < NPROC
  live : st.live p
  entry : 0 < st.entries p s
  single : st.slots s = 1
  inside : i < SHR_MEM_NUM
  slot : st.shrmems i = ⟨.page f, s⟩

/-- Removing another sign leaves an entry and its page alone. -/
theorem Shm.remove_keeps {D : Nat → Prop} {st st' : Shm} {cur i f : Nat} {s sign r : Int} (acct : Acct D (R + st.use) st.km)
    (inside : i < SHR_MEM_NUM) (slot : st.shrmems i = ⟨.page f, s⟩) (other : sign ≠ s)
    (call : removeShrmem cur sign st = .ok (r, st')) : st'.shrmems i = ⟨.page f, s⟩ ∧ st'.km.mem f = st.km.mem f := by
  rcases removeShrmem_cases call with ⟨_, rfl, _⟩ | ⟨j, l, g, km, _, _, foundSlot, addr, free, rfl⟩
  · exact ⟨slot, rfl⟩
  · obtain ⟨insideL, here, _⟩ := findSlot_some foundSlot
    have ne : i ≠ l := by
      rintro rfl
      rw [slot] at here
      exact other here.symm
    obtain ⟨freed, _, kept⟩ := freeSlot_acct acct insideL addr
    cases freed.symm.trans free
    have held := rest_pos inside (by rw [slot]) ne
    refine ⟨(update_of_ne ne _ _).trans slot, kept.mem f ?_⟩
    rw [total_add]
    omega

/-- So does the exit of a process that has no entry with its sign. -/
theorem Shm.exit_keeps {D : Nat → Prop} {st st' : Shm} {cur i f : Nat} {s : Int} (acct : Acct D (R + st.use) st.km)
    (inside : i < SHR_MEM_NUM) (slot : st.shrmems i = ⟨.page f, s⟩) (nonzero : s ≠ 0) (none_ : st.entries cur s = 0)
    (run : exitShrmem cur st = .ok st') : st'.shrmems i = ⟨.page f, s⟩ ∧ st'.km.mem f = st.km.mem f := by
  let I : List Nat → Shm → Prop := fun js u =>
    js.Nodup ∧ (∀ l ∈ js, u.sigs cur l ≠ s) ∧ Acct D (R + u.use) u.km ∧ u.shrmems i = ⟨.page f, s⟩ ∧
      u.km.mem f = st.km.mem f
  have later : ∀ {j js} {u : Shm}, (j :: js).Nodup → (∀ l ∈ js, u.sigs cur l ≠ s) →
      ∀ l ∈ js, (u.setSig cur j (-1)).sigs cur l ≠ s := by
    intro j js u nodup free l mem
    have ne : l ≠ j := by
      rintro rfl
      exact (nodup_cons.1 nodup).1 mem
    rw [sigs_setSig, if_neg (fun both => ne both.2)]
    exact free l mem
  have start : I (List.range PROC_SHR_MEM_NUM) st :=
    ⟨nodup_range, fun l mem => tally_eq_zero.1 none_ l (mem_range.1 mem), acct, slot, rfl⟩
  have done := exitLoop_rule (I := I) ?_ ?_ run start
  · exact done.2.2.2
  · rintro j js u ⟨nodup, free, inv⟩ _
    exact ⟨(nodup_cons.1 nodup).2, later nodup fun l mem => free l (mem_cons_of_mem j mem), inv⟩
  · rintro j js u r u' ⟨nodup, free, acct, slot, page⟩ _ call
    have kept := remove_keeps acct inside slot (free j mem_cons_self) call
    refine ⟨(nodup_cons.1 nodup).2, later nodup ?_, (remove_books acct call).1, kept.1, kept.2.trans page⟩
    intro l mem
    have before := free l (mem_cons_of_mem j mem)
    rcases removeShrmem_sigs call with same | ⟨k, cleared⟩
    · rw [same]
      exact before
    · rw [cleared, sigs_setSig]
      split
      · exact nonzero.symm
      · exact before

namespace Segment

variable {D : Nat → Prop} {st : ShmSys} {op : ShmOp} {p q i f : Nat} {s sign r : Int} {st' : ShmSys} {str : List UInt8}

section

variable (seg : Segment D p s i f st) {shm : Shm}
include seg

/-- Every call that looks for the sign finds the entry. -/
theorem found : st.findSlot s = some i := by
  cases search : st.findSlot s with
  | none =>
    have := Shm.findSlot_none search
    have := seg.single
    omega
  | some l =>
    obtain ⟨inside, here, _⟩ := Shm.findSlot_some search
    have same : (st.shrmems i).sig = s := by rw [seg.slot]
    rw [tally_one seg.single inside seg.inside here same]

/-- No other process has an entry with the sign. -/
theorem alone (nonzero : s ≠ 0) (ne : q ≠ p) (bound : q < NPROC) (live : st.live q) :
    st.entries q s = 0 := by
  have counts := seg.inv.counts s nonzero
  rw [seg.single, st.held_split seg.bound, if_pos seg.live] at counts
  have entry := seg.entry
  have beside : st.heldBeside p s = 0 := by omega
  have mem : q ∈ (Finset.range NPROC).erase p := Finset.mem_erase.2 ⟨ne, Finset.mem_range.2 bound⟩
  have zero := (Finset.sum_eq_zero_iff.1 beside) q mem
  rwa [if_pos live] at zero

/-- `make_shrmem(sign)` for another sign. -/
theorem make (nonzero : s ≠ 0) (other : sign ≠ s) (bound : q < NPROC) (live : st.live q)
    (call : makeShrmem q sign st.toShm = (r, shm)) :
    Segment D p s i f { st with toShm := shm } ∧ shm.km.mem f = st.km.mem f := by
  have inv := seg.inv.make bound live call
  rcases makeShrmem_cases call with ⟨_, rfl⟩ | ⟨j, l, _, foundSig, foundSlot, rfl⟩
  · exact ⟨seg, rfl⟩
  · obtain ⟨inside, free, _⟩ := Shm.findSlot_some foundSlot
    obtain ⟨insideJ, freeJ, _⟩ := Shm.findSig_some foundSig
    obtain ⟨addr, filled, _⟩ := st.fillSlot_slot l sign
    have ne : i ≠ l := by
      rintro rfl
      rw [seg.slot] at free
      exact nonzero free
    have slots := st.fillSlot_slots sign inside free nonzero
    rw [if_neg other, Nat.add_zero, seg.single] at slots
    have entries : ((st.fillSlot l sign).setSig q j sign).entries p s = st.entries p s := by
      by_cases mine : p = q
      · subst mine
        have moved := (st.fillSlot l sign).entries_setSig insideJ p sign s
        rw [st.fillSlot_sigs, freeJ, if_neg nonzero.symm, if_neg other] at moved
        rw [Nat.add_zero, Nat.add_zero] at moved
        rw [moved, Shm.entries, st.fillSlot_sigs, Shm.entries]
      · rw [Shm.entries, Shm.sigs_setSig_of_ne mine, st.fillSlot_sigs, Shm.entries]
    have slot : (st.fillSlot l sign).shrmems i = ⟨.page f, s⟩ := by
      rw [filled]
      exact (update_of_ne ne _ _).trans seg.slot
    refine ⟨⟨inv, seg.bound, seg.live, ?_, slots, seg.inside, slot⟩, ?_⟩
    · show 0 < ((st.fillSlot l sign).setSig q j sign).entries p s
      rw [entries]
      exact seg.entry
    · show (st.fillSlot l sign).km.mem f = _
      rw [(Shm.fillSlot_acct sign seg.inv.acct inside).2]

/-- `remove_shrmem(sign)`, except of the sign by the process that has it. -/
theorem remove (nonzero : s ≠ 0) (keeps : ¬ (q = p ∧ sign = s)) (bound : q < NPROC) (live : st.live q)
    (call : removeShrmem q sign st.toShm = .ok (r, shm)) :
    Segment D p s i f { st with toShm := shm } ∧ shm.km.mem f = st.km.mem f := by
  have inv := seg.inv.remove bound live call
  obtain ⟨_, ⟨rfl, _, _⟩ | ⟨j, found, _, cleared, slots⟩⟩ := Shm.remove_books seg.inv.acct call
  · exact ⟨seg, rfl⟩
  · obtain ⟨insideJ, here, _⟩ := Shm.findSig_some found
    have other : sign ≠ s := by
      rintro rfl
      have ne : q ≠ p := fun same => keeps ⟨same, rfl⟩
      exact tally_eq_zero.1 (seg.alone nonzero ne bound live) j insideJ here
    obtain ⟨slot, page⟩ := Shm.remove_keeps seg.inv.acct seg.inside seg.slot other call
    have single := slots s nonzero
    rw [if_neg other, Nat.add_zero, seg.single] at single
    have entries : shm.entries p s = st.entries p s := by
      rw [Shm.entries, cleared]
      by_cases mine : p = q
      · subst mine
        have moved := st.entries_setSig insideJ p 0 s
        rw [here, if_neg other, if_neg nonzero.symm, Nat.add_zero, Nat.add_zero] at moved
        exact moved
      · rw [Shm.sigs_setSig_of_ne mine, Shm.entries]
    exact ⟨⟨inv, seg.bound, seg.live, entries.symm ▸ seg.entry, single, seg.inside, slot⟩, page⟩

/-- The exit of another process. -/
theorem exit (nonzero : s ≠ 0) (ne : q ≠ p) (bound : q < NPROC) (live : st.live q) (run : exitShrmem q st.toShm = .ok shm) :
    Segment D p s i f (st.exited q shm) ∧ shm.km.mem f = st.km.mem f := by
  have inv := seg.inv.exit bound live run
  have none_ := seg.alone nonzero ne bound live
  obtain ⟨slot, page⟩ := Shm.exit_keeps seg.inv.acct seg.inside seg.slot nonzero none_ run
  have sigs := exitShrmem_sigs run
  have liveP : (st.exited q shm).live p = true := (update_of_ne ne.symm _ _).trans seg.live
  have single : (st.exited q shm).slots s = 1 := by
    have dead : (st.exited q shm).live q = false := update_self ..
    have beside : (st.exited q shm).heldBeside q s = st.heldBeside q s :=
      ShmSys.heldBeside_congr (fun l other => update_of_ne other _ _) sigs
    have before := seg.inv.counts s nonzero
    rw [seg.single, st.held_split bound, if_pos live, none_] at before
    rw [inv.counts s nonzero, ShmSys.held_split _ bound, beside, dead, before]
    rfl
  refine ⟨⟨inv, seg.bound, liveP, ?_, single, seg.inside, slot⟩, page⟩
  show 0 < shm.entries p s
  rw [Shm.entries, sigs p ne.symm]
  exact seg.entry

/-- Whatever the rest of the kernel does. -/
theorem respects {km : Kmem} (change : Respects D st.others st.km R km) : km.mem f = st.km.mem f := by
  apply (change st.use seg.inv.acct).2.mem
  have use : (st.shrmems i).use = ref f true := by rw [seg.slot]; rfl
  rw [st.use_split seg.inside, use, total_add, total_ref_self]
  omega

/-- Writing under another sign goes to another page. -/
theorem strcpy {l g : Nat} (insideL : l < SHR_MEM_NUM) (ne : l ≠ i) (addr : (st.shrmems l).addr = .page g)
    (short : str.length < PGSIZE) : (st.km.strcpy g str).mem f = st.km.mem f := by
  have other : f ≠ g := by
    rintro rfl
    exact ne (Shm.page_unique seg.inv.acct insideL seg.inside addr (by rw [seg.slot]))
  funext o
  apply if_neg
  rintro ⟨low, _, inside⟩
  have page : PGSIZE ≤ (f - g) * PGSIZE := Nat.le_mul_of_pos_left _ (by omega)
  omega

/-- One step keeps the segment, unless the process that has it removes it or exits, and keeps
its page unless it writes it. -/
theorem step (nonzero : s ≠ 0) (step : SingleStep D s op st st') (stays : op ≠ .exit p) (keeps : ∀ r, op ≠ .remove p s r) :
    Segment D p s i f st' ∧ ((∀ q str r, op ≠ .write q s str r) → st'.km.mem f = st.km.mem f) := by
  obtain ⟨step, single⟩ := step
  cases step with
  | @make _ q sign r shm bound live call =>
    have other : sign ≠ s := by
      intro same
      have zero := (single same).1
      rw [seg.single] at zero
      cases zero
    obtain ⟨seg', page⟩ := seg.make nonzero other bound live call
    exact ⟨seg', fun _ => page⟩
  | @remove _ q sign r shm bound live call =>
    have mine : ¬ (q = p ∧ sign = s) := by
      rintro ⟨rfl, rfl⟩
      exact keeps r rfl
    obtain ⟨seg', page⟩ := seg.remove nonzero mine bound live call
    exact ⟨seg', fun _ => page⟩
  | read _ _ call =>
    rcases readShrmem_cases call with ⟨_, rfl, _⟩ | ⟨_, _, _, _, _, rfl⟩
    · exact ⟨seg, fun _ => rfl⟩
    · exact ⟨⟨⟨seg.inv.acct, seg.inv.counts⟩, seg.bound, seg.live, seg.entry, seg.single, seg.inside, seg.slot⟩, fun _ => rfl⟩
  | @write _ q sign r str shm _ _ call =>
    rcases writeShrmem_cases call with ⟨_, rfl, _⟩ | ⟨l, g, found, addr, rfl, rfl⟩
    · exact ⟨seg, fun _ => rfl⟩
    · refine ⟨⟨⟨seg.inv.acct.of_mem _, seg.inv.counts⟩, seg.bound, seg.live, seg.entry, seg.single, seg.inside,
        seg.slot⟩, ?_⟩
      intro elsewhere
      obtain ⟨insideL, here, _⟩ := Shm.findSlot_some found
      have ne : l ≠ i := by
        rintro rfl
        rw [seg.slot] at here
        subst here
        exact elsewhere q str 0 rfl
      exact seg.strcpy insideL ne addr single
  | @fork _ _ q ok km R _ _ bound dead change =>
    have ne : p ≠ q := by
      rintro rfl
      rw [seg.live] at dead
      cases dead
    refine ⟨⟨seg.inv.fork bound dead change, seg.bound, (update_of_ne ne _ _).trans seg.live, ?_, seg.single,
      seg.inside, seg.slot⟩, fun _ => seg.respects change⟩
    show 0 < (resetSigs q st.toShm).entries p s
    have same : (resetSigs q st.toShm).sigs p = st.sigs p := update_of_ne ne _ _
    rw [Shm.entries, same]
    exact seg.entry
  | @exit _ q shm bound live run =>
    have ne : q ≠ p := by
      rintro rfl
      exact stays rfl
    obtain ⟨seg', page⟩ := seg.exit nonzero ne bound live run
    exact ⟨seg', fun _ => page⟩
  | rest change =>
    exact ⟨⟨seg.inv.respects change, seg.bound, seg.live, seg.entry, seg.single, seg.inside, seg.slot⟩,
      fun _ => seg.respects change⟩

end

/-- The call that makes the segment. -/
theorem made (inv : st.Inv D) (nonzero : s ≠ 0) (step : SingleStep D s (.make p s 0) st st') :
    ∃ i f, Segment D p s i f st' := by
  obtain ⟨step, single⟩ := step
  obtain ⟨zero, page⟩ := single rfl
  cases step with
  | make bound live call =>
    have inv' := inv.make bound live call
    rcases makeShrmem_cases call with ⟨failed, _⟩ | ⟨j, i, _, foundSig, foundSlot, rfl⟩
    · cases failed
    · obtain ⟨inside, free, _⟩ := Shm.findSlot_some foundSlot
      obtain ⟨insideJ, freeJ, _⟩ := Shm.findSig_some foundSig
      obtain ⟨addr, filled, ⟨_, none_⟩ | ⟨f, rfl⟩⟩ := st.fillSlot_slot i s
      · exact absurd none_ (page (by rw [foundSig]; rintro ⟨⟩) (by rw [foundSlot]; rintro ⟨⟩))
      · refine ⟨i, f, inv', bound, live, ?_, ?_, inside, ?_⟩
        · have moved := (st.fillSlot i s).entries_setSig insideJ p s s
          rw [if_pos rfl] at moved
          rw [st.fillSlot_sigs, freeJ, if_neg nonzero.symm] at moved
          show 0 < ((st.fillSlot i s).setSig p j s).entries p s
          omega
        · show (st.fillSlot i s).slots s = 1
          rw [st.fillSlot_slots s inside free nonzero, zero, if_pos rfl]
        · show (st.fillSlot i s).shrmems i = _
          rw [filled]
          exact update_self ..

/-- A write under the sign stores the string at the start of the page. -/
theorem written (seg : Segment D p s i f st) (step : SingleStep D s (.write q s str 0) st st') :
    ∀ o ≤ str.length, st'.km.mem f o = (str ++ [0]).getD o 0 := by
  obtain ⟨step, short⟩ := step
  have fits : str.length < PGSIZE := short
  cases step with
  | write _ _ call =>
    rcases writeShrmem_cases call with ⟨failed, _⟩ | ⟨l, g, found, addr, _, rfl⟩
    · cases failed
    · cases seg.found.symm.trans found
      rw [seg.slot] at addr
      cases addr
      intro o inside
      have here : f ≤ f ∧ o < PGSIZE ∧ (f - f) * PGSIZE + o < str.length + 1 := by
        rw [Nat.sub_self, Nat.zero_mul]
        omega
      refine (if_pos here).trans ?_
      rw [Nat.sub_self, Nat.zero_mul, Nat.zero_add]

end Segment

theorem Respects.refl (D : Nat → Prop) (R : Use Nat) (km : Kmem) : Respects D R km R km :=
  fun U acct => ⟨acct, .refl U km⟩

end Xv6
