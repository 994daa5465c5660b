import Mathlib.Algebra.Order.BigOperators.Group.Finset
import Xv6.Vm.UvmAcct

/-!
# Growth that finds memory

`Room n d km` says that `n` pages are free beside those that the tables still missing from
`d` would take. Under it the functions that build page tables succeed.
-/

namespace Xv6
open Fallible List

/-- Tables that the directory does not have. -/
def PgDir.missing (d : PgDir) : Nat := ∑ x ∈ Finset.range NPDENTRIES, if d.pde x = none then 1 else 0

def Room (n : Nat) (d : PgDir) (km : Kmem) : Prop := n + d.missing ≤ km.freelist.length

section Room

variable {n m va : Nat} {d d' : PgDir} {km km' : Kmem}

theorem PgDir.missing_le (d : PgDir) : d.missing ≤ NPDENTRIES := by
  calc d.missing ≤ ∑ _x ∈ Finset.range NPDENTRIES, 1 := Finset.sum_le_sum fun x _ => by split <;> omega
    _ = NPDENTRIES := by simp

/-- Enough free pages for any directory. -/
theorem room_of_free (d : PgDir) (free : n + NPDENTRIES ≤ km.freelist.length) : Room n d km := by
  have := d.missing_le
  unfold Room
  omega

theorem Room.free (room : Room n d km) : n ≤ km.freelist.length := by
  unfold Room at room
  omega

theorem Room.mono (room : Room n d km) (le : m ≤ n) : Room m d km := by
  unfold Room at *
  omega

theorem Room.memory (room : Room n d km) (mem : Nat → Nat → UInt8) : Room n d { km with mem := mem } := room

theorem kalloc_free (free : n + 1 ≤ km.freelist.length) :
    ∃ f km', kalloc km = (some f, km') ∧ n ≤ km'.freelist.length := by
  unfold kalloc
  split
  · rename_i empty
    rw [empty] at free
    simp at free
  · rename_i f rest list
    rw [list, length_cons] at free
    refine ⟨f, _, rfl, ?_⟩
    show n ≤ rest.length
    omega

theorem Room.kalloc (room : Room (n + 1) d km) : ∃ f km', kalloc km = (some f, km') ∧ Room n d km' :=
  kalloc_free (n := n + d.missing) (by unfold Room at room; omega)

theorem PgDir.missing_pos (missing : d.pde (PDX va) = none) : 1 ≤ d.missing := by
  have inside : PDX va ∈ Finset.range NPDENTRIES := Finset.mem_range.2 (Nat.mod_lt _ (by decide))
  have := Finset.single_le_sum (f := fun x => if d.pde x = none then 1 else 0) (fun _ _ => Nat.zero_le _) inside
  rw [if_pos missing] at this
  exact this

theorem PgDir.addTable_missing (missing : d.pde (PDX va) = none) (f : Nat) :
    (d.addTable va f).missing + 1 = d.missing := by
  have mem := Finset.mem_range.2 (pdx_lt va)
  rw [PgDir.missing, PgDir.missing, ← Finset.sum_erase_add _ _ mem, ← Finset.sum_erase_add _ _ mem]
  have others : ∀ x ∈ (Finset.range NPDENTRIES).erase (PDX va),
      (if (d.addTable va f).pde x = none then 1 else 0) = if d.pde x = none then 1 else 0 := by
    intro x inside
    simp [PgDir.addTable, Finset.ne_of_mem_erase inside]
  have here : (d.addTable va f).pde (PDX va) ≠ none := by simp [PgDir.addTable]
  rw [Finset.sum_congr rfl others, if_pos missing, if_neg here, Nat.add_zero]

/-- A table is found or made. -/
theorem Room.walk (room : Room n d km) (va : Nat) :
    ∃ d' km', walkpgdirAlloc va d km = (true, d', km') ∧ Room n d' km' := by
  unfold walkpgdirAlloc
  split
  · exact ⟨d, km, rfl, room⟩
  · rename_i missing
    have fewer := PgDir.addTable_missing missing
    have some := fewer 0
    obtain ⟨f, km1, got, free⟩ := kalloc_free (n := n + (d.missing - 1)) (by unfold Room at room; omega : _ ≤ km.freelist.length)
    rw [got]
    refine ⟨_, _, rfl, ?_⟩
    have := fewer f
    unfold Room
    omega

/-- Mapping a page that is not mapped yet returns, and maps it if there is room. -/
theorem mapPage_returns (perm : Pte) (a pa : Nat) (wf : d.Wf) (km : Kmem) (absent : (d.pte (a / PGSIZE)).p = false) :
    ∃ b d1 km', walkpgdirAlloc a d km = (b, d1, km') ∧ d.Ext d1 ∧ (if b then d1.pde (PDX a) ≠ none else d1 = d) ∧
      mapPage a pa perm d km = .ok (b, if b then d1.set a { perm with addr := pa / PGSIZE, p := true } else d1, km') ∧
      ∀ n, Room n d km → b = true ∧ Room n d1 km' := by
  obtain ⟨b, d1, km', walk⟩ : ∃ b d1 km', walkpgdirAlloc a d km = (b, d1, km') := ⟨_, _, _, rfl⟩
  obtain ⟨ext, _, table⟩ := walkpgdirAlloc_ext wf walk
  refine ⟨b, d1, km', walk, ext, table, ?_, fun n room => ?_⟩
  · cases b with
    | false => simp only [mapPage, walk, Bool.false_eq_true, if_false]
    | true => simp only [mapPage, walk, ext.pte, absent, Bool.false_eq_true, if_false, if_true]
  · obtain ⟨d2, km2, walk', room'⟩ := room.walk a
    cases walk.symm.trans walk'
    exact ⟨rfl, room'⟩

/-- A page that is not mapped yet gets mapped. -/
theorem Room.mapPage (perm : Pte) (a pa : Nat) (room : Room n d km) (wf : d.Wf)
    (absent : (d.pte (a / PGSIZE)).p = false) :
    ∃ d1 km', mapPage a pa perm d km = .ok (true, d1.set a { perm with addr := pa / PGSIZE, p := true }, km') ∧
      d.Ext d1 ∧ d1.pde (PDX a) ≠ none ∧ Room n d1 km' := by
  obtain ⟨b, d1, km', _, ext, table, map, fits⟩ := mapPage_returns perm a pa wf km absent
  obtain ⟨rfl, room'⟩ := fits n room
  exact ⟨d1, km', map, ext, table, room'⟩

/-- The kernel's part of a table is filled without a second mapping of a page. -/
theorem mapKernel_returns {perm : Pte} (kernel : perm.u = false ∧ perm.pg = false) (count : Nat) :
    ∀ (a pa : Nat) (d : PgDir) (km : Kmem), KERNBASE ≤ a → a + count * PGSIZE ≤ 2 ^ 32 → d.Wf →
      (∀ v, a / PGSIZE ≤ v → v < a / PGSIZE + count → (d.pte v).p = false) →
      ∃ b d' km', mapLoop perm count a pa d km = .ok (b, d', km') ∧ d'.Wf ∧
        (∀ v, (d'.pte v).p = true → (d.pte v).p = true ∨ a / PGSIZE ≤ v ∧ v < a / PGSIZE + count) ∧
        ∀ n, Room n d km → b = true ∧ Room n d' km' := by
  induction count with
  | zero =>
    exact fun a pa d km _ _ wf _ => ⟨true, d, km, rfl, wf, fun v present => .inl present, fun n room => ⟨rfl, room⟩⟩
  | succ count ih =>
    intro a pa d km low high wf absent
    have below : a < 2 ^ 32 := by
      simp only [PGSIZE] at high
      omega
    have upper : NUPAGES ≤ a / PGSIZE := by
      simp only [NUPAGES, PGSIZE, KERNBASE] at *
      omega
    have next : (a + PGSIZE) / PGSIZE = a / PGSIZE + 1 := by
      simp only [PGSIZE]
      omega
    obtain ⟨b, d1, km1, _, ext, table, map, room1⟩ := mapPage_returns perm a pa wf km
      (absent (a / PGSIZE) (by omega) (by omega))
    cases b with
    | false =>
      simp only [Bool.false_eq_true, if_false] at table map
      subst table
      refine ⟨false, d1, km1, bind_ok.2 ⟨_, map, rfl⟩, wf, fun v present => .inl present, fun n room => ?_⟩
      exact absurd (room1 n room).1 (by simp)
    | true =>
      simp only [if_true] at table map
      have wf1 := (wf.ext ext).set (e := { perm with addr := pa / PGSIZE, p := true })
        (by rw [← pdx_eq below]; exact table) (fun user => by omega) (fun _ => kernel) (fun _ => kernel.2)
      have others : ∀ v, v ≠ a / PGSIZE → (d1.set a { perm with addr := pa / PGSIZE, p := true }).pte v = d.pte v :=
        fun v ne => by rw [PgDir.set_pte, if_neg ne, ext.pte]
      obtain ⟨b', d', km', loop, wf', only, room'⟩ := ih (a + PGSIZE) (add32 pa PGSIZE) _ km1 (by omega)
        (by simp only [PGSIZE] at *; omega) wf1 (fun v lower upper => by
          rw [next] at lower upper
          rw [others v (by omega)]
          exact absent v (by omega) (by omega))
      refine ⟨b', d', km', bind_ok.2 ⟨_, map, ?_⟩, wf', fun v present => ?_, fun n room => room' n (room1 n room).2⟩
      · simp only [if_true]
        rw [mapLoop_next high]
        exact loop
      · rcases only v present with old | new
        · by_cases here : v = a / PGSIZE
          · exact .inr (by omega)
          · rw [others v here] at old
            exact .inl old
        · rw [next] at new
          exact .inr (by omega)

theorem kmapLoop_returns (ks : List Kmap) (ok : ∀ k ∈ ks, k.Ok) (apart : ks.Pairwise fun j k => j.last < k.first) :
    ∀ (d : PgDir) (km : Kmem), d.Wf → (∀ v, (d.pte v).p = true → ∀ k ∈ ks, v < k.first) →
      ∃ b d' km', kmapLoop ks d km = .ok (b, d', km') ∧ ∀ n, Room n d km → b = true ∧ Room n d' km' := by
  induction ks with
  | nil => exact fun d km _ _ => ⟨true, d, km, rfl, fun n room => ⟨rfl, room⟩⟩
  | cons k ks ih =>
    intro d km wf before
    have here := ok k (by simp)
    have start : PGROUNDDOWN k.virt / PGSIZE = k.first := page_div _
    have order : k.first ≤ k.last := by
      have := here.pos
      simp only [Kmap.first, Kmap.last, PGSIZE]
      omega
    obtain ⟨b, d1, km1, map, wf1, only, room1⟩ := mapKernel_returns here.perm (k.last - k.first + 1) (PGROUNDDOWN k.virt)
      k.physStart d km here.range.1 here.range.2 wf (fun v lower _ => by
        rw [start] at lower
        by_contra present
        have := before v (by simpa using present) k (by simp)
        omega)
    have row : mappages k.virt (sub32 k.physEnd k.physStart) k.physStart k.perm d km = .ok (b, d1, km1) := by
      rw [mappages_loop here.pos here.fits]
      exact map
    cases b with
    | false =>
      exact ⟨false, d1, km1, bind_ok.2 ⟨_, row, rfl⟩, fun n room => absurd (room1 n room).1 (by simp)⟩
    | true =>
      obtain ⟨apartHere, apartRest⟩ := pairwise_cons.1 apart
      obtain ⟨b', d', km', loop, room'⟩ := ih (fun k mem => ok k (by simp [mem])) apartRest d1 km1 wf1
        (fun v present j mem => by
          have := apartHere j mem
          rcases only v present with old | new
          · exact before v old j (by simp [mem])
          · rw [start] at new
            omega)
      exact ⟨b', d', km', bind_ok.2 ⟨_, row, loop⟩, fun n room => room' n (room1 n room).2⟩

theorem kmap_apart (linked : km.Linked) (aligned : km.kdata % PGSIZE = 0) :
    (kmap km.kdata).Pairwise fun j k => j.last < k.first := by
  obtain ⟨text, data, room⟩ := linked
  simp only [kmap, pairwise_cons, mem_cons, not_mem_nil, or_false, forall_eq_or_imp, forall_eq,
    Kmap.first, Kmap.last, P2V, V2P, add32, sub32, KERNBASE, KERNLINK, EXTMEM, PHYSTOP, DEVSPACE, PGSIZE] at *
  refine ⟨⟨?_, ?_, ?_⟩, ⟨?_, ?_⟩, ?_, by rintro _ ⟨⟩, List.Pairwise.nil⟩ <;> omega

/-- **`setupkvm` succeeds** when the kernel's data starts on a page and there is memory. -/
theorem setupkvm_room (linked : km.Linked) (aligned : km.kdata % PGSIZE = 0)
    (free : n + 1 + NPDENTRIES ≤ km.freelist.length) :
    ∃ d km', setupkvm km = .ok (some d, km') ∧ Room n d km' := by
  obtain ⟨f, km1, got, room1⟩ := (room_of_free (n := n + 1) {} free).kalloc
  have same := kalloc_same got
  have linked1 := linked.kept (same.kept 0)
  have room : Room n { frame := f } km1 := room1
  obtain ⟨b, d, km2, maps, fits⟩ := kmapLoop_returns (kmap km1.kdata) (kmap_ok linked1)
    (kmap_apart linked1 (same.kdata ▸ aligned)) { frame := f } km1 (PgDir.wf_empty f) (fun v => by rintro ⟨⟩)
  obtain ⟨rfl, room2⟩ := fits n room
  refine ⟨d, km2, ?_, room2⟩
  unfold setupkvm
  rw [got]
  simp only
  rw [if_neg (by decide)]
  exact bind_ok.2 ⟨_, maps, rfl⟩

/-! ## Freeing does not take memory -/

theorem kfree_free {v : Nat} (call : kfree v km = .ok km') : km.freelist.length ≤ km'.freelist.length := by
  have list : ∀ f, (km.uncount f).freelist = km.freelist := by
    intro f
    unfold Kmem.uncount
    split <;> rfl
  unfold kfree at call
  split at call
  · cases call
  · simp only at call
    split at call
    · cases call
      simp only [Kmem.push, length_cons, list]
      omega
    · cases call
      rw [list]

end Room

end Xv6
