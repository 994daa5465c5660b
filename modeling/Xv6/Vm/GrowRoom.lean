import Xv6.Vm.Grow
import Xv6.Mem.QueueHolds

/-!
# Growth below the capacity

With free pages and free records `allocuvm` maps every page it is asked for, and changes
nothing else.
-/

namespace Xv6
open Fallible List

/-- The pages `as` have been mapped in the table `tgt`, newest last. -/
structure Ctx.Mapped (tgt : Target) (as : List Nat) (c c' : Ctx) : Prop where
  new : ∀ a ∈ as, ∃ f, (c'.table tgt).pte (a / PGSIZE) = Pte.fresh f
  old : ∀ v, (∀ a ∈ as, a / PGSIZE ≠ v) → (c'.table tgt).pte v = (c.table tgt).pte v
  wf : (c'.table tgt).Wf
  cur : c'.cur = { c.cur with mq := c'.cur.mq, pgdir := c'.cur.pgdir }
  untouched : ∀ other, other ≠ tgt → c'.table other = c.table other

section Grow

variable {c c' c'' : Ctx} {tgt : Target} {oldsz newsz a n : Nat} {as bs : List Nat} {vs : List Nat}

theorem Ctx.Mapped.nil (wf : (c.table tgt).Wf) : c.Mapped tgt [] c :=
  ⟨by simp, fun _ _ => rfl, wf, rfl, fun _ _ => rfl⟩

theorem Ctx.Mapped.trans (first : Ctx.Mapped tgt as c c') (second : Ctx.Mapped tgt bs c' c'') :
    Ctx.Mapped tgt (as ++ bs) c c'' := by
  refine ⟨fun a mem => ?_, fun v away => ?_, second.wf, ?_, fun other ne => ?_⟩
  · by_cases later : ∃ b ∈ bs, b / PGSIZE = a / PGSIZE
    · obtain ⟨b, inB, same⟩ := later
      rw [← same]
      exact second.new b inB
    · rcases mem_append.1 mem with inA | inB
      · rw [second.old _ fun b inB same => later ⟨b, inB, same⟩]
        exact first.new a inA
      · exact second.new a inB
  · rw [second.old v fun b inB => away b (by simp [inB]), first.old v fun a inA => away a (by simp [inA])]
  · rw [second.cur, first.cur]
  · rw [second.untouched other ne, first.untouched other ne]

/-- One iteration of `allocuvm`'s loop. -/
theorem growPage_room (tgt : Target) (oldsz newsz : Nat) (aligned : a % PGSIZE = 0) (user : a < KERNBASE)
    (wf : (c.table tgt).Wf) (absent : ((c.table tgt).pte (a / PGSIZE)).p = false) (room : Room (n + 1) (c.table tgt) c.km) :
    ∃ c', growPage tgt oldsz newsz a c = .ok (true, c') ∧ Room n (c'.table tgt) c'.km ∧
      (∃ f d1, c'.table tgt = d1.set a (Pte.fresh f) ∧ (c.table tgt).Ext d1) ∧ (c'.table tgt).Wf ∧
      (∀ other, other ≠ tgt → c'.table other = c.table other) ∧
      c'.cur = { c.cur with pgdir := c'.cur.pgdir } := by
  obtain ⟨below, low⟩ := user_page user
  obtain ⟨f, km1, got, room1⟩ := room.kalloc
  obtain ⟨d1, km2, map, ext, table, room2⟩ := (room1.memory (km1.zero f).mem).mapPage Pte.user a (f * PGSIZE) wf absent
  have map' : mappages a PGSIZE (f * PGSIZE) Pte.user (c.table tgt) (km1.zero f) =
      .ok (true, d1.set a (Pte.fresh f), km2) := by
    rw [mappages_page aligned user]
    rw [page_div] at map
    exact map
  have wf' : (d1.set a (Pte.fresh f)).Wf :=
    (wf.ext ext).set (by rw [← pdx_eq below]; exact table) (fun _ _ => rfl) (fun high => by omega) fun _ => rfl
  refine ⟨{ c.setTable (d1.set a (Pte.fresh f)) tgt with km := km2 }, ?_, ?_, ?_, ?_, ?_, ?_⟩
  · unfold growPage
    rw [got]
    exact bind_ok.2 ⟨_, map', rfl⟩
  · cases tgt <;> exact room2
  · exact ⟨f, d1, by cases tgt <;> rfl, ext⟩
  · cases tgt <;> exact wf'
  · intro other ne
    cases tgt <;> cases other <;> first | rfl | exact absurd rfl ne
  · cases tgt <;> rfl

theorem makeRoom_room (km : Kmem) {p : Proc} (holds : p.mq.Holds vs) (user : a < KERNBASE)
    (room : vs.length < MEM_CAPACITY) :
    ∃ q, makeRoom a true p km = .ok (true, { p with mq := q }, km) ∧ q.Holds (a :: vs) := by
  obtain ⟨q, added, holds'⟩ := holds.add (user_not_usable user) room
  have num := holds.num
  refine ⟨q, ?_, holds'⟩
  unfold makeRoom writePage
  rw [if_neg (by omega)]
  exact bind_ok.2 ⟨_, rfl, bind_ok.2 ⟨q, added, rfl⟩⟩

theorem allocLoop_room (oldsz newsz : Nat) (as : List Nat) :
    ∀ (c : Ctx) (vs : List Nat), (∀ a ∈ as, a % PGSIZE = 0 ∧ a < KERNBASE) → as.Nodup → (c.table tgt).Wf →
      (∀ a ∈ as, ((c.table tgt).pte (a / PGSIZE)).p = false) → c.cur.mq.Holds vs →
      vs.length + as.length ≤ MEM_CAPACITY → Room (n + as.length) (c.table tgt) c.km →
      ∃ c', allocLoop tgt oldsz newsz as true c = .ok (newsz, c') ∧ c.Mapped tgt as c' ∧
        c'.cur.mq.Holds (as.reverse ++ vs) ∧ Room n (c'.table tgt) c'.km := by
  induction as with
  | nil =>
    intro c vs _ _ wf _ holds _ room
    exact ⟨c, rfl, .nil wf, holds, room⟩
  | cons a as ih =>
    intro c vs pages distinct wf absent holds capacity room
    obtain ⟨aligned, user⟩ := pages a (by simp)
    obtain ⟨notIn, distinctRest⟩ := nodup_cons.1 distinct
    rw [length_cons] at capacity room
    obtain ⟨q, make, holds1⟩ := makeRoom_room c.km holds user (by omega)
    have table1 : ∀ t, Ctx.table { c with cur := { c.cur with mq := q } } t = c.table t := fun t => by
      cases t <;> rfl
    obtain ⟨c1, grow, room1, ⟨f, d1, isTable, ext⟩, wf1, others1, cur1⟩ := growPage_room tgt oldsz newsz
      (c := { c with cur := { c.cur with mq := q } }) (n := n + as.length) aligned user
      (by rw [table1]; exact wf) (by rw [table1]; exact absent a (by simp)) (by rw [table1]; exact room)
    rw [table1] at ext
    have entry : ∀ v, (c1.table tgt).pte v = if v = a / PGSIZE then Pte.fresh f else (c.table tgt).pte v := fun v => by
      rw [isTable, PgDir.set_pte, ext.pte]
    have queue1 : c1.cur.mq = q := by rw [cur1]
    have mapped1 : c.Mapped tgt [a] c1 := by
      refine ⟨fun b isA => ?_, fun v away => ?_, wf1, ?_, fun other ne => ?_⟩
      · rw [mem_singleton] at isA
        exact ⟨f, by rw [entry, isA, if_pos rfl]⟩
      · rw [entry, if_neg fun same => away a (by simp) same.symm]
      · rw [cur1]
      · rw [others1 other ne, table1]
    have apart : ∀ b ∈ as, b / PGSIZE ≠ a / PGSIZE := by
      intro b mem same
      have := (pages b (by simp [mem])).1
      have : b = a := by
        simp only [PGSIZE] at *
        omega
      exact notIn (this ▸ mem)
    obtain ⟨c2, loop, mapped2, holds2, room2⟩ := ih c1 (a :: vs) (fun b mem => pages b (by simp [mem])) distinctRest wf1
      (fun b mem => by rw [entry, if_neg (apart b mem)]; exact absent b (by simp [mem])) (queue1 ▸ holds1)
      (by rw [length_cons]; omega) room1
    refine ⟨c2, bind_ok.2 ⟨_, make, bind_ok.2 ⟨_, grow, loop⟩⟩, mapped1.trans mapped2, ?_, room2⟩
    simpa using holds2

/-- **`allocuvm`** with enough memory. -/
theorem allocuvm_room (accepted : ¬ growRefused c.cur oldsz newsz) (grows : oldsz ≤ newsz) (wf : (c.table tgt).Wf)
    (absent : ∀ v, PGROUNDUP oldsz ≤ v * PGSIZE → v * PGSIZE < newsz → ((c.table tgt).pte v).p = false)
    (holds : c.cur.mq.Holds vs) (capacity : vs.length + (pageRange (PGROUNDUP oldsz) newsz).length ≤ MEM_CAPACITY)
    (room : Room (n + (pageRange (PGROUNDUP oldsz) newsz).length) (c.table tgt) c.km) :
    ∃ c', allocuvm tgt oldsz newsz c = .ok (newsz, c') ∧ c.Mapped tgt (pageRange (PGROUNDUP oldsz) newsz) c' ∧
      c'.cur.mq.Holds ((pageRange (PGROUNDUP oldsz) newsz).reverse ++ vs) ∧ Room n (c'.table tgt) c'.km := by
  have pages := pageRange_aligned newsz (PGROUNDUP_mod oldsz)
  have top : newsz ≤ KERNBASE := by
    by_contra above
    exact accepted (.inr (.inr (.inr (by omega))))
  obtain ⟨c', loop, rest⟩ := allocLoop_room oldsz newsz (pageRange (PGROUNDUP oldsz) newsz) c vs
    (fun a mem => ⟨(pages a mem).1, by have := (pages a mem).2.2; omega⟩) (pageRange_nodup _ _) wf
    (fun a mem => by
      obtain ⟨aligned, low, high⟩ := pages a mem
      have page : a / PGSIZE * PGSIZE = a := by
        simp only [PGSIZE] at *
        omega
      exact absent _ (by omega) (by omega)) holds capacity room
  refine ⟨c', ?_, rest⟩
  rw [allocuvm, if_neg accepted, if_neg (by omega)]
  exact loop

end Grow

end Xv6
