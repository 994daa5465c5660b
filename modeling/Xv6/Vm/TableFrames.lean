import Xv6.Vm.Sound
import Xv6.Vm.TableCost

/-!
# Page tables conserve frames

`Charged D X U km` says that every share count is that of `X` plus the references `U`.
`setupkvm` adds the references of the table it makes and `freevm` takes those of a table
away, so the counts of all other pages, and with them the set of free pages, are kept to
the page.
-/

namespace Xv6
open RefCount Fallible Function Finset

/-- The allocator is in order, and `X` and `U` make up its counts. -/
structure Charged (D : Nat → Prop) (X : Nat → Nat) (U : Use Nat) (km : Kmem) : Prop where
  inv : km.Inv D
  count : ∀ f, km.pcSh f = X f + total U f

section Charged

variable {D : Nat → Prop} {X : Nat → Nat} {S U V : Use Nat} {d : PgDir} {km km' : Kmem} {f : Nat} {x : Bool}

theorem Charged.congr (charged : Charged D X U km) (same : U = V) : Charged D X V km := same ▸ charged

/-- Every state of the allocator is charged by its own counts. -/
theorem Charged.start (inv : km.Inv D) : Charged D km.pcSh 0 km := ⟨inv, fun _ => rfl⟩

theorem Charged.takes : Takes (Charged D X) := by
  intro U km km' f charged got
  obtain ⟨_, zero⟩ := charged.inv.kalloc_free got
  refine ⟨charged.inv.kalloc got, fun g => ?_⟩
  rw [(kalloc_some got).2.1, total_add, total_ref, ← Nat.add_assoc, ← charged.count g]
  by_cases here : g = f
  · rw [here, update_self, if_pos rfl, zero]
  · rw [update_of_ne here, if_neg here, Nat.add_zero]

theorem Charged.kfree (charged : Charged D X (U + ref f x) km) :
    kfree (P2V (f * PGSIZE)) km = .ok (km.release f) ∧ Charged D X U (km.release f) ∧ D f := by
  have counted : 1 ≤ km.pcSh f := by
    rw [charged.count, total_add, total_ref_self]
    omega
  refine ⟨kfree_counted charged.inv counted, ⟨charged.inv.release counted, fun g => ?_⟩, charged.inv.of_counted counted⟩
  have count := charged.count g
  rw [total_add, total_ref] at count
  rw [Kmem.release_pcSh]
  by_cases here : g = f
  · subst here
    rw [if_pos rfl] at count
    rw [update_self]
    omega
  · rw [if_neg here] at count
    rw [update_of_ne here]
    omega

/-- **`freevm`** takes the references of the table away. -/
theorem freevm_charged (zero : ¬ D 0) (charged : Charged D X (S + d.use) km) (wf : d.Wf) :
    ∃ km', freevm d km = .ok km' ∧ Charged D X S km' := by
  obtain ⟨km', run, charged'⟩ := freevm_gives (P := fun U km1 => Charged D X (S + U) km1)
    (fun {U km1 f x} charged1 => by
      obtain ⟨freed, charged2, inside⟩ := (charged1.congr (add_assoc _ _ _).symm).kfree
      exact ⟨fun isZero => zero (isZero ▸ inside), _, freed, charged2⟩) charged wf
  exact ⟨km', run, charged'.congr (add_zero S)⟩

/-- **`setupkvm`** adds the references of the table it makes, or none. -/
theorem setupkvm_charged {r : Option PgDir} (linked : km.Linked) (charged : Charged D X S km)
    (call : setupkvm km = .ok (r, km')) :
    (r = none → Charged D X S km') ∧ ∀ d, r = some d → Charged D X (S + d.use) km' := by
  obtain ⟨d, rfl, _, charged'⟩ | ⟨rfl, rfl | ⟨d, km1, _, charged1, wf, free⟩⟩ :=
    setupkvm_tracks Charged.takes linked charged call
  · refine ⟨by rintro ⟨⟩, fun d1 isSome => ?_⟩
    cases isSome
    exact charged'
  · exact ⟨fun _ => charged, by rintro _ ⟨⟩⟩
  · obtain ⟨km2, free', charged2⟩ := freevm_charged (linked.zero charged.inv) charged1 wf
    cases free'.symm.trans free
    exact ⟨fun _ => charged2, by rintro _ ⟨⟩⟩

end Charged

/-! ## Any table with user mappings -/

section Table

variable {D : Nat → Prop} {d : PgDir} {km km' : Kmem} {f : Nat}

/-- A table that `setupkvm` has made, with any user mappings below `KERNBASE`. -/
inductive UserTable : PgDir → Prop where
  | setup {km km' : Kmem} {d : PgDir} : km.Linked → setupkvm km = .ok (some d, km') → UserTable d
  | table {d : PgDir} {va f : Nat} : UserTable d → va < KERNBASE → d.pde (PDX va) = none → UserTable (d.addTable va f)
  | entry {d : PgDir} {va : Nat} {e : Pte} : UserTable d → va < KERNBASE → d.pde (PDX va) ≠ none →
      (e.p = true → e.u = true ∧ e.pg = false) → UserTable (d.set va e)

theorem UserTable.wf (table : UserTable d) : d.Wf := by
  induction table with
  | setup linked call => exact (setupkvm_blank linked call).1
  | table _ _ missing ih => exact ih.ext (ih.addTable_ext missing)
  | @entry d va e _ low found user ih =>
    have below : va < 2 ^ 32 ∧ va / PGSIZE < NUPAGES := by
      simp only [KERNBASE, PGSIZE, NUPAGES] at *
      omega
    refine ih.set ?_ (fun _ present => (user present).1) (fun high => by omega) fun present => (user present).2
    rw [← pdx_eq below.1]
    exact found

/-- The present user entries that point to a page. -/
def PgDir.userRefs (d : PgDir) (f : Nat) : Nat :=
  ((Finset.range NUPAGES).filter fun v => (d.pte v).p = true ∧ (d.pte v).addr = f).card

/-- The page is a page table of the directory, or the directory. -/
def PgDir.tableRefs (d : PgDir) (f : Nat) : Nat :=
  ((Finset.range NPDENTRIES).filter fun x => d.pde x = some f).card + if f = d.frame then 1 else 0

theorem PgDir.Wf.pages_total (wf : d.Wf) (f : Nat) : total d.pages f = d.userRefs f := by
  have users : ∀ v, total (d.pte v).use f = if v < NUPAGES ∧ (d.pte v).p = true ∧ (d.pte v).addr = f then 1 else 0 := by
    intro v
    by_cases low : v < NUPAGES
    · by_cases present : (d.pte v).p = true
      · rw [Pte.use_mapped present (wf.user v low present), total_ref]
        simp only [low, present, true_and, eq_comm]
      · rw [Pte.use_absent (by simpa using present), total_zero, if_neg fun all => present all.2.1]
    · rw [Pte.use_kernel (wf.kernel v (by omega)).1, total_zero, if_neg fun all => low all.1]
  have same : ((Finset.range NVPAGES).filter fun v => v < NUPAGES ∧ (d.pte v).p = true ∧ (d.pte v).addr = f) =
      (Finset.range NUPAGES).filter fun v => (d.pte v).p = true ∧ (d.pte v).addr = f := by
    ext v
    have low : v < NUPAGES → v < NVPAGES := fun low => Nat.lt_trans low (by decide)
    rw [mem_filter, mem_filter, mem_range, mem_range]
    exact ⟨fun all => all.2, fun both => ⟨low both.1, both⟩⟩
  rw [PgDir.pages, total_sum, sum_congr rfl fun v _ => users v, ← card_filter, same, PgDir.userRefs]

theorem PgDir.tables_total (d : PgDir) (f : Nat) :
    total d.tables f = ((Finset.range NPDENTRIES).filter fun x => d.pde x = some f).card := by
  have tables : ∀ x, total (pdeUse (d.pde x)) f = if d.pde x = some f then 1 else 0 := by
    intro x
    cases d.pde x with
    | none => rfl
    | some g =>
      rw [pdeUse, total_ref]
      simp only [Option.some.injEq, eq_comm]
  rw [PgDir.tables, total_sum, sum_congr rfl fun x _ => tables x, ← card_filter]

theorem PgDir.Wf.use_total (wf : d.Wf) (f : Nat) : total d.use f = d.userRefs f + d.tableRefs f := by
  rw [PgDir.use, total_add, total_add, total_ref, wf.pages_total, d.tables_total, PgDir.tableRefs]
  omega

/-- The references of the table are counted, and its own pages are nobody else's. -/
structure PgDir.CountedIn (d : PgDir) (km : Kmem) : Prop where
  counted : ∀ f, d.userRefs f + d.tableRefs f ≤ km.pcSh f
  own : ∀ f, 0 < d.tableRefs f → km.pcSh f = 1

/-- What freeing a table does to the allocator. -/
structure FreedTable (d : PgDir) (km km' : Kmem) : Prop where
  counts : ∀ f, km'.pcSh f + (d.userRefs f + d.tableRefs f) = km.pcSh f
  tables : ∀ f, 0 < d.tableRefs f → f ∈ km'.freelist ∧ f ∉ km.freelist
  once : km'.freelist.Nodup
  only : ∀ f, f ∈ km'.freelist → f ∈ km.freelist ∨ 0 < d.userRefs f ∨ 0 < d.tableRefs f

/-- `freevm` of any such table. -/
theorem UserTable.freed (table : UserTable d) (inv : km.Inv D) (zero : ¬ D 0) (counted : d.CountedIn km) :
    ∃ km', freevm d km = .ok km' ∧ FreedTable d km km' := by
  have wf := table.wf
  have charged : Charged D (fun f => km.pcSh f - total d.use f) (0 + d.use) km := by
    refine ⟨inv, fun f => ?_⟩
    have := counted.counted f
    rw [zero_add, wf.use_total]
    omega
  obtain ⟨km', run, charged'⟩ := freevm_charged zero charged wf
  have counts : ∀ f, km'.pcSh f + (d.userRefs f + d.tableRefs f) = km.pcSh f := by
    intro f
    have := counted.counted f
    rw [charged'.count, total_zero, wf.use_total]
    omega
  refine ⟨km', run, counts, fun f own => ⟨?_, fun free => ?_⟩, charged'.inv.nodup, fun f free => ?_⟩
  · have one := counted.own f own
    refine (charged'.inv.exact f).2 ⟨inv.of_counted (by omega), ?_⟩
    have := counts f
    omega
  · have := ((inv.exact f).1 free).2
    rw [counted.own f own] at this
    cases this
  · obtain ⟨inside, gone⟩ := (charged'.inv.exact f).1 free
    have := counts f
    by_cases unused : d.userRefs f + d.tableRefs f = 0
    · exact .inl ((inv.exact f).2 ⟨inside, by omega⟩)
    · omega

/-- The pages that are free are those whose count is 0. -/
theorem Kmem.Inv.same_free (inv : km.Inv D) (inv' : km'.Inv D) (same : km'.pcSh = km.pcSh) (f : Nat) :
    f ∈ km'.freelist ↔ f ∈ km.freelist := by
  rw [inv'.exact, inv.exact, same]

/-- **Building and tearing down page tables conserves frames.** -/
theorem page_tables_conserve_frames (inv : km.Inv D) (symbols : Symbols km.kend km.kdata) :
    (∃ r km', setupkvm km = .ok (r, km') ∧ (r = none ↔ km.freelist.length < KVM_PAGES) ∧
      (r = none → km'.pcSh = km.pcSh ∧ ∀ f, f ∈ km'.freelist ↔ f ∈ km.freelist)) ∧
    ∀ d, UserTable d → d.CountedIn km → ∃ km', freevm d km = .ok km' ∧ FreedTable d km km' := by
  have memory : km.Sound km.kend km.kdata := ⟨rfl, rfl, fun f free => inv.range f ((inv.exact f).1 free).1⟩
  have linked := symbols.linked memory
  refine ⟨?_, fun d table counted => table.freed inv (linked.zero inv) counted⟩
  obtain ⟨r, km', call, _⟩ := setupkvm_sound symbols memory
  obtain ⟨failed, _⟩ := setupkvm_charged linked (Charged.start inv) call
  refine ⟨r, km', call, ?_, fun isNone => ?_⟩
  · rcases setupkvm_cost linked call with ⟨rfl, short⟩ | ⟨d, rfl, _, paid⟩
    · exact iff_of_true rfl short
    · refine iff_of_false (by rintro ⟨⟩) ?_
      omega
  · have charged := failed isNone
    have same : km'.pcSh = km.pcSh := funext fun f => charged.count f
    exact ⟨same, inv.same_free charged.inv same⟩

/-- An allocator with the pages from 4 MB on free, just enough for one table. -/
def justEnough : Kmem where
  kend := 0x400000
  kdata := 0x200000
  freelist := (List.range KVM_PAGES).map (0x400 + ·)
  fpgn := KVM_PAGES
  pcSh := fun _ => 0
  mem := fun _ _ => 1

theorem justEnough_inv : justEnough.Inv fun f => 0x400 ≤ f ∧ f < 0x400 + KVM_PAGES where
  nodup := List.nodup_range.map fun a b same => Nat.add_left_cancel same
  exact := by
    intro f
    have mem : f ∈ justEnough.freelist ↔ ∃ j < KVM_PAGES, 0x400 + j = f := by simp [justEnough]
    rw [mem]
    refine ⟨fun ⟨j, inside, same⟩ => ⟨by omega, rfl⟩, fun ⟨⟨low, high⟩, _⟩ => ⟨f - 0x400, by omega, by omega⟩⟩
  count := by simp [justEnough]
  outside := fun _ _ => rfl
  ushort := fun _ => Nat.zero_lt_succ 65535
  range := by
    intro f inside
    simp only [justEnough, KVM_PAGES, PGSIZE, PHYSTOP] at *
    omega

theorem page_tables_conserve_frames_round : ∃ d km' km'', setupkvm justEnough = .ok (some d, km') ∧
    freevm d km' = .ok km'' ∧ FreedTable d km' km'' ∧ ∀ f, f ∈ km''.freelist ↔ f ∈ justEnough.freelist := by
  have symbols : Symbols justEnough.kend justEnough.kdata := ⟨by decide, by decide, by decide, by decide⟩
  obtain ⟨⟨r, km', call, failed, _⟩, _⟩ := page_tables_conserve_frames justEnough_inv symbols
  have linked : justEnough.Linked := ⟨symbols.text, symbols.data, symbols.room⟩
  cases r with
  | none => exact absurd (failed.1 rfl) (by simp [justEnough])
  | some d =>
    have charged := (setupkvm_charged linked (Charged.start justEnough_inv) call).2 d rfl
    have start : Held (fun f => 0x400 ≤ f ∧ f < 0x400 + KVM_PAGES) 0 0 justEnough :=
      ⟨⟨justEnough_inv, fun f used => absurd used (by simp), fun f used => absurd used (by simp)⟩, by simp⟩
    obtain ⟨kept, _, held⟩ := setupkvm_held linked start call
    have made := UserTable.setup linked call
    have counts : ∀ f, km'.pcSh f = d.userRefs f + d.tableRefs f := by
      intro f
      rw [charged.count, zero_add, made.wf.use_total]
      exact Nat.zero_add _
    have counted : d.CountedIn km' := by
      refine ⟨fun f => (counts f).ge, fun f own => ?_⟩
      have once := (held d rfl).once f
      rw [zero_add, made.wf.use_total, ← counts f] at once
      have := counts f
      omega
    have symbols' : Symbols km'.kend km'.kdata := by
      rw [kept.kend, kept.kdata]
      exact symbols
    obtain ⟨km'', freed, done⟩ := (page_tables_conserve_frames charged.inv symbols').2 d made counted
    refine ⟨d, km', km'', call, freed, done, fun f => ?_⟩
    obtain ⟨km3, again, back⟩ := freevm_charged (linked.zero justEnough_inv) charged made.wf
    cases again.symm.trans freed
    exact justEnough_inv.same_free back.inv (funext fun f => back.count f) f

end Table

end Xv6
