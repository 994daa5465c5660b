import Xv6.Vm.Uvm
import Xv6.Vm.TableUse

/-!
# Address spaces keep the share counts

One rule for each function of `Uvm`: run where the counts are those of the references
held, it leaves counts that agree again, with the new table in place of the old one, and
does not touch the pages of the others (`R`).
-/

namespace Xv6
open RefCount Fallible List

variable {D : Nat → Prop} {R S : Use Nat}

/-! ## Freeing -/

/-- The entries of `d` from `lo` to `hi` that were present have been cleared. -/
structure PgDir.Cleared (d d' : PgDir) (lo hi : Nat) : Prop where
  frame : d'.frame = d.frame
  pde : d'.pde = d.pde
  gone : ∀ v, lo ≤ v * PGSIZE → v * PGSIZE < hi → (d'.pte v).p = false
  kept : ∀ v, d'.pte v = d.pte v ∨ d'.pte v = {} ∧ lo ≤ v * PGSIZE ∧ v * PGSIZE < hi

section Dealloc

variable {d d' : PgDir} {km : Kmem} {a a' hi : Nat}

/-- Nothing was present between `a` and `a'`. -/
theorem PgDir.Cleared.skip (rest : d.Cleared d' a' hi) (le : a ≤ a')
    (absent : ∀ v, a ≤ v * PGSIZE → v * PGSIZE < a' → (d.pte v).p = false) : d.Cleared d' a hi := by
  refine ⟨rest.frame, rest.pde, fun v low high => ?_, fun v => ?_⟩
  · by_cases later : a' ≤ v * PGSIZE
    · exact rest.gone v later high
    · rcases rest.kept v with same | ⟨_, later', _⟩
      · rw [same]
        exact absent v low (by omega)
      · exact absurd later' later
  · rcases rest.kept v with same | ⟨empty, low, high⟩
    · exact .inl same
    · exact .inr ⟨empty, by omega, high⟩

/-- The entry of the page `a` was cleared first. -/
theorem PgDir.Cleared.cons (rest : (d.set a {}).Cleared d' (a + PGSIZE) hi) (aligned : a % PGSIZE = 0)
    (below : a < hi) : d.Cleared d' a hi := by
  have page : a / PGSIZE * PGSIZE = a := by
    simp only [PGSIZE] at *
    omega
  have skipped := rest.skip (Nat.le_add_right a PGSIZE) fun v low high => by
    have here : v = a / PGSIZE := by
      simp only [PGSIZE] at *
      omega
    rw [PgDir.set_pte, if_pos here]
  refine ⟨rest.frame, rest.pde, skipped.gone, fun v => ?_⟩
  by_cases here : v = a / PGSIZE
  · subst here
    refine .inr ⟨?_, by omega, by omega⟩
    rcases skipped.kept (a / PGSIZE) with same | ⟨empty, _⟩
    · rw [same, PgDir.set_pte, if_pos rfl]
    · exact empty
  · rcases skipped.kept v with same | cleared
    · exact .inl (by rw [same, PgDir.set_pte, if_neg here])
    · exact .inr cleared

/-- Pages in a missing table are not present. -/
theorem PgDir.Wf.absent_table (wf : d.Wf) (aligned : a % PGSIZE = 0) (low : a < KERNBASE)
    (missing : walkpgdir a d = none) :
    ∀ v, a ≤ v * PGSIZE → v * PGSIZE < (PDX a + 1) * 0x400000 → (d.pte v).p = false := by
  intro v from_ upto
  have table : v / 1024 = PDX a := by
    simp only [PDX, PGSIZE, KERNBASE] at *
    omega
  rw [wf.noTable v (table ▸ walkpgdir_none.1 missing)]

theorem PgDir.Wf.clear (wf : d.Wf) {va : Nat} : (d.set va {}).Wf := by
  constructor <;> intro x <;> rw [PgDir.set_pte] <;> split
  · exact fun _ => rfl
  · exact wf.noTable x
  · exact fun _ absent => by cases absent
  · exact wf.user x
  · exact fun _ => ⟨rfl, rfl⟩
  · exact wf.kernel x
  · exact fun _ => rfl
  · exact wf.resident x

/-- A table without the page of an entry. -/
theorem PgDir.use_drop {d : PgDir} {a : Nat} {e : Pte} (low : a < KERNBASE) (entry : d.pte (a / PGSIZE) = e)
    (present : e.p = true) (user : e.u = true) : d.use = (d.set a {}).use + ref e.addr e.w := by
  have below : a < 2 ^ 32 := by
    simp only [KERNBASE] at low
    omega
  rw [PgDir.use_eq d (vpage_lt below), entry, Pte.use_mapped present user, PgDir.set_use d below, Pte.use_empty, add_zero]

/-- What survives giving up a reference: the page is not page 0, and `kfree` accepts it. -/
def Gives (P : Use Nat → Kmem → Prop) : Prop :=
  ∀ {U : Use Nat} {km : Kmem} {f : Nat} {x : Bool}, P (U + ref f x) km →
    f ≠ 0 ∧ ∃ km', kfree (P2V (f * PGSIZE)) km = .ok km' ∧ P U km'

/-- Pages are freed that others may hold as well. -/
theorem Held.gives {km0 : Kmem} (zero : ¬ D 0) : Gives fun U km => Held D R (S + U) km ∧ Kept (R + S) km0 km := by
  rintro U km f x ⟨held, kept⟩
  have aside : Held D R (S + U + ref f x) km := held.congr (add_assoc _ _ _).symm
  obtain ⟨freed, held1, kept1⟩ := aside.kfree
  exact ⟨fun isZero => zero (isZero ▸ (aside.acct.congr (add_assoc R _ _).symm).domain), _, freed, held1, kept.trans kept1.inner⟩

section Gives

variable {P : Use Nat → Kmem → Prop}

/-- `deallocuvm`'s loop on another process's table gives up its pages. -/
theorem deallocLoop_gives (gives : Gives P) (t : SlotTable) (top : hi ≤ KERNBASE) :
    ∀ (fuel a : Nat) (d : PgDir) (km : Kmem), a % PGSIZE = 0 → hi ≤ a + fuel * PGSIZE → P d.use km → d.Wf →
      ∃ d' km', deallocLoop false hi fuel a d t km = .ok (d', t, km') ∧ P d'.use km' ∧ d'.Wf ∧ d.Cleared d' a hi := by
  intro fuel
  induction fuel with
  | zero =>
    intro a d km _ enough held wf
    refine ⟨d, km, rfl, held, wf, rfl, rfl, fun v low high => ?_, fun v => .inl rfl⟩
    omega
  | succ fuel ih =>
    intro a d km aligned enough held wf
    unfold deallocLoop
    split
    · rename_i done
      exact ⟨d, km, rfl, held, wf, rfl, rfl, fun v low high => by omega, fun v => .inl rfl⟩
    · rename_i more
      have next : (a + PGSIZE) % PGSIZE = 0 ∧ hi ≤ a + PGSIZE + fuel * PGSIZE := by
        simp only [PGSIZE] at *
        omega
      split
      · rename_i missing
        obtain ⟨d', km', run, held', wf', cleared⟩ :=
          ih ((PDX a + 1) * 0x400000) d km (by simp only [PDX, PGSIZE]; omega)
            (by simp only [PDX, PGSIZE, KERNBASE] at *; omega) held wf
        refine ⟨d', km', run, held', wf', cleared.skip ?_ (wf.absent_table aligned (by omega) missing)⟩
        simp only [PDX, PGSIZE, KERNBASE] at *
        omega
      · rename_i e found
        obtain ⟨_, entry⟩ := walkpgdir_some.1 found
        split
        · rename_i present
          have user : (d.pte (a / PGSIZE)).u = true :=
            wf.user _ (by simp only [NUPAGES, PGSIZE, KERNBASE] at *; omega) (entry ▸ present)
          rw [PgDir.use_drop (by omega) entry present (entry ▸ user)] at held
          obtain ⟨nonzero, km1, freed, held1⟩ := gives held
          rw [if_neg nonzero, if_neg (by simp), freed, ok_bind]
          obtain ⟨d', km', run, held', wf', cleared⟩ := ih (a + PGSIZE) (d.set a {}) km1 next.1 next.2 held1 wf.clear
          exact ⟨d', km', run, held', wf', cleared.cons aligned (by omega)⟩
        · rename_i absent
          rw [if_neg (by simp)]
          obtain ⟨d', km', run, held', wf', cleared⟩ := ih (a + PGSIZE) d km next.1 next.2 held wf
          refine ⟨d', km', run, held', wf', cleared.skip (Nat.le_add_right _ _) fun v low high => ?_⟩
          have here : v = a / PGSIZE := by
            simp only [PGSIZE] at *
            omega
          rw [here, entry]
          simpa using absent

/-- `deallocuvm` on another process's table. -/
theorem deallocuvm_gives (gives : Gives P) (newsz : Nat) (t : SlotTable) (top : hi ≤ KERNBASE) (held : P d.use km) (wf : d.Wf) :
    ∃ sz d' km', deallocuvm false hi newsz d t km = .ok (sz, d', t, km') ∧ P d'.use km' ∧ d'.Wf ∧
      d.Cleared d' (PGROUNDUP newsz) hi := by
  unfold deallocuvm
  split
  · rename_i le
    refine ⟨_, d, km, rfl, held, wf, rfl, rfl, fun v low high => ?_, fun v => .inl rfl⟩
    have := le_PGROUNDUP newsz
    omega
  · obtain ⟨d', km', run, rest⟩ := deallocLoop_gives gives t top _ (PGROUNDUP newsz) d km (PGROUNDUP_mod _)
      (show hi ≤ PGROUNDUP newsz + ((hi - PGROUNDUP newsz) / PGSIZE + 1) * PGSIZE by
        simp only [PGSIZE]; omega) held wf
    exact ⟨newsz, d', km', by rw [run]; rfl, rest⟩

/-- `freevm`'s loop gives up the tables in `is`. -/
theorem freeTables_gives (gives : Gives P) (d : PgDir) {U : Use Nat} (is : List Nat) :
    ∀ km, P (U + (is.map fun x => pdeUse (d.pde x)).sum) km → ∃ km', freeTables d is km = .ok km' ∧ P U km' := by
  induction is with
  | nil => exact fun km held => ⟨km, rfl, by simpa using held⟩
  | cons i is ih =>
    intro km held
    rw [map_cons, List.sum_cons] at held
    unfold freeTables
    split
    · rename_i missing
      rw [missing, pdeUse, zero_add] at held
      exact ih km held
    · rename_i f found
      rw [found, pdeUse, add_comm (ref f true), ← add_assoc] at held
      obtain ⟨_, km1, freed, held1⟩ := gives held
      obtain ⟨km', run, held'⟩ := ih _ held1
      exact ⟨km', by rw [freed, ok_bind, run], held'⟩

theorem PgDir.tables_list (d : PgDir) :
    d.tables = ((List.range NPDENTRIES).map fun x => pdeUse (d.pde x)).sum := by
  have general : ∀ n, ∑ x ∈ Finset.range n, pdeUse (d.pde x) = ((List.range n).map fun x => pdeUse (d.pde x)).sum :=
    fun _ => rfl
  rw [PgDir.tables, general]

/-- When no user page is left, the table refers to its own pages only. -/
theorem PgDir.pages_empty (absent : ∀ v, v < NUPAGES → (d.pte v).p = false) (wf : d.Wf) : d.pages = 0 := by
  refine Finset.sum_eq_zero fun v _ => ?_
  by_cases user : v < NUPAGES
  · exact Pte.use_absent (absent v user)
  · exact Pte.use_kernel (wf.kernel v (by omega)).1

/-- **`freevm`** gives up every page of the table. -/
theorem freevm_gives (gives : Gives P) (held : P d.use km) (wf : d.Wf) : ∃ km', freevm d km = .ok km' ∧ P 0 km' := by
  obtain ⟨sz, d1, km1, run1, held1, wf1, cleared⟩ := deallocuvm_gives gives 0 {} (Nat.le_refl KERNBASE) held wf
  have noPages : d1.pages = 0 := by
    refine d1.pages_empty (fun v low => cleared.gone v ?_ ?_) wf1
    · simp [PGROUNDUP, PGSIZE]
    · simp only [NUPAGES, PGSIZE, KERNBASE] at *
      omega
  rw [PgDir.use, noPages, add_zero, d1.tables_list, ← zero_add (ref _ _)] at held1
  obtain ⟨km2, run2, held2⟩ := freeTables_gives gives d1 _ km1 held1
  obtain ⟨_, km3, freed, held3⟩ := gives held2
  exact ⟨km3, bind_ok.2 ⟨_, run1, bind_ok.2 ⟨km2, run2, freed⟩⟩, held3⟩

end Gives

theorem freevm_held (zero : ¬ D 0) (held : Held D R (S + d.use) km) (wf : d.Wf) :
    ∃ km', freevm d km = .ok km' ∧ Held D R S km' ∧ Kept (R + S) km km' := by
  obtain ⟨km', run, held', kept⟩ := freevm_gives (P := fun U km1 => Held D R (S + U) km1 ∧ Kept (R + S) km km1)
    (Held.gives zero) ⟨held, .refl _ km⟩ wf
  exact ⟨km', run, held'.congr (add_zero S), kept⟩

end Dealloc

/-! ## Building -/

/-- What the linker script says of the kernel's image. -/
structure Kmem.Linked (km : Kmem) : Prop where
  text : EXTMEM < km.kdata
  data : km.kdata ≤ km.kend
  room : km.kend < PHYSTOP

theorem Kmem.Linked.kept {km km' : Kmem} (linked : km.Linked) (kept : Kept R km km') : km'.Linked := by
  constructor <;> simp only [kept.kend, kept.kdata]
  · exact linked.text
  · exact linked.data
  · exact linked.room

/-- Page 0 is not the allocator's. -/
theorem Kmem.Linked.zero {km : Kmem} (linked : km.Linked) (inv : km.Inv D) : ¬ D 0 := by
  intro d0
  have low := (inv.range 0 d0).1
  have := linked.text
  have := linked.data
  simp only [EXTMEM] at *
  omega

section Setup

variable {d d' : PgDir} {km km' : Kmem} {b : Bool} {r : Option PgDir} {perm : Pte}

/-- `d'` differs from `d` in its tables and in the kernel's entries. -/
structure PgDir.SameUser (d d' : PgDir) : Prop where
  frame : d'.frame = d.frame
  user : ∀ v, v < NUPAGES → d'.pte v = d.pte v

/-- Kernel pages have been mapped. -/
structure PgDir.MapsKernel (d : PgDir) (km : Kmem) (d' : PgDir) (km' : Kmem) : Prop where
  wf : d'.Wf
  same : SameMem km km'
  user : d.SameUser d'
  tracks : ∀ {P : Use Nat → Kmem → Prop} {S : Use Nat}, Takes P → P (S + d.use) km → P (S + d'.use) km'

/-- An entry of the kernel's half. -/
def KernelPage (a : Nat) (perm : Pte) : Prop := KERNBASE ≤ a ∧ a < 2 ^ 32 ∧ perm.u = false ∧ perm.pg = false

/-- The pages `as` of the kernel's half are mapped one after the other, up to one that has no table. -/
inductive MapRun : List Nat → PgDir → Kmem → Bool → PgDir → Kmem → Prop where
  | nil {d : PgDir} {km : Kmem} : MapRun [] d km true d km
  | stop {a pa : Nat} {as : List Nat} {perm : Pte} {d d' : PgDir} {km km' : Kmem} (kernel : KernelPage a perm)
    (page : mapPage a pa perm d km = .ok (false, d', km')) : MapRun (a :: as) d km false d' km'
  | cons {a pa : Nat} {as : List Nat} {perm : Pte} {d d1 d' : PgDir} {km km1 km' : Kmem} {b : Bool} (kernel : KernelPage a perm)
    (page : mapPage a pa perm d km = .ok (true, d1, km1)) (rest : MapRun as d1 km1 b d' km') : MapRun (a :: as) d km b d' km'

theorem mapPage_kernel {a pa : Nat} (kernel : KernelPage a perm) (wf : d.Wf)
    (page : mapPage a pa perm d km = .ok (b, d', km')) : d.MapsKernel km d' km' := by
  obtain ⟨low, below, isKernel⟩ := kernel
  obtain ⟨d0, walk, entry⟩ := mapPage_ok page
  obtain ⟨ext, same, table⟩ := walkpgdirAlloc_ext wf walk
  have upper : NUPAGES ≤ a / PGSIZE := by
    simp only [NUPAGES, PGSIZE, KERNBASE] at *
    omega
  cases b with
  | false =>
    simp only [Bool.false_eq_true, if_false] at entry table
    subst entry table
    exact ⟨wf, same, ⟨rfl, fun _ _ => rfl⟩, fun takes held => walkpgdirAlloc_takes takes held wf walk⟩
  | true =>
    simp only [if_true] at entry table
    obtain ⟨absent, rfl⟩ := entry
    refine ⟨(wf.ext ext).set (by rw [← pdx_eq below]; exact table) (fun user => by omega) (fun _ => isKernel)
      (fun _ => isKernel.2), same, ⟨ext.frame, fun v low => ?_⟩, fun {P S} takes held => ?_⟩
    · rw [PgDir.set_pte, if_neg (by omega), ext.pte]
    · rw [PgDir.set_use d0 below, Pte.use_kernel (by exact isKernel.1), ← Pte.use_absent absent, ← PgDir.use_eq d0 (vpage_lt below)]
      exact walkpgdirAlloc_takes takes held wf walk

theorem MapRun.kernel {as : List Nat} (run : MapRun as d km b d' km') (wf : d.Wf) : d.MapsKernel km d' km' := by
  induction run with
  | nil => exact ⟨wf, .refl _, ⟨rfl, fun _ _ => rfl⟩, fun _ held => held⟩
  | stop kernel page => exact mapPage_kernel kernel wf page
  | cons kernel page _ ih =>
    obtain ⟨wf1, same1, user1, tracks1⟩ := mapPage_kernel kernel wf page
    obtain ⟨wf', same', user', tracks'⟩ := ih wf1
    exact ⟨wf', same1.trans same', ⟨user'.frame.trans user1.frame, fun v low => (user'.user v low).trans (user1.user v low)⟩,
      fun takes held => tracks' takes (tracks1 takes held)⟩

theorem MapRun.append {as bs : List Nat} (first : MapRun as d km b d' km') :
    (b = false → MapRun (as ++ bs) d km false d' km') ∧
    ∀ {c : Bool} {d'' : PgDir} {km'' : Kmem}, b = true → MapRun bs d' km' c d'' km'' → MapRun (as ++ bs) d km c d'' km'' := by
  induction first with
  | nil => exact ⟨by rintro ⟨⟩, fun _ second => second⟩
  | stop kernel page => exact ⟨fun _ => .stop kernel page, by rintro _ _ _ ⟨⟩⟩
  | cons kernel page _ ih =>
    exact ⟨fun failed => .cons kernel page (ih.1 failed), fun ok second => .cons kernel page (ih.2 ok second)⟩

/-- The pages of `mappages`' loop. -/
def loopPages (n a : Nat) : List Nat := (List.range n).map fun j => a + j * PGSIZE

theorem loopPages_succ (n a : Nat) : loopPages (n + 1) a = a :: loopPages n (a + PGSIZE) := by
  simp only [loopPages, range_succ_eq_map, map_cons, map_map, Nat.zero_mul, Nat.add_zero, List.cons.injEq, true_and]
  apply map_congr_left
  intro j _
  simp only [Function.comp_apply, PGSIZE]
  omega

/-- The next address does not wrap; past the last page it does not matter. -/
theorem mapLoop_next {n a pa : Nat} (fits : a + (n + 1) * PGSIZE ≤ 2 ^ 32) :
    mapLoop perm n (add32 a PGSIZE) pa d km = mapLoop perm n (a + PGSIZE) pa d km := by
  cases n with
  | zero => simp only [mapLoop]
  | succ n =>
    have plain : add32 a PGSIZE = a + PGSIZE := by
      simp only [add32, PGSIZE] at *
      omega
    rw [plain]

theorem mapLoop_run (kernel : perm.u = false ∧ perm.pg = false) (n : Nat) :
    ∀ (a pa : Nat) (d : PgDir) (km : Kmem), KERNBASE ≤ a → a + n * PGSIZE ≤ 2 ^ 32 →
      mapLoop perm n a pa d km = .ok (b, d', km') → MapRun (loopPages n a) d km b d' km' := by
  induction n with
  | zero =>
    intro a pa d km _ _ call
    cases call
    exact .nil
  | succ n ih =>
    intro a pa d km low high call
    obtain ⟨⟨ok, d1, km1⟩, page, rest⟩ := bind_ok.1 call
    rw [loopPages_succ]
    have here : KernelPage a perm := ⟨low, by simp only [PGSIZE] at high; omega, kernel⟩
    cases ok with
    | false =>
      cases rest
      exact .stop here page
    | true =>
      simp only [if_true] at rest
      rw [mapLoop_next high] at rest
      exact .cons here page (ih _ _ d1 km1 (by omega) (by simp only [PGSIZE] at *; omega) rest)

/-- A row of `kmap` that lies in the kernel's half and does not wrap. -/
structure Kmap.Ok (k : Kmap) : Prop where
  low : KERNBASE ≤ k.virt
  pos : 1 ≤ sub32 k.physEnd k.physStart
  fits : k.virt + sub32 k.physEnd k.physStart ≤ 2 ^ 32
  perm : k.perm.u = false ∧ k.perm.pg = false

theorem kmap_ok (linked : km.Linked) : ∀ k ∈ kmap km.kdata, k.Ok := by
  obtain ⟨text, data, room⟩ := linked
  simp only [kmap, mem_cons, not_mem_nil, or_false]
  rintro k (rfl | rfl | rfl | rfl) <;> constructor <;>
    simp only [P2V, V2P, add32, sub32, KERNBASE, KERNLINK, EXTMEM, PHYSTOP, DEVSPACE] at * <;>
    first | omega | trivial

/-- First and last page of a row of `kmap`. -/
def Kmap.first (k : Kmap) : Nat := k.virt / PGSIZE

def Kmap.last (k : Kmap) : Nat := (k.virt + sub32 k.physEnd k.physStart - 1) / PGSIZE

/-- The pages of a row of `kmap`. -/
def Kmap.pages (k : Kmap) : List Nat := loopPages (k.last - k.first + 1) (PGROUNDDOWN k.virt)

theorem Kmap.Ok.range {k : Kmap} (ok : k.Ok) :
    KERNBASE ≤ PGROUNDDOWN k.virt ∧ PGROUNDDOWN k.virt + (k.last - k.first + 1) * PGSIZE ≤ 2 ^ 32 := by
  obtain ⟨low, pos, fits, _⟩ := ok
  simp only [PGROUNDDOWN, Kmap.first, Kmap.last, PGSIZE, KERNBASE] at *
  omega

theorem kmapLoop_run (ks : List Kmap) (ok : ∀ k ∈ ks, k.Ok) :
    ∀ (d : PgDir) (km : Kmem), kmapLoop ks d km = .ok (b, d', km') → MapRun (ks.flatMap Kmap.pages) d km b d' km' := by
  induction ks with
  | nil =>
    intro d km call
    cases call
    exact .nil
  | cons k ks ih =>
    intro d km call
    obtain ⟨⟨row, d1, km1⟩, map, rest⟩ := bind_ok.1 call
    have here := ok k (mem_cons_self ..)
    rw [mappages_loop here.pos here.fits] at map
    have run : MapRun k.pages d km row d1 km1 := mapLoop_run here.perm _ _ _ d km here.range.1 here.range.2 map
    rw [flatMap_cons]
    cases row with
    | false =>
      cases rest
      exact run.append.1 rfl
    | true => exact run.append.2 rfl (ih (fun k mem => ok k (mem_cons_of_mem _ mem)) d1 km1 rest)

theorem PgDir.wf_empty (f : Nat) : ({ frame := f } : PgDir).Wf :=
  ⟨fun _ _ => rfl, fun _ _ => by rintro ⟨⟩, fun _ _ => ⟨rfl, rfl⟩, fun _ => by rintro ⟨⟩⟩

theorem PgDir.use_fresh (f : Nat) : ({ frame := f } : PgDir).use = ref f true := by
  have tables : ({ frame := f } : PgDir).tables = 0 := Finset.sum_eq_zero fun _ _ => rfl
  have pages : ({ frame := f } : PgDir).pages = 0 := Finset.sum_eq_zero fun _ _ => rfl
  rw [PgDir.use, tables, pages, add_zero, add_zero]

/-- **`setupkvm`**: no page is left for the directory, or the kernel is mapped, and the table is freed again when
that fails. -/
theorem setupkvm_cases (linked : km.Linked) (call : setupkvm km = .ok (r, km')) :
    (r = none ∧ km' = km ∧ km.freelist = []) ∨
      ∃ f km1 b d km2, kalloc km = (some f, km1) ∧ MapRun ((kmap km1.kdata).flatMap Kmap.pages) { frame := f } km1 b d km2 ∧
        PgDir.MapsKernel { frame := f } km1 d km2 ∧ if b then r = some d ∧ km' = km2 else r = none ∧ freevm d km2 = .ok km' := by
  unfold setupkvm at call
  split at call
  · rename_i km1 none_
    cases call
    exact .inl ⟨rfl, kalloc_none none_⟩
  · rename_i f km1 got
    split at call
    · cases call
    · obtain ⟨⟨ok, d1, km2⟩, maps, rest⟩ := bind_ok.1 call
      have run := kmapLoop_run _ (kmap_ok (linked.kept ((kalloc_same got).kept 0))) _ _ maps
      refine .inr ⟨f, km1, ok, d1, km2, got, run, run.kernel (PgDir.wf_empty f), ?_⟩
      cases ok with
      | true =>
        cases rest
        exact ⟨rfl, rfl⟩
      | false =>
        obtain ⟨km3, free, rest⟩ := bind_ok.1 rest
        cases rest
        exact ⟨rfl, free⟩

/-- A table with no user page. -/
theorem setupkvm_blank (linked : km.Linked) (call : setupkvm km = .ok (some d, km')) :
    d.Wf ∧ ∀ v, v < NUPAGES → d.pte v = {} := by
  obtain ⟨none, _⟩ | ⟨f, km1, b, d1, km2, _, _, maps, result⟩ := setupkvm_cases linked call
  · cases none
  · cases b with
    | false => cases result.1
    | true =>
      cases result.1
      exact ⟨maps.wf, maps.user.user⟩

/-- What survives taking pages is known of the new table, or of one that is freed. -/
theorem setupkvm_tracks {P : Use Nat → Kmem → Prop} (takes : Takes P) (linked : km.Linked) (held : P S km)
    (call : setupkvm km = .ok (r, km')) :
    (∃ d, r = some d ∧ SameMem km km' ∧ P (S + d.use) km') ∨
      r = none ∧ (km' = km ∨ ∃ d km1, SameMem km km1 ∧ P (S + d.use) km1 ∧ d.Wf ∧ freevm d km1 = .ok km') := by
  obtain ⟨rfl, rfl, _⟩ | ⟨f, km1, b, d, km2, got, _, maps, result⟩ := setupkvm_cases linked call
  · exact .inr ⟨rfl, .inl rfl⟩
  · have same := (kalloc_same got).trans maps.same
    have fresh := takes held got
    rw [← PgDir.use_fresh f] at fresh
    have tracked := maps.tracks takes fresh
    cases b with
    | true =>
      obtain ⟨rfl, rfl⟩ := result
      exact .inl ⟨d, rfl, same, tracked⟩
    | false => exact .inr ⟨result.1, .inr ⟨d, km2, same, tracked, maps.wf, result.2⟩⟩

/-- **`setupkvm`** and the share counts. -/
theorem setupkvm_held (linked : km.Linked) (held : Held D R S km) (call : setupkvm km = .ok (r, km')) :
    Kept (R + S) km km' ∧ (r = none → Held D R S km') ∧ (∀ d, r = some d → Held D R (S + d.use) km') := by
  obtain ⟨d, rfl, same, held'⟩ | ⟨rfl, rfl | ⟨d, km1, same, held1, wf, free⟩⟩ :=
    setupkvm_tracks Held.takes linked held call
  · refine ⟨same.kept _, by rintro ⟨⟩, fun d1 isSome => ?_⟩
    cases isSome
    exact held'
  · exact ⟨.refl _ _, fun _ => held, by rintro _ ⟨⟩⟩
  · obtain ⟨km2, free', held2, kept2⟩ := freevm_held (linked.zero held.acct.inv) held1 wf
    cases free'.symm.trans free
    exact ⟨(same.kept _).trans kept2, fun _ => held2, by rintro _ ⟨⟩⟩

end Setup

end Xv6
