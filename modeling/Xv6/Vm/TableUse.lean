import Xv6.Vm.PgDir
import Xv6.Mem.Account

/-!
# The references a page table holds

A page table refers to the page of its directory, to its tables and to the user pages
that its present entries map; a writable entry refers exclusively. `PgDir.Wf` is what
every table keeps: entries exist only in tables, the present ones below `KERNBASE` are
user entries, those of the kernel are not, nor are they ever paged out, and no present
page is marked paged out.
-/

namespace Xv6
open RefCount Fallible Finset

/-- The entry of a new user page: present, writable, of page `f`. -/
def Pte.fresh (f : Nat) : Pte := { addr := f, p := true, w := true, u := true }

/-- The user page that an entry maps. -/
def Pte.use (e : Pte) : Use Nat := if e.p && e.u then ref e.addr e.w else 0

/-- The page of a page table. -/
def pdeUse : Option Nat → Use Nat
  | none => 0
  | some f => ref f true

def PgDir.tables (d : PgDir) : Use Nat := ∑ x ∈ Finset.range NPDENTRIES, pdeUse (d.pde x)

def PgDir.pages (d : PgDir) : Use Nat := ∑ v ∈ Finset.range NVPAGES, (d.pte v).use

/-- All pages a page table refers to. -/
def PgDir.use (d : PgDir) : Use Nat := ref d.frame true + d.tables + d.pages

/-- All but the page of entry `v`. -/
def PgDir.rest (d : PgDir) (v : Nat) : Use Nat :=
  ref d.frame true + d.tables + ∑ x ∈ (Finset.range NVPAGES).erase v, (d.pte x).use

structure PgDir.Wf (d : PgDir) : Prop where
  noTable : ∀ v, d.pde (v / 1024) = none → d.pte v = {}
  user : ∀ v, v < NUPAGES → (d.pte v).p = true → (d.pte v).u = true
  kernel : ∀ v, NUPAGES ≤ v → (d.pte v).u = false ∧ (d.pte v).pg = false
  resident : ∀ v, (d.pte v).p = true → (d.pte v).pg = false

@[simp] theorem Pte.use_empty : ({} : Pte).use = 0 := rfl

@[simp] theorem Pte.use_out : Pte.out.use = 0 := rfl

theorem Pte.use_absent {e : Pte} (absent : e.p = false) : e.use = 0 := by
  simp [Pte.use, absent]

theorem Pte.use_kernel {e : Pte} (kernel : e.u = false) : e.use = 0 := by
  simp [Pte.use, kernel]

theorem Pte.use_mapped {e : Pte} (present : e.p = true) (user : e.u = true) : e.use = ref e.addr e.w := by
  simp [Pte.use, present, user]

section Table

variable {d : PgDir} {va v : Nat} {e : Pte}

theorem vpage_lt (h : va < 2 ^ 32) : va / PGSIZE < NVPAGES := by
  simp only [PGSIZE, NVPAGES]
  omega

theorem pdx_eq (h : va < 2 ^ 32) : PDX va = va / PGSIZE / 1024 := by
  simp only [PDX, PGSIZE]
  omega

theorem pdx_lt (va : Nat) : PDX va < NPDENTRIES := by
  simp only [PDX, NPDENTRIES]
  omega

theorem walkpgdir_some : walkpgdir va d = some e ↔ d.pde (PDX va) ≠ none ∧ d.pte (va / PGSIZE) = e := by
  unfold walkpgdir
  split
  · rename_i missing
    simp [missing]
  · rename_i f found
    simp [found]

theorem entry_of_walk (found : walkpgdir va d = some e) : d.pte (va / PGSIZE) = e := (walkpgdir_some.1 found).2

theorem pdx_page (va : Nat) : PDX (PGROUNDDOWN va) = PDX va := by
  simp only [PDX, PGROUNDDOWN, PGSIZE]
  omega

theorem walkpgdir_page (va : Nat) (d : PgDir) : walkpgdir (PGROUNDDOWN va) d = walkpgdir va d := by
  have page : PGROUNDDOWN va / PGSIZE = va / PGSIZE := page_div _
  rw [walkpgdir, walkpgdir, pdx_page, page]

theorem walkpgdir_none : walkpgdir va d = none ↔ d.pde (PDX va) = none := by
  unfold walkpgdir
  split
  · rename_i missing
    simp [missing]
  · rename_i f found
    simp [found]

/-- An entry that is not empty is in a table. -/
theorem PgDir.Wf.walk (wf : d.Wf) (h : va < 2 ^ 32) (entry : d.pte (va / PGSIZE) ≠ {}) :
    walkpgdir va d = some (d.pte (va / PGSIZE)) := by
  refine walkpgdir_some.2 ⟨fun none => entry (wf.noTable _ ?_), rfl⟩
  rw [← pdx_eq h]
  exact none

theorem PgDir.use_eq (d : PgDir) (h : v < NVPAGES) : d.use = d.rest v + (d.pte v).use := by
  have split := sum_erase_add (Finset.range NVPAGES) (fun x => (d.pte x).use) (mem_range.2 h)
  rw [PgDir.use, PgDir.rest, PgDir.pages, ← split]
  abel

@[simp] theorem PgDir.set_pde : (d.set va e).pde = d.pde := rfl

theorem PgDir.set_pte (x : Nat) : (d.set va e).pte x = if x = va / PGSIZE then e else d.pte x :=
  Function.update_apply d.pte (va / PGSIZE) e x

theorem PgDir.set_use (d : PgDir) (h : va < 2 ^ 32) (e : Pte) :
    (d.set va e).use = d.rest (va / PGSIZE) + e.use := by
  rw [PgDir.use_eq _ (vpage_lt h)]
  have other : (d.set va e).rest (va / PGSIZE) = d.rest (va / PGSIZE) := by
    have entries : ∀ x ∈ (Finset.range NVPAGES).erase (va / PGSIZE), ((d.set va e).pte x).use = (d.pte x).use := by
      intro x mem
      rw [PgDir.set_pte, if_neg (ne_of_mem_erase mem)]
    rw [PgDir.rest, PgDir.rest, sum_congr rfl entries]
    rfl
  rw [other]
  simp [PgDir.set]

theorem PgDir.Wf.set (wf : d.Wf) (table : d.pde (va / PGSIZE / 1024) ≠ none)
    (user : va / PGSIZE < NUPAGES → e.p = true → e.u = true)
    (kernel : NUPAGES ≤ va / PGSIZE → e.u = false ∧ e.pg = false) (resident : e.p = true → e.pg = false) :
    (d.set va e).Wf := by
  constructor <;> intro x <;> rw [PgDir.set_pte] <;> split <;> rename_i same
  · subst same
    exact fun missing => absurd missing table
  · exact wf.noTable x
  · subst same
    exact user
  · exact wf.user x
  · subst same
    exact kernel
  · exact wf.kernel x
  · exact resident
  · exact wf.resident x

end Table

/-! ## Creating tables -/

/-- `d'` is `d` with some more, empty tables. -/
structure PgDir.Ext (d d' : PgDir) : Prop where
  frame : d'.frame = d.frame
  pte : d'.pte = d.pte
  pde : ∀ x f, d.pde x = some f → d'.pde x = some f

theorem PgDir.Ext.refl (d : PgDir) : d.Ext d := ⟨rfl, rfl, fun _ _ => id⟩

/-- Memory contents and the linker's symbols are unchanged. -/
structure SameMem (km km' : Kmem) : Prop where
  mem : km'.mem = km.mem
  kend : km'.kend = km.kend
  kdata : km'.kdata = km.kdata

theorem SameMem.refl (km : Kmem) : SameMem km km := ⟨rfl, rfl, rfl⟩

theorem SameMem.kept {km km' : Kmem} (same : SameMem km km') (R : Use Nat) : Kept R km km' :=
  ⟨fun _ _ => by rw [same.mem], same.kend, same.kdata⟩

theorem SameMem.trans {km km' km'' : Kmem} (first : SameMem km km') (second : SameMem km' km'') :
    SameMem km km'' :=
  ⟨second.mem.trans first.mem, second.kend.trans first.kend, second.kdata.trans first.kdata⟩

theorem kalloc_same {km km' : Kmem} {f : Nat} (h : kalloc km = (some f, km')) : SameMem km km' := by
  obtain ⟨_, _, _, mem, kend, kdata⟩ := kalloc_some h
  exact ⟨mem, kend, kdata⟩

section AddTable

variable {D : Nat → Prop} {R S : Use Nat} {d d' : PgDir} {km km' : Kmem} {va f : Nat} {b : Bool} {perm : Pte} {pa : Nat}

theorem PgDir.Wf.addTable_pte (wf : d.Wf) (missing : d.pde (PDX va) = none) :
    (d.addTable va f).pte = d.pte := by
  funext v
  simp only [PgDir.addTable]
  split
  · rename_i same
    exact (wf.noTable v (same ▸ missing)).symm
  · rfl

theorem PgDir.Wf.addTable_ext (wf : d.Wf) (missing : d.pde (PDX va) = none) :
    d.Ext (d.addTable va f) := by
  refine ⟨rfl, wf.addTable_pte missing, fun x g found => ?_⟩
  have ne : x ≠ PDX va := by
    rintro rfl
    rw [missing] at found
    cases found
  simp [PgDir.addTable, ne, found]

theorem PgDir.Wf.addTable_use (wf : d.Wf) (missing : d.pde (PDX va) = none) :
    (d.addTable va f).use = d.use + ref f true := by
  have pages : (d.addTable va f).pages = d.pages := by
    rw [PgDir.pages, wf.addTable_pte missing]
    rfl
  have tables : (d.addTable va f).tables = d.tables + ref f true := by
    have mem := mem_range.2 (pdx_lt va)
    rw [PgDir.tables, PgDir.tables, ← sum_erase_add _ _ mem, ← sum_erase_add _ _ mem]
    have others : ∀ x ∈ (Finset.range NPDENTRIES).erase (PDX va),
        pdeUse ((d.addTable va f).pde x) = pdeUse (d.pde x) := by
      intro x inside
      simp [PgDir.addTable, ne_of_mem_erase inside]
    rw [sum_congr rfl others, missing]
    simp [PgDir.addTable, pdeUse]
  rw [PgDir.use, tables, pages, PgDir.use]
  simp only [PgDir.addTable]
  abel

theorem PgDir.Wf.ext (wf : d.Wf) (ext : d.Ext d') : d'.Wf := by
  refine ⟨fun v missing => ?_, fun v => ?_, fun v => ?_, fun v => ?_⟩ <;> rw [ext.pte]
  · refine wf.noTable v ?_
    cases found : d.pde (v / 1024) with
    | none => rfl
    | some f => rw [ext.pde _ _ found] at missing; cases missing
  · exact wf.user v
  · exact wf.kernel v
  · exact wf.resident v

/-- `walkpgdir` with `alloc` set: the tables grow, nothing else changes. -/
theorem walkpgdirAlloc_ext (wf : d.Wf) (call : walkpgdirAlloc va d km = (b, d', km')) :
    d.Ext d' ∧ SameMem km km' ∧ (if b then d'.pde (PDX va) ≠ none else d' = d) := by
  unfold walkpgdirAlloc at call
  split at call
  · rename_i g found
    cases call
    exact ⟨.refl _, .refl _, by simp [found]⟩
  · rename_i missing
    split at call
    · rename_i km1 none
      cases call
      obtain ⟨rfl, _⟩ := kalloc_none none
      exact ⟨.refl _, .refl _, by simp⟩
    · rename_i g km1 got
      cases call
      exact ⟨wf.addTable_ext missing, kalloc_same got, by simp [PgDir.addTable]⟩

theorem walkpgdirAlloc_failed (call : walkpgdirAlloc va d km = (false, d', km')) : d' = d ∧ km' = km := by
  unfold walkpgdirAlloc at call
  split at call
  · cases call
  · split at call
    · rename_i km1 none
      cases call
      exact ⟨rfl, (kalloc_none none).1⟩
    · cases call

/-- An account of references that `kalloc` extends. -/
def Takes (P : Use Nat → Kmem → Prop) : Prop :=
  ∀ {U : Use Nat} {km km' : Kmem} {f : Nat}, P U km → kalloc km = (some f, km') → P (U + ref f true) km'

theorem Held.takes : Takes (Held D R) := fun held got => held.kalloc got true

theorem walkpgdirAlloc_takes {P : Use Nat → Kmem → Prop} (takes : Takes P) (held : P (S + d.use) km) (wf : d.Wf)
    (call : walkpgdirAlloc va d km = (b, d', km')) : P (S + d'.use) km' := by
  unfold walkpgdirAlloc at call
  split at call
  · cases call
    exact held
  · rename_i missing
    split at call
    · rename_i km1 none
      cases call
      obtain ⟨rfl, _⟩ := kalloc_none none
      exact held
    · rename_i g km1 got
      cases call
      rw [wf.addTable_use missing, ← add_assoc]
      exact takes held got

theorem walkpgdirAlloc_held (held : Held D R (S + d.use) km) (wf : d.Wf)
    (call : walkpgdirAlloc va d km = (b, d', km')) :
    Held D R (S + d'.use) km' ∧ d.Ext d' ∧ SameMem km km' ∧
      (if b then d'.pde (PDX va) ≠ none else d' = d) :=
  ⟨walkpgdirAlloc_takes Held.takes held wf call, walkpgdirAlloc_ext wf call⟩

theorem mapPage_ok {a : Nat} (call : mapPage a pa perm d km = .ok (b, d', km')) :
    ∃ d1, walkpgdirAlloc a d km = (b, d1, km') ∧
      (if b then (d1.pte (a / PGSIZE)).p = false ∧ d' = d1.set a { perm with addr := pa / PGSIZE, p := true }
       else d' = d1) := by
  unfold mapPage at call
  split at call
  · rename_i d1 km1 walk
    cases call
    exact ⟨_, walk, by simp⟩
  · rename_i d1 km1 walk
    split at call
    · cases call
    · rename_i absent
      cases call
      exact ⟨_, walk, by simpa using absent⟩

/-- `mappages` of several pages is its loop, when the range does not wrap. -/
theorem mappages_loop {size : Nat} (pos : 1 ≤ size) (fits : va + size ≤ 2 ^ 32) :
    mappages va size pa perm d km =
      mapLoop perm ((va + size - 1) / PGSIZE - va / PGSIZE + 1) (PGROUNDDOWN va) pa d km := by
  have last : PGROUNDDOWN (sub32 (add32 va size) 1) = (va + size - 1) / PGSIZE * PGSIZE := by
    simp only [PGROUNDDOWN, sub32, add32, PGSIZE]
    omega
  have pages : sub32 ((va + size - 1) / PGSIZE * PGSIZE) (PGROUNDDOWN va) / PGSIZE =
      (va + size - 1) / PGSIZE - va / PGSIZE := by
    simp only [PGROUNDDOWN, sub32, PGSIZE]
    omega
  simp only [mappages, last, pages]

/-- `mappages` of one page. -/
theorem mappages_page (aligned : va % PGSIZE = 0) (fits : va < KERNBASE) :
    mappages va PGSIZE pa perm d km = mapPage va pa perm d km := by
  have one : (va + PGSIZE - 1) / PGSIZE - va / PGSIZE = 0 := by
    simp only [PGSIZE] at *
    omega
  have start : PGROUNDDOWN va = va := by
    simp only [PGROUNDDOWN, PGSIZE] at *
    omega
  rw [mappages_loop (by decide) (by simp only [PGSIZE, KERNBASE] at *; omega), one, start]
  simp only [mapLoop]
  cases mapPage va pa perm d km with
  | error e => rfl
  | ok r =>
    obtain ⟨ok, d1, km1⟩ := r
    cases ok <;> rfl

end AddTable

end Xv6
