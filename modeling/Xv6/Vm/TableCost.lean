import Mathlib.Order.Interval.Finset.Nat
import Xv6.Vm.Room

/-!
# What page tables cost

A page is taken from the free list for the directory and for each 4 MB of addresses that
a table maps. The functions that map pages fail when the free list is empty and the next
page needs a table.
-/

namespace Xv6
open RefCount Fallible List

/-- The tables that a directory has. -/
def PgDir.dirs (d : PgDir) : Finset Nat := (Finset.range NPDENTRIES).filter fun x => d.pde x ≠ none

/-- The tables that the pages at these addresses are in. -/
def dirsOf (as : List Nat) : Finset Nat := (as.map PDX).toFinset

section Walk

variable {va a pa : Nat} {d d' d'' : PgDir} {km km' km'' : Kmem} {b : Bool} {as bs : List Nat} {perm : Pte}

theorem PgDir.mem_dirs : PDX va ∈ d.dirs ↔ d.pde (PDX va) ≠ none := by
  rw [PgDir.dirs, Finset.mem_filter, and_iff_right (Finset.mem_range.2 (pdx_lt va))]

theorem PgDir.addTable_dirs (va f : Nat) : (d.addTable va f).dirs = insert (PDX va) d.dirs := by
  ext x
  rw [Finset.mem_insert, PgDir.dirs, PgDir.dirs, Finset.mem_filter, Finset.mem_filter, PgDir.addTable]
  by_cases here : x = PDX va
  · subst here
    simp [pdx_lt va]
  · simp [here]

/-- Tables for the pages `as` have been made, or the free list has run empty before. -/
structure Walked (as : List Nat) (b : Bool) (d : PgDir) (km : Kmem) (d' : PgDir) (km' : Kmem) : Prop where
  paid : km'.freelist.length + d'.dirs.card = km.freelist.length + d.dirs.card
  some : d'.dirs ⊆ d.dirs ∪ dirsOf as
  all : b = true → d.dirs ∪ dirsOf as ⊆ d'.dirs
  out : b = false → km'.freelist = [] ∧ ∃ a ∈ as, PDX a ∉ d'.dirs

theorem Walked.nil : Walked [] true d km d km :=
  ⟨rfl, by simp, by simp [dirsOf], by simp⟩

theorem Walked.append (first : Walked as true d km d' km') (second : Walked bs b d' km' d'' km'') :
    Walked (as ++ bs) b d km d'' km'' := by
  have both : dirsOf (as ++ bs) = dirsOf as ∪ dirsOf bs := by simp [dirsOf]
  have same := Finset.Subset.antisymm first.some (first.all rfl)
  refine ⟨second.paid.trans first.paid, ?_, fun ok => ?_, fun failed => ?_⟩
  · rw [both, ← Finset.union_assoc, ← same]
    exact second.some
  · rw [both, ← Finset.union_assoc, ← same]
    exact second.all ok
  · obtain ⟨empty, a, mem, missing⟩ := second.out failed
    exact ⟨empty, a, mem_append_right _ mem, missing⟩

theorem Walked.failed (failed : Walked as false d km d' km') (bs : List Nat) : Walked (as ++ bs) false d km d' km' := by
  obtain ⟨empty, a, mem, missing⟩ := failed.out rfl
  refine ⟨failed.paid, failed.some.trans ?_, by simp, fun _ => ⟨empty, a, mem_append_left _ mem, missing⟩⟩
  apply Finset.union_subset_union_right
  simp [dirsOf]

theorem Walked.dirs_eq (walked : Walked as true d km d' km') : d'.dirs = d.dirs ∪ dirsOf as :=
  Finset.Subset.antisymm walked.some (walked.all rfl)

/-- Only the directory and the free list count. -/
theorem Walked.congr (walked : Walked as b d km d' km') (pde : d''.pde = d'.pde) (list : km''.freelist = km'.freelist) :
    Walked as b d km d'' km'' := by
  have dirs : d''.dirs = d'.dirs := by rw [PgDir.dirs, PgDir.dirs, pde]
  constructor
  · rw [dirs, list]
    exact walked.paid
  · rw [dirs]
    exact walked.some
  · rw [dirs]
    exact walked.all
  · rw [dirs, list]
    exact walked.out

theorem walkpgdirAlloc_walked (call : walkpgdirAlloc va d km = (b, d', km')) : Walked [va] b d km d' km' := by
  unfold walkpgdirAlloc at call
  split at call
  · rename_i f found
    cases call
    have here : PDX va ∈ d.dirs := PgDir.mem_dirs.2 (by rw [found]; exact Option.some_ne_none _)
    refine ⟨rfl, Finset.subset_union_left, fun _ => ?_, by rintro ⟨⟩⟩
    simp [dirsOf, here]
  · rename_i missing
    have absent : PDX va ∉ d.dirs := fun mem => PgDir.mem_dirs.1 mem missing
    unfold kalloc at call
    split at call
    · rename_i gone
      split at gone
      · rename_i empty
        cases gone
        cases call
        exact ⟨rfl, Finset.subset_union_left, by rintro ⟨⟩, fun _ => ⟨empty, va, mem_singleton_self va, absent⟩⟩
      · cases gone
    · rename_i got
      split at got
      · cases got
      · rename_i rest list
        cases got
        cases call
        refine ⟨?_, ?_, fun _ => ?_, by rintro ⟨⟩⟩
        · rw [PgDir.addTable_dirs, Finset.card_insert_of_notMem absent, list, length_cons, ← Nat.add_assoc, Nat.add_right_comm]
        · rw [PgDir.addTable_dirs]
          simp [dirsOf, Finset.union_comm]
        · rw [PgDir.addTable_dirs]
          simp [dirsOf, Finset.union_comm]

theorem mapPage_walked (call : mapPage a pa perm d km = .ok (b, d', km')) : Walked [a] b d km d' km' := by
  obtain ⟨d1, walk, new⟩ := mapPage_ok call
  have walked := walkpgdirAlloc_walked walk
  cases b with
  | false =>
    simp only [Bool.false_eq_true, if_false] at new
    exact new ▸ walked
  | true =>
    simp only [if_true] at new
    exact walked.congr (by rw [new.2]; rfl) rfl

theorem MapRun.walked (run : MapRun as d km b d' km') : Walked as b d km d' km' := by
  induction run with
  | nil => exact .nil
  | stop _ page => exact (mapPage_walked page).failed _
  | cons _ page _ ih => exact (mapPage_walked page).append ih

/-- The tables of the kernel's half: memory up to `PHYSTOP`, and the devices. -/
def kernelDirs : Finset Nat := Finset.Ico 512 568 ∪ Finset.Ico 1016 1024

theorem kernelDirs_card : kernelDirs.card = 64 := by
  rw [kernelDirs, Finset.card_union_of_disjoint, Nat.card_Ico, Nat.card_Ico]
  rw [Finset.disjoint_left]
  intro x memory device
  rw [Finset.mem_Ico] at memory device
  omega

/-- A row of `kmap` needs the tables from its first to its last page. -/
theorem Kmap.Ok.mem_dirs {k : Kmap} (ok : k.Ok) {x : Nat} : x ∈ dirsOf k.pages ↔ k.first / 1024 ≤ x ∧ x ≤ k.last / 1024 := by
  obtain ⟨_, pos, fits, _⟩ := ok
  have mem : x ∈ dirsOf k.pages ↔ ∃ j < k.last - k.first + 1, PDX (PGROUNDDOWN k.virt + j * PGSIZE) = x := by
    simp [dirsOf, Kmap.pages, loopPages]
  rw [mem]
  have order : k.first ≤ k.last ∧ k.last < 1048576 := by
    simp only [Kmap.first, Kmap.last, PGSIZE]
    omega
  have pdx : ∀ j, j < k.last - k.first + 1 → PDX (PGROUNDDOWN k.virt + j * PGSIZE) = (k.first + j) / 1024 := by
    intro j inside
    have start : PGROUNDDOWN k.virt = k.first * PGSIZE := rfl
    rw [start, PDX]
    simp only [PGSIZE]
    omega
  constructor
  · rintro ⟨j, inside, rfl⟩
    rw [pdx j inside]
    omega
  · rintro ⟨low, high⟩
    have inside : max k.first (x * 1024) - k.first < k.last - k.first + 1 := by omega
    refine ⟨_, inside, ?_⟩
    rw [pdx _ inside]
    omega

theorem kmap_dirs (linked : km.Linked) : dirsOf ((kmap km.kdata).flatMap Kmap.pages) = kernelDirs := by
  have ok := kmap_ok linked
  obtain ⟨text, data, room⟩ := linked
  ext x
  have rows : x ∈ dirsOf ((kmap km.kdata).flatMap Kmap.pages) ↔ ∃ k ∈ kmap km.kdata, k.first / 1024 ≤ x ∧ x ≤ k.last / 1024 := by
    have inside : x ∈ dirsOf ((kmap km.kdata).flatMap Kmap.pages) ↔ ∃ k ∈ kmap km.kdata, x ∈ dirsOf k.pages := by
      simp only [dirsOf, mem_toFinset, mem_map, mem_flatMap]
      grind
    rw [inside]
    exact exists_congr fun k => and_congr_right fun mem => (ok k mem).mem_dirs
  rw [rows]
  simp only [kmap, mem_cons, not_mem_nil, or_false, exists_eq_or_imp, exists_eq_left, Kmap.first, Kmap.last, kernelDirs,
    Finset.mem_union, Finset.mem_Ico, P2V, V2P, add32, sub32, KERNBASE, KERNLINK, EXTMEM, PHYSTOP, DEVSPACE, PGSIZE] at *
  omega

end Walk

section Setup

variable {d : PgDir} {km km' : Kmem}

/-- A directory and 64 tables. -/
def KVM_PAGES : Nat := 65

/-- **`setupkvm`** takes 65 pages or fails. -/
theorem setupkvm_cost {r : Option PgDir} (linked : km.Linked) (call : setupkvm km = .ok (r, km')) :
    (r = none ∧ km.freelist.length < KVM_PAGES) ∨
      ∃ d, r = some d ∧ d.dirs = kernelDirs ∧ km'.freelist.length + KVM_PAGES = km.freelist.length := by
  obtain ⟨rfl, rfl, empty⟩ | ⟨f, km1, b, d1, km2, got, run, _, result⟩ := setupkvm_cases linked call
  · exact .inl ⟨rfl, by rw [empty]; decide⟩
  have linked1 := linked.kept ((kalloc_same got).kept 0)
  have list : km.freelist.length = km1.freelist.length + 1 := by rw [(kalloc_some got).1, length_cons]
  have walked := run.walked
  have blank : PgDir.dirs { frame := f } = ∅ := by simp [PgDir.dirs]
  have paid := walked.paid
  rw [blank, Finset.card_empty] at paid
  cases b with
  | true =>
    obtain ⟨rfl, rfl⟩ := result
    have dirs := walked.dirs_eq
    rw [kmap_dirs linked1, blank, Finset.empty_union] at dirs
    refine .inr ⟨d1, rfl, dirs, ?_⟩
    rw [dirs, kernelDirs_card] at paid
    rw [KVM_PAGES]
    omega
  | false =>
    obtain ⟨empty, a, inside, missing⟩ := walked.out rfl
    have some_ := walked.some
    rw [kmap_dirs linked1, blank, Finset.empty_union] at some_
    have fewer : d1.dirs.card < 64 := by
      rw [← kernelDirs_card]
      apply Finset.card_lt_card
      refine ⟨some_, fun all => missing (all ?_)⟩
      rw [← kmap_dirs linked1]
      exact mem_toFinset.2 (mem_map_of_mem inside)
    rw [empty, length_nil] at paid
    refine .inl ⟨result.1, ?_⟩
    rw [KVM_PAGES]
    omega

end Setup

end Xv6
