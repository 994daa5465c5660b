import Xv6.Vm.CopyHeld
import Xv6.Vm.FaultSound

/-!
# What `copyuvm` copies

In every run, and page by page: which entry of the child comes from which of the parent.
A present page is shared read-only, a paged-out page stays paged out, and a page that is
neither is skipped. The loop over the heap meets present pages only.
-/

namespace Xv6

open Fallible List

variable {kend kdata lo i : Nat} {km km' km'' : Kmem} {parent parent' parent'' child child' child'' : PgDir} {e : Pte}

/-- The child's entry for the parent's entry `e`; `old` is what the child had. -/
def Pte.copy (e old : Pte) : Pte :=
  if e.p then { e with w := false } else if e.pg then Pte.out else old

theorem Pte.copy_mapped {old : Pte} (mapped : e.Mapped) : (e.copy old).Mapped := by
  unfold Pte.copy
  split
  · rename_i present
    exact .inl present
  · rename_i absent
    rw [if_pos (mapped.resolve_left absent)]
    exact .inr rfl

theorem Pte.copy_copy (old : Pte) : e.copy (e.copy old) = e.copy old := by
  unfold Pte.copy
  split
  · rfl
  · split <;> rfl

/-- Making the parent's page read-only does not change its copy. -/
theorem PgDir.Protected.copy (prot : parent.Protected parent') (v : Nat) (old : Pte) :
    (parent'.pte v).copy old = (parent.pte v).copy old := by
  rcases prot.pte v with same | weak
  · rw [same]
  · rw [weak]
    rfl

theorem PgDir.Sound.protected (sound : parent.Sound kend lo) (prot : parent.Protected parent') :
    parent'.Sound kend lo := by
  have field : ∀ v, (parent'.pte v).p = (parent.pte v).p ∧ (parent'.pte v).u = (parent.pte v).u ∧
      (parent'.pte v).pg = (parent.pte v).pg ∧ (parent'.pte v).addr = (parent.pte v).addr := by
    intro v
    rcases prot.pte v with same | weak
    · rw [same]
      exact ⟨rfl, rfl, rfl, rfl⟩
    · rw [weak]
      exact ⟨rfl, rfl, rfl, rfl⟩
  constructor
  · constructor
    · intro v missing
      rw [prot.pde] at missing
      rcases prot.pte v with same | weak
      · rw [same, sound.wf.noTable v missing]
      · rw [weak, sound.wf.noTable v missing]
    · intro v low present
      rw [(field v).1] at present
      rw [(field v).2.1]
      exact sound.wf.user v low present
    · intro v high
      rw [(field v).2.1, (field v).2.2.1]
      exact sound.wf.kernel v high
    · intro v present
      rw [(field v).1] at present
      rw [(field v).2.2.1]
      exact sound.wf.resident v present
  · exact prot.frame ▸ sound.frame
  · exact prot.pde ▸ sound.tables
  · intro v low
    rw [(field v).2.2.2]
    exact sound.pages v low
  · intro v below
    rw [(field v).1]
    exact sound.low v below

/-- The tables and memory when the pages `is` have been copied. -/
structure Copies (kend kdata lo : Nat) (is : List Nat) (parent child : PgDir) (km : Kmem)
    (parent' child' : PgDir) (km' : Kmem) : Prop where
  memory : km'.Sound kend kdata
  own : parent'.Sound kend lo
  copy : child'.Sound kend 1
  same : SameMem km km'
  prot : parent.Protected parent'
  done : ∀ v, (∃ i ∈ is, i / PGSIZE = v) → child'.pte v = (parent.pte v).copy (child.pte v)
  rest : ∀ v, (∀ i ∈ is, i / PGSIZE ≠ v) → child'.pte v = child.pte v

namespace Copies

variable {is js : List Nat}

theorem refl (memory : km.Sound kend kdata) (own : parent.Sound kend lo) (copy : child.Sound kend 1) :
    Copies kend kdata lo [] parent child km parent child km where
  memory := memory
  own := own
  copy := copy
  same := .refl km
  prot := .refl parent
  done := by
    rintro v ⟨i, mem, _⟩
    cases mem
  rest := fun _ _ => rfl

theorem trans (first : Copies kend kdata lo is parent child km parent' child' km')
    (second : Copies kend kdata lo js parent' child' km' parent'' child'' km'') :
    Copies kend kdata lo (is ++ js) parent child km parent'' child'' km'' where
  memory := second.memory
  own := second.own
  copy := second.copy
  same := first.same.trans second.same
  prot := first.prot.trans second.prot
  done := by
    rintro v ⟨i, mem, here⟩
    by_cases again : ∃ j ∈ js, j / PGSIZE = v
    · rw [second.done v again, first.prot.copy]
      by_cases before : ∃ j ∈ is, j / PGSIZE = v
      · rw [first.done v before, Pte.copy_copy]
      · rw [first.rest v fun j mem here => before ⟨j, mem, here⟩]
    · rw [second.rest v fun j mem here => again ⟨j, mem, here⟩]
      rcases mem_append.1 mem with early | late
      · exact first.done v ⟨i, early, here⟩
      · exact absurd ⟨i, late, here⟩ again
  rest := by
    intro v other
    rw [second.rest v fun j mem => other j (mem_append_right _ mem),
      first.rest v fun j mem => other j (mem_append_left _ mem)]

end Copies

theorem addPageShare_memory {pa : Nat} (memory : km.Sound kend kdata) (call : addPageShare pa km = .ok km') :
    km'.Sound kend kdata ∧ SameMem km km' := by
  unfold addPageShare at call
  split at call
  · cases call
  · cases call
    exact ⟨memory.count _, rfl, rfl, rfl⟩

/-- The child has a new entry for page `i`, the copy of the parent's. -/
theorem Copies.entry {e' : Pte} (memory : km'.Sound kend kdata) (own : parent'.Sound kend lo) (copy : child'.Sound kend 1)
    (same : SameMem km km') (prot : parent.Protected parent') (user : i < KERNBASE) (ext : child.Ext child')
    (table : child'.pde (PDX i) ≠ none) (sound : e'.Sound kend 1 (i / PGSIZE))
    (copied : e' = (parent.pte (i / PGSIZE)).copy (child.pte (i / PGSIZE))) :
    Copies kend kdata lo [i] parent child km parent' (child'.set i e') km' := by
  refine ⟨memory, own, copy.set (by rw [← pdx_eq (user_page user).1]; exact table) sound, same, prot, ?_, fun v other => ?_⟩
  · rintro v ⟨j, mem, rfl⟩
    cases mem_singleton.1 mem
    rw [PgDir.set_pte, if_pos rfl, copied]
  · rw [PgDir.set_pte, if_neg (fun here => other i (mem_singleton_self i) here.symm), ext.pte]

/-- **One page** is copied, or the child is as it was. -/
theorem CopyStep.copies {b : Bool} (memory : km.Sound kend kdata) (own : parent.Sound kend lo)
    (copy : child.Sound kend 1) (user : i < KERNBASE) (above : PGSIZE ≤ i)
    (step : CopyStep i parent child km b parent' child' km') :
    Copies kend kdata lo (if b then [i] else []) parent child km parent' child' km' := by
  obtain ⟨below, low⟩ := user_page user
  have prot := step.protected
  have own' := own.protected prot
  cases step with
  | skip found unmapped =>
    refine ⟨memory, own, copy, .refl km, prot, ?_, fun _ _ => rfl⟩
    rintro v ⟨j, mem, rfl⟩
    cases mem_singleton.1 mem
    rw [(walkpgdir_some.1 found).2, Pte.copy, unmapped.1, unmapped.2]
    rfl
  | full found present walk =>
    obtain ⟨copy0, memory0, ext, table⟩ := copy.walk memory walk
    refine ⟨memory0, own', copy0, (walkpgdirAlloc_ext copy.wf walk).2.1, prot, ?_, fun v _ => by rw [ext.pte]⟩
    rintro v ⟨j, mem, _⟩
    cases mem
  | out found isOut walk =>
    obtain ⟨_, entry⟩ := walkpgdir_some.1 found
    obtain ⟨copy0, memory0, ext, table⟩ := copy.walk memory walk
    refine .entry memory0 own' copy0 (walkpgdirAlloc_ext copy.wf walk).2.1 prot user ext table (Pte.sound_out low) ?_
    have absent : ¬ (parent.pte (i / PGSIZE)).p := fun present => by
      have resident := own.wf.resident (i / PGSIZE) present
      rw [entry, isOut] at resident
      cases resident
    rw [Pte.copy, if_neg absent, entry, if_pos isOut]
  | @share e _ _ _ found present walk absent counted =>
    obtain ⟨_, entry⟩ := walkpgdir_some.1 found
    obtain ⟨copy0, memory0, ext, table⟩ := copy.walk memory walk
    obtain ⟨memory1, same1⟩ := addPageShare_memory memory0 counted
    have sound := own.entry (i / PGSIZE)
    rw [entry] at sound
    have copied : ({ e with w := false, p := true } : Pte).Sound kend 1 (i / PGSIZE) :=
      ⟨fun low _ => sound.user low present, sound.kernel, fun _ => sound.resident present, sound.page,
        fun below => by simp only [PGSIZE] at *; omega⟩
    refine .entry memory1 own' copy0 ((walkpgdirAlloc_ext copy.wf walk).2.1.trans same1) prot user ext table copied ?_
    rw [entry, Pte.copy, if_pos present]
    simp only [present]

/-- **The loops** copy the pages up to one that cannot be copied, and all of them when they succeed. -/
theorem CopyRun.copies {b : Bool} {is : List Nat} (run : CopyRun is parent child km b parent' child' km')
    (pages : CopyPages is) (memory : km.Sound kend kdata) (own : parent.Sound kend lo) (copy : child.Sound kend 1) :
    ∃ done, Copies kend kdata lo done parent child km parent' child' km' ∧ (b = true → done = is) := by
  induction run with
  | nil => exact ⟨[], .refl memory own copy, fun _ => rfl⟩
  | stop step => exact ⟨[], step.copies memory own copy pages.head.2.1 pages.head.2.2, by rintro ⟨⟩⟩
  | cons step _ ih =>
    have one := step.copies memory own copy pages.head.2.1 pages.head.2.2
    obtain ⟨done, more, success⟩ := ih pages.tail one.memory one.own one.copy
    exact ⟨_ :: done, one.trans more, fun ok => by rw [success ok]⟩

/-- A page of one of the two ranges that `copyuvm` copies. -/
def Proc.Ranged (p : Proc) (v : Nat) : Prop :=
  (1 ≤ v ∧ v * PGSIZE < p.sz) ∨ (USERSTACKTOP ≤ v * PGSIZE + p.stacksize ∧ v * PGSIZE < USERSTACKTOP)

/-- What `copyuvm` leaves: the parent's pages are read-only, and the child, if there is one, has a copy of every page
of the two ranges. -/
structure CopiedTable (kend kdata lo : Nat) (p : Proc) (km : Kmem) (r : Option PgDir) (parent' : PgDir) (km' : Kmem) :
    Prop where
  memory : km'.Sound kend kdata
  own : parent'.Sound kend lo
  prot : p.pgdir.Protected parent'
  child : ∀ d, r = some d → d.Sound kend 1 ∧ SameMem km km' ∧
    (∀ v, v < NUPAGES → p.Ranged v → d.pte v = (p.pgdir.pte v).copy {}) ∧
    (∀ v, v < NUPAGES → ¬ p.Ranged v → d.pte v = {}) ∧
    ∀ v, 1 ≤ v → v * PGSIZE < p.sz → (p.pgdir.pte v).p = true

theorem setupkvm_same {d : PgDir} (linked : km.Linked) (call : setupkvm km = .ok (some d, km')) : SameMem km km' := by
  obtain ⟨_, _, same, _⟩ | ⟨none, _⟩ := setupkvm_tracks (P := fun _ _ => True) (S := 0) (fun _ _ => trivial) linked trivial call
  · exact same
  · cases none

theorem ranged_iff {p : Proc} (layout : p.Layout) (v : Nat) :
    (∃ i ∈ p.copied, i / PGSIZE = v) ↔ p.Ranged v := by
  have stack := layout.stack
  have room := layout.room
  rw [Proc.copied, stack_bottom layout]
  constructor
  · rintro ⟨i, mem, rfl⟩
    rcases mem_append.1 mem with heap | up
    · obtain ⟨n, rfl, high⟩ := mem_pageRange.1 heap
      left
      simp only [PGSIZE] at *
      omega
    · obtain ⟨n, rfl, high⟩ := mem_pageRange.1 up
      right
      simp only [PGSIZE, KERNBASE, USERSTACKTOP] at *
      omega
  · rintro (heap | up)
    · refine ⟨v * PGSIZE, mem_append_left _ (mem_pageRange.2 ⟨v - 1, ?_, heap.2⟩), page_div v⟩
      obtain ⟨pos, _⟩ := heap
      simp only [PGSIZE] at *
      omega
    · refine ⟨v * PGSIZE, mem_append_right _ (mem_pageRange.2 ⟨v - (KERNBASE - p.stacksize) / PGSIZE, ?_, up.2⟩),
        page_div v⟩
      obtain ⟨low, high⟩ := up
      simp only [PGSIZE, KERNBASE, USERSTACKTOP] at *
      omega

/-- **`copyuvm`.** -/
theorem copyuvm_copied {p : Proc} {r : Option PgDir} (symbols : Symbols kend kdata) (memory : km.Sound kend kdata)
    (own : p.pgdir.Sound kend lo) (layout : p.Layout) (call : copyuvm p km = .ok (r, parent', km')) :
    CopiedTable kend kdata lo p km r parent' km' := by
  obtain ⟨⟨d0, km0⟩, setup, rest⟩ := bind_ok.1 call
  have linked := symbols.linked memory
  obtain ⟨r0, km1, again, memory0, table⟩ := setupkvm_sound symbols memory
  cases setup.symm.trans again
  cases d0 with
  | none =>
    cases rest
    exact ⟨memory0, own, .refl _, by rintro _ ⟨⟩⟩
  | some d0 =>
    have copy0 : d0.Sound kend 1 := (table d0 rfl).mono (by decide)
    have blank := (setupkvm_blank linked setup).2
    obtain ⟨⟨ok, parent1, child1, km1⟩, pages, rest⟩ := bind_ok.1 rest
    obtain ⟨run, resident⟩ := copyPages_run layout pages
    obtain ⟨done, both, all⟩ := run.copies (copied_pages layout) memory0 own copy0
    cases ok with
    | false =>
      -- a failed copy is freed; only the parent's entries remain changed
      obtain ⟨km3, freed, rest⟩ := bind_ok.1 rest
      cases rest
      exact ⟨freevm_memory both.memory freed, both.own, both.prot, by rintro _ ⟨⟩⟩
    | true =>
      cases rest
      cases all rfl
      refine ⟨both.memory, both.own, both.prot, fun d isSome => ?_⟩
      cases isSome
      refine ⟨both.copy, (setupkvm_same linked setup).trans both.same, fun v low ranged => ?_, fun v low other => ?_,
        fun v pos below => ?_⟩
      · rw [both.done v ((ranged_iff layout v).2 ranged), blank v low]
      · rw [both.rest v (fun i mem here => other ((ranged_iff layout v).1 ⟨i, mem, here⟩)), blank v low]
      · have := resident rfl (v * PGSIZE) (mem_pageRange.2 ⟨v - 1, by simp only [PGSIZE] at *; omega, below⟩)
        rwa [page_div] at this

end Xv6
