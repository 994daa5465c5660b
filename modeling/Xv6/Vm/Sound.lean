import Xv6.Vm.Room

/-!
# Sound page tables

What holds of the page tables in every run, whatever the share counts are. Freeing a table
and building one without user pages does not stop the machine.
-/

namespace Xv6
open RefCount Fallible

/-- A page that `kfree` accepts. -/
def IsFrame (kend f : Nat) : Prop := kend ≤ f * PGSIZE ∧ f * PGSIZE < PHYSTOP

/-- The linker's symbols and the pages of the free list. -/
structure Kmem.Sound (kend kdata : Nat) (km : Kmem) : Prop where
  isEnd : km.kend = kend
  isData : km.kdata = kdata
  free : ∀ f ∈ km.freelist, IsFrame kend f

/-- A table in any run: it and its page tables are frames, and so are the user pages,
except where `fifo_replace` has taken a victim that was paged out already and has mapped
page 0. No page below `lo` is present. -/
structure PgDir.Sound (kend lo : Nat) (d : PgDir) : Prop where
  wf : d.Wf
  frame : IsFrame kend d.frame
  tables : ∀ x f, d.pde x = some f → IsFrame kend f
  pages : ∀ v, v < NUPAGES → (d.pte v).addr = 0 ∨ IsFrame kend (d.pte v).addr
  low : ∀ v, v < lo → (d.pte v).p = false

variable {kend kdata lo : Nat} {km km' : Kmem} {d d' : PgDir}

section Memory

variable {f : Nat}

theorem Kmem.Sound.of_mem (sound : km.Sound kend kdata) (mem : Nat → Nat → UInt8) :
    Kmem.Sound kend kdata { km with mem := mem } :=
  ⟨sound.isEnd, sound.isData, sound.free⟩

theorem Kmem.Sound.kalloc (sound : km.Sound kend kdata) (got : kalloc km = (some f, km')) :
    km'.Sound kend kdata ∧ IsFrame kend f := by
  obtain ⟨list, _, _, _, isEnd, isData⟩ := kalloc_some got
  have free := sound.free
  rw [list] at free
  exact ⟨⟨isEnd.trans sound.isEnd, isData.trans sound.isData, fun g mem => free g (by simp [mem])⟩, free f (by simp)⟩

theorem Kmem.Sound.count (sound : km.Sound kend kdata) (pcSh : Nat → Nat) :
    Kmem.Sound kend kdata { km with pcSh := pcSh } :=
  ⟨sound.isEnd, sound.isData, sound.free⟩

theorem Kmem.Sound.kfree {pa : Nat} (sound : km.Sound kend kdata) (freed : kfree (P2V pa) km = .ok km') :
    km'.Sound kend kdata := by
  obtain ⟨isEnd, isData⟩ := kfree_linker freed
  refine ⟨isEnd.trans sound.isEnd, isData.trans sound.isData, ?_⟩
  unfold Xv6.kfree at freed
  split at freed
  · cases freed
  · rename_i guard
    have here : IsFrame kend (V2P (P2V pa) / PGSIZE) := by
      have := sound.isEnd
      simp only [IsFrame, V2P, P2V, sub32, add32, PGSIZE, KERNBASE, PHYSTOP] at *
      omega
    have list : (km.uncount (V2P (P2V pa) / PGSIZE)).freelist = km.freelist := by
      unfold Kmem.uncount
      split <;> rfl
    simp only at freed
    split at freed
    · cases freed
      intro g mem
      rcases List.mem_cons.1 mem with rfl | old
      · exact here
      · exact sound.free g (list ▸ old)
    · cases freed
      exact list ▸ sound.free

/-- `kfree` of a frame does not panic. -/
theorem kfree_frame (isEnd : km.kend = kend) (frame : IsFrame kend f) : ∃ km', kfree (P2V (f * PGSIZE)) km = .ok km' := by
  have address := P2V_page frame.2
  have back := V2P_P2V_page frame.2
  unfold kfree
  rw [if_neg]
  · simp only
    split <;> exact ⟨_, rfl⟩
  · obtain ⟨low, high⟩ := frame
    rw [back, address]
    simp only [PGSIZE, KERNBASE] at *
    omega

end Memory

section Table

variable {va : Nat} {e : Pte} {b : Bool}

theorem PgDir.Sound.mono {lo' : Nat} (sound : d.Sound kend lo) (le : lo' ≤ lo) : d.Sound kend lo' :=
  ⟨sound.wf, sound.frame, sound.tables, sound.pages, fun v below => sound.low v (by omega)⟩

/-- What a new entry has to satisfy. -/
structure Pte.Sound (kend lo v : Nat) (e : Pte) : Prop where
  user : v < NUPAGES → e.p = true → e.u = true
  kernel : NUPAGES ≤ v → e.u = false ∧ e.pg = false
  resident : e.p = true → e.pg = false
  page : v < NUPAGES → e.addr = 0 ∨ IsFrame kend e.addr
  low : v < lo → e.p = false

theorem PgDir.Sound.entry (sound : d.Sound kend lo) (v : Nat) : (d.pte v).Sound kend lo v :=
  ⟨sound.wf.user v, sound.wf.kernel v, sound.wf.resident v, sound.pages v, sound.low v⟩

theorem Pte.sound_empty (v : Nat) : ({} : Pte).Sound kend lo v :=
  ⟨fun _ => by rintro ⟨⟩, fun _ => ⟨rfl, rfl⟩, by rintro ⟨⟩, fun _ => .inl rfl, fun _ => rfl⟩

theorem Pte.sound_out {v : Nat} (user : v < NUPAGES) : Pte.out.Sound kend lo v :=
  ⟨fun _ => by rintro ⟨⟩, fun high => by omega, by rintro ⟨⟩, fun _ => .inl rfl, fun _ => rfl⟩

theorem Pte.sound_fresh {v f : Nat} (user : v < NUPAGES) (above : lo ≤ v) (frame : f = 0 ∨ IsFrame kend f) :
    (Pte.fresh f).Sound kend lo v :=
  ⟨fun _ _ => rfl, fun high => by omega, fun _ => rfl, fun _ => frame, fun below => by omega⟩

theorem PgDir.Sound.set (sound : d.Sound kend lo) (table : d.pde (va / PGSIZE / 1024) ≠ none)
    (entry : e.Sound kend lo (va / PGSIZE)) : (d.set va e).Sound kend lo := by
  refine ⟨sound.wf.set table entry.user entry.kernel entry.resident, sound.frame, sound.tables, fun v user => ?_,
    fun v below => ?_⟩ <;> rw [PgDir.set_pte] <;> split
  · rename_i here
    subst here
    exact entry.page user
  · exact sound.pages v user
  · rename_i here
    subst here
    exact entry.low below
  · exact sound.low v below

/-- Entries of `d` are emptied. -/
structure PgDir.Emptied (d d' : PgDir) : Prop where
  frame : d'.frame = d.frame
  pde : d'.pde = d.pde
  pte : ∀ v, d'.pte v = d.pte v ∨ d'.pte v = {}

theorem PgDir.Emptied.refl (d : PgDir) : d.Emptied d := ⟨rfl, rfl, fun _ => .inl rfl⟩

theorem PgDir.Emptied.of_set (emptied : (d.set va {}).Emptied d') : d.Emptied d' := by
  refine ⟨emptied.frame, emptied.pde, fun v => ?_⟩
  rcases emptied.pte v with same | empty
  · rw [same, PgDir.set_pte]
    split
    · exact .inr rfl
    · exact .inl rfl
  · exact .inr empty

theorem PgDir.Wf.emptied (wf : d.Wf) (emptied : d.Emptied d') : d'.Wf := by
  obtain ⟨_, pde, pte⟩ := emptied
  refine ⟨fun v none => ?_, fun v user => ?_, fun v high => ?_, fun v => ?_⟩ <;> rcases pte v with same | empty
  · exact same ▸ wf.noTable v (pde ▸ none)
  · exact empty
  · exact same ▸ wf.user v user
  · exact empty ▸ (by rintro ⟨⟩)
  · exact same ▸ wf.kernel v high
  · exact empty ▸ ⟨rfl, rfl⟩
  · exact same ▸ wf.resident v
  · exact empty ▸ (by rintro ⟨⟩)

theorem PgDir.Sound.emptied (sound : d.Sound kend lo) (emptied : d.Emptied d') : d'.Sound kend lo := by
  have entry : ∀ v, (d'.pte v).Sound kend lo v := fun v => by
    rcases emptied.pte v with same | empty
    · exact same ▸ sound.entry v
    · exact empty ▸ Pte.sound_empty v
  exact ⟨sound.wf.emptied emptied, emptied.frame ▸ sound.frame, emptied.pde ▸ sound.tables,
    fun v => (entry v).page, fun v => (entry v).low⟩

/-- `walkpgdir` with `alloc` set. -/
theorem PgDir.Sound.walk (sound : d.Sound kend lo) (memory : km.Sound kend kdata)
    (call : walkpgdirAlloc va d km = (b, d', km')) :
    d'.Sound kend lo ∧ km'.Sound kend kdata ∧ d.Ext d' ∧ (if b then d'.pde (PDX va) ≠ none else d' = d) := by
  obtain ⟨ext, same, table⟩ := walkpgdirAlloc_ext sound.wf call
  have rest : km'.Sound kend kdata ∧ ∀ x f, d'.pde x = some f → IsFrame kend f := by
    unfold walkpgdirAlloc at call
    split at call
    · cases call
      exact ⟨memory, sound.tables⟩
    · split at call
      · rename_i km1 none
        cases call
        rw [(kalloc_none none).1]
        exact ⟨memory, sound.tables⟩
      · rename_i g km1 got
        cases call
        obtain ⟨memory', frame⟩ := memory.kalloc got
        refine ⟨memory', fun x f found => ?_⟩
        simp only [PgDir.addTable] at found
        by_cases here : x = PDX va
        · subst here
          rw [Function.update_self] at found
          cases found
          exact frame
        · rw [Function.update_of_ne here] at found
          exact sound.tables x f found
  exact ⟨⟨sound.wf.ext ext, ext.frame ▸ sound.frame, rest.2, by rw [ext.pte]; exact sound.pages,
    by rw [ext.pte]; exact sound.low⟩, rest.1, ext, table⟩

/-- A page is mapped. -/
theorem PgDir.Sound.map {a pa : Nat} {perm : Pte} (sound : d.Sound kend lo) (memory : km.Sound kend kdata)
    (fits : a < 2 ^ 32) (entry : ({ perm with addr := pa / PGSIZE, p := true } : Pte).Sound kend lo (a / PGSIZE))
    (call : mapPage a pa perm d km = .ok (b, d', km')) :
    d'.Sound kend lo ∧ km'.Sound kend kdata ∧
      (∀ v, d'.pte v = if b = true ∧ v = a / PGSIZE then { perm with addr := pa / PGSIZE, p := true } else d.pte v) := by
  obtain ⟨d1, walk, new⟩ := mapPage_ok call
  obtain ⟨sound1, memory1, ext, table⟩ := sound.walk memory walk
  cases b with
  | false =>
    simp only [Bool.false_eq_true, if_false, false_and] at new table ⊢
    subst new table
    exact ⟨sound1, memory1, fun _ => rfl⟩
  | true =>
    simp only [if_true, true_and] at new table ⊢
    obtain ⟨_, rfl⟩ := new
    exact ⟨sound1.set (by rw [← pdx_eq fits]; exact table) entry, memory1, fun v => by
      rw [PgDir.set_pte, ext.pte]⟩

end Table

/-! ## Freeing -/

section Free

variable {own : Bool} {hi : Nat}

/-- What `kfree` keeps. -/
def KfreeKeeps (I : Kmem → Prop) : Prop := ∀ {pa : Nat} {km km' : Kmem}, I km → kfree (P2V pa) km = .ok km' → I km'

theorem Kmem.Sound.keeps : KfreeKeeps (Kmem.Sound kend kdata) := fun sound freed => sound.kfree freed

/-- Whatever `deallocuvm` meets, it empties entries and frees pages. -/
theorem deallocLoop_emptied {x : PgDir × SlotTable × Kmem} (fuel : Nat) :
    ∀ (a : Nat) (d : PgDir) (t : SlotTable) (km : Kmem), deallocLoop own hi fuel a d t km = .ok x →
      d.Emptied x.1 ∧ (own = false → x.2.1 = t) ∧ ∀ {I : Kmem → Prop}, KfreeKeeps I → I km → I x.2.2 := by
  induction fuel with
  | zero =>
    intro a d t km call
    cases call
    exact ⟨.refl _, fun _ => rfl, fun _ => id⟩
  | succ fuel ih =>
    intro a d t km call
    unfold deallocLoop at call
    split at call
    · cases call
      exact ⟨.refl _, fun _ => rfl, fun _ => id⟩
    · split at call
      · exact ih _ d t km call
      · split at call
        · split at call
          · cases call
          · split at call
            · cases call
            · obtain ⟨km1, freed, rest⟩ := bind_ok.1 call
              obtain ⟨emptied, table, memory⟩ := ih _ _ t km1 rest
              exact ⟨emptied.of_set, table, fun keeps inv => memory keeps (keeps inv freed)⟩
        · split at call
          · rename_i paged
            split at call
            · cases call
              refine ⟨.refl _, fun foreign => ?_, fun _ => id⟩
              simp [foreign] at paged
            · cases call
          · exact ih _ d t km call

theorem deallocuvm_emptied {oldsz newsz r : Nat} {t t' : SlotTable}
    (call : deallocuvm own oldsz newsz d t km = .ok (r, d', t', km')) :
    d.Emptied d' ∧ (own = false → t' = t) ∧ ∀ {I : Kmem → Prop}, KfreeKeeps I → I km → I km' := by
  unfold deallocuvm at call
  split at call
  · cases call
    exact ⟨.refl _, fun _ => rfl, fun _ => id⟩
  · obtain ⟨x, loop, rest⟩ := bind_ok.1 call
    cases rest
    exact deallocLoop_emptied _ _ d t km loop

theorem freeTables_rule {I : Kmem → Prop} (keeps : KfreeKeeps I) (is : List Nat) :
    ∀ km : Kmem, freeTables d is km = .ok km' → I km → I km' := by
  induction is with
  | nil =>
    intro km call inv
    cases call
    exact inv
  | cons i is ih =>
    intro km call inv
    unfold freeTables at call
    split at call
    · exact ih km call inv
    · obtain ⟨km1, freed, rest⟩ := bind_ok.1 call
      exact ih km1 rest (keeps inv freed)

/-- What `kfree` keeps, freeing an address space keeps. -/
theorem freevm_rule {I : Kmem → Prop} (keeps : KfreeKeeps I) (call : freevm d km = .ok km') (inv : I km) : I km' := by
  obtain ⟨⟨r, d1, t, km1⟩, dealloc, rest1⟩ := bind_ok.1 call
  obtain ⟨km2, tables, rest2⟩ := bind_ok.1 rest1
  exact keeps (freeTables_rule keeps _ km1 tables ((deallocuvm_emptied dealloc).2.2 keeps inv)) rest2

theorem freevm_free (call : freevm d km = .ok km') : km.freelist.length ≤ km'.freelist.length :=
  freevm_rule (I := fun km1 => km.freelist.length ≤ km1.freelist.length) (fun more freed => more.trans (kfree_free freed)) call
    (Nat.le_refl _)

theorem freevm_memory (memory : km.Sound kend kdata) (call : freevm d km = .ok km') : km'.Sound kend kdata :=
  freevm_rule Kmem.Sound.keeps call memory

/-- Every present user page is a frame. -/
def PgDir.Framed (kend : Nat) (d : PgDir) : Prop :=
  ∀ v, v < NUPAGES → (d.pte v).p = true → IsFrame kend (d.pte v).addr

/-- The table refers to frames only. -/
theorem PgDir.Sound.use_frames (table : d.Sound kend lo) (framed : d.Framed kend) {f : Nat} (used : 0 < total d.use f) :
    IsFrame kend f := by
  rw [PgDir.use, total_add, total_add, total_ref, PgDir.tables, total_sum, PgDir.pages, total_sum] at used
  by_contra other
  have root : ¬ f = d.frame := fun same => other (same ▸ table.frame)
  have tables : ∀ x ∈ Finset.range NPDENTRIES, total (pdeUse (d.pde x)) f = 0 := fun x _ => by
    cases found : d.pde x with
    | none => rfl
    | some g => rw [pdeUse, total_ref, if_neg fun same : f = g => other (same ▸ table.tables x g found)]
  have pages : ∀ v ∈ Finset.range NVPAGES, total (d.pte v).use f = 0 := fun v _ => by
    unfold Pte.use
    split
    · rename_i mapped
      simp only [Bool.and_eq_true] at mapped
      have user : v < NUPAGES := by
        by_contra high
        rw [(table.wf.kernel v (by omega)).1] at mapped
        cases mapped.2
      rw [total_ref, if_neg fun same : f = (d.pte v).addr => other (same ▸ framed v user mapped.1)]
    · rfl
  rw [if_neg root, Finset.sum_eq_zero tables, Finset.sum_eq_zero pages] at used
  cases used

/-- Nothing panics when frames are freed. -/
theorem freevm_returns (pos : 0 < kend) (table : d.Sound kend lo) (framed : d.Framed kend)
    (memory : km.Sound kend kdata) : ∃ km', freevm d km = .ok km' := by
  obtain ⟨km', run, _⟩ := freevm_gives (P := fun U km1 => (∀ f, 0 < total U f → IsFrame kend f) ∧ km1.Sound kend kdata)
    (fun {U km1 f x} inv => by
      obtain ⟨frames, memory1⟩ := inv
      have frame : IsFrame kend f := frames f (by rw [total_add, total_ref, if_pos rfl]; omega)
      obtain ⟨km2, freed⟩ := kfree_frame memory1.isEnd frame
      refine ⟨fun isZero => ?_, km2, freed, fun g used => frames g (by rw [total_add]; omega), memory1.kfree freed⟩
      have low := frame.1
      rw [isZero] at low
      omega)
    ⟨fun f used => table.use_frames framed used, memory⟩ table.wf
  exact ⟨km', run⟩

end Free

/-! ## Building -/

section Build

variable {b : Bool}

theorem MapRun.sound {as : List Nat} (run : MapRun as d km b d' km') (small : lo ≤ NUPAGES) (sound : d.Sound kend lo)
    (memory : km.Sound kend kdata) : d'.Sound kend lo ∧ km'.Sound kend kdata := by
  have one : ∀ {a pa perm b d km d' km'}, KernelPage a perm → d.Sound kend lo → km.Sound kend kdata →
      mapPage a pa perm d km = .ok (b, d', km') → d'.Sound kend lo ∧ km'.Sound kend kdata := by
    rintro a pa perm b d km d' km' ⟨low, below, kernel⟩ sound memory page
    have upper : NUPAGES ≤ a / PGSIZE := by
      simp only [NUPAGES, PGSIZE, KERNBASE] at *
      omega
    have entry : ({ perm with addr := pa / PGSIZE, p := true } : Pte).Sound kend lo (a / PGSIZE) :=
      ⟨fun user => by omega, fun _ => kernel, fun _ => kernel.2, fun user => by omega, fun below => by omega⟩
    obtain ⟨sound1, memory1, _⟩ := sound.map memory below entry page
    exact ⟨sound1, memory1⟩
  induction run with
  | nil => exact ⟨sound, memory⟩
  | stop kernel page => exact one kernel sound memory page
  | cons kernel page _ ih =>
    obtain ⟨sound1, memory1⟩ := one kernel sound memory page
    exact ih sound1 memory1

/-- The linker's symbols: the kernel's text, its data on a page boundary, and `end`. -/
structure Symbols (kend kdata : Nat) : Prop where
  text : EXTMEM < kdata
  data : kdata ≤ kend
  room : kend < PHYSTOP
  page : kdata % PGSIZE = 0

theorem Symbols.linked (symbols : Symbols kend kdata) (memory : km.Sound kend kdata) : km.Linked :=
  ⟨memory.isData ▸ symbols.text, by rw [memory.isData, memory.isEnd]; exact symbols.data,
    memory.isEnd ▸ symbols.room⟩

theorem Symbols.pos (symbols : Symbols kend kdata) : 0 < kend :=
  Nat.lt_of_lt_of_le (Nat.lt_of_le_of_lt (Nat.zero_le _) symbols.text) symbols.data

/-- **`setupkvm`** returns a table without user pages, or nothing. -/
theorem setupkvm_sound (symbols : Symbols kend kdata) (memory : km.Sound kend kdata) :
    ∃ r km', setupkvm km = .ok (r, km') ∧ km'.Sound kend kdata ∧ ∀ d, r = some d → d.Sound kend NUPAGES := by
  unfold setupkvm
  split
  · rename_i km1 none
    rw [(kalloc_none none).1]
    exact ⟨_, _, rfl, memory, by rintro _ ⟨⟩⟩
  · rename_i f km1 got
    obtain ⟨memory1, frame⟩ := memory.kalloc got
    have linked := symbols.linked memory1
    have empty : ({ frame := f } : PgDir).Sound kend NUPAGES :=
      ⟨PgDir.wf_empty f, frame, fun _ _ => by rintro ⟨⟩, fun _ _ => .inl rfl, fun _ _ => rfl⟩
    obtain ⟨b, d, km2, maps, _⟩ := kmapLoop_returns (kmap km1.kdata) (kmap_ok linked)
      (kmap_apart linked (memory1.isData ▸ symbols.page)) { frame := f } km1 (PgDir.wf_empty f) (fun v => by rintro ⟨⟩)
    obtain ⟨sound2, memory2⟩ := (kmapLoop_run _ (kmap_ok linked) _ km1 maps).sound (Nat.le_refl _) empty memory1
    rw [if_neg (by decide), maps, ok_bind]
    cases b with
    | true =>
      refine ⟨some d, km2, rfl, memory2, fun d' isTable => ?_⟩
      cases isTable
      exact sound2
    | false =>
      have framed : d.Framed kend := fun v user present => by
        rw [sound2.low v user] at present
        cases present
      obtain ⟨km3, freed⟩ := freevm_returns symbols.pos sound2 framed memory2
      exact ⟨none, km3, bind_ok.2 ⟨km3, freed, rfl⟩, freevm_memory memory2 freed, by rintro _ ⟨⟩⟩

end Build

end Xv6
