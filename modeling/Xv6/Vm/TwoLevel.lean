import Xv6.Mem.KallocInv
import Xv6.Vm.Uvm

/-!
# Page tables as words in pages

A directory page and the table pages it points to, word by word, with `walkpgdir` and
`mappages` as they compute on them. Together they are a map from virtual pages to entries,
where a page without a table has the entry 0, as in a new table.
-/

namespace Xv6.TwoLevel
open Function List

/-- Page table index. -/
def PTX (va : Nat) : Nat := va / PGSIZE % 1024

/-- The allocator, and the words of every page by its number. -/
structure Tables where
  km : Kmem
  word : Nat → Nat → BitVec 32

def Tables.store (s : Tables) (place : Nat × Nat) (e : BitVec 32) : Tables :=
  { s with word := Function.update s.word place.1 (Function.update (s.word place.1) place.2 e) }

/-- `memset(v, 0, PGSIZE)`. -/
def Tables.zero (s : Tables) (f : Nat) : Tables := { s with word := Function.update s.word f fun _ => 0 }

/-- `e & PTE_P`. -/
def present (e : BitVec 32) : Bool := e &&& 1 ≠ 0

/-- `PTE_ADDR(e)` as a page number. -/
def pteAddr (e : BitVec 32) : Nat := e.toNat / PGSIZE

/-- `V2P(pgtab) | PTE_P | PTE_W | PTE_U`. -/
def tableEntry (f : Nat) : BitVec 32 := BitVec.ofNat 32 (f * PGSIZE) ||| 7

/-- `walkpgdir(pgdir, va, alloc)`: the page and index of the entry, or `none` for a null pointer. -/
def walkpgdir (dir va : Nat) (alloc : Bool) (s : Tables) : Option (Nat × Nat) × Tables :=
  let pde := s.word dir (PDX va)
  if present pde then (some (pteAddr pde, PTX va), s)
  else if !alloc then (none, s)
  else
    match kalloc s.km with
    | (none, km) => (none, { s with km := km })
    | (some f, km) => (some (f, PTX va), (({ s with km := km } : Tables).zero f).store (dir, PDX va) (tableEntry f))

/-- The loop of `mappages`, with a bound on its rounds. -/
def mapLoop (dir last : Nat) (perm : BitVec 32) : Nat → Nat → BitVec 32 → Tables → Option (Res (Bool × Tables))
  | 0, _, _, _ => none
  | fuel + 1, a, pa, s =>
    match walkpgdir dir a true s with
    | (none, s) => some (.ok (false, s))
    | (some place, s) =>
      if present (s.word place.1 place.2) then some (.error (.panic "remap"))
      else
        let s := s.store place (pa ||| perm ||| 1)
        if a = last then some (.ok (true, s)) else mapLoop dir last perm fuel (add32 a PGSIZE) (pa + BitVec.ofNat 32 PGSIZE) s

def mappages (dir fuel va size : Nat) (pa perm : BitVec 32) (s : Tables) : Option (Res (Bool × Tables)) :=
  mapLoop dir (PGROUNDDOWN (sub32 (add32 va size) 1)) perm fuel (PGROUNDDOWN va) pa s

/-- A row of `kmap` as words; its permissions are 0 or `PTE_W`. -/
def kmapLoop (dir fuel : Nat) : List Kmap → Tables → Option (Res (Bool × Tables))
  | [], s => some (.ok (true, s))
  | k :: ks, s =>
    match mappages dir fuel k.virt (sub32 k.physEnd k.physStart) (BitVec.ofNat 32 k.physStart) (if k.perm.w then 2 else 0) s with
    | some (.ok (true, s)) => kmapLoop dir fuel ks s
    | r => r

/-- `setupkvm` up to its success; a table that fails is freed as `Xv6.setupkvm` has it. -/
def setupkvm (fuel : Nat) (s : Tables) : Option (Res (Option Nat × Tables)) :=
  match kalloc s.km with
  | (none, km) => some (.ok (none, { s with km := km }))
  | (some dir, km) =>
    (kmapLoop dir fuel (kmap km.kdata) (({ s with km := km } : Tables).zero dir)).map fun r =>
      r.map fun r => (if r.1 then some dir else none, r.2)

/-! ## The map -/

/-- Where the entry of virtual page `v` is. -/
def Tables.place (s : Tables) (dir v : Nat) : Option (Nat × Nat) :=
  if present (s.word dir (v / 1024)) then some (pteAddr (s.word dir (v / 1024)), v % 1024) else none

/-- **The map**: the entry of virtual page `v`. -/
def Tables.entry (s : Tables) (dir v : Nat) : BitVec 32 := ((s.place dir v).map fun x => s.word x.1 x.2).getD 0

/-- `f` is the table of directory entry `d`. -/
def Tables.TableAt (s : Tables) (dir d f : Nat) : Prop :=
  d < NPDENTRIES ∧ present (s.word dir d) = true ∧ pteAddr (s.word dir d) = f

/-- The free pages are pages, each once. -/
structure Pages (free : List Nat) : Prop where
  nodup : free.Nodup
  small : ∀ f ∈ free, f < NVPAGES

theorem Pages.cons {f : Nat} {free : List Nat} (pages : Pages (f :: free)) : f ∉ free ∧ f < NVPAGES ∧ Pages free := by
  obtain ⟨fresh, nodup⟩ := nodup_cons.1 pages.nodup
  exact ⟨fresh, pages.small f (mem_cons_self ..), nodup, fun g inside => pages.small g (mem_cons_of_mem _ inside)⟩

/-- **A directory whose tables are its own.** -/
structure Good (dir : Nat) (s : Tables) : Prop where
  pages : Pages s.km.freelist
  own : dir ∉ s.km.freelist
  tables : ∀ d f, s.TableAt dir d f → f ∉ s.km.freelist ∧ f ≠ dir
  once : ∀ d d' f, s.TableAt dir d f → s.TableAt dir d' f → d = d'

section Map

variable {dir va u v f : Nat} {s : Tables} {x : Nat × Nat} {e : BitVec 32}

theorem present_eq (e : BitVec 32) : present e = e.getLsbD 0 := by
  have bit : e &&& 1 = _ := BitVec.and_one_eq_setWidth_ofBool_getLsbD
  rw [present, bit]
  cases e.getLsbD 0 <;> rfl

/-- An entry with `PTE_P`. -/
theorem present_or (a b : BitVec 32) (set : present b = true) : present (a ||| b) = true := by
  rw [present_eq] at set ⊢
  rw [BitVec.getLsbD_or, set, Bool.or_true]

theorem present_zero : present 0 = false := rfl

theorem tableEntry_present (f : Nat) : present (tableEntry f) = true := present_or _ 7 rfl

theorem tableEntry_addr (small : f < NVPAGES) : pteAddr (tableEntry f) = f := by
  have word : f * PGSIZE < 2 ^ 32 := by
    simp only [NVPAGES, PGSIZE] at *
    omega
  have seven : (7 : BitVec 32).toNat = 7 := rfl
  rw [pteAddr, tableEntry, BitVec.toNat_or, BitVec.toNat_ofNat, Nat.mod_eq_of_lt word, seven, PGSIZE,
    show 4096 = 2 ^ 12 from rfl, ← Nat.shiftRight_eq_div_pow, Nat.shiftRight_or_distrib, Nat.shiftRight_eq_div_pow,
    Nat.mul_div_cancel f (by decide), show 7 >>> 12 = 0 from rfl, Nat.or_zero]

/-- The indices of an address are those of its page. -/
theorem indices (word : va < 2 ^ 32) : PDX va = va / PGSIZE / 1024 ∧ PTX va = va / PGSIZE % 1024 ∧ va / PGSIZE < NVPAGES := by
  refine ⟨?_, rfl, ?_⟩
  · rw [PDX, PGSIZE, Nat.div_div_eq_div_mul]
    exact Nat.mod_eq_of_lt (by omega)
  · simp only [PGSIZE, NVPAGES]
    omega

/-- `walkpgdir` without `alloc` finds the place of the page. -/
theorem walkpgdir_place (word : va < 2 ^ 32) : walkpgdir dir va false s = (s.place dir (va / PGSIZE), s) := by
  obtain ⟨isD, isT, _⟩ := indices word
  unfold walkpgdir Tables.place
  rw [isD, isT]
  dsimp only
  split <;> rfl

theorem place_some : s.place dir v = some x ↔
    present (s.word dir (v / 1024)) = true ∧ x = (pteAddr (s.word dir (v / 1024)), v % 1024) := by
  rw [Tables.place, Option.ite_none_right_eq_some, Option.some.injEq, eq_comm (b := x)]

theorem Good.tableAt (small : v < NVPAGES) (found : s.place dir v = some x) : s.TableAt dir (v / 1024) x.1 := by
  obtain ⟨here, rfl⟩ := place_some.1 found
  refine ⟨?_, here, rfl⟩
  simp only [NVPAGES, NPDENTRIES] at *
  omega

/-- Only the directory and the free pages matter. -/
theorem Good.congr {s' : Tables} (good : Good dir s) (pages : Pages s'.km.freelist) (own : dir ∉ s'.km.freelist)
    (same : s'.word dir = s.word dir) (used : ∀ d f, s.TableAt dir d f → f ∉ s'.km.freelist) : Good dir s' := by
  have tables : ∀ d f, s'.TableAt dir d f → s.TableAt dir d f := fun d f is => by
    rwa [Tables.TableAt, same] at is
  exact ⟨pages, own, fun d f is => ⟨used d f (tables d f is), (good.tables d f (tables d f is)).2⟩,
    fun d d' f is is' => good.once d d' f (tables d f is) (tables d' f is')⟩

/-- Writing an entry writes no directory entry. -/
theorem Good.store_dir (good : Good dir s) (small : v < NVPAGES) (found : s.place dir v = some x) (e : BitVec 32) :
    (s.store x e).word dir = s.word dir :=
  update_of_ne (good.tables _ _ (tableAt small found)).2.symm ..

theorem Good.store (good : Good dir s) (small : v < NVPAGES) (found : s.place dir v = some x) (e : BitVec 32) :
    Good dir (s.store x e) :=
  good.congr good.pages good.own (good.store_dir small found e) fun d f is => (good.tables d f is).1

/-- **An update of an entry changes the map there only**: two pages have one place only when they are one. -/
theorem Good.entry_store (good : Good dir s) (small : v < NVPAGES) (found : s.place dir v = some x) (e : BitVec 32)
    (inside : u < NVPAGES) : (s.store x e).entry dir u = if u = v then e else s.entry dir u := by
  have places : (s.store x e).place dir u = s.place dir u := by
    rw [Tables.place, Tables.place, good.store_dir small found e]
  have value : ∀ y : Nat × Nat, (s.store x e).word y.1 y.2 = if y = x then e else s.word y.1 y.2 := fun y => by
    obtain ⟨f, i⟩ := y
    obtain ⟨g, j⟩ := x
    show update s.word g (update (s.word g) j e) f i = _
    by_cases page : f = g
    · subst page
      by_cases index : i = j <;> simp [index]
    · simp [page]
  rw [Tables.entry, Tables.entry, places]
  by_cases isV : u = v
  · subst isV
    rw [if_pos rfl, found]
    exact (value x).trans (if_pos rfl)
  · rw [if_neg isV]
    cases other : s.place dir u with
    | none => rfl
    | some y =>
      refine (value y).trans (if_neg fun same => isV ?_)
      have table := good.once _ _ _ (tableAt inside other) (same ▸ tableAt small found)
      have index := (congrArg Prod.snd (place_some.1 other).2).symm.trans
        ((congrArg Prod.snd same).trans (congrArg Prod.snd (place_some.1 found).2))
      dsimp only at index
      omega

/-- What a new table for directory entry `d` makes. -/
def Tables.addTable (s : Tables) (dir d f : Nat) (km : Kmem) : Tables :=
  (({ s with km := km } : Tables).zero f).store (dir, d) (tableEntry f)

/-- The words of the directory after that. -/
theorem addTable_dir (s : Tables) (km : Kmem) {d : Nat} (other : f ≠ dir) (c : Nat) :
    (s.addTable dir d f km).word dir c = if c = d then tableEntry f else s.word dir c := by
  show update (update s.word f fun _ => 0) dir _ dir c = _
  rw [update_self, update_apply]
  show (if c = d then tableEntry f else update s.word f (fun _ => 0) dir c) = _
  rw [update_of_ne other.symm]

/-- **A new table** keeps the directory good and the map as it is: the pages of the table had no entry. -/
theorem Good.addTable {km : Kmem} {d : Nat} (good : Good dir s) (absent : present (s.word dir d) = false)
    (call : kalloc s.km = (some f, km)) :
    Good dir (s.addTable dir d f km) ∧ (∀ u < NVPAGES, (s.addTable dir d f km).entry dir u = s.entry dir u) ∧
      ∀ u, u / 1024 = d → (s.addTable dir d f km).place dir u = some (f, u % 1024) := by
  have free := (kalloc_some call).1
  have ⟨pages, own, tables, once⟩ := good
  rw [free] at pages own tables
  obtain ⟨fresh, small, pages⟩ := pages.cons
  have other : f ≠ dir := fun same => own (same ▸ mem_cons_self ..)
  have words := addTable_dir s km (d := d) other
  have isF : pteAddr (tableEntry f) = f := tableEntry_addr small
  -- a table is the new one, or one of the old, which are not free
  have cases_ : ∀ c g, (s.addTable dir d f km).TableAt dir c g → c = d ∧ g = f ∨ c ≠ d ∧ s.TableAt dir c g := by
    rintro c g ⟨inside, here, isG⟩
    rw [words] at here isG
    by_cases isD : c = d
    · rw [if_pos isD, isF] at isG
      exact .inl ⟨isD, isG.symm⟩
    · rw [if_neg isD] at here isG
      exact .inr ⟨isD, inside, here, isG⟩
  refine ⟨⟨pages, fun inside => own (mem_cons_of_mem _ inside), ?_, ?_⟩, fun u inside => ?_, fun u isD => ?_⟩
  · intro c g is
    rcases cases_ c g is with ⟨_, rfl⟩ | ⟨_, old⟩
    · exact ⟨fresh, other⟩
    · exact ⟨fun inside => (tables c g old).1 (mem_cons_of_mem _ inside), (tables c g old).2⟩
  · intro c c' g is is'
    rcases cases_ c g is with ⟨rfl, rfl⟩ | ⟨_, old⟩ <;> rcases cases_ c' _ is' with ⟨isD, isG⟩ | ⟨_, old'⟩
    · exact isD.symm
    · exact absurd (mem_cons_self ..) (tables c' _ old').1
    · exact absurd (isG ▸ mem_cons_self ..) (tables c g old).1
    · exact once c c' g old old'
  · unfold Tables.entry Tables.place
    rw [words]
    by_cases isD : u / 1024 = d
    · rw [if_pos isD, if_pos (tableEntry_present f), isD, if_neg (by rw [absent]; decide), isF]
      show update (update s.word f fun _ => 0) dir _ f _ = 0
      rw [update_of_ne other, update_self]
    · rw [if_neg isD]
      cases here : present (s.word dir (u / 1024)) with
      | false => rfl
      | true =>
        have table : s.TableAt dir (u / 1024) (pteAddr (s.word dir (u / 1024))) := tableAt inside (place_some.2 ⟨here, rfl⟩)
        obtain ⟨used, apart⟩ := tables _ _ table
        have notF : pteAddr (s.word dir (u / 1024)) ≠ f := fun same => used (same ▸ mem_cons_self ..)
        show update (update s.word f fun _ => 0) dir _ _ _ = s.word _ _
        rw [update_of_ne apart, update_of_ne notF]
  · refine place_some.2 ?_
    rw [words, if_pos isD, isF]
    exact ⟨tableEntry_present f, rfl⟩

/-- **`walkpgdir`** does not change the map, and a place it finds is that of the page. -/
theorem Good.walk {alloc : Bool} {r : Option (Nat × Nat) × Tables} (good : Good dir s) (word : va < 2 ^ 32)
    (call : walkpgdir dir va alloc s = r) :
    Good dir r.2 ∧ (∀ u < NVPAGES, r.2.entry dir u = s.entry dir u) ∧ ∀ x, r.1 = some x → r.2.place dir (va / PGSIZE) = some x := by
  obtain ⟨isD, isT, small⟩ := indices word
  unfold walkpgdir at call
  rw [isD, isT] at call
  dsimp only at call
  split at call
  · rename_i here
    subst call
    refine ⟨good, fun _ _ => rfl, fun x found => place_some.2 ⟨here, ?_⟩⟩
    exact (Option.some.inj found).symm
  rename_i absent
  split at call
  · subst call
    exact ⟨good, fun _ _ => rfl, fun x found => by cases found⟩
  split at call
  · rename_i km none
    obtain ⟨rfl, _⟩ := kalloc_none none
    subst call
    exact ⟨good, fun _ _ => rfl, fun x found => by cases found⟩
  · rename_i f km got
    subst call
    obtain ⟨good', same, places⟩ := good.addTable (Bool.eq_false_iff.2 absent) got
    refine ⟨good', same, fun x found => ?_⟩
    cases found
    exact places _ rfl

end Map

section Mapping

variable {dir : Nat} {s : Tables} {perm : BitVec 32}

/-- **One round of `mappages`** finds no page for a table, or writes the entry of its page. -/
theorem Good.round {a : Nat} (good : Good dir s) (word : a < 2 ^ 32) (last fuel : Nat) (pa perm : BitVec 32) :
    (∃ s', Good dir s' ∧ TwoLevel.mapLoop dir last perm (fuel + 1) a pa s = some (.ok (false, s'))) ∨
    ∃ s', Good dir s' ∧
      (∀ u < NVPAGES, s'.entry dir u = if u = a / PGSIZE then pa ||| perm ||| 1 else s.entry dir u) ∧
      TwoLevel.mapLoop dir last perm (fuel + 1) a pa s =
        if present (s.entry dir (a / PGSIZE)) then some (.error (.panic "remap"))
        else if a = last then some (.ok (true, s'))
        else TwoLevel.mapLoop dir last perm fuel (add32 a PGSIZE) (pa + BitVec.ofNat 32 PGSIZE) s' := by
  rw [TwoLevel.mapLoop]
  cases walk : walkpgdir dir a true s with
  | mk place s1 =>
    obtain ⟨good1, same, found⟩ := good.walk word walk
    cases place with
    | none => exact .inl ⟨s1, good1, rfl⟩
    | some x =>
      have small := (indices word).2.2
      have here : s1.word x.1 x.2 = s.entry dir (a / PGSIZE) := by
        rw [← same _ small, Tables.entry, found x rfl]
        rfl
      refine .inr ⟨_, good1.store small (found x rfl) (pa ||| perm ||| 1), fun u less => ?_, ?_⟩
      · rw [good1.entry_store small (found x rfl) _ less, same u less]
      · dsimp only
        rw [here]

/-- `mappages` keeps the directory good, whatever it is called with. -/
theorem Good.mapLoop {last : Nat} : ∀ {fuel a : Nat} {pa : BitVec 32} {s s' : Tables} {b : Bool}, Good dir s → a < 2 ^ 32 →
    mapLoop dir last perm fuel a pa s = some (.ok (b, s')) → Good dir s' := by
  intro fuel
  induction fuel with
  | zero =>
    intro a pa s s' b _ _ call
    cases call
  | succ fuel ih =>
    intro a pa s s' b good word call
    obtain ⟨s1, good1, round⟩ | ⟨s1, good1, _, round⟩ := good.round word last fuel pa perm
    · rw [round] at call
      cases call
      exact good1
    · rw [round] at call
      split at call
      · cases call
      split at call
      · cases call
        exact good1
      · exact ih good1 (Nat.mod_lt _ (by decide)) call

/-- The entry `mappages` writes for the `k`-th page. -/
def mapped (pa perm : BitVec 32) (k : Nat) : BitVec 32 := pa + BitVec.ofNat 32 (k * PGSIZE) ||| perm ||| 1

/-- **The loop of `mappages`** over the pages `v` to `v + n`, none of them present: it ends, and changes these only. -/
theorem Good.mapLoop_spec : ∀ {fuel n v : Nat} {pa : BitVec 32} {s : Tables}, Good dir s → v + n < NVPAGES →
    (∀ u, v ≤ u → u ≤ v + n → present (s.entry dir u) = false) →
    (n < fuel → ∃ r, TwoLevel.mapLoop dir ((v + n) * PGSIZE) perm fuel (v * PGSIZE) pa s = some (.ok r)) ∧
    ∀ s', TwoLevel.mapLoop dir ((v + n) * PGSIZE) perm fuel (v * PGSIZE) pa s = some (.ok (true, s')) →
      ∀ u < NVPAGES, s'.entry dir u = if v ≤ u ∧ u ≤ v + n then mapped pa perm (u - v) else s.entry dir u := by
  intro fuel
  induction fuel with
  | zero =>
    intro n v pa s _ _ _
    exact ⟨fun less => absurd less (Nat.not_lt_zero n), fun s' call => by cases call⟩
  | succ fuel ih =>
    intro n v pa s good inside absent
    have word : v * PGSIZE < 2 ^ 32 := by
      simp only [NVPAGES, PGSIZE] at *
      omega
    have first : mapped pa perm 0 = pa ||| perm ||| 1 := by
      rw [mapped, Nat.zero_mul, show pa + BitVec.ofNat 32 0 = pa from BitVec.add_zero pa]
    obtain ⟨s1, _, round⟩ | ⟨s1, good1, entries, round⟩ := good.round word ((v + n) * PGSIZE) fuel pa perm
    · rw [round]
      exact ⟨fun _ => ⟨_, rfl⟩, fun s' call => by cases call⟩
    simp only [page_div] at entries round
    rw [round, absent v (Nat.le_refl _) (Nat.le_add_right ..), if_neg Bool.false_ne_true]
    cases n with
    | zero =>
      rw [if_pos (by rw [Nat.add_zero])]
      refine ⟨fun _ => ⟨_, rfl⟩, fun s' call u less => ?_⟩
      cases call
      rw [entries u less]
      by_cases isV : u = v
      · rw [if_pos isV, if_pos (by omega), isV, Nat.sub_self, first]
      · rw [if_neg isV, if_neg (by omega)]
    | succ m =>
      have next : add32 (v * PGSIZE) PGSIZE = (v + 1) * PGSIZE := by
        simp only [add32, NVPAGES, PGSIZE] at *
        omega
      have other : v * PGSIZE ≠ (v + (m + 1)) * PGSIZE := by
        simp only [PGSIZE]
        omega
      have rest : ∀ u, v + 1 ≤ u → u ≤ v + 1 + m → present (s1.entry dir u) = false := by
        intro u low high
        rw [entries u (by omega), if_neg (by omega)]
        exact absent u (by omega) (by omega)
      obtain ⟨ends, exactly⟩ := @ih m (v + 1) (pa + BitVec.ofNat 32 PGSIZE) _ good1 (by omega) rest
      rw [if_neg other, next, show v + (m + 1) = v + 1 + m by omega]
      refine ⟨fun less => ends (by omega), fun s' call u less => ?_⟩
      rw [exactly s' call u less, entries u less]
      by_cases isV : u = v
      · rw [if_neg (by omega), if_pos isV, if_pos (by omega), isV, Nat.sub_self, first]
      · by_cases range : v + 1 ≤ u ∧ u ≤ v + 1 + m
        · rw [if_pos range, if_pos (by omega), mapped, mapped, BitVec.add_assoc, ← BitVec.ofNat_add]
          rw [show PGSIZE + (u - (v + 1)) * PGSIZE = (u - v) * PGSIZE by simp only [PGSIZE]; omega]
        · rw [if_neg range, if_neg isV, if_neg (by omega)]

/-- Virtual page `u` meets `[va, va + size)`. -/
def Meets (va size u : Nat) : Prop := u * PGSIZE < va + size ∧ va < (u + 1) * PGSIZE

instance (va size u : Nat) : Decidable (Meets va size u) := by unfold Meets; infer_instance

/-- **`mappages`** of a range that does not wrap, whose last address may be `2 ^ 32 - 1`. -/
theorem Good.mappages {va size : Nat} {pa : BitVec 32} (good : Good dir s) (pos : 1 ≤ size) (fits : va + size ≤ 2 ^ 32)
    (absent : ∀ u < NVPAGES, Meets va size u → present (s.entry dir u) = false) :
    (∃ fuel r, mappages dir fuel va size pa perm s = some (.ok r)) ∧
    ∀ fuel s', mappages dir fuel va size pa perm s = some (.ok (true, s')) →
      ∀ u < NVPAGES, s'.entry dir u = if Meets va size u then mapped pa perm (u - va / PGSIZE) else s.entry dir u := by
  obtain ⟨n, isN⟩ : ∃ n, va / PGSIZE + n = (va + size - 1) / PGSIZE :=
    ⟨_, Nat.add_sub_cancel' (Nat.div_le_div_right (by omega))⟩
  have last : PGROUNDDOWN (sub32 (add32 va size) 1) = (va / PGSIZE + n) * PGSIZE := by
    rw [isN]
    simp only [PGROUNDDOWN, sub32, add32, PGSIZE]
    omega
  have inside : va / PGSIZE + n < NVPAGES := by
    rw [isN]
    simp only [NVPAGES, PGSIZE]
    omega
  have range : ∀ u, Meets va size u ↔ va / PGSIZE ≤ u ∧ u ≤ va / PGSIZE + n := fun u => by
    rw [isN]
    simp only [Meets, PGSIZE]
    omega
  have spec := fun fuel => @Good.mapLoop_spec dir perm fuel n _ pa s good inside fun u low high =>
    absent u (by omega) ((range u).2 ⟨low, high⟩)
  unfold TwoLevel.mappages
  rw [last]
  refine ⟨?_, fun fuel s' call u less => ?_⟩
  · obtain ⟨r, call⟩ := (spec (n + 1)).1 (Nat.lt_succ_self n)
    exact ⟨n + 1, r, call⟩
  · rw [(spec fuel).2 s' call u less]
    simp only [range]

end Mapping

/-! ## Runs -/

/-- **The tables of a directory** from the zeroed page `setupkvm` begins with: after calls of `mappages`, also ones
that run out of memory, after updates of entries, and after what the rest of the kernel does with other pages. -/
inductive Reached (dir : Nat) : Tables → Prop where
  | start {s : Tables} {km : Kmem} : Pages s.km.freelist → kalloc s.km = (some dir, km) →
      Reached dir (({ s with km := km } : Tables).zero dir)
  | mappages {s s' : Tables} {fuel va size : Nat} {pa perm : BitVec 32} {b : Bool} : Reached dir s → va < 2 ^ 32 →
      TwoLevel.mappages dir fuel va size pa perm s = some (.ok (b, s')) → Reached dir s'
  | update {s s' : Tables} {va : Nat} {alloc : Bool} {x : Nat × Nat} (e : BitVec 32) : Reached dir s → va < 2 ^ 32 →
      walkpgdir dir va alloc s = (some x, s') → Reached dir (s'.store x e)
  | other {s s' : Tables} : Reached dir s → Pages s'.km.freelist → dir ∉ s'.km.freelist → s'.word dir = s.word dir →
      (∀ d f, s.TableAt dir d f → f ∉ s'.km.freelist ∧ s'.word f = s.word f) → Reached dir s'

section Runs

variable {dir : Nat} {s : Tables}

theorem Reached.good (reached : Reached dir s) : Good dir s := by
  induction reached with
  | @start s km pages call =>
    rw [(kalloc_some call).1] at pages
    obtain ⟨fresh, _, pages⟩ := pages.cons
    have none : ∀ d f, ¬ (({ s with km := km } : Tables).zero dir).TableAt dir d f := by
      rintro d f ⟨_, here, _⟩
      have blank : (({ s with km := km } : Tables).zero dir).word dir d = 0 := by
        show Function.update s.word dir (fun _ => 0) dir d = 0
        rw [update_self]
      rw [blank] at here
      cases here
    exact ⟨pages, fresh, fun d f is => absurd is (none d f), fun d d' f is => absurd is (none d f)⟩
  | mappages _ word call good =>
    refine good.mapLoop ?_ call
    simp only [PGROUNDDOWN, PGSIZE]
    omega
  | update e _ word walk good =>
    obtain ⟨good', _, found⟩ := good.walk word walk
    exact good'.store (indices word).2.2 (found _ rfl) e
  | other _ pages own same kept good => exact good.congr pages own same fun d f is => (kept d f is).1

theorem Reached.kmapLoop {fuel : Nat} {s' : Tables} : ∀ {ks : List Kmap} {s : Tables}, Reached dir s → (∀ k ∈ ks, k.virt < 2 ^ 32) →
    kmapLoop dir fuel ks s = some (.ok (true, s')) → Reached dir s' := by
  intro ks
  induction ks with
  | nil =>
    intro s reached _ call
    cases call
    exact reached
  | cons k ks ih =>
    intro s reached words call
    rw [TwoLevel.kmapLoop] at call
    split at call
    · rename_i s1 row
      exact ih (reached.mappages (words k (mem_cons_self ..)) row) (fun k inside => words k (mem_cons_of_mem _ inside)) call
    · rename_i failed
      exact absurd call (failed s')

/-- Every directory that `setupkvm` returns is reached. -/
theorem setupkvm_reached {fuel : Nat} {s' : Tables} (pages : Pages s.km.freelist)
    (call : setupkvm fuel s = some (.ok (some dir, s'))) : Reached dir s' := by
  unfold setupkvm at call
  split at call
  · cases call
  · rename_i f km got
    obtain ⟨r, rows, result⟩ := Option.map_eq_some_iff.1 call
    cases r with
    | error e => cases result
    | ok r =>
      obtain ⟨b, s1⟩ := r
      cases b with
      | false => cases result
      | true =>
        cases result
        refine (Reached.start pages got).kmapLoop (fun k row => ?_) rows
        simp only [kmap, mem_cons, not_mem_nil, or_false] at row
        rcases row with rfl | rfl | rfl | rfl
        · decide
        · exact show KERNLINK < 2 ^ 32 by decide
        · exact Nat.mod_lt _ (by decide)
        · decide

/-- **Two-level page tables implement a map.** -/
theorem two_level_map (reached : Reached dir s) :
    (∀ va < 2 ^ 32, walkpgdir dir va false s = (s.place dir (va / PGSIZE), s) ∧
      ∀ x, s.place dir (va / PGSIZE) = some x → s.word x.1 x.2 = s.entry dir (va / PGSIZE) ∧
        ∀ e, ∀ u < NVPAGES, (s.store x e).entry dir u = if u = va / PGSIZE then e else s.entry dir u) ∧
    (∀ va size pa perm, 1 ≤ size → va + size ≤ 2 ^ 32 → (∀ u < NVPAGES, Meets va size u → present (s.entry dir u) = false) →
      (∃ fuel r, mappages dir fuel va size pa perm s = some (.ok r)) ∧
      ∀ fuel s', mappages dir fuel va size pa perm s = some (.ok (true, s')) →
        ∀ u < NVPAGES, s'.entry dir u = if Meets va size u then mapped pa perm (u - va / PGSIZE) else s.entry dir u) ∧
    ∀ d d' f, s.TableAt dir d f → s.TableAt dir d' f → d = d' := by
  have good := reached.good
  refine ⟨fun va word => ⟨walkpgdir_place word, fun x found => ⟨?_, fun e u less => ?_⟩⟩,
    fun va size pa perm pos fits absent => good.mappages pos fits absent, good.once⟩
  · rw [Tables.entry, found]
    rfl
  · exact good.entry_store (indices word).2.2 found e less

end Runs

/-- A directory in page 1, with page 2 free. -/
def smallTables : Tables := Tables.zero ⟨⟨0, 0, [2], 1, Function.update (fun _ => 0) 1 1, fun _ _ => 0⟩, fun _ _ => 0⟩ 1

/-- The last page of the address space is mapped. -/
theorem two_level_map_last : ∃ s', mappages 1 1 0xFFFFF000 PGSIZE 0x5000 2 smallTables = some (.ok (true, s')) ∧
    s'.entry 1 (NVPAGES - 1) = 0x5003 ∧ s'.entry 1 0 = smallTables.entry 1 0 := by
  have reached : Reached 1 smallTables :=
    .start (s := ⟨⟨0, 0, [1, 2], 2, fun _ => 0, fun _ _ => 0⟩, fun _ _ => 0⟩) ⟨by decide, by decide⟩ rfl
  have blank : ∀ u < NVPAGES, Meets 0xFFFFF000 PGSIZE u → present (smallTables.entry 1 u) = false := by
    intro u _ _
    have zero : smallTables.word 1 (u / 1024) = 0 := by simp [smallTables, Tables.zero]
    rw [Tables.entry, Tables.place, zero, present_zero, if_neg Bool.false_ne_true]
    exact present_zero
  obtain ⟨_, exactly⟩ := (two_level_map reached).2.1 0xFFFFF000 PGSIZE 0x5000 2 (by decide) (by decide) blank
  refine ⟨_, rfl, ?_, ?_⟩
  · exact (exactly 1 _ rfl (NVPAGES - 1) (by decide)).trans (by decide)
  · exact (exactly 1 _ rfl 0 (by decide)).trans (if_neg (by decide))

end Xv6.TwoLevel
