import Xv6.Ipc.Shrmem
import Xv6.Mem.Account

/-!
# What the shared-memory calls do

For each call, the cases of what it can do to the pool, to the table of the process and
to the allocator. The pool refers to the pages its entries hold (`Shm.use`), each
exclusively, beside the references `R` of the rest of the kernel.
-/

namespace Xv6

open RefCount Tables Fallible Function Finset

variable {f : Nat} {km : Kmem}

/-- The reference of one entry of the pool. -/
def ShareMemory.use (e : ShareMemory) : Use Nat :=
  match e.addr with
  | .page f => ref f true
  | _ => 0

namespace Shm

variable {D : Nat → Prop} {R : Use Nat} {st st' : Shm} {i j cur : Nat} {sign : Int}

/-- What the pool refers to. -/
def use (st : Shm) : Use Nat := ∑ i ∈ Finset.range SHR_MEM_NUM, (st.shrmems i).use

/-- What the entries other than `i` refer to. -/
def rest (st : Shm) (i : Nat) : Use Nat := ∑ j ∈ (Finset.range SHR_MEM_NUM).erase i, (st.shrmems j).use

theorem use_split (st : Shm) (inside : i < SHR_MEM_NUM) : st.use = st.rest i + (st.shrmems i).use :=
  (sum_erase_add (Finset.range SHR_MEM_NUM) (fun j => (st.shrmems j).use) (mem_range.2 inside)).symm

/-- Entries of the pool with the sign. -/
def slots (st : Shm) (s : Int) : Nat := tally (fun i => (st.shrmems i).sig) SHR_MEM_NUM s

/-- Entries of process `p` with the sign. -/
def entries (st : Shm) (p : Nat) (s : Int) : Nat := tally (st.sigs p) PROC_SHR_MEM_NUM s

theorem findSlot_some (found : st.findSlot sign = some i) :
    i < SHR_MEM_NUM ∧ (st.shrmems i).sig = sign ∧ ∀ j < i, (st.shrmems j).sig ≠ sign := by
  obtain ⟨inside, here, before⟩ := first_some found
  exact ⟨inside, of_decide_eq_true here, fun j below => of_decide_eq_false (before j below)⟩

theorem findSlot_none (missing : st.findSlot sign = none) : st.slots sign = 0 :=
  tally_eq_zero.2 fun i inside => of_decide_eq_false (first_none missing i inside)

theorem findSig_some (found : st.findSig cur sign = some j) :
    j < PROC_SHR_MEM_NUM ∧ st.sigs cur j = sign ∧ ∀ l < j, st.sigs cur l ≠ sign := by
  obtain ⟨inside, here, before⟩ := first_some found
  exact ⟨inside, of_decide_eq_true here, fun l below => of_decide_eq_false (before l below)⟩

theorem findSig_none (missing : st.findSig cur sign = none) : st.entries cur sign = 0 :=
  tally_eq_zero.2 fun l inside => of_decide_eq_false (first_none missing l inside)

theorem slots_setSlot (st : Shm) (inside : i < SHR_MEM_NUM) (e : ShareMemory) (s : Int) :
    (st.setSlot i e).slots s + (if (st.shrmems i).sig = s then 1 else 0) =
      st.slots s + if e.sig = s then 1 else 0 := by
  have moved : (fun l => ((st.setSlot i e).shrmems l).sig) = update (fun l => (st.shrmems l).sig) i e.sig :=
    Function.comp_update ShareMemory.sig st.shrmems i e
  rw [slots, moved]
  exact tally_update inside e.sig

theorem entries_setSig (st : Shm) (inside : j < PROC_SHR_MEM_NUM) (cur : Nat) (sign s : Int) :
    (st.setSig cur j sign).entries cur s + (if st.sigs cur j = s then 1 else 0) =
      st.entries cur s + if sign = s then 1 else 0 := by
  have here : (st.setSig cur j sign).sigs cur = update (st.sigs cur) j sign := update_self ..
  rw [entries, here]
  exact tally_update inside sign

theorem sigs_setSig (st : Shm) (cur j : Nat) (sign : Int) (p l : Nat) :
    (st.setSig cur j sign).sigs p l = if p = cur ∧ l = j then sign else st.sigs p l := by
  by_cases mine : p = cur
  · subst mine
    by_cases here : l = j
    · simp [setSig, here]
    · simp [setSig, here]
  · simp [setSig, mine]

theorem sigs_setSig_of_ne {p : Nat} (ne : p ≠ cur) : (st.setSig cur j sign).sigs p = st.sigs p :=
  update_of_ne ne _ _

theorem use_setSlot (st : Shm) (inside : i < SHR_MEM_NUM) (e : ShareMemory) :
    (st.setSlot i e).use = st.rest i + e.use := by
  have kept : (st.setSlot i e).rest i = st.rest i := by
    apply sum_congr rfl
    intro l mem
    show ShareMemory.use (update st.shrmems i e l) = _
    rw [update_of_ne (ne_of_mem_erase mem)]
  have here : (st.setSlot i e).shrmems i = e := update_self ..
  rw [use_split _ inside, kept, here]

/-! ## The allocator -/

/-- An entry of the pool may be overwritten: its page is lost, but nobody else's. -/
theorem acct_rest (acct : Acct D (R + st.use) st.km) (inside : i < SHR_MEM_NUM) : Acct D (R + st.rest i) st.km := by
  rw [st.use_split inside, ← add_assoc] at acct
  rw [ShareMemory.use] at acct
  split at acct
  · exact acct.forget
  · rwa [add_zero] at acct

theorem fillSlot_sigs (st : Shm) (i : Nat) (sign : Int) : (st.fillSlot i sign).sigs = st.sigs := by
  rw [fillSlot]
  split <;> rfl

theorem fillSlot_acct (sign : Int) (acct : Acct D (R + st.use) st.km) (inside : i < SHR_MEM_NUM) :
    Acct D (R + (st.fillSlot i sign).use) (st.fillSlot i sign).km ∧ (st.fillSlot i sign).km.mem = st.km.mem := by
  have rest := acct_rest acct inside
  rw [fillSlot]
  split
  · rename_i km alloc
    obtain ⟨rfl, _⟩ := kalloc_none alloc
    refine ⟨?_, rfl⟩
    show Acct D (R + (st.setSlot i ⟨.null, sign⟩).use) _
    rw [use_setSlot st inside, ShareMemory.use, add_zero]
    exact rest
  · rename_i f km alloc
    refine ⟨?_, (kalloc_some alloc).2.2.2.1⟩
    show Acct D (R + (st.setSlot i ⟨.page f, sign⟩).use) km
    rw [use_setSlot st inside, ShareMemory.use, ← add_assoc]
    exact rest.kalloc alloc true

/-- What `make_shrmem` puts into a free entry. -/
theorem fillSlot_slot (st : Shm) (i : Nat) (sign : Int) :
    ∃ addr, (st.fillSlot i sign).shrmems = (st.setSlot i ⟨addr, sign⟩).shrmems ∧
      (addr = .null ∧ st.km.freelist = [] ∨ ∃ f, addr = .page f) := by
  rw [fillSlot]
  split
  · rename_i alloc
    exact ⟨.null, rfl, .inl ⟨rfl, (kalloc_none alloc).2⟩⟩
  · exact ⟨.page _, rfl, .inr ⟨_, rfl⟩⟩

theorem fillSlot_slots (st : Shm) (sign : Int) (inside : i < SHR_MEM_NUM) (free : (st.shrmems i).sig = 0) {s : Int} (nonzero : s ≠ 0) :
    (st.fillSlot i sign).slots s = st.slots s + if sign = s then 1 else 0 := by
  obtain ⟨addr, filled, _⟩ := st.fillSlot_slot i sign
  have moved := st.slots_setSlot inside ⟨addr, sign⟩ s
  rw [free, if_neg nonzero.symm, Nat.add_zero] at moved
  rw [← moved, slots, filled, slots]

/-- Freeing the page of an entry. -/
theorem freeSlot_acct (acct : Acct D (R + st.use) st.km) (inside : i < SHR_MEM_NUM) (addr : (st.shrmems i).addr = .page f) :
    kfree (P2V (f * PGSIZE)) st.km = .ok (st.km.release f) ∧ Acct D (R + st.rest i) (st.km.release f) ∧
      Kept (R + st.rest i) st.km (st.km.release f) := by
  have page : (st.shrmems i).use = ref f true := by rw [ShareMemory.use, addr]
  rw [st.use_split inside, page, ← add_assoc] at acct
  exact acct.kfree

end Shm

/-! ## The calls -/

section Calls

variable {st st' : Shm} {cur : Nat} {sign r : Int}

/-- `make_shrmem` returns -1 and changes nothing, or fills an entry of the pool. -/
theorem makeShrmem_cases (call : makeShrmem cur sign st = (r, st')) :
    (r = -1 ∧ st' = st) ∨
      ∃ j i, r = 0 ∧ st.findSig cur 0 = some j ∧ st.findSlot 0 = some i ∧
        st' = (st.fillSlot i sign).setSig cur j sign := by
  rw [makeShrmem] at call
  split at call
  · cases call
    exact .inl ⟨rfl, rfl⟩
  · rename_i j foundSig
    split at call
    · cases call
      exact .inl ⟨rfl, rfl⟩
    · rename_i i foundSlot
      cases call
      exact .inr ⟨j, i, rfl, foundSig, foundSlot, rfl⟩

/-- The state after `remove_shrmem` has freed entry `i` for entry `j` of the process. -/
def Shm.removed (st : Shm) (cur i j : Nat) (km : Kmem) : Shm :=
  (({ st with km := km }.event (.freed (st.shrmems i).addr)).setSlot i ⟨.minusOne, 0⟩).setSig cur j 0

/-- `kfree` panics on 0 and on -1. -/
theorem kfree_noPage {a : ShrAddr} (noPage : ∀ f, a ≠ .page f) (km : Kmem) :
    kfree a.toUint km = .error (.panic "kfree") := by
  cases a with
  | null => rw [kfree, if_pos (.inr (.inl (by simp only [ShrAddr.toUint, KERNBASE]; omega)))]
  | minusOne => rw [kfree, if_pos (.inl (by decide))]
  | page f => exact absurd rfl (noPage f)

/-- `remove_shrmem` returns -1 and changes nothing, or frees the first entry with the sign. -/
theorem removeShrmem_cases (call : removeShrmem cur sign st = .ok (r, st')) :
    (r = -1 ∧ st' = st ∧ (st.findSig cur sign = none ∨ st.findSlot sign = none)) ∨
      ∃ j i f km, r = 0 ∧ st.findSig cur sign = some j ∧ st.findSlot sign = some i ∧
        (st.shrmems i).addr = .page f ∧ kfree (P2V (f * PGSIZE)) st.km = .ok km ∧ st' = st.removed cur i j km := by
  rw [removeShrmem] at call
  split at call
  · rename_i missing
    cases call
    exact .inl ⟨rfl, rfl, .inl missing⟩
  · rename_i j foundSig
    split at call
    · rename_i missing
      cases call
      exact .inl ⟨rfl, rfl, .inr missing⟩
    · rename_i i foundSlot
      obtain ⟨km, free, rest⟩ := bind_ok.1 call
      cases rest
      right
      by_cases page : ∃ f, (st.shrmems i).addr = .page f
      · obtain ⟨f, addr⟩ := page
        rw [addr] at free
        exact ⟨j, i, f, km, rfl, foundSig, foundSlot, addr, free, rfl⟩
      · rw [kfree_noPage (fun f addr => page ⟨f, addr⟩)] at free
        cases free

/-- `remove_shrmem` clears one entry of the process, or none. -/
theorem removeShrmem_sigs (call : removeShrmem cur sign st = .ok (r, st')) :
    st'.sigs = st.sigs ∨ ∃ j, st'.sigs = (st.setSig cur j 0).sigs := by
  rcases removeShrmem_cases call with ⟨_, rfl, _⟩ | ⟨j, i, f, km, _, _, _, _, _, rfl⟩
  · exact .inl rfl
  · exact .inr ⟨j, rfl⟩

/-- `remove_shrmem` of an entry that holds a page. -/
theorem removeShrmem_page {j i : Nat} (foundSig : st.findSig cur sign = some j) (foundSlot : st.findSlot sign = some i)
    (addr : (st.shrmems i).addr = .page f) (free : kfree (P2V (f * PGSIZE)) st.km = .ok km) :
    removeShrmem cur sign st = .ok (0, st.removed cur i j km) := by
  simp only [removeShrmem, foundSig, foundSlot, addr]
  show (kfree (P2V (f * PGSIZE)) st.km >>= _) = _
  rw [free, ok_bind, Shm.removed, addr]
  rfl

/-- `remove_shrmem` returns when the entries with the sign hold pages. -/
theorem removeShrmem_returns {D : Nat → Prop} {R : Use Nat} (acct : Acct D (R + st.use) st.km)
    (filled : ∀ i < SHR_MEM_NUM, (st.shrmems i).sig = sign → ∃ f, (st.shrmems i).addr = .page f) :
    ∃ r st', removeShrmem cur sign st = .ok (r, st') := by
  cases foundSig : st.findSig cur sign with
  | none =>
    refine ⟨-1, st, ?_⟩
    rw [removeShrmem, foundSig]
  | some j =>
    cases foundSlot : st.findSlot sign with
    | none =>
      refine ⟨-1, st, ?_⟩
      simp only [removeShrmem, foundSig, foundSlot]
    | some i =>
      obtain ⟨inside, here, _⟩ := Shm.findSlot_some foundSlot
      obtain ⟨f, addr⟩ := filled i inside here
      exact ⟨0, _, removeShrmem_page foundSig foundSlot addr (Shm.freeSlot_acct acct inside addr).1⟩

/-- `read_shrmem` changes nothing, and reads the page of the first entry with the sign. -/
theorem readShrmem_cases {page : Option (Nat → UInt8)} (call : readShrmem sign st = .ok (page, st')) :
    (page = none ∧ st' = st ∧ st.findSlot sign = none) ∨
      ∃ i f, st.findSlot sign = some i ∧ (st.shrmems i).addr = .page f ∧ page = some (st.km.mem f) ∧
        st' = st.event (.touched (.page f)) := by
  rw [readShrmem] at call
  split at call
  · rename_i missing
    cases call
    exact .inl ⟨rfl, rfl, missing⟩
  · rename_i i found
    split at call
    · cases call
    · cases call
    · rename_i f addr
      cases call
      exact .inr ⟨i, f, found, addr, rfl, rfl⟩

/-- `write_shrmem` changes nothing, or memory from the page of the first entry with the sign on. -/
theorem writeShrmem_cases {str : List UInt8} (call : writeShrmem sign str st = .ok (r, st')) :
    (r = -1 ∧ st' = st ∧ st.findSlot sign = none) ∨
      ∃ i f, st.findSlot sign = some i ∧ (st.shrmems i).addr = .page f ∧ r = 0 ∧
        st' = { st with km := st.km.strcpy f str }.event (.touched (.page f)) := by
  rw [writeShrmem] at call
  split at call
  · rename_i missing
    cases call
    exact .inl ⟨rfl, rfl, missing⟩
  · rename_i i found
    split at call
    · cases call
    · cases call
    · rename_i f addr
      cases call
      exact .inr ⟨i, f, found, addr, rfl, rfl⟩

end Calls

/-! ## What `write_shrmem` writes -/

section Frame

variable {st : Shm} {sign : Int} {str : List UInt8}

/-- The pool and the allocator with other contents of memory. -/
def Shm.withMem (st : Shm) (mem : Nat → Nat → UInt8) : Shm := { st with km := { st.km with mem := mem } }

/-- `write_shrmem` returns. It fails and changes nothing, or it changes bytes of the page
of the first entry with the sign and nothing else. -/
def WritesInPage (sign : Int) (str : List UInt8) (st : Shm) : Prop :=
  ∃ r st', writeShrmem sign str st = .ok (r, st') ∧
    (r = -1 ∧ st' = st ∨
      ∃ i f, st.findSlot sign = some i ∧ (st.shrmems i).addr = .page f ∧ st'.shrmems = st.shrmems ∧ st'.sigs = st.sigs ∧
        st'.km = { st.km with mem := Function.update st.km.mem f (st'.km.mem f) })

theorem strcpy_inside {g : Nat} (fits : str.length < PGSIZE) (other : g ≠ f) : (km.strcpy f str).mem g = km.mem g := by
  funext o
  simp only [Kmem.strcpy]
  rw [if_neg]
  rintro ⟨low, -, high⟩
  have pages : PGSIZE ≤ (g - f) * PGSIZE := Nat.le_mul_of_pos_left _ (by omega)
  omega

/-- The page behind gets the next byte of a string that is too long. -/
theorem strcpy_behind (long : PGSIZE ≤ str.length) : (km.strcpy f str).mem (f + 1) 0 = (str ++ [0]).getD PGSIZE 0 := by
  have one : f + 1 - f = 1 := by omega
  simp only [Kmem.strcpy, one, Nat.one_mul, Nat.add_zero]
  rw [if_pos ⟨Nat.le_succ f, by decide, by omega⟩]

theorem WritesInPage.of_fits {i : Nat} (found : st.findSlot sign = some i) (addr : (st.shrmems i).addr = .page f)
    (fits : str.length < PGSIZE) : WritesInPage sign str st := by
  have call : writeShrmem sign str st = .ok (0, { st with km := st.km.strcpy f str }.event (.touched (.page f))) := by
    rw [writeShrmem]
    simp only [found, addr]
  refine ⟨0, _, call, .inr ⟨i, f, found, addr, rfl, rfl, ?_⟩⟩
  have pages : (st.km.strcpy f str).mem = update st.km.mem f ((st.km.strcpy f str).mem f) := by
    funext g
    by_cases here : g = f
    · rw [here, update_self]
    · rw [update_of_ne here, strcpy_inside fits here]
  exact congrArg (fun mem => { st.km with mem := mem }) pages

/-- Memory for which the byte that goes to the page behind is a change. -/
theorem WritesInPage.fits (inPage : WritesInPage sign str (st.withMem fun _ _ => (str ++ [0]).getD PGSIZE 0 + 1)) :
    st.findSlot sign = none ∨
      ∃ i f, st.findSlot sign = some i ∧ (st.shrmems i).addr = .page f ∧ str.length < PGSIZE := by
  obtain ⟨r, st', call, what⟩ := inPage
  rcases writeShrmem_cases call with ⟨-, -, missing⟩ | ⟨i, f, found, addr, returns, after⟩
  · exact .inl missing
  · refine .inr ⟨i, f, found, addr, ?_⟩
    by_contra long
    rcases what with ⟨fails, -⟩ | ⟨i', f', found', addr', -, -, frame⟩
    · rw [returns] at fails
      cases fails
    · have same : i = i' := Option.some.inj (found.symm.trans found')
      subst same
      have samePage : f = f' := ShrAddr.page.inj (addr.symm.trans addr')
      subst samePage
      have pages := congrArg Kmem.mem frame
      have behind : st'.km.mem (f + 1) = fun _ => (str ++ [0]).getD PGSIZE 0 + 1 := by
        rw [pages]
        exact update_of_ne (by omega) _ _
      rw [after] at behind
      have wrote : (str ++ [0]).getD PGSIZE 0 = (str ++ [0]).getD PGSIZE 0 + 1 :=
        (strcpy_behind (Nat.le_of_not_lt long)).symm.trans (congrFun behind 0)
      have value := congrArg UInt8.toNat wrote
      have one : (1 : UInt8).toNat = 1 := rfl
      rw [UInt8.toNat_add, one] at value
      omega

/-- **`write_shrmem` and its page.** Whatever memory holds, only the page of the segment is
written, exactly when the segment has a page and the string fits with its NUL. -/
theorem write_shrmem_frame (sign : Int) (str : List UInt8) (st : Shm) :
    (∀ mem, WritesInPage sign str (st.withMem mem)) ↔
      (st.findSlot sign = none ∨
        ∃ i f, st.findSlot sign = some i ∧ (st.shrmems i).addr = .page f ∧ str.length < PGSIZE) := by
  constructor
  · intro inPage
    exact (inPage _).fits
  · rintro (missing | ⟨i, f, found, addr, fits⟩) mem
    · refine ⟨-1, _, ?_, .inl ⟨rfl, rfl⟩⟩
      have missing' : (st.withMem mem).findSlot sign = none := missing
      rw [writeShrmem]
      simp only [missing']
    · exact .of_fits found addr fits

/-- A pool with one segment, of the sign 7 at page 0x300. -/
def onePagePool : Shm where
  km := { kend := 0, kdata := 0, freelist := [], fpgn := 0, pcSh := fun _ => 1, mem := fun _ _ => 1 }
  shrmems := fun i => if i = 0 then ⟨.page 0x300, 7⟩ else {}

/-- The NUL of a string of 4096 bytes is the first byte of the page behind. -/
theorem write_shrmem_spills : ¬ WritesInPage 7 (List.replicate 4096 97) onePagePool := by
  have found : onePagePool.findSlot 7 = some 0 := rfl
  have nul : (List.replicate 4096 (97 : UInt8) ++ [0]).getD PGSIZE 0 = 0 := by
    rw [List.getD_eq_getElem?_getD, List.getElem?_append_right (by rw [List.length_replicate]; decide),
      List.length_replicate]
    rfl
  intro inPage
  have memory : onePagePool =
      onePagePool.withMem fun _ _ => (List.replicate 4096 (97 : UInt8) ++ [0]).getD PGSIZE 0 + 1 := by
    rw [nul]
    rfl
  rw [memory] at inPage
  rcases inPage.fits with missing | ⟨i, f, -, -, fits⟩
  · rw [found] at missing
    cases missing
  · rw [List.length_replicate] at fits
    exact absurd fits (by decide)

end Frame

end Xv6
