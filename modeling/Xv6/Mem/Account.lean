import Xv6.Mem.KallocInv
import Xv6.Lib.RefCount

/-!
# Share counts as reference counts

`Acct D U km` says that the allocator is in order and that `pc_sh` counts the references
`U` that page tables and kernel structures hold. Each allocator call has one rule. A
component that holds the references `R` keeps its pages through anything the others do:
`Kept R`.
-/

namespace Xv6
open RefCount Function

/-- The allocator is in order and its counts are those of the references `U`. -/
structure Acct (D : Nat → Prop) (U : Use Nat) (km : Kmem) : Prop where
  inv : km.Inv D
  counted : Counted U km.pcSh

/-- The pages that `R` refers to keep their contents. -/
structure Kept (R : Use Nat) (km km' : Kmem) : Prop where
  mem : ∀ f, 0 < total R f → km'.mem f = km.mem f
  kend : km'.kend = km.kend
  kdata : km'.kdata = km.kdata

namespace Kept

variable {R S : Use Nat} {km km' km'' : Kmem}

theorem refl (R : Use Nat) (km : Kmem) : Kept R km km := ⟨fun _ _ => rfl, rfl, rfl⟩

theorem trans (first : Kept R km km') (second : Kept R km' km'') : Kept R km km'' :=
  ⟨fun f held => (second.mem f held).trans (first.mem f held), second.kend.trans first.kend,
    second.kdata.trans first.kdata⟩

theorem mono (kept : Kept R km km') (same : R = S) : Kept S km km' := same ▸ kept

/-- Part of the references are kept when all are. -/
theorem part (kept : Kept (R + S) km km') : Kept R km km' :=
  ⟨fun f held => kept.mem f (by rw [total_add]; omega), kept.kend, kept.kdata⟩

/-- As `part`, with the references bracketed to the right. -/
theorem inner {T : Use Nat} (kept : Kept (R + (S + T)) km km') : Kept (R + S) km km' :=
  (kept.mono (add_assoc R S T).symm).part

end Kept

variable {D : Nat → Prop} {U : Use Nat} {km km' : Kmem} {f : Nat} {x : Bool}

namespace Acct

theorem congr {V : Use Nat} (acct : Acct D U km) (same : U = V) : Acct D V km := same ▸ acct

theorem of_mem (acct : Acct D U km) (mem : Nat → Nat → UInt8) : Acct D U { km with mem := mem } :=
  ⟨⟨acct.inv.nodup, acct.inv.exact, acct.inv.count, acct.inv.outside, acct.inv.ushort, acct.inv.range⟩,
    acct.counted⟩

/-- The page `kalloc` returns is referred to by nobody. -/
theorem kalloc_fresh (acct : Acct D U km) (h : kalloc km = (some f, km')) : total U f = 0 :=
  acct.counted.unused (acct.inv.kalloc_free h).2

theorem kalloc (acct : Acct D U km) (h : kalloc km = (some f, km')) (x : Bool) :
    Acct D (U + ref f x) km' := by
  refine ⟨acct.inv.kalloc h, ?_⟩
  rw [(kalloc_some h).2.1]
  exact acct.counted.take (acct.inv.kalloc_free h).2 x

/-- A page that the kernel allocates and forgets. -/
theorem kalloc_lost (acct : Acct D U km) (h : Xv6.kalloc km = (some f, km')) : Acct D U km' := by
  refine ⟨acct.inv.kalloc h, ?_⟩
  rw [(kalloc_some h).2.1]
  exact acct.counted.lose (acct.inv.kalloc_free h).2

/-- The kernel forgets a page that only it refers to. -/
theorem forget (acct : Acct D (U + ref f true) km) : Acct D U km := ⟨acct.inv, acct.counted.forget⟩

theorem count (acct : Acct D (U + ref f x) km) : km.pcSh f = total U f + 1 :=
  acct.counted.count_ref

theorem domain (acct : Acct D (U + ref f x) km) : D f :=
  acct.inv.of_counted (by rw [acct.count]; omega)

theorem kfree (acct : Acct D (U + ref f x) km) :
    kfree (P2V (f * PGSIZE)) km = .ok (km.release f) ∧ Acct D U (km.release f) ∧ Kept U km (km.release f) := by
  have count := acct.count
  refine ⟨kfree_counted acct.inv (by omega), ⟨acct.inv.release (by omega), ?_⟩, fun g held => ?_,
    km.release_kend f, km.release_kdata f⟩
  · rw [Kmem.release_pcSh]
    exact acct.counted.drop
  · refine km.release_mem f ?_
    by_cases same : g = f
    · subst same
      exact .inr (by omega)
    · exact .inl same

theorem addPageShare (acct : Acct D (U + ref f false) km) (few : total U f < 65534) :
    addPageShare (f * PGSIZE) km = .ok { km with pcSh := update km.pcSh f (km.pcSh f + 1) } ∧
      Acct D (U + ref f false + ref f false) { km with pcSh := update km.pcSh f (km.pcSh f + 1) } := by
  have count := acct.count
  refine ⟨?_, acct.inv.recount (by omega) (by omega) (by omega), acct.counted.share⟩
  rw [addPageShare_counted acct.inv (by omega), Nat.mod_eq_of_lt (by omega)]

theorem redPageShare (acct : Acct D (U + ref f x) km) (more : 2 ≤ km.pcSh f) :
    redPageShare (f * PGSIZE) km = .ok { km with pcSh := update km.pcSh f (km.pcSh f - 1) } ∧
      Acct D U { km with pcSh := update km.pcSh f (km.pcSh f - 1) } := by
  have small := acct.inv.ushort f
  refine ⟨?_, acct.inv.recount (by omega) (by omega) (by omega), acct.counted.drop⟩
  have less : (km.pcSh f + 65535) % 65536 = km.pcSh f - 1 := by omega
  rw [redPageShare_counted acct.inv (by omega), less]

theorem getPageShare (acct : Acct D (U + ref f x) km) : getPageShare (f * PGSIZE) km = .ok (km.pcSh f) := by
  obtain ⟨low, high⟩ := acct.inv.range f acct.domain
  have inRange : ¬ shareOutOfRange km (f * PGSIZE) := by
    simp only [shareOutOfRange]
    omega
  unfold Xv6.getPageShare
  rw [if_neg inRange, page_div]

end Acct

/-- A component that holds the references `U`, no page twice, beside the references `R`
of the others. -/
structure Held (D : Nat → Prop) (R U : Use Nat) (km : Kmem) : Prop where
  acct : Acct D (R + U) km
  once : ∀ f, total U f ≤ 1

namespace Held

variable {R V : Use Nat}

theorem congr (held : Held D R U km) (same : U = V) : Held D R V km := same ▸ held

theorem of_mem (held : Held D R U km) (mem : Nat → Nat → UInt8) : Held D R U { km with mem := mem } :=
  ⟨held.acct.of_mem mem, held.once⟩

theorem kalloc (held : Held D R U km) (h : kalloc km = (some f, km')) (x : Bool) :
    Held D R (U + ref f x) km' := by
  refine ⟨(held.acct.kalloc h x).congr (add_assoc R U _), fun g => ?_⟩
  have fresh := held.acct.kalloc_fresh h
  have before := held.once g
  rw [total_add] at fresh
  rw [total_add, total_ref]
  split
  · rename_i same
    subst same
    omega
  · exact before

theorem kalloc_lost (held : Held D R U km) (h : Xv6.kalloc km = (some f, km')) : Held D R U km' :=
  ⟨held.acct.kalloc_lost h, held.once⟩

theorem kfree (held : Held D R (U + ref f x) km) :
    kfree (P2V (f * PGSIZE)) km = .ok (km.release f) ∧ Held D R U (km.release f) ∧
      Kept (R + U) km (km.release f) := by
  obtain ⟨freed, acct, kept⟩ := (held.acct.congr (add_assoc R U (ref f x)).symm).kfree
  refine ⟨freed, ⟨acct, fun g => ?_⟩, kept⟩
  have := held.once g
  rw [total_add] at this
  omega

/-- A writable page of the component is nobody else's. -/
theorem exclusive (held : Held D R (U + ref f true) km) : total R f = 0 := by
  have := (held.acct.congr (add_assoc R U _).symm).counted.exclusive
  rw [total_add] at this
  omega

end Held

/-- `kalloc` changes no page. -/
theorem kalloc_kept (R : Use Nat) (h : kalloc km = (some f, km')) : Kept R km km' := by
  obtain ⟨_, _, _, mem, kend, kdata⟩ := kalloc_some h
  exact ⟨fun _ _ => by rw [mem], kend, kdata⟩

/-- Writing a page that the others do not refer to. -/
theorem kept_write {R : Use Nat} (unused : total R f = 0) (bytes : Nat → UInt8) :
    Kept R km { km with mem := update km.mem f bytes } := by
  refine ⟨fun g held => update_of_ne ?_ _ _, rfl, rfl⟩
  rintro rfl
  omega

end Xv6
