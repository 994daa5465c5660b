import Xv6.Vm.Fault

/-!
# Where the kernel can stop

`cast_page_fault` has two panics of its own, for a write fault on a page that is writable
and for a share count of 0. No other function of the fault path stops for these reasons.
-/

namespace Xv6
open Fallible

/-- The panics of `cast_page_fault`. -/
def shareStops : List Stop :=
  [.panic "page fault. Unknown page fault due to a writable pte.", .panic "page fault. Wrong share count error."]

/-- Any other reason to stop. -/
def Stop.Other (s : Stop) : Prop := s ∉ shareStops

instance (s : Stop) : Decidable s.Other := inferInstanceAs (Decidable (s ∉ shareStops))

section Queue

variable {few null : String}

theorem takeLast_stops (q : MemQueue) (isFew : (Stop.panic few).Other) (isNull : (Stop.panic null).Other) :
    StopsIn Stop.Other (takeLast few null q) := by
  unfold takeLast
  split
  · exact .error isFew
  · split
    · exact .error isFew
    · split
      · exact .error isNull
      · split
        · exact .error isNull
        · exact .ok _

theorem addPage_stops (va : Nat) (q : MemQueue) : StopsIn Stop.Other (addPage va q) := by
  refine .bind ?_ fun _ _ => .ok _
  unfold findSlot
  split
  · exact .error (by decide)
  · exact .ok _

end Queue

section Evict

variable (p : Proc) (km : Kmem)

theorem kfree_stops (v : Nat) : StopsIn Stop.Other (kfree v km) := by
  unfold kfree
  simp only
  split
  · exact .error (by decide)
  · split <;> exact .ok _

theorem takeSlot_stops (t : SlotTable) : StopsIn Stop.Other (takeSlot t km) := by
  unfold takeSlot
  split
  · exact .ok _
  · split
    · exact .error (by decide)
    · split
      · exact .ok _
      · exact .error (by decide)

theorem vpwrite_stops (files : VpFiles) (buf : Bytes) (offset size : Nat) :
    StopsIn Stop.Other (vpwrite files buf offset size) := by
  refine .bind ?_ fun _ _ => .ok _
  unfold vpfileAt
  simp only
  split
  · exact .error (by decide)
  · split
    · exact .error (by decide)
    · split
      · exact .error (by decide)
      · exact .ok _

theorem fifoWrite_stops : StopsIn Stop.Other (fifoWrite p km) := by
  refine .bind (takeLast_stops _ (by decide) (by decide)) fun last _ => ?_
  refine .bind (takeSlot_stops _ _) fun slot _ => ?_
  refine .bind ?_ fun bytes _ => ?_
  · unfold userPage
    split
    · exact .error (by decide)
    · split
      · exact .ok _
      · exact .error (by decide)
  refine .bind (vpwrite_stops _ _ _ _) fun written _ => ?_
  simp only
  split
  · exact .ok _
  · split
    · exact .error (by decide)
    · split
      · exact .error (by decide)
      · exact .bind (kfree_stops _ _) fun _ _ => .ok _

theorem makeRoom_stops (a : Nat) (fresh : Bool) : StopsIn Stop.Other (makeRoom a fresh p km) := by
  refine .bind ?_ fun room _ => ?_
  · unfold writePage
    split
    · refine .bind (fifoWrite_stops _ _) fun written _ => ?_
      simp only
      split
      · exact .error (by decide)
      · exact .ok _
    · exact .ok _
  · simp only
    split
    · exact .bind (addPage_stops _ _) fun _ _ => .ok _
    · exact .ok _

end Evict

section Grow

theorem deallocLoop_stops (own : Bool) (hi fuel : Nat) :
    ∀ (a : Nat) (d : PgDir) (t : SlotTable) (km : Kmem), StopsIn Stop.Other (deallocLoop own hi fuel a d t km) := by
  induction fuel with
  | zero => exact fun _ _ _ _ => .ok _
  | succ fuel ih =>
    intro a d t km
    unfold deallocLoop
    split
    · exact .ok _
    · split
      · exact ih _ _ _ _
      · split
        · split
          · exact .error (by decide)
          · split
            · exact .error (by decide)
            · exact .bind (kfree_stops _ _) fun _ _ => ih _ _ _ _
        · split
          · split
            · exact .ok _
            · exact .error (by decide)
          · exact ih _ _ _ _

theorem dealloc_stops (c : Ctx) (tgt : Target) (oldsz newsz : Nat) : StopsIn Stop.Other (c.dealloc tgt oldsz newsz) := by
  refine .bind ?_ fun _ _ => .ok _
  unfold deallocuvm
  split
  · exact .ok _
  · exact .bind (deallocLoop_stops _ _ _ _ _ _ _) fun _ _ => .ok _

theorem mapLoop_stops (perm : Pte) (n : Nat) :
    ∀ (a pa : Nat) (d : PgDir) (km : Kmem), StopsIn Stop.Other (mapLoop perm n a pa d km) := by
  induction n with
  | zero => exact fun _ _ _ _ => .ok _
  | succ n ih =>
    intro a pa d km
    refine .bind ?_ fun mapped _ => ?_
    · unfold mapPage
      split
      · exact .ok _
      · split
        · exact .error (by decide)
        · exact .ok _
    · simp only
      split
      · exact ih _ _ _ _
      · exact .ok _

theorem growPage_stops (tgt : Target) (oldsz newsz a : Nat) (c : Ctx) :
    StopsIn Stop.Other (growPage tgt oldsz newsz a c) := by
  unfold growPage
  split
  · exact .bind (dealloc_stops _ _ _ _) fun _ _ => .ok _
  · refine .bind (mapLoop_stops _ _ _ _ _ _) fun mapped _ => ?_
    simp only
    split
    · exact .ok _
    · refine .bind (dealloc_stops _ _ _ _) fun _ _ => .bind (kfree_stops _ _) fun _ _ => .ok _

theorem allocLoop_stops (tgt : Target) (oldsz newsz : Nat) (as : List Nat) :
    ∀ (fresh : Bool) (c : Ctx), StopsIn Stop.Other (allocLoop tgt oldsz newsz as fresh c) := by
  induction as with
  | nil => exact fun _ _ => .ok _
  | cons a as ih =>
    intro fresh c
    refine .bind (makeRoom_stops _ _ _ _) fun room _ => .bind (growPage_stops _ _ _ _ _) fun grown _ => ?_
    simp only
    split
    · exact ih _ _
    · exact .ok _

/-- Growing the stack does not stop for one of the two reasons. -/
theorem growStack_stops (c : Ctx) : StopsIn Stop.Other (growStack c) := by
  refine .bind ?_ fun _ _ => .ok _
  unfold allocuvm
  split
  · exact .ok _
  · split
    · exact .ok _
    · exact allocLoop_stops _ _ _ _ _ _

end Grow

end Xv6
