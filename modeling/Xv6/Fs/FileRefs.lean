import Xv6.Lib.Fallible
import Xv6.Lib.RefCount
import Xv6.Fs.FileTable

/-!
# Who refers to an open file

The references to an open file are the descriptors and swap files of processes that hold
one, and the variables of calls in progress. A swap file that `vpfree` has closed, or that
a new process has from the last one in its slot, is a pointer that holds no reference.
-/

namespace Xv6.Ftable
open Tables RefCount Fallible Function List

/-! ## References -/

namespace Fds

/-- Whether the swap file `i` of a process holds a reference. -/
def held (x : Fds) (i : Nat) : Bool :=
  match x.task with
  | .free => false
  | .copied _ => false
  | .paged j => i < j
  | .execFree j _ => j ≤ i
  | .execAlloc j _ => i < j
  | .exitFree j _ => j ≤ i
  | _ => true

def vp (x : Fds) (i : Nat) : Option Nat := if x.held i then x.vpfile i else none

/-- How many slots of a process hold a reference to `f`. -/
def slots (x : Fds) (f : Nat) : Nat := tally x.ofile NOFILE (some f) + tally x.vp MAX_VPFILES (some f)

/-- The references in the variables of a call. The first file of a pipe is known to nobody else. -/
def locals (x : Fds) : Use Nat :=
  match x.task with
  | .drop fs => fun f => (fs.count f, 0)
  | .pipe f0 _ => ref f0 true
  | _ => 0

def uses (x : Fds) : Use Nat := (fun f => (x.slots f, 0)) + x.locals

/-- What is known of a process by the place it is at: descriptors that are closed, and the slot of a child. -/
def Wf (x : Fds) : Prop :=
  match x.task with
  | .free => ∀ fd < NOFILE, x.ofile fd = none
  | .fork np _ => np < NPROC
  | .copied k => ∀ fd < NOFILE, k ≤ fd → x.ofile fd = none
  | .exitFiles k _ => ∀ fd < NOFILE, fd < k → x.ofile fd = none
  | .exitFree _ _ => ∀ fd < NOFILE, x.ofile fd = none
  | _ => True

end Fds

namespace Sys

def refs (s : Sys) : Use Nat := ∑ p ∈ Finset.range NPROC, (s.proc p).uses

def slots (s : Sys) (f : Nat) : Nat := ∑ p ∈ Finset.range NPROC, (s.proc p).slots f

end Sys

/-! ## What a section can do -/

/-- A table of open files with its references and the slots among them, before and after. -/
inductive Move (t : Table) (U : Use Nat) (V : Nat → Nat) : List Effect → Table → Use Nat → (Nat → Nat) → Prop where
  | quiet : Move t U V [] t U V
  | bare {f : Nat} (x : Bool) : (t f).ref = 0 → Move t U V [.alloc f] (Function.update t f { t f with ref := 1 }) (U + ref f x) V
  | took {f : Nat} {c : Content} : (t f).ref = 0 → c ≠ .none →
      Move t U V [.alloc f, .set f c] (Function.update t f { ref := 1, type := c }) (U + ref f false) (V + Pi.single f 1)
  | shared {f : Nat} {t' : Table} : 0 < V f → filedup f t = .ok t' → Move t U V [] t' (U + ref f false) (V + Pi.single f 1)
  | closed {f : Nat} {x : Bool} {W : Use Nat} {V' : Nat → Nat} {t' : Table} {c : Content} : U = W + ref f x → V' ≤ V →
      fileclose f t = .ok (t', c) → Move t U V (released f c) t' W V'
  | weakened {f : Nat} {W : Use Nat} : U = W + ref f true → Move t U V [] t (W + ref f false) V
  | second {f0 f1 : Nat} {W : Use Nat} : U = W + ref f0 true → (t f1).ref = 0 →
      Move t U V [.alloc f1] (Function.update t f1 { t f1 with ref := 1 }) (W + ref f0 false + ref f1 false) V
  | piped {f0 f1 pg : Nat} {W : Use Nat} {V' : Nat → Nat} : U = W + ref f0 true → (t f1).ref = 0 →
      V' ≤ V + Pi.single f0 1 + Pi.single f1 1 →
      Move t U V [.alloc f1, .set f0 (.pipe pg false), .set f1 (.pipe pg true)]
        (Function.update (Function.update t f0 { t f0 with type := .pipe pg false }) f1 { ref := 1, type := .pipe pg true })
        (W + ref f0 false + ref f1 false) V'

/-- The counts are right, and the types say whether a file is in use. -/
structure Sound (t : Table) (U : Use Nat) (V : Nat → Nat) : Prop where
  exact_ : Exact U fun f => (t f).ref
  fresh : ∀ f, (t f).ref = 0 → (t f).type = .none
  typed : ∀ f, 0 < V f → (t f).type ≠ .none
  bare : ∀ f, 0 < (U f).2 → (t f).type = .none

section Table

variable {t t' : Table} {U U' W : Use Nat} {V V' : Nat → Nat} {es : List Effect} {f g : Nat} {c : Content}

theorem filealloc_some (call : filealloc t = some (f, t')) :
    (t f).ref = 0 ∧ t' = update t f { t f with ref := 1 } := by
  unfold filealloc at call
  rw [Option.map_eq_some_iff] at call
  obtain ⟨_, found, same⟩ := call
  cases same
  exact ⟨by simpa using (first_some found).2.1, rfl⟩

theorem filedup_ok (call : filedup f t = .ok t') : t' = update t f { t f with ref := (t f).ref + 1 } := by
  unfold filedup at call
  split at call <;> cases call
  rfl

/-- `fileclose` drops a reference, and releases the file with the last one. -/
theorem fileclose_ok (call : fileclose f t = .ok (t', c)) :
    1 ≤ (t f).ref ∧ t' = update t f { ref := (t f).ref - 1, type := if (t f).ref = 1 then .none else (t f).type } ∧
      c = if (t f).ref = 1 then (t f).type else .none := by
  unfold fileclose at call
  split at call
  · cases call
  · split at call
    · rename_i more
      cases call
      have : (t f).ref ≠ 1 := by omega
      exact ⟨by omega, by rw [if_neg this], by rw [if_neg this]⟩
    · have : (t f).ref = 1 := by omega
      cases call
      exact ⟨by omega, by rw [if_pos this, this], by rw [if_pos this]⟩

theorem refs_update (t : Table) (f : Nat) (x : File) :
    (fun g => (update t f x g).ref) = update (fun g => (t g).ref) f x.ref := by
  funext g
  simp only [update_apply]
  split <;> rfl

namespace Sound

theorem unused (sound : Sound t U V) (zero : (t f).ref = 0) : U f = 0 :=
  total_eq_zero.1 (sound.exact_.counted.unused zero)

/-- A fresh file gets its first reference and, with a slot, its type. -/
theorem take {x : File} {e : Bool} (sound : Sound t U V) (zero : (t f).ref = 0) (one : x.ref = 1)
    (slots : ∀ g, 0 < V' g → 0 < V g ∨ g = f ∧ x.type ≠ .none) (bare : e = true → x.type = .none) :
    Sound (update t f x) (U + ref f e) V' := by
  have unused := sound.unused zero
  refine ⟨?_, ?_, ?_, ?_⟩
  · rw [refs_update, one]
    exact sound.exact_.take zero e
  · intro g none_
    by_cases here : g = f
    · rw [here, update_self, one] at none_
      cases none_
    · rw [update_of_ne here] at none_ ⊢
      exact sound.fresh g none_
  · intro g slot
    by_cases here : g = f
    · subst here
      rw [update_self]
      rcases slots g slot with old | ⟨_, set_⟩
      · exact absurd (sound.fresh g zero) (sound.typed g old)
      · exact set_
    · rw [update_of_ne here]
      rcases slots g slot with old | ⟨is, _⟩
      · exact sound.typed g old
      · exact absurd is here
  · intro g alone
    by_cases here : g = f
    · subst here
      rw [update_self]
      apply bare
      rw [Pi.add_apply, unused, ref_self] at alone
      cases e
      · cases alone
      · rfl
    · rw [update_of_ne here]
      rw [Pi.add_apply, ref_of_ne here, add_zero] at alone
      exact sound.bare g alone

/-- A file that a slot refers to is referred to once more. -/
theorem share (sound : Sound t U V) (slot : 0 < V f) :
    Sound (update t f { t f with ref := (t f).ref + 1 }) (U + ref f false) (V + Pi.single f 1) := by
  have typed := sound.typed f slot
  have only : (U f).2 = 0 := by
    by_contra pos
    exact typed (sound.bare f (Nat.pos_of_ne_zero pos))
  have types : ∀ g, (update t f { t f with ref := (t f).ref + 1 } g).type = (t g).type := by
    intro g
    rw [update_apply]
    split
    · rename_i here
      rw [here]
    · rfl
  refine ⟨?_, ?_, ?_, ?_⟩
  · rw [refs_update]
    exact sound.exact_.share only
  · intro g none_
    rw [types]
    by_cases here : g = f
    · rw [here, update_self] at none_
      cases none_
    · rw [update_of_ne here] at none_
      exact sound.fresh g none_
  · intro g slots
    rw [types]
    by_cases here : g = f
    · rw [here]
      exact typed
    · rw [Pi.add_apply, Pi.single_eq_of_ne here, add_zero] at slots
      exact sound.typed g slots
  · intro g alone
    rw [types]
    apply sound.bare
    by_cases here : g = f
    · subst here
      simp [ref_self, only] at alone
    · rw [Pi.add_apply, ref_of_ne here, add_zero] at alone
      exact alone

/-- A reference is dropped. -/
theorem close {x : Bool} (sound : Sound t (W + ref f x) V) (fewer : V' ≤ V) (inside : ∀ g, V' g ≤ total W g)
    (call : fileclose f t = .ok (t', c)) : Sound t' W V' := by
  obtain ⟨_, rfl, _⟩ := fileclose_ok call
  have count := sound.exact_.counted.count_ref
  refine ⟨?_, ?_, ?_, ?_⟩
  · rw [refs_update]
    exact sound.exact_.drop
  · intro g none_
    by_cases here : g = f
    · subst here
      rw [update_self] at none_ ⊢
      simp only at none_ ⊢
      rw [if_pos (by omega)]
    · rw [update_of_ne here] at none_ ⊢
      exact sound.fresh g none_
  · intro g slot
    have typed := sound.typed g (Nat.lt_of_lt_of_le slot (fewer g))
    by_cases here : g = f
    · subst here
      have left := inside g
      rw [update_self]
      simp only
      rw [if_neg (by omega)]
      exact typed
    · rw [update_of_ne here]
      exact typed
  · intro g alone
    have bare := sound.bare g (by rw [Pi.add_apply, Prod.snd_add]; omega)
    by_cases here : g = f
    · subst here
      rw [update_self]
      simp only
      rw [bare, ite_self]
    · rw [update_of_ne here]
      exact bare

theorem weaken (sound : Sound t (W + ref f true) V) : Sound t (W + ref f false) V := by
  refine ⟨sound.exact_.weaken, sound.fresh, sound.typed, fun g alone => sound.bare g ?_⟩
  rw [Pi.add_apply, Prod.snd_add] at alone ⊢
  have : (ref f false g).2 = 0 := by
    by_cases here : g = f
    · rw [here, ref_self]
      rfl
    · rw [ref_of_ne here]
      rfl
  omega

/-- A file that only a variable refers to gets its type. -/
theorem settle (sound : Sound t (W + ref f true) V) (is : c ≠ .none) (slots : V' ≤ V + Pi.single f 1) :
    Sound (update t f { t f with type := c }) (W + ref f false) V' := by
  have count := sound.exact_.counted.count_ref
  have rest := sound.exact_.counted.rest_alone
  have weak := sound.weaken
  have same : (fun g => (update t f { t f with type := c } g).ref) = fun g => (t g).ref := by
    rw [refs_update]
    exact update_eq_self f _
  refine ⟨?_, ?_, ?_, ?_⟩
  · rw [same]
    exact weak.exact_
  · intro g none_
    by_cases here : g = f
    · subst here
      rw [update_self] at none_
      simp only at none_
      omega
    · rw [update_of_ne here] at none_ ⊢
      exact sound.fresh g none_
  · intro g slot
    by_cases here : g = f
    · rw [here, update_self]
      exact is
    · have old : V' g ≤ V g := by simpa [here] using slots g
      rw [update_of_ne here]
      exact sound.typed g (by omega)
  · intro g alone
    by_cases here : g = f
    · subst here
      simp [ref_self, rest] at alone
    · rw [update_of_ne here]
      exact weak.bare g alone

end Sound

/-- **Every section** keeps the counts. -/
theorem Move.sound (move : Move t U V es t' U' V') (sound : Sound t U V) (inside : ∀ g, V' g ≤ total U' g) :
    Sound t' U' V' := by
  cases move with
  | quiet => exact sound
  | bare x zero =>
    apply sound.take zero rfl
    · intro g slot
      exact .inl slot
    · intro _
      exact sound.fresh _ zero
  | @took f c zero is =>
    apply sound.take zero rfl
    · intro g slot
      by_cases here : g = f
      · exact .inr ⟨here, is⟩
      · rw [Pi.add_apply, Pi.single_eq_of_ne here] at slot
        exact .inl slot
    · intro bare
      cases bare
  | shared slot call =>
    rw [filedup_ok call]
    exact sound.share slot
  | closed is fewer call =>
    subst is
    exact sound.close fewer inside call
  | weakened is =>
    subst is
    exact sound.weaken
  | second is zero =>
    subst is
    apply sound.weaken.take zero rfl
    · intro g slot
      exact .inl slot
    · intro bare
      cases bare
  | @piped f0 f1 pg W V' is zero slots =>
    subst is
    have count := sound.exact_.counted.count_ref
    have apart : f1 ≠ f0 := by
      intro same
      rw [same] at zero
      omega
    have first := sound.settle (c := .pipe pg false) (by simp) (le_refl (V + Pi.single f0 1))
    refine first.take (by rw [update_of_ne apart]; exact zero) rfl ?_ (fun bare => by cases bare)
    intro g slot
    by_cases here : g = f1
    · exact .inr ⟨here, by simp⟩
    · have old : V' g ≤ V g + (Pi.single f0 1 : Nat → Nat) g := by simpa [here] using slots g
      exact .inl (Nat.lt_of_lt_of_le slot old)

/-- `filealloc` returns a file that nothing refers to. -/
theorem Move.alloc (move : Move t U V es t' U' V') (sound : Sound t U V) (mem : .alloc f ∈ es) : total U f = 0 := by
  have unused : ∀ g, (t g).ref = 0 → total U g = 0 := fun g zero => total_eq_zero.2 (sound.unused zero)
  cases move with
  | quiet => cases mem
  | bare x zero =>
    cases mem_singleton.1 mem
    exact unused _ zero
  | took zero is =>
    simp only [mem_cons, not_mem_nil, or_false, reduceCtorEq] at mem
    cases mem
    exact unused _ zero
  | shared slot call => cases mem
  | closed is fewer call =>
    unfold released at mem
    split at mem <;> simp at mem
  | weakened is => cases mem
  | second is zero =>
    cases mem_singleton.1 mem
    exact unused _ zero
  | piped is zero slots =>
    simp only [mem_cons, not_mem_nil, or_false, reduceCtorEq] at mem
    cases mem
    exact unused _ zero

theorem mem_released {d : Content} : .release f c ∈ released g d ↔ f = g ∧ c = d ∧ c ≠ .none := by
  unfold released
  split
  · rename_i none_
    constructor
    · rintro ⟨⟩
    · rintro ⟨_, is, some_⟩
      exact absurd (is.trans none_) some_
  · rename_i some_
    rw [mem_singleton, Effect.release.injEq]
    constructor
    · rintro ⟨rfl, rfl⟩
      exact ⟨rfl, rfl, some_⟩
    · rintro ⟨rfl, rfl, _⟩
      exact ⟨rfl, rfl⟩

/-- **The final release** comes with the last reference. -/
theorem Move.release (move : Move t U V es t' U' V') (sound : Sound t U V) (f : Nat) (c : Content) :
    .release f c ∈ es ↔ 0 < total U f ∧ total U' f = 0 ∧ c = (t f).type ∧ c ≠ .none := by
  have kept : (∀ g, total U g ≤ total U' g) → ¬ (0 < total U f ∧ total U' f = 0 ∧ c = (t f).type ∧ c ≠ .none) := by
    rintro more ⟨some_, none_, _⟩
    have := more f
    omega
  cases move with
  | quiet => simpa using kept fun _ => le_refl _
  | bare x zero => simpa using kept fun g => by simp
  | took zero is => simpa using kept fun g => by simp
  | shared slot call => simpa using kept fun g => by simp
  | weakened is => simpa using kept fun g => by simp [is, total_ref]
  | second is zero => simpa using kept fun g => by simp [is, total_ref]
  | piped is zero slots => simpa using kept fun g => by simp [is, total_ref]
  | @closed g x W V' t' c' is fewer call =>
    subst is
    obtain ⟨_, rfl, rfl⟩ := fileclose_ok call
    have count := sound.exact_.counted.count_ref
    rw [mem_released]
    constructor
    · rintro ⟨rfl, is, typed⟩
      by_cases last : (t f).ref = 1
      · rw [if_pos last] at is
        exact ⟨by simp, by omega, is, typed⟩
      · rw [if_neg last] at is
        exact absurd is typed
    · rintro ⟨some_, none_, is, typed⟩
      have here : f = g := by
        by_contra other
        rw [total_add, total_ref, if_neg other] at some_
        omega
      subst here
      rw [if_pos (by omega)]
      exact ⟨rfl, is, typed⟩

/-- A type is set. -/
def Effect.sets (f : Nat) : Effect → Bool
  | .set g _ => g = f
  | _ => false

def Effect.releases (f : Nat) : Effect → Bool
  | .release g _ => g = f
  | _ => false

/-- Whether a file has a type, as a number. -/
def File.inUse (x : File) : Nat := if x.type = .none then 0 else 1

theorem update_inUse (t : Table) (f g : Nat) (x : File) :
    (update t f x g).inUse = if g = f then x.inUse else (t g).inUse := by
  rw [update_apply]
  split <;> rfl

theorem inUse_of_none {x : File} (none_ : x.type = .none) : x.inUse = 0 := if_pos none_

theorem inUse_of_type {x : File} (some_ : x.type ≠ .none) : x.inUse = 1 := if_neg some_

theorem released_counts (f g : Nat) (c : Content) :
    (released g c).countP (Effect.releases f) = (if f = g then if c = .none then 0 else 1 else 0) ∧
      (released g c).countP (Effect.sets f) = 0 := by
  unfold released
  split
  · simp
  · by_cases here : f = g
    · simp [Effect.releases, Effect.sets, here]
    · simp [Effect.releases, Effect.sets, here, Ne.symm here]

/-- Each time a file gets a type, it is released once. -/
theorem Move.balance (move : Move t U V es t' U' V') (sound : Sound t U V) (f : Nat) :
    es.countP (Effect.releases f) + (t' f).inUse = es.countP (Effect.sets f) + (t f).inUse := by
  have fresh : ∀ g, (t g).ref = 0 → (t g).inUse = 0 := fun g zero => inUse_of_none (sound.fresh g zero)
  cases move with
  | quiet => rfl
  | @bare g x zero =>
    rw [update_inUse]
    split
    · rename_i here
      subst here
      rfl
    · rfl
  | @took g c zero is =>
    have new : File.inUse { ref := 1, type := c } = 1 := inUse_of_type is
    rw [update_inUse, new]
    by_cases here : f = g
    · subst here
      simp [Effect.releases, Effect.sets, fresh f zero]
    · simp [Effect.releases, Effect.sets, here, Ne.symm here]
  | @shared g t' slot call =>
    rw [filedup_ok call, update_inUse]
    split
    · rename_i here
      subst here
      rfl
    · rfl
  | @closed g x W V' t' c' is fewer call =>
    obtain ⟨_, rfl, rfl⟩ := fileclose_ok call
    obtain ⟨releases, sets⟩ := released_counts f g (if (t g).ref = 1 then (t g).type else .none)
    rw [update_inUse, releases, sets]
    by_cases here : f = g
    · subst here
      rw [if_pos rfl, if_pos rfl]
      by_cases last : (t f).ref = 1
      · simp only [if_pos last]
        exact Nat.add_comm ..
      · simp only [if_neg last]
        rfl
    · rw [if_neg here, if_neg here]
  | weakened is => rfl
  | @second f0 g W is zero =>
    rw [update_inUse]
    split
    · rename_i here
      subst here
      rfl
    · rfl
  | @piped f0 f1 pg W V' is zero slots =>
    subst is
    have count := sound.exact_.counted.count_ref
    have apart : f0 ≠ f1 := by
      intro same
      rw [same] at count
      omega
    have old : (t f0).type = .none := sound.bare f0 (by simp [ref_self])
    rw [update_inUse, update_inUse]
    by_cases first : f = f0
    · subst first
      simp [Effect.releases, Effect.sets, apart, apart.symm, old, File.inUse]
    · by_cases second : f = f1
      · subst second
        simp [Effect.releases, Effect.sets, apart, sound.fresh f zero, File.inUse]
      · simp [Effect.releases, Effect.sets, first, second, Ne.symm first, Ne.symm second]

end Table

end Xv6.Ftable
