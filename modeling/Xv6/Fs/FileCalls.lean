import Mathlib.Algebra.Order.BigOperators.Group.Finset
import Xv6.Fs.FileRefs

/-!
# The calls that open and close files

Each section of a call is one of the moves of `Move`, and it does not stop in `filedup` or
`fileclose`: what it passes to them is a reference that is counted. From this follow the
counts in every state of a run.
-/

namespace Xv6.Ftable
open Tables RefCount Fallible Function Finset

variable {fd i : Nat}

/-! ## One process among the others -/

section Put

variable {s : Sys} {t : Table} {p f : Nat} {x y : Fds}

/-- The references of all processes but `p`. -/
def Sys.restRefs (s : Sys) (p : Nat) : Use Nat := ∑ q ∈ (Finset.range NPROC).erase p, (s.proc q).uses

def Sys.restSlots (s : Sys) (p : Nat) : Nat → Nat := ∑ q ∈ (Finset.range NPROC).erase p, (s.proc q).slots

theorem Sys.slots_eq (s : Sys) : s.slots = ∑ q ∈ Finset.range NPROC, (s.proc q).slots := by
  funext f
  rw [Finset.sum_apply]
  rfl

theorem Sys.refs_split (s : Sys) (inside : p < NPROC) : s.refs = s.restRefs p + (s.proc p).uses := by
  rw [Sys.refs, ← add_sum_erase _ _ (mem_range.2 inside), add_comm]
  rfl

theorem Sys.slots_split (s : Sys) (inside : p < NPROC) : s.slots = s.restSlots p + (s.proc p).slots := by
  rw [Sys.slots_eq, ← add_sum_erase _ _ (mem_range.2 inside), add_comm]
  rfl

theorem Sys.put_proc (s : Sys) (t : Table) (p : Nat) (x : Fds) (q : Nat) :
    (s.put t p x).proc q = if q = p then x else s.proc q := update_apply ..

theorem Sys.refs_put (s : Sys) (inside : p < NPROC) : (s.put t p x).refs = s.restRefs p + x.uses := by
  rw [Sys.refs_split _ inside, Sys.put_proc, if_pos rfl]
  congr 1
  apply sum_congr rfl
  intro q mem
  rw [Sys.put_proc, if_neg (ne_of_mem_erase mem)]

theorem Sys.slots_put (s : Sys) (inside : p < NPROC) : (s.put t p x).slots = s.restSlots p + x.slots := by
  rw [Sys.slots_split _ inside, Sys.put_proc, if_pos rfl]
  congr 1
  apply sum_congr rfl
  intro q mem
  rw [Sys.put_proc, if_neg (ne_of_mem_erase mem)]

theorem slots_use_add (V : Nat → Nat) (f : Nat) :
    (fun g => ((V + Pi.single f 1 : Nat → Nat) g, 0) : Use Nat) = (fun g => (V g, 0)) + ref f false := by
  funext g
  by_cases here : g = f
  · subst here
    simp [ref_self]
  · simp [ref_of_ne here, here]

/-- One more slot. -/
theorem Fds.uses_gain (slots : y.slots = x.slots + Pi.single f 1) (locals : y.locals = x.locals) :
    y.uses = x.uses + ref f false := by
  rw [Fds.uses, Fds.uses, slots, locals, slots_use_add, add_right_comm]

theorem Fds.uses_local {e : Bool} (slots : y.slots = x.slots) (locals : y.locals = x.locals + ref f e) :
    y.uses = x.uses + ref f e := by
  rw [Fds.uses, Fds.uses, slots, locals, add_assoc]

theorem Fds.uses_same (slots : y.slots = x.slots) (locals : y.locals = x.locals) : y.uses = x.uses := by
  rw [Fds.uses, Fds.uses, slots, locals]

theorem Fds.slots_same (ofile : y.ofile = x.ofile) (vp : ∀ i < MAX_VPFILES, y.vp i = x.vp i) : y.slots = x.slots := by
  funext f
  rw [Fds.slots, Fds.slots, ofile, tally_congr vp]

theorem tally_gain {u : Nat → Option Nat} {n : Nat} (inside : i < n) (free : u i = none) :
    (fun g => tally (update u i (some f)) n (some g)) = (fun g => tally u n (some g)) + Pi.single f 1 := by
  funext g
  have count := tally_update (t := u) (a := some g) inside (some f)
  rw [free, if_neg (by simp)] at count
  rw [Pi.add_apply]
  by_cases here : g = f
  · subst here
    rw [if_pos rfl] at count
    rw [Pi.single_eq_same]
    exact count
  · rw [if_neg (by simpa using Ne.symm here)] at count
    rw [Pi.single_eq_of_ne here]
    exact count

/-- A descriptor is opened. -/
theorem Fds.slots_ofile (inside : fd < NOFILE) (free : x.ofile fd = none)
    (ofile : y.ofile = update x.ofile fd (some f)) (vp : ∀ i < MAX_VPFILES, y.vp i = x.vp i) :
    y.slots = x.slots + Pi.single f 1 := by
  have gain := tally_gain (f := f) inside free
  funext g
  have here := congrFun gain g
  simp only [Pi.add_apply] at here ⊢
  rw [Fds.slots, Fds.slots, ofile, tally_congr vp, here]
  omega

/-- A swap file is opened. -/
theorem Fds.slots_vp (inside : i < MAX_VPFILES) (free : x.vp i = none) (ofile : y.ofile = x.ofile)
    (vp : ∀ j < MAX_VPFILES, y.vp j = update x.vp i (some f) j) : y.slots = x.slots + Pi.single f 1 := by
  have gain := tally_gain (f := f) inside free
  funext g
  have here := congrFun gain g
  simp only [Pi.add_apply] at here ⊢
  rw [Fds.slots, Fds.slots, ofile, tally_congr vp, here]
  omega

end Put

/-! ## Sections as moves -/

def Sys.Moves (s : Sys) (es : List Effect) (s' : Sys) : Prop :=
  Move s.file s.refs s.slots es s'.file s'.refs s'.slots

section Moves

variable {s : Sys} {t : Table} {p f : Nat} {y : Fds} {c : Content}

theorem Sys.put_same (inside : p < NPROC) (slots : y.slots = (s.proc p).slots) (locals : y.locals = (s.proc p).locals) :
    (s.put t p y).refs = s.refs ∧ (s.put t p y).slots = s.slots := by
  rw [Sys.refs_put _ inside, Sys.slots_put _ inside, Fds.uses_same slots locals, slots, ← Sys.refs_split _ inside,
    ← Sys.slots_split _ inside]
  exact ⟨rfl, rfl⟩

theorem Sys.moves_same {s' : Sys} (file : s'.file = s.file) (refs : s'.refs = s.refs) (slots : s'.slots = s.slots) :
    s.Moves [] s' := by
  unfold Sys.Moves
  rw [file, refs, slots]
  exact .quiet

theorem Sys.moves_quiet (inside : p < NPROC) (slots : y.slots = (s.proc p).slots) (locals : y.locals = (s.proc p).locals) :
    s.Moves [] (s.put s.file p y) := by
  obtain ⟨sameRefs, sameSlots⟩ := Sys.put_same (t := s.file) inside slots locals
  exact Sys.moves_same rfl sameRefs sameSlots

theorem Sys.moves_bare (e : Bool) (inside : p < NPROC) (call : filealloc s.file = some (f, t))
    (slots : y.slots = (s.proc p).slots) (locals : y.locals = (s.proc p).locals + ref f e) :
    s.Moves [.alloc f] (s.put t p y) := by
  obtain ⟨zero, is⟩ := filealloc_some call
  unfold Sys.Moves
  rw [Sys.refs_put _ inside, Sys.slots_put _ inside, Fds.uses_local slots locals, slots, ← add_assoc,
    ← Sys.refs_split _ inside, ← Sys.slots_split _ inside]
  subst is
  exact .bare e zero

theorem Sys.moves_took (inside : p < NPROC) (call : filealloc s.file = some (f, t)) (is : c ≠ .none)
    (slots : y.slots = (s.proc p).slots + Pi.single f 1) (locals : y.locals = (s.proc p).locals) :
    s.Moves [.alloc f, .set f c] (s.put (update t f { t f with type := c }) p y) := by
  obtain ⟨zero, same⟩ := filealloc_some call
  unfold Sys.Moves
  rw [Sys.refs_put _ inside, Sys.slots_put _ inside, Fds.uses_gain slots locals, slots, ← add_assoc, ← add_assoc,
    ← Sys.refs_split _ inside, ← Sys.slots_split _ inside]
  subst same
  simp only [Sys.put, update_idem, update_self]
  exact .took zero is

theorem Sys.moves_shared (inside : p < NPROC) (slot : 0 < s.slots f) (call : filedup f s.file = .ok t)
    (slots : y.slots = (s.proc p).slots + Pi.single f 1) (locals : y.locals = (s.proc p).locals) :
    s.Moves [] (s.put t p y) := by
  unfold Sys.Moves
  rw [Sys.refs_put _ inside, Sys.slots_put _ inside, Fds.uses_gain slots locals, slots, ← add_assoc, ← add_assoc,
    ← Sys.refs_split _ inside, ← Sys.slots_split _ inside]
  exact .shared slot call

/-- A slot is closed. -/
theorem Sys.moves_closed (inside : p < NPROC) (call : fileclose f s.file = .ok (t, c))
    (slots : (s.proc p).slots = y.slots + Pi.single f 1) (locals : (s.proc p).locals = y.locals) :
    s.Moves (released f c) (s.put t p y) := by
  unfold Sys.Moves
  rw [Sys.refs_put _ inside, Sys.slots_put _ inside]
  refine .closed (x := false) ?_ ?_ call
  · rw [Sys.refs_split s inside, Fds.uses_gain slots locals, add_assoc]
  · rw [Sys.slots_split s inside, slots, ← add_assoc]
    intro g
    exact Nat.le_add_right ..

/-- A variable is closed. -/
theorem Sys.moves_dropped (inside : p < NPROC) (call : fileclose f s.file = .ok (t, c)) (slots : (s.proc p).slots = y.slots)
    (locals : (s.proc p).locals = y.locals + ref f false) : s.Moves (released f c) (s.put t p y) := by
  unfold Sys.Moves
  rw [Sys.refs_put _ inside, Sys.slots_put _ inside]
  refine .closed (x := false) ?_ ?_ call
  · rw [Sys.refs_split s inside, Fds.uses_local slots locals, add_assoc]
  · rw [Sys.slots_split s inside, slots]

section Pipe

variable {f0 f1 : Nat}

theorem locals_one (f : Nat) : (fun g => ([f].count g, 0) : Use Nat) = ref f false := by
  funext g
  by_cases here : g = f
  · subst here
    simp [ref_self]
  · simp [ref_of_ne here, Ne.symm here]

theorem locals_cons (f : Nat) (fs : List Nat) :
    (fun g => ((f :: fs).count g, 0) : Use Nat) = (fun g => (fs.count g, 0)) + ref f false := by
  funext g
  by_cases here : g = f
  · subst here
    simp [ref_self]
  · simp [ref_of_ne here, Ne.symm here]

section

variable (inside : p < NPROC) (locals : (s.proc p).locals = ref f0 true)
include inside locals

/-- The references while the first file of a pipe is in a variable. -/
theorem Sys.refs_pipe :
    s.refs = (s.restRefs p + fun f => ((s.proc p).slots f, 0)) + ref f0 true := by
  rw [Sys.refs_split s inside, Fds.uses, locals, add_assoc]

theorem Sys.moves_weakened
    (uses : y.uses = (fun f => ((s.proc p).slots f, 0)) + ref f0 false) (slots : y.slots = (s.proc p).slots) :
    s.Moves [] (s.put s.file p y) := by
  unfold Sys.Moves
  rw [Sys.refs_put _ inside, Sys.slots_put _ inside, uses, slots, ← add_assoc, ← Sys.slots_split _ inside]
  exact .weakened (Sys.refs_pipe inside locals)

theorem Sys.moves_second
    (call : filealloc s.file = some (f1, t))
    (uses : y.uses = (fun f => ((s.proc p).slots f, 0)) + ref f0 false + ref f1 false) (slots : y.slots = (s.proc p).slots) :
    s.Moves [.alloc f1] (s.put t p y) := by
  obtain ⟨zero, is⟩ := filealloc_some call
  unfold Sys.Moves
  rw [Sys.refs_put _ inside, Sys.slots_put _ inside, uses, slots, ← add_assoc, ← add_assoc, ← Sys.slots_split _ inside]
  subst is
  exact .second (Sys.refs_pipe inside locals) zero

end

theorem Sys.moves_piped {pg : Nat} (sound : Sound s.file s.refs s.slots) (inside : p < NPROC)
    (locals : (s.proc p).locals = ref f0 true) (call : filealloc s.file = some (f1, t))
    (uses : y.uses = (fun f => ((s.proc p).slots f, 0)) + ref f0 false + ref f1 false)
    (slots : y.slots ≤ (s.proc p).slots + Pi.single f0 1 + Pi.single f1 1) :
    s.Moves [.alloc f1, .set f0 (.pipe pg false), .set f1 (.pipe pg true)]
      (s.put (update (update t f0 { t f0 with type := .pipe pg false }) f1
        { update t f0 { t f0 with type := .pipe pg false } f1 with type := .pipe pg true }) p y) := by
  obtain ⟨zero, is⟩ := filealloc_some call
  have refs := Sys.refs_pipe inside locals
  have apart : f1 ≠ f0 := by
    intro same
    rw [refs] at sound
    have := sound.exact_.counted.count_ref
    rw [same] at zero
    omega
  have table : update (update t f0 { t f0 with type := .pipe pg false }) f1
        { update t f0 { t f0 with type := .pipe pg false } f1 with type := .pipe pg true } =
      update (update s.file f0 { s.file f0 with type := .pipe pg false }) f1
        { ref := 1, type := .pipe pg true } := by
    rw [is, update_of_ne apart, update_self, update_of_ne apart.symm,
      update_comm apart, update_idem]
  unfold Sys.Moves
  rw [table, Sys.refs_put _ inside, Sys.slots_put _ inside, uses, ← add_assoc, ← add_assoc]
  apply Move.piped refs zero
  rw [Sys.slots_split s inside, add_assoc, add_assoc, ← add_assoc (s.proc p).slots]
  intro g
  exact Nat.add_le_add_left (slots g) _

end Pipe

end Moves

/-! ## Calls -/

/-- What a section leaves is a move, and it does not panic in `filedup` or `fileclose`. -/
inductive Fine (s : Sys) : Outcome → Prop where
  | ok {s' : Sys} {es : List Effect} : s.Moves es s' → (∀ q, (s'.proc q).Wf) → Fine s (.ok (s', es))
  | panic {m : String} : m ≠ "filedup" → m ≠ "fileclose" → Fine s (.error (.panic m))

structure Sys.Ok (s : Sys) : Prop where
  sound : Sound s.file s.refs s.slots
  wf : ∀ q, (s.proc q).Wf

section Fine

variable {s : Sys} {t : Table} {p f : Nat} {y : Fds} {es : List Effect}

theorem Sys.Ok.stays (ok : s.Ok) : Fine s (.ok (s, [])) := .ok .quiet ok.wf

theorem Sys.Ok.put (ok : s.Ok) (moves : s.Moves es (s.put t p y)) (wf : y.Wf) : Fine s (.ok (s.put t p y, es)) := by
  refine .ok moves fun q => ?_
  rw [Sys.put_proc]
  split
  · exact wf
  · exact ok.wf q

theorem slots_le_total (x : Fds) (f : Nat) : x.slots f ≤ total x.uses f := by
  simp only [total, Fds.uses, Pi.add_apply, Prod.fst_add, Prod.snd_add]
  omega

theorem Sys.slots_le (s : Sys) (f : Nat) : s.slots f ≤ total s.refs f := by
  rw [Sys.refs, total_sum]
  exact sum_le_sum fun q _ => slots_le_total (s.proc q) f

theorem Sys.slots_pos (inside : p < NPROC) (slot : 0 < (s.proc p).slots f) : 0 < s.slots f := by
  rw [Sys.slots_split s inside, Pi.add_apply]
  omega

/-- What a slot of a process refers to is counted. -/
theorem Sys.Ok.counted (ok : s.Ok) (inside : p < NPROC) (used : 0 < total (s.proc p).uses f) : 1 ≤ (s.file f).ref := by
  have count := ok.sound.exact_.count f
  rw [Sys.refs_split s inside, total_add] at count
  omega

theorem Sys.Ok.close {k : Table × Content → Outcome} (ok : s.Ok) (inside : p < NPROC) (used : 0 < total (s.proc p).uses f)
    (rest : ∀ t c, fileclose f s.file = .ok (t, c) → Fine s (k (t, c))) : Fine s (fileclose f s.file >>= k) := by
  have counted := ok.counted inside used
  cases call : fileclose f s.file with
  | ok r => exact rest r.1 r.2 call
  | error e =>
    unfold fileclose at call
    rw [if_neg (by omega)] at call
    split at call <;> cases call

theorem Sys.Ok.dup {k : Table → Outcome} (ok : s.Ok) (slot : 0 < s.slots f)
    (rest : ∀ t, filedup f s.file = .ok t → Fine s (k t)) : Fine s (filedup f s.file >>= k) := by
  have counted : 0 < (s.file f).ref := by
    have inside := s.slots_le f
    have count : (s.file f).ref = total s.refs f := ok.sound.exact_.count f
    omega
  cases call : filedup f s.file with
  | ok t => exact rest t call
  | error e =>
    unfold filedup at call
    rw [if_neg (by omega)] at call
    cases call

theorem fdalloc_some {x : Fds} (call : fdalloc x = some fd) : fd < NOFILE ∧ x.ofile fd = none := by
  obtain ⟨inside, free, _⟩ := first_some call
  exact ⟨inside, by simpa using free⟩

theorem argfd_some (call : argfd s p fd = some f) : fd < NOFILE ∧ (s.proc p).ofile fd = some f := by
  unfold argfd at call
  split at call
  · rename_i inside
    exact ⟨inside, call⟩
  · cases call

theorem slots_of_ofile {x : Fds} (inside : fd < NOFILE) (here : x.ofile fd = some f) : 0 < x.slots f := by
  have := (tally_pos (t := x.ofile) (n := NOFILE) (a := some f)).2 ⟨fd, inside, here⟩
  rw [Fds.slots]
  omega

theorem slots_of_vp {x : Fds} (inside : i < MAX_VPFILES) (here : x.vp i = some f) : 0 < x.slots f := by
  have := (tally_pos (t := x.vp) (n := MAX_VPFILES) (a := some f)).2 ⟨i, inside, here⟩
  rw [Fds.slots]
  omega

end Fine

section Calls

variable {s : Sys} {p : Nat} {task : Task}

theorem sysOpen_fine (ok : s.Ok) (inside : p < NPROC) (idle : (s.proc p).task = .idle) (found : Option Nat) :
    Fine s (sysOpen s p found) := by
  unfold sysOpen
  split
  · rename_i ip f t call
    split
    · rename_i full
      refine ok.put (Sys.moves_bare false inside call ?_ ?_) trivial
      · exact Fds.slots_same rfl fun i _ => by simp [Fds.vp, Fds.held, idle]
      · simp [Fds.locals, idle, locals_one]
    · rename_i fd free
      obtain ⟨inFds, closed⟩ := fdalloc_some free
      refine ok.put (Sys.moves_took inside call (by simp) ?_ ?_) (?_)
      · exact Fds.slots_ofile inFds closed rfl fun _ _ => rfl
      · rfl
      · simp [Fds.Wf, Fds.setFd, idle]
  · exact ok.stays

theorem sysDup_fine (ok : s.Ok) (inside : p < NPROC) (idle : (s.proc p).task = .idle) (fd : Nat) :
    Fine s (sysDup s p fd) := by
  unfold sysDup
  split
  · rename_i f fd' here free
    obtain ⟨inFds, open_⟩ := argfd_some here
    obtain ⟨inFds', closed⟩ := fdalloc_some free
    have slot : 0 < s.slots f := Sys.slots_pos inside (slots_of_ofile inFds open_)
    refine ok.dup slot fun t call => ok.put (Sys.moves_shared inside slot call ?_ rfl) ?_
    · exact Fds.slots_ofile inFds' closed rfl fun _ _ => rfl
    · simp [Fds.Wf, Fds.setFd, idle]
  · exact ok.stays

/-- A descriptor is closed. -/
theorem slots_closed {x y : Fds} {f : Nat} (inside : fd < NOFILE) (open_ : x.ofile fd = some f)
    (ofile : y.ofile = update x.ofile fd none) (vp : ∀ i < MAX_VPFILES, x.vp i = y.vp i) :
    x.slots = y.slots + Pi.single f 1 := by
  refine Fds.slots_ofile inside (by rw [ofile, update_self]) ?_ vp
  rw [ofile, update_idem, ← open_, update_eq_self]

theorem sysClose_fine (ok : s.Ok) (inside : p < NPROC) (idle : (s.proc p).task = .idle) (fd : Nat) :
    Fine s (sysClose s p fd) := by
  unfold sysClose
  split
  · exact ok.stays
  · rename_i f here
    obtain ⟨inFds, open_⟩ := argfd_some here
    have slot := Nat.lt_of_lt_of_le (slots_of_ofile inFds open_) (slots_le_total _ _)
    refine ok.close inside slot fun t c call => ok.put (Sys.moves_closed inside call ?_ rfl) ?_
    · exact slots_closed inFds open_ rfl fun _ _ => rfl
    · simp [Fds.Wf, Fds.setFd, idle]

theorem sysPipe_fine (ok : s.Ok) (inside : p < NPROC) (idle : (s.proc p).task = .idle) (page : Option Nat) :
    Fine s (sysPipe s p page) := by
  unfold sysPipe
  split
  · exact ok.stays
  · rename_i f0 t call
    refine ok.put (Sys.moves_bare true inside call ?_ ?_) trivial
    · exact Fds.slots_same rfl fun i _ => by simp [Fds.vp, Fds.held, idle]
    · simp [Fds.locals, idle]

theorem pipeRest_fine {f0 : Nat} {page : Option Nat} (ok : s.Ok) (inside : p < NPROC)
    (task : (s.proc p).task = .pipe f0 page) : Fine s (pipeRest s p f0 page) := by
  have locals : (s.proc p).locals = ref f0 true := by simp [Fds.locals, task]
  -- the variables of the failed call
  have one : ∀ x : Fds, x.slots = (s.proc p).slots → x.task = .drop [f0] →
      x.uses = (fun f => ((s.proc p).slots f, 0)) + ref f0 false := by
    intro x slots drops
    rw [Fds.uses, slots, ← locals_one]
    simp [Fds.locals, drops]
  have two : ∀ (f1 : Nat) (x : Fds), x.slots = (s.proc p).slots → x.task = .drop [f0, f1] →
      x.uses = (fun f => ((s.proc p).slots f, 0)) + ref f0 false + ref f1 false := by
    intro f1 x slots drops
    rw [Fds.uses, slots, add_assoc, add_comm (ref f0 false), ← locals_one f1, ← locals_cons]
    simp [Fds.locals, drops]
  have same : ∀ x : Fds, x.ofile = (s.proc p).ofile → x.vpfile = (s.proc p).vpfile → x.held = (fun _ => true) →
      x.slots = (s.proc p).slots := by
    intro x ofile vpfile held
    refine Fds.slots_same ofile fun i _ => ?_
    rw [Fds.vp, Fds.vp, held, vpfile]
    simp [Fds.held, task]
  unfold pipeRest
  dsimp only
  split
  · have slots := same { s.proc p with task := .drop [f0] } rfl rfl rfl
    exact ok.put (Sys.moves_weakened inside locals (one _ slots rfl) slots) trivial
  · rename_i f1 t call
    have slots := same { s.proc p with task := .drop [f0, f1] } rfl rfl rfl
    have more : (s.proc p).slots ≤ (s.proc p).slots + Pi.single f0 1 + Pi.single f1 1 := by
      rw [add_assoc]
      intro g
      exact Nat.le_add_right ..
    split
    · exact ok.put (Sys.moves_second inside locals call (two f1 _ slots rfl) slots) trivial
    · split
      · exact ok.put (Sys.moves_piped ok.sound inside locals call (two f1 _ slots rfl) (slots ▸ more)) trivial
      · rename_i fd0 free
        obtain ⟨in0, closed0⟩ := fdalloc_some free
        dsimp only at closed0
        split
        · have undone : update (update (s.proc p).ofile fd0 (some f0)) fd0 none = (s.proc p).ofile := by
            rw [update_idem, ← closed0, update_eq_self]
          have slots := same { s.proc p with
            task := .drop [f0, f1]
            ofile := update (update (s.proc p).ofile fd0 (some f0)) fd0 none } undone rfl rfl
          exact ok.put (Sys.moves_piped ok.sound inside locals call (two f1 _ slots rfl) (slots ▸ more)) trivial
        · rename_i fd1 free1
          obtain ⟨in1, closed1⟩ := fdalloc_some free1
          have idle := same { s.proc p with task := .idle } rfl rfl rfl
          have first : (({ s.proc p with task := .idle } : Fds).setFd fd0 (some f0)).slots = (s.proc p).slots + Pi.single f0 1 := by
            rw [← idle]
            exact Fds.slots_ofile in0 closed0 rfl fun _ _ => rfl
          have second : ((({ s.proc p with task := .idle } : Fds).setFd fd0 (some f0)).setFd fd1 (some f1)).slots =
              (s.proc p).slots + Pi.single f0 1 + Pi.single f1 1 := by
            rw [← first]
            exact Fds.slots_ofile in1 closed1 rfl fun _ _ => rfl
          refine ok.put (Sys.moves_piped ok.sound inside locals call ?_ (le_of_eq second)) trivial
          rw [Fds.uses, second, slots_use_add, slots_use_add]
          exact add_zero _

/-- A process that creates swap file `i`: it holds the ones before. -/
theorem vpallocRound_fine {q : Nat} (ok : s.Ok) (inside : q < NPROC) (inVp : i < MAX_VPFILES) (created : Option Nat)
    (before : ∀ j, (s.proc q).held j = decide (j < i))
    (after : ∀ vpfile j, Fds.held { s.proc q with task := task, vpfile := vpfile } j = decide (j < i + 1))
    (locals : ∀ vpfile, Fds.locals { s.proc q with task := task, vpfile := vpfile } = (s.proc q).locals)
    (wf : ∀ vpfile, Fds.Wf { s.proc q with task := task, vpfile := vpfile }) : Fine s (vpallocRound s q i created task) := by
  unfold vpallocRound
  split
  · exact .panic (by decide) (by decide)
  · split
    · exact .panic (by decide) (by decide)
    · rename_i f t call
      refine ok.put (Sys.moves_took inside call (by simp) ?_ (locals _)) (wf _)
      refine Fds.slots_vp inVp ?_ rfl fun j _ => ?_
      · simp [Fds.vp, before]
      · rw [Fds.vp, after]
        by_cases here : j = i
        · subst here
          simp
        · have same : decide (j < i + 1) = decide (j < i) := by
            simp only [decide_eq_decide]
            omega
          simp only [update_of_ne here, Fds.vp, before, same]

/-- A process that closes swap file `i`: it holds the ones from there on. -/
theorem vpfreeRound_fine (ok : s.Ok) (inside : p < NPROC) (inVp : i < MAX_VPFILES)
    (before : ∀ j, (s.proc p).held j = decide (i ≤ j))
    (after : ∀ j, Fds.held { s.proc p with task := task } j = decide (i + 1 ≤ j))
    (locals : Fds.locals { s.proc p with task := task } = (s.proc p).locals) (wf : Fds.Wf { s.proc p with task := task }) :
    Fine s (vpfreeRound s p i task) := by
  have vp : ∀ j, Fds.vp { s.proc p with task := task } j = update (s.proc p).vp i none j := by
    intro j
    rw [Fds.vp, after]
    by_cases here : j = i
    · subst here
      simp
    · have same : decide (i + 1 ≤ j) = decide (i ≤ j) := by
        simp only [decide_eq_decide]
        omega
      simp only [update_of_ne here, Fds.vp, before, same]
  unfold vpfreeRound
  split
  · rename_i null
    refine ok.put (Sys.moves_quiet inside ?_ locals) wf
    refine Fds.slots_same rfl fun j _ => ?_
    rw [vp]
    by_cases here : j = i
    · subst here
      simp [Fds.vp, null]
    · rw [update_of_ne here]
  · rename_i f here
    have open_ : (s.proc p).vp i = some f := by simp [Fds.vp, before, here]
    have used := Nat.lt_of_lt_of_le (slots_of_vp inVp open_) (slots_le_total _ _)
    refine ok.close inside used fun t c call => ok.put (Sys.moves_closed inside call ?_ locals.symm) wf
    refine Fds.slots_vp inVp (by rw [vp, update_self]) rfl fun j _ => ?_
    by_cases is : j = i
    · rw [is, update_self, open_]
    · rw [update_of_ne is, vp, update_of_ne is]

theorem exitRound_fine {unlinked : Bool} (ok : s.Ok) (inside : p < NPROC) (inFds : fd < NOFILE)
    (task : (s.proc p).task = .exitFiles fd unlinked) : Fine s (exitRound s p fd unlinked) := by
  have held : ∀ ofile j, Fds.vp { s.proc p with task := .exitFiles (fd + 1) unlinked, ofile := ofile } j = (s.proc p).vp j := by
    intro ofile j
    simp [Fds.vp, Fds.held, task]
  have locals : ∀ ofile, Fds.locals { s.proc p with task := .exitFiles (fd + 1) unlinked, ofile := ofile } = (s.proc p).locals := by
    intro ofile
    simp [Fds.locals, task]
  have closed := ok.wf p
  unfold Fds.Wf at closed
  rw [task] at closed
  unfold exitRound
  dsimp only
  split
  · rename_i null
    refine ok.put (Sys.moves_quiet inside (Fds.slots_same rfl fun j _ => held _ j) (locals _)) fun j inJ below => ?_
    by_cases here : j = fd
    · rw [here]
      exact null
    · exact closed j inJ (by omega)
  · rename_i f open_
    have used := Nat.lt_of_lt_of_le (slots_of_ofile inFds open_) (slots_le_total _ _)
    refine ok.close inside used fun t c call => ok.put (Sys.moves_closed inside call ?_ (locals _).symm) fun j inJ below => ?_
    · exact slots_closed inFds open_ rfl fun j _ => (held _ j).symm
    · by_cases here : j = fd
      · rw [here]
        exact update_self ..
      · show update (s.proc p).ofile fd none j = none
        rw [update_of_ne here]
        exact closed j inJ (by omega)

theorem Fds.slots_retask {x : Fds} (held : ∀ j < MAX_VPFILES, Fds.held { x with task := task } j = x.held j) :
    Fds.slots { x with task := task } = x.slots :=
  Fds.slots_same rfl fun j inJ => by rw [Fds.vp, Fds.vp, held j inJ]

section

variable (ok : s.Ok) (inside : p < NPROC)
include ok inside

/-- A process goes on to another place of the same call. -/
theorem Sys.Ok.retask (held : ∀ j < MAX_VPFILES, Fds.held { s.proc p with task := task } j = (s.proc p).held j)
    (locals : Fds.locals { s.proc p with task := task } = (s.proc p).locals) (wf : Fds.Wf { s.proc p with task := task }) :
    Fine s (.ok (s.put s.file p { s.proc p with task := task }, [])) := by
  exact ok.put (Sys.moves_quiet inside (Fds.slots_retask held) locals) wf

/-- A parent and its child go on. -/
theorem Sys.Ok.retask_pair {q : Nat} {y y' : Fds} (child : q < NPROC) (apart : p ≠ q)
    (slots : y.slots = (s.proc p).slots) (locals : y.locals = (s.proc p).locals) (wf : y.Wf)
    (slots' : y'.slots = (s.proc q).slots) (locals' : y'.locals = (s.proc q).locals) (wf' : y'.Wf) :
    Fine s (.ok ((s.put s.file q y').put s.file p y, [])) := by
  have there : (s.put s.file q y').proc p = s.proc p := by
    rw [Sys.put_proc, if_neg apart]
  obtain ⟨refs1, slots1⟩ := Sys.put_same (t := s.file) child slots' locals'
  obtain ⟨refs2, slots2⟩ := Sys.put_same (s := s.put s.file q y') (t := s.file) inside (there ▸ slots) (there ▸ locals)
  refine .ok (Sys.moves_same rfl (refs2.trans refs1) (slots2.trans slots1)) fun r => ?_
  rw [Sys.put_proc]
  split
  · exact wf
  · rw [Sys.put_proc]
    split
    · exact wf'
    · exact ok.wf r

theorem forkRound_fine {np : Nat} {created : Nat → Option Nat}
    (task : (s.proc p).task = .fork np created) : Fine s (forkRound s p np created) := by
  have child : np < NPROC := by
    have wf := ok.wf p
    unfold Fds.Wf at wf
    rw [task] at wf
    exact wf
  have wf := ok.wf np
  unfold Fds.Wf at wf
  unfold forkRound
  split
  · rename_i fd copied
    rw [copied] at wf
    have vp : ∀ ofile j, Fds.vp { s.proc np with task := .copied (fd + 1), ofile := ofile } j = (s.proc np).vp j := by
      intro ofile j
      simp [Fds.vp, Fds.held, copied]
    have locals : ∀ ofile, Fds.locals { s.proc np with task := .copied (fd + 1), ofile := ofile } = (s.proc np).locals := by
      intro ofile
      simp [Fds.locals, copied]
    split
    · rename_i inFds
      split
      · refine ok.put (Sys.moves_quiet child (Fds.slots_same rfl fun j _ => vp _ j) (locals _)) fun j inJ from_ => ?_
        exact wf j inJ (by omega)
      · rename_i f open_
        have slot : 0 < s.slots f := Sys.slots_pos inside (slots_of_ofile inFds open_)
        refine ok.dup slot fun t call => ok.put (Sys.moves_shared child slot call ?_ (locals _)) fun j inJ from_ => ?_
        · exact Fds.slots_ofile inFds (wf fd inFds (le_refl fd)) rfl fun j _ => vp _ j
        · show update (s.proc np).ofile fd (some f) j = none
          rw [update_of_ne (by omega)]
          exact wf j inJ (by omega)
    · refine ok.retask child (fun j _ => ?_) ?_ trivial
      · simp [Fds.held, copied]
      · simp [Fds.locals, copied]
  · rename_i i paged
    split
    · rename_i inVp
      apply vpallocRound_fine ok child inVp
      · intro j
        simp [Fds.held, paged]
      · intro _ j
        rfl
      · intro _
        simp [Fds.locals, paged]
      · intro _
        trivial
    · rename_i done
      have apart : p ≠ np := by
        intro same
        rw [same, paged] at task
        cases task
      have there : (s.put s.file np { s.proc np with task := .idle }).proc p = s.proc p := by
        rw [Sys.put_proc, if_neg apart]
      dsimp only
      rw [there]
      apply ok.retask_pair inside child apart
      · exact Fds.slots_retask fun j _ => by simp [Fds.held, task]
      · simp [Fds.locals, task]
      · trivial
      · exact Fds.slots_retask fun j inJ => by simp [Fds.held, paged]; omega
      · simp [Fds.locals, paged]
      · trivial
  · exact ok.stays

theorem go_fine : Fine s (go s p) := by
  have wf := ok.wf p
  unfold Fds.Wf at wf
  unfold go
  dsimp only
  split
  · exact ok.stays
  · exact ok.stays
  · exact ok.stays
  · exact ok.stays
  · rename_i task
    apply ok.retask inside
    · intro j _
      simp [Fds.held, task]
    · simp only [Fds.locals, task, List.count_nil]
      rfl
    · trivial
  · rename_i f fs task
    have locals : (s.proc p).locals = Fds.locals { s.proc p with task := .drop fs } + ref f false := by
      simp only [Fds.locals, task]
      exact locals_cons f fs
    have used : 0 < total (s.proc p).uses f := by
      rw [Fds.uses, locals, total_add, total_add, total_ref_self]
      omega
    refine ok.close inside used fun t c call => ok.put (Sys.moves_dropped inside call ?_ locals) trivial
    exact (Fds.slots_retask fun j _ => by simp [Fds.held, task]).symm
  · rename_i f0 page task
    exact pipeRest_fine ok inside task
  · rename_i np created task
    exact forkRound_fine ok inside task
  · rename_i i created task
    split
    · rename_i inVp
      apply vpfreeRound_fine ok inside inVp
      · intro j
        simp [Fds.held, task]
      · intro j
        rfl
      · simp [Fds.locals, task]
      · trivial
    · rename_i done
      apply ok.retask inside
      · intro j inJ
        simp [Fds.held, task]
        omega
      · simp [Fds.locals, task]
      · trivial
  · rename_i i created task
    split
    · rename_i inVp
      apply vpallocRound_fine ok inside inVp
      · intro j
        simp [Fds.held, task]
      · intro _ j
        rfl
      · intro _
        simp [Fds.locals, task]
      · intro _
        trivial
    · rename_i done
      apply ok.retask inside
      · intro j inJ
        simp [Fds.held, task]
        omega
      · simp [Fds.locals, task]
      · trivial
  · rename_i fd unlinked task
    split
    · rename_i inFds
      exact exitRound_fine ok inside inFds task
    · rename_i done
      rw [task] at wf
      apply ok.retask inside
      · intro j _
        simp [Fds.held, task]
      · simp [Fds.locals, task]
      · intro j inJ
        exact wf j inJ (by omega)
  · rename_i i unlinked task
    rw [task] at wf
    split
    · rename_i inVp
      apply vpfreeRound_fine ok inside inVp
      · intro j
        simp [Fds.held, task]
      · intro j
        rfl
      · simp [Fds.locals, task]
      · exact wf
    · rename_i done
      split
      · exact .panic (by decide) (by decide)
      · apply ok.retask inside
        · intro j inJ
          simp [Fds.held, task]
          omega
        · simp [Fds.locals, task]
        · exact wf

theorem call_fine (idle : (s.proc p).task = .idle) (c : Call) : Fine s (call s p c) := by
  unfold call
  split
  · exact sysOpen_fine ok inside idle _
  · exact sysDup_fine ok inside idle _
  · exact sysPipe_fine ok inside idle _
  · exact sysClose_fine ok inside idle _
  · exact ok.stays
  · rename_i np created
    split
    · rename_i free
      split
      · rename_i child
        have apart : p ≠ np := by
          intro same
          rw [same, free] at idle
          cases idle
        have there : (s.put s.file np { s.proc np with task := .copied 0 }).proc p = s.proc p := by
          rw [Sys.put_proc, if_neg apart]
        have closed := ok.wf np
        unfold Fds.Wf at closed
        rw [free] at closed
        dsimp only
        rw [there]
        apply ok.retask_pair inside child apart
        · exact Fds.slots_retask fun j _ => by simp [Fds.held, idle]
        · simp [Fds.locals, idle]
        · exact child
        · exact Fds.slots_retask fun j _ => by simp [Fds.held, free]
        · simp [Fds.locals, free]
        · intro fd inFds _
          exact closed fd inFds
      · exact ok.stays
    · exact ok.stays
  · exact ok.stays
  · apply ok.retask inside
    · intro j _
      simp [Fds.held, idle]
    · simp [Fds.locals, idle]
    · trivial
  · split
    · exact .panic (by decide) (by decide)
    · apply ok.retask inside
      · intro j _
        simp [Fds.held, idle]
      · simp [Fds.locals, idle]
      · intro fd _ none_
        cases none_

end

/-- **Every section of every call** is a move, and none panics in `filedup` or `fileclose`. -/
theorem act_fine (ok : s.Ok) (a : Action) : Fine s (act s a) := by
  unfold act
  split
  · split
    · rename_i idle
      split
      · rename_i inside
        exact call_fine ok inside idle _
      · exact ok.stays
    · exact ok.stays
  · split
    · rename_i inside
      exact go_fine ok inside
    · exact ok.stays

end Calls

end Xv6.Ftable
