import Xv6.Fs.FileCalls

/-!
# Open files over whole runs

Between calls the `ref` of an open file is the number of descriptors and swap files that
point to it. While `exec` replaces the swap files of a process, and until `fork` has
created those of a child, pointers remain that hold no reference, and `filealloc` can
return the file that such a pointer leads to.
-/

namespace Xv6.Ftable
open Tables RefCount Runs

/-- The process has been made and has not exited. -/
def Fds.alive (x : Fds) : Bool :=
  match x.task with
  | .free => false
  | _ => true

/-- Between calls. -/
def Fds.resting (x : Fds) : Bool :=
  match x.task with
  | .free => true
  | .idle => true
  | _ => false

/-- How many descriptors and swap files of a process point to `f`. -/
def Fds.pointers (x : Fds) (f : Nat) : Nat :=
  if x.alive then tally x.ofile NOFILE (some f) + tally x.vpfile MAX_VPFILES (some f) else 0

def Sys.pointers (s : Sys) (f : Nat) : Nat := ∑ p ∈ Finset.range NPROC, (s.proc p).pointers f

section Runs

variable {s s' : Sys} {es : List Effect} {a : Action} {ls : List (Action × List Effect)}

theorem Sys.Ok.moves (ok : s.Ok) (step : act s a = .ok (s', es)) : s.Moves es s' ∧ s'.Ok := by
  have fine := act_fine ok a
  rw [step] at fine
  cases fine with
  | ok moves wf => exact ⟨moves, Move.sound moves ok.sound s'.slots_le, wf⟩

/-- A process between calls refers to what its slots point to. -/
theorem Fds.uses_resting {x : Fds} (wf : x.Wf) (resting : x.resting) (f : Nat) : total x.uses f = x.pointers f := by
  unfold Fds.resting at resting
  unfold Fds.Wf at wf
  split at resting
  · rename_i free
    rw [free] at wf
    have closed : tally x.ofile NOFILE (some f) = 0 := tally_eq_zero.2 fun fd inside => by simp [wf fd inside]
    have none_ : tally x.vp MAX_VPFILES (some f) = 0 := tally_eq_zero.2 fun i _ => by simp [Fds.vp, Fds.held, free]
    simp [total, Fds.uses, Fds.slots, Fds.locals, Fds.pointers, Fds.alive, free, closed, none_]
  · rename_i idle
    have all : x.vp = x.vpfile := by
      funext i
      simp [Fds.vp, Fds.held, idle]
    simp [total, Fds.uses, Fds.slots, Fds.locals, Fds.pointers, Fds.alive, idle, all]
  · cases resting

theorem boot_ok : boot.Ok := by
  have proc : ∀ p, (boot.proc p).ofile = (fun _ => none) ∧ (boot.proc p).vpfile = (fun _ => none) ∧
      (boot.proc p).locals = 0 := by
    intro p
    simp only [boot, Function.update_apply]
    split <;> exact ⟨rfl, rfl, rfl⟩
  have slots : ∀ p f, (boot.proc p).slots f = 0 := by
    intro p f
    obtain ⟨ofile, vpfile, _⟩ := proc p
    have closed : tally (boot.proc p).ofile NOFILE (some f) = 0 := tally_eq_zero.2 fun _ _ => by simp [ofile]
    have none_ : tally (boot.proc p).vp MAX_VPFILES (some f) = 0 := tally_eq_zero.2 fun _ _ => by simp [Fds.vp, vpfile]
    rw [Fds.slots, closed, none_]
  have uses : boot.refs = 0 := by
    apply Finset.sum_eq_zero
    intro p _
    funext f
    simp [Fds.uses, slots p f, (proc p).2.2]
  have noSlots : boot.slots = 0 := by
    funext f
    exact Finset.sum_eq_zero fun p _ => slots p f
  constructor
  · rw [uses, noSlots]
    refine ⟨⟨⟨?_, ?_⟩, ?_⟩, ?_, ?_, ?_⟩
    · intro f pos
      cases pos
    · intro f pos
      cases pos
    · intro f _
      rfl
    · intro f _
      rfl
    · intro f pos
      cases pos
    · intro f pos
      cases pos
  · intro p
    have closed := (proc p).1
    unfold Fds.Wf
    split
    · intro fd _
      rw [closed]
    · rename_i task
      simp only [boot, Function.update_apply] at task
      split at task <;> cases task
    · intro fd _ _
      rw [closed]
    · intro fd _ _
      rw [closed]
    · intro fd _
      rw [closed]
    · trivial

theorem Sys.Ok.run (run : Trace Step boot ls s) : s.Ok :=
  run.invariant (fun _ _ _ ok step => (ok.moves step).2) boot_ok

/-- The effects of a run. -/
def effects (ls : List (Action × List Effect)) : List Effect := ls.flatMap Prod.snd

/-- A file that has got a type has been released since, or is still in use. -/
theorem releases_sets (run : Trace Step boot ls s) (f : Nat) :
    (effects ls).countP (Effect.releases f) + (s.file f).inUse = (effects ls).countP (Effect.sets f) := by
  have both := run.history (I := fun ls s => s.Ok ∧
      (effects ls).countP (Effect.releases f) + (s.file f).inUse = (effects ls).countP (Effect.sets f))
    (fun ls l s s' inv step => by
      obtain ⟨ok, count⟩ := inv
      obtain ⟨moves, ok'⟩ := ok.moves step
      have one := Move.balance moves ok.sound f
      refine ⟨ok', ?_⟩
      simp only [effects, List.flatMap_append, List.flatMap_singleton, List.countP_append] at count ⊢
      omega)
    ⟨boot_ok, rfl⟩
  exact both.2

/-- What `filealloc` returns: no descriptor points to it, nor does a swap file that holds a reference. -/
theorem Sys.Ok.unpointed {f p : Nat} (unused : total s.refs f = 0) (inside : p < NPROC) :
    (∀ fd < NOFILE, (s.proc p).ofile fd ≠ some f) ∧
      ∀ i < MAX_VPFILES, (s.proc p).vpfile i = some f → (s.proc p).held i = false := by
  have none_ : ¬ 0 < (s.proc p).slots f := by
    intro slot
    have := Sys.slots_pos inside slot
    have := s.slots_le f
    omega
  constructor
  · intro fd inFds here
    exact none_ (slots_of_ofile inFds here)
  · intro i inVp here
    by_contra held
    apply none_
    apply slots_of_vp inVp
    rw [Fds.vp, if_pos (by simpa using held), here]

/-- **References to open files.** -/
theorem open_file_refs (run : Trace Step boot ls s) :
    ((∀ p < NPROC, (s.proc p).resting) → ∀ f, (s.file f).ref = s.pointers f) ∧
    (∀ f, (s.file f).ref = total s.refs f ∧ (0 < s.slots f → (s.file f).type ≠ .none)) ∧
    (∀ a s' es, act s a = .ok (s', es) →
      (∀ f, .alloc f ∈ es → ∀ p < NPROC, (∀ fd < NOFILE, (s.proc p).ofile fd ≠ some f) ∧
        ∀ i < MAX_VPFILES, (s.proc p).vpfile i = some f → (s.proc p).held i = false) ∧
      ∀ f c, .release f c ∈ es ↔ 0 < total s.refs f ∧ total s'.refs f = 0 ∧ c = (s.file f).type ∧ c ≠ .none) ∧
    (∀ f, (effects ls).countP (Effect.releases f) + (s.file f).inUse = (effects ls).countP (Effect.sets f)) ∧
    ∀ a, act s a ≠ .error (.panic "filedup") ∧ act s a ≠ .error (.panic "fileclose") := by
  have ok := Sys.Ok.run run
  have count : ∀ f, (s.file f).ref = total s.refs f := ok.sound.exact_.count
  refine ⟨?_, ?_, ?_, releases_sets run, ?_⟩
  · intro resting f
    rw [count, Sys.refs, total_sum]
    apply Finset.sum_congr rfl
    intro p mem
    exact Fds.uses_resting (ok.wf p) (resting p (Finset.mem_range.1 mem)) f
  · intro f
    exact ⟨count f, ok.sound.typed f⟩
  · intro a s' es step
    obtain ⟨moves, _⟩ := ok.moves step
    constructor
    · intro f mem p inside
      exact Sys.Ok.unpointed (Move.alloc moves ok.sound mem) inside
    · exact Move.release moves ok.sound
  · intro a
    have fine := act_fine ok a
    constructor
    · intro stop
      rw [stop] at fine
      cases fine with
      | panic other _ => exact other rfl
    · intro stop
      rw [stop] at fine
      cases fine with
      | panic _ other => exact other rfl

/-- The actions in order, up to the first panic. -/
def Sys.after (s : Sys) : List Action → Outcome
  | [] => .ok (s, [])
  | a :: as => do
    let (s, es) ← act s a
    let (s, es') ← s.after as
    .ok (s, es ++ es')

theorem Sys.after_trace {as : List Action} (run : s.after as = .ok (s', es)) : ∃ ls, Trace Step s ls s' := by
  induction as generalizing s s' es with
  | nil =>
    cases run
    exact ⟨[], .nil⟩
  | cons a as ih =>
    rw [Sys.after] at run
    obtain ⟨⟨s1, es1⟩, first, rest⟩ := Fallible.bind_ok.1 run
    obtain ⟨⟨s2, es2⟩, second, same⟩ := Fallible.bind_ok.1 rest
    cases same
    obtain ⟨ls, trace⟩ := ih second
    have one : Trace Step s [(a, es1)] s1 := Trace.nil.snoc (show Step (a, es1) s s1 from first)
    exact ⟨_, one.append trace⟩

/-- `exec` of init, to its end. -/
def execs : List Action := .call 0 (.exec true fun i => some (7 + i)) :: List.replicate 10 (.go 0)

/-- Init has its swap files, and each is counted once. -/
theorem open_file_refs_exec : ∃ ls s, Trace Step boot ls s ∧ (s.file 0).ref = 1 ∧ s.pointers 0 = 1 := by
  have run : boot.after execs = .ok (_, _) := rfl
  obtain ⟨ls, trace⟩ := Sys.after_trace run
  refine ⟨ls, _, trace, rfl, ?_⟩
  rw [← (open_file_refs trace).1 (fun p inside => ?_) 0]
  · rfl
  · cases p with
    | zero => rfl
    | succ p => rfl

/-- In its second `exec`, init gets from `filealloc` the file that its first swap file still points to. -/
theorem exec_reuses_pointed : ∃ ls s s', Trace Step boot ls s ∧ (s.proc 0).alive = true ∧ (s.proc 0).vpfile 0 = some 0 ∧
    act s (.go 0) = .ok (s', [.alloc 0, .set 0 (.inode 7)]) := by
  have run : boot.after (execs ++ execs.take 6) = .ok (_, _) := rfl
  obtain ⟨ls, trace⟩ := Sys.after_trace run
  exact ⟨ls, _, _, trace, rfl, rfl, rfl⟩

end Runs

end Xv6.Ftable
