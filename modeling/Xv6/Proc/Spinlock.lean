import Mathlib.Logic.Function.Basic

/-!
# Spinlocks (`spinlock.c`)

`acquire` and `release` on any number of CPUs, interleaved at each access to the two words of a
lock. `holding` is one step: of `cpu` it only asks whether this CPU stored it. The scheduler's
model takes a spinlock as a holder that changes at once; this is `Sys.owner`.
-/

namespace Xv6.Spin
open Function

/-- `struct spinlock`, without what is for debugging; `holder` is the CPU whose `xchg` took it last. -/
structure Spinlock where
  locked : Bool := false
  cpu : Option Nat := none
  holder : Nat := 0

/-- Where a CPU is: in `acquire` at its test, the `xchg`, `lk->cpu = mycpu()`; in `release` at `lk->cpu = 0`, the store
to `locked`, `popcli`. -/
inductive Pc where
  | out
  | test (l : Nat)
  | spin (l : Nat)
  | got (l : Nat)
  | clear (l : Nat)
  | store (l : Nat)
  | pop
  | panic (msg : String)

/-- The fields of `struct cpu`, and `FL_IF`. `held` are the locks acquired and not released since; `want` is the
interrupt flag as last set outside of `pushcli` and `popcli`. -/
structure Cpu where
  ncli : Int := 0
  intena : Bool := false
  flag : Bool := false
  pc : Pc := .out
  held : List Nat := []
  want : Bool := false

structure Sys where
  cpu : Nat → Cpu := fun _ => {}
  lock : Nat → Spinlock := fun _ => {}

@[grind] def Cpu.pushcli (k : Cpu) : Cpu :=
  { k with flag := false, intena := if k.ncli = 0 then k.flag else k.intena, ncli := k.ncli + 1 }

@[grind] def Cpu.popcli (k : Cpu) : Cpu :=
  if k.flag then { k with pc := .panic "popcli - interruptible" }
  else if k.ncli - 1 < 0 then { k with ncli := k.ncli - 1, pc := .panic "popcli" }
  else { k with ncli := k.ncli - 1, flag := decide (k.ncli - 1 = 0) && k.intena, pc := .out }

/-- What the code outside does. Traps and the scheduler set the interrupt flag, with no lock held; `sched`, with
`ptable.lock` held, stores the `intena` of the process that it comes back to. -/
inductive Call where
  | acquire (l : Nat)
  | release (l : Nat)
  | interrupts (enable : Bool)
  | sched (intena : Bool)

namespace Sys

variable (s : Sys) (c : Nat)

@[grind] def holding (l : Nat) : Bool := (s.lock l).locked && (s.lock l).cpu == some c

def put (k : Cpu) (lock : Nat → Spinlock) : Sys := { cpu := update s.cpu c k, lock }

/-- The next step of CPU `c`; outside it makes `call`. -/
def next (call : Call) : Sys :=
  let k := s.cpu c
  match k.pc with
  | .out =>
    match call with
    | .acquire l => s.put c { k.pushcli with pc := .test l } s.lock
    | .release l =>
      -- `holding` calls `mycpu` if the lock is taken
      s.put c (if (s.lock l).locked && k.flag then { k with pc := .panic "mycpu called with interrupts enabled\n" }
        else if s.holding c l then { k with pc := .clear l, held := k.held.erase l }
        else { k with pc := .panic "release" }) s.lock
    | .interrupts enable => s.put c (if k.ncli = 0 then { k with flag := enable, want := enable } else k) s.lock
    | .sched intena => s.put c (if k.ncli = 0 then k else { k with intena, want := intena }) s.lock
  | .test l => s.put c { k with pc := if s.holding c l then .panic "acquire" else .spin l } s.lock
  | .spin l =>
    if (s.lock l).locked then s
    else s.put c { k with pc := .got l } (update s.lock l { s.lock l with locked := true, holder := c })
  | .got l => s.put c { k with pc := .out, held := l :: k.held } (update s.lock l { s.lock l with cpu := some c })
  | .clear l => s.put c { k with pc := .store l } (update s.lock l { s.lock l with cpu := none })
  | .store l => s.put c { k with pc := .pop } (update s.lock l { s.lock l with locked := false })
  | .pop => s.put c k.popcli s.lock
  | .panic _ => s

end Sys

/-- The abstract locks: who holds each. -/
def Sys.owner (s : Sys) (l : Nat) : Option Nat := if (s.lock l).locked then some (s.lock l).holder else none

/-- The state after steps of the given CPUs. -/
def run (ops : List (Nat × Call)) : Sys := ops.foldl (fun s op => s.next op.1 op.2) {}

/-- The CPU has the lock: from its `xchg` to its last store. -/
@[grind] def Cpu.Owns (k : Cpu) (l : Nat) : Prop := l ∈ k.held ∨ k.pc = .got l ∨ k.pc = .clear l ∨ k.pc = .store l

/-- The lock has the number of the CPU. -/
@[grind] def Cpu.Signs (k : Cpu) (l : Nat) : Prop := l ∈ k.held ∨ k.pc = .clear l

/-- What is true of a CPU by itself. -/
structure Cpu.Fine (k : Cpu) : Prop where
  nodup : k.held.Nodup
  other : ∀ l, k.pc = .spin l ∨ k.pc = .got l ∨ k.pc = .clear l ∨ k.pc = .store l → l ∉ k.held
  off : 0 < k.ncli → k.flag = false ∧ k.intena = k.want
  restored : k.ncli = 0 → k.flag = k.want
  count : k.held.length ≤ k.ncli
  outside : k.pc = .out → k.ncli = k.held.length
  inside : k.pc = .out ∨ k.ncli = k.held.length + 1 ∨ ∃ m, k.pc = .panic m

structure Inv (s : Sys) : Prop where
  fine : ∀ c, (s.cpu c).Fine
  owner : ∀ c l, (s.lock l).locked ∧ (s.lock l).holder = c ↔ (s.cpu c).Owns l
  signed : ∀ c l, (s.lock l).cpu = some c ↔ (s.cpu c).Signs l

variable {s : Sys} {c l : Nat}

/-- A step of CPU `c` concerns the others as far as they own locks. -/
theorem Inv.put {k : Cpu} {lock : Nat → Spinlock} (inv : Inv s) (fine : k.Fine)
    (owner : ∀ d l, (lock l).locked ∧ (lock l).holder = d ↔ if d = c then k.Owns l else (s.cpu d).Owns l)
    (signed : ∀ d l, (lock l).cpu = some d ↔ if d = c then k.Signs l else (s.cpu d).Signs l) : Inv (s.put c k lock) := by
  have cpu : ∀ d, (s.put c k lock).cpu d = if d = c then k else s.cpu d := fun d => update_apply ..
  have fines := inv.fine
  refine ⟨by grind, fun d l => ?_, fun d l => ?_⟩
  · rw [cpu, apply_ite (Cpu.Owns · l)]
    exact owner d l
  · rw [cpu, apply_ite (Cpu.Signs · l)]
    exact signed d l

/-- `holding` is right for a CPU that is not about to clear `cpu`. -/
theorem Inv.holding_iff (inv : Inv s) (other : (s.cpu c).pc ≠ .clear l) : s.holding c l = true ↔ l ∈ (s.cpu c).held := by
  have signed := inv.signed c l
  have owner := inv.owner c l
  grind

theorem Inv.next (inv : Inv s) (call : Call) : Inv (s.next c call) := by
  obtain ⟨nodup, other, off, restored, count, outside, inside⟩ := inv.fine c
  have holding := fun l => inv.holding_iff (c := c) (l := l)
  obtain ⟨_, owner, signed⟩ := id inv
  -- no lock but the one at hand changes, and that one only for CPU `c`
  cases at_ : (s.cpu c).pc with
  | out =>
    cases call <;> simp only [Sys.next, at_] <;>
      exact inv.put (by constructor <;> grind) (by grind) (by grind)
  | spin l =>
    simp only [Sys.next, at_]
    split
    · exact inv
    · exact inv.put (by constructor <;> grind) (by grind [update_apply]) (by grind [update_apply])
  | test l | got l | clear l | store l | pop =>
    simp only [Sys.next, at_]
    exact inv.put (by constructor <;> grind) (by grind [update_apply]) (by grind [update_apply])
  | panic m => simpa only [Sys.next, at_] using inv

theorem run_inv (ops : List (Nat × Call)) : Inv (run ops) := by
  have start : Inv {} := ⟨fun c => by constructor <;> simp, by simp [Cpu.Owns], by simp [Cpu.Signs]⟩
  exact List.foldlRecOn ops _ start fun s inv op _ => inv.next op.2

/-- **Spinlocks exclude.** In every run a lock has one owner, with interrupts off, from the `xchg` to the last store.
`holding` is right wherever it is called. Outside, `ncli` counts the locks held, and with none the interrupt flag is as it
was set. Each step keeps a lock, takes it if free, or frees its own. Only the acquire of a lock that the CPU holds and the
release of one that it does not hold panic. -/
theorem spinlock_excludes (ops : List (Nat × Call)) (c l : Nat) :
    let s := run ops
    let k := s.cpu c
    (k.Owns l → k.flag = false ∧ ∀ d, (s.cpu d).Owns l → d = c) ∧
    (k.pc = .out ∨ k.pc = .test l → (s.holding c l = true ↔ l ∈ k.held)) ∧
    (k.pc = .out → k.ncli = k.held.length ∧ (k.held = [] → k.flag = k.want)) ∧
    (∀ call, (s.next c call).owner l = s.owner l ∨ s.owner l = none ∧ (s.next c call).owner l = some c ∨
      s.owner l = some c ∧ (s.next c call).owner l = none) ∧
    ∀ call m, ((s.next c call).cpu c).pc = .panic m → k.pc = .panic m ∨ (∃ l ∈ k.held, k.pc = .test l) ∨
      ∃ l ∉ k.held, call = .release l := by
  intro s k
  have inv : Inv s := run_inv ops
  obtain ⟨nodup, other, off, restored, count, outside, inside⟩ := inv.fine c
  have holding := fun l => inv.holding_iff (c := c) (l := l)
  have owner := inv.owner
  refine ⟨fun owns => ⟨?_, ?_⟩, ?_, ?_, ?_, ?_⟩
  · grind [List.length_pos_of_mem]
  · grind
  · grind
  · grind
  · intro call
    cases at_ : (s.cpu c).pc <;> simp only [Sys.next, at_] <;> (try split) <;>
      simp only [Sys.put, Sys.owner, update_apply] <;> grind
  · intro call m stopped
    have self : ∀ k lock, (s.put c k lock).cpu c = k := fun k lock => update_self ..
    cases at_ : (s.cpu c).pc <;> simp only [Sys.next, at_] at stopped <;> grind

-- CPU 1 spins
example : (run (List.replicate 4 (0, .acquire 3) ++ List.replicate 9 (1, .acquire 3))).owner 3 = some 0 := rfl

end Xv6.Spin
