import Mathlib.Data.List.DropRight
import Xv6.Lib.Ring
import Xv6.Lib.Runs
import Xv6.Param

/-!
# The console's line discipline

`consoleintr` puts what is typed into a ring of bytes and lets the line under edit be
changed; `consoleread` takes what is committed. Both work with `cons.lock` held, and a
reader gives it up only to sleep, so a run is a sequence of calls of `consoleintr` and of
sections of readers.

Over the bytes and the three indices stands what they are for: a queue of committed bytes
and a line under edit (`Line`).
-/

namespace Xv6
open List
open Function
open Runs

variable {xs : List UInt8}

def INPUT_BUF : Nat := 128

/-- `input`: the indices are of type `uint`. -/
structure Console where
  buf : Nat → UInt8
  r : Nat
  w : Nat
  e : Nat

/-- How a section of `consoleread` ends: asleep with `n` bytes to go, or back from the call. -/
inductive ReadEnd where
  | sleep (n : Nat)
  | ret (r : Int)
  deriving DecidableEq

namespace Console

/-- Kill line. It goes back one index at a time, so `e - w` rounds are enough. -/
def killLine : Nat → Console → Console
  | 0, s => s
  | rounds + 1, s =>
    if s.e ≠ s.w ∧ s.buf (sub32 s.e 1 % INPUT_BUF) ≠ 10 then killLine rounds { s with e := sub32 s.e 1 } else s

/-- One round of `consoleintr`; whether it calls `wakeup`, and the console after it. The
characters are `C('P')`, `C('U')`, `C('H')` and delete; `'\r'` is 13 and `C('D')` is 4. -/
def key (s : Console) (c : UInt8) : Bool × Console :=
  if c = 16 then (false, s)
  else if c = 21 then (false, killLine (sub32 s.e s.w) s)
  else if c = 8 ∨ c = 127 then (false, if s.e ≠ s.w then { s with e := sub32 s.e 1 } else s)
  else if c ≠ 0 ∧ sub32 s.e s.r < INPUT_BUF then
    let c := if c = 13 then 10 else c
    let s := { s with buf := Function.update s.buf (s.e % INPUT_BUF) c, e := add32 s.e 1 }
    if c = 10 ∨ c = 4 ∨ s.e = add32 s.r INPUT_BUF then (true, { s with w := s.e }) else (false, s)
  else (false, s)

/-- `consoleintr`, over what `getc` returns. -/
def consoleintr : List UInt8 → Console → Bool × Console
  | [], s => (false, s)
  | c :: cs, s =>
    let (woke, s) := s.key c
    let (woke', s) := consoleintr cs s
    (woke || woke', s)

/-- The bytes from the index `a` to the index `b`. -/
def between (s : Console) (a b : Nat) : List UInt8 :=
  (List.range (sub32 b a)).map fun j => s.buf ((a + j) % INPUT_BUF)

/-- The committed bytes that no reader has taken. -/
def ready (s : Console) : List UInt8 := s.between s.r s.w

/-- What a call of `consoleintr` commits: the bytes between the old and the new `w`, each time. -/
def committed : List UInt8 → Console → List UInt8
  | [], _ => []
  | c :: cs, s => (s.key c).2.between s.w (s.key c).2.w ++ committed cs (s.key c).2

/-- The loop of `consoleread` with `n` bytes to go: the bytes stored at `dst` before it sleeps or returns. -/
def readLoop (killed : Bool) (target : Nat) : Nat → Console → List UInt8 × Console × ReadEnd
  | 0, s => ([], s, .ret target)
  | n + 1, s =>
    if s.r = s.w then ([], s, if killed then .ret (-1) else .sleep (n + 1))
    else
      let c := s.buf (s.r % INPUT_BUF)
      let s := { s with r := add32 s.r 1 }
      if c = 4 then
        ([], if n + 1 < target then { s with r := sub32 s.r 1 } else s, .ret (target - (n + 1) : Nat))
      else if c = 10 then ([c], s, .ret (target - n : Nat))
      else
        let (cs, s, last) := readLoop killed target n s
        (c :: cs, s, last)

-- stated for every `e`: where `e` is `sub32 s.e 1` the unifier would compare it with `s.e`
theorem setE_r (s : Console) (e : Nat) : ({ s with e := e } : Console).r = s.r := rfl

theorem killLine_r (rounds : Nat) : ∀ s : Console, (killLine rounds s).r = s.r := by
  induction rounds with
  | zero => exact fun s => rfl
  | succ rounds ih =>
    intro s
    rw [killLine]
    split
    · exact (ih _).trans (s.setE_r _)
    · rfl

/-- Only readers move `r`. -/
theorem key_r (s : Console) (c : UInt8) : (s.key c).2.r = s.r := by
  unfold key
  dsimp only
  split_ifs <;> first | exact killLine_r _ s | exact s.setE_r _ | rfl

end Console

/-! ## Committed bytes and the line under edit -/

structure Line where
  ready : List UInt8
  edit : List UInt8
  deriving DecidableEq

namespace Line

/-- What a character does. -/
def key (l : Line) (c : UInt8) : Line :=
  if c = 16 then l
  else if c = 21 then { l with edit := l.edit.rdropWhile (· ≠ 10) }
  else if c = 8 ∨ c = 127 then { l with edit := l.edit.dropLast }
  else if c ≠ 0 ∧ (l.ready ++ l.edit).length < INPUT_BUF then
    let c := if c = 13 then 10 else c
    let edit := l.edit ++ [c]
    if c = 10 ∨ c = 4 ∨ (l.ready ++ edit).length = INPUT_BUF then ⟨l.ready ++ edit, []⟩ else { l with edit := edit }
  else l

/-- What a section of a reader takes from the committed bytes, and what it leaves. -/
def read (killed : Bool) (target : Nat) : Nat → List UInt8 → List UInt8 × List UInt8 × ReadEnd
  | 0, xs => ([], xs, .ret target)
  | n + 1, [] => ([], [], if killed then .ret (-1) else .sleep (n + 1))
  | n + 1, c :: xs =>
    if c = 4 then ([], if n + 1 < target then c :: xs else xs, .ret (target - (n + 1) : Nat))
    else if c = 10 then ([c], xs, .ret (target - n : Nat))
    else
      let (cs, xs, last) := read killed target n xs
      (c :: cs, xs, last)

/-- A character leaves the committed bytes, and may commit the line. -/
theorem key_ready (l : Line) (c : UInt8) : l.ready <+: (l.key c).ready := by
  unfold key
  dsimp only
  split_ifs <;> first | exact prefix_refl _ | exact prefix_append _ _

/-- **What a section takes**: committed bytes that are no end-of-file mark, or one mark, and
then the call returns 0. No other call for a positive number of bytes returns 0. -/
theorem read_spec {killed : Bool} {target : Nat} : ∀ {n : Nat} {xs cs rest : List UInt8} {last : ReadEnd},
    n ≤ target → read killed target n xs = (cs, rest, last) →
      4 ∉ cs ∧
        (xs = cs ++ rest ∧ ((∃ m, last = .sleep m ∧ m + cs.length = n ∧ 0 < m) ∨ last = .ret (-1) ∨
            last = .ret (target - n + cs.length : Nat) ∧ (target - n + cs.length = 0 → target = 0)) ∨
          n = target ∧ 0 < target ∧ cs = [] ∧ xs = 4 :: rest ∧ last = .ret 0) := by
  intro n
  induction n with
  | zero =>
    intro xs cs rest last _ call
    cases call
    exact ⟨not_mem_nil, .inl ⟨rfl, .inr (.inr ⟨rfl, id⟩)⟩⟩
  | succ n ih =>
    intro xs cs rest last le call
    cases xs with
    | nil =>
      cases call
      refine ⟨not_mem_nil, .inl ⟨rfl, ?_⟩⟩
      cases killed with
      | true => exact .inr (.inl rfl)
      | false => exact .inl ⟨n + 1, rfl, rfl, Nat.succ_pos n⟩
    | cons c xs =>
      rw [read] at call
      split at call
      · rename_i mark
        cases call
        refine ⟨not_mem_nil, ?_⟩
        split
        · exact .inl ⟨rfl, .inr (.inr ⟨rfl, fun zero => by rw [length_nil] at zero; omega⟩)⟩
        · have first : n + 1 = target := by omega
          exact .inr ⟨first, by omega, rfl, by rw [mark], by rw [first, Nat.sub_self]; rfl⟩
      · rename_i text
        split at call
        · cases call
          have count : target - n = target - (n + 1) + 1 := by omega
          refine ⟨fun inside => text (mem_singleton.1 inside).symm, .inl ⟨rfl, .inr (.inr ⟨?_, ?_⟩)⟩⟩
          · rw [count]
            rfl
          · exact fun zero => by rw [length_singleton] at zero; omega
        · cases inner : read killed target n xs with
          | mk cs' more =>
            obtain ⟨rest', last'⟩ := more
            rw [inner] at call
            cases call
            obtain ⟨clean, ⟨parts, ends⟩ | ⟨first, _⟩⟩ := ih (by omega) inner
            · refine ⟨fun inside => (mem_cons.1 inside).elim (fun same => text same.symm) clean, .inl ⟨?_, ?_⟩⟩
              · rw [parts, cons_append]
              · have count : target - n + cs'.length = target - (n + 1) + (c :: cs').length := by
                  rw [length_cons]
                  omega
                rw [← count]
                refine ends.imp_left fun ⟨m, asleep, left, positive⟩ => ⟨m, asleep, ?_, positive⟩
                rw [length_cons]
                omega
            · omega

end Line

/-! ## The ring holds the line -/

/-- The ring between `r` and `e` holds the committed bytes and then the line. -/
structure Console.Holds (s : Console) (l : Line) : Prop where
  ring : Ring.Holds (2 ^ 32) INPUT_BUF ⟨s.buf, s.r, s.e⟩ (l.ready ++ l.edit)
  commit : s.w = add32 s.r l.ready.length

namespace Console.Holds

variable {s : Console} {l : Line} {ready edit : List UInt8}

theorem dvd : INPUT_BUF ∣ 2 ^ 32 := by decide

theorem lt : INPUT_BUF < 2 ^ 32 := by decide

theorem front (holds : s.Holds l) : Ring.Holds (2 ^ 32) INPUT_BUF ⟨s.buf, s.r, s.w⟩ l.ready := by
  rw [holds.commit]
  exact Ring.Holds.front holds.ring

theorem back (holds : s.Holds l) : Ring.Holds (2 ^ 32) INPUT_BUF ⟨s.buf, s.w, s.e⟩ l.edit := by
  rw [holds.commit]
  exact Ring.Holds.back holds.ring dvd

/-- The bytes between two indices, read off a ring that holds them. -/
theorem between_eq {a b : Nat} (held : Ring.Holds (2 ^ 32) INPUT_BUF ⟨s.buf, a, b⟩ xs) :
    sub32 b a = xs.length ∧ s.between a b = xs := by
  have used : sub32 b a = Ring.Buf.used (2 ^ 32) (⟨s.buf, a, b⟩ : Ring.Buf UInt8) := by
    rw [sub32, Nat.mod_eq_of_lt (show a < 2 ^ 32 from Ring.Holds.counter held)]
    rfl
  constructor
  · exact used.trans (Ring.Holds.used_eq held lt)
  · rw [between, used]
    exact Ring.Holds.items_eq held lt

theorem start (same : s.r = s.w) (edit : s.w = s.e) (word : s.r < 2 ^ 32) : s.Holds ⟨[], []⟩ where
  ring := Ring.Holds.empty word (same.trans edit)
  commit := by
    show s.w = (s.r + 0) % 2 ^ 32
    rw [Nat.add_zero, Nat.mod_eq_of_lt word, same]

theorem edit_iff (holds : s.Holds l) : s.e = s.w ↔ l.edit = [] :=
  eq_comm.trans (Ring.Holds.empty_iff holds.back lt)

theorem ready_iff (holds : s.Holds l) : s.r = s.w ↔ l.ready = [] := Ring.Holds.empty_iff holds.front lt

/-- One byte back in the line. -/
theorem backspace {x : UInt8} (holds : s.Holds ⟨ready, xs ++ [x]⟩) :
    s.buf (sub32 s.e 1 % INPUT_BUF) = x ∧ Console.Holds { s with e := sub32 s.e 1 } ⟨ready, xs⟩ := by
  have ring := holds.ring
  rw [← append_assoc] at ring
  obtain ⟨last, shorter⟩ := Ring.Holds.unput ring dvd
  exact ⟨last, shorter, holds.commit⟩

theorem killLine : ∀ (rounds : Nat) {s : Console} {edit : List UInt8}, s.Holds ⟨ready, edit⟩ →
    edit.length ≤ rounds →
      (Console.killLine rounds s).Holds ⟨ready, edit.rdropWhile (· ≠ 10)⟩ := by
  intro rounds
  induction rounds with
  | zero =>
    intro s edit holds short
    rw [length_eq_zero_iff.1 (Nat.le_zero.1 short)] at holds ⊢
    exact holds
  | succ rounds ih =>
    intro s edit holds short
    rw [Console.killLine]
    rcases eq_nil_or_concat' edit with rfl | ⟨xs, x, rfl⟩
    · rw [if_neg fun both => both.1 (holds.edit_iff.2 rfl)]
      exact holds
    · obtain ⟨byte, shorter⟩ := holds.backspace
      rw [byte, rdropWhile_concat]
      by_cases newline : x = 10
      · simp only [newline, ne_eq, not_true_eq_false, and_false, if_false, decide_false, Bool.false_eq_true]
        exact newline ▸ holds
      · have more : s.e ≠ s.w := fun same => by simpa using holds.edit_iff.1 same
        rw [if_pos ⟨more, newline⟩, if_pos (by simpa using newline)]
        exact ih shorter (by simp at short; omega)

/-- Typing a byte. -/
theorem type (holds : s.Holds l) (room : (l.ready ++ l.edit).length < INPUT_BUF) (c : UInt8) :
    Console.Holds { s with buf := update s.buf (s.e % INPUT_BUF) c, e := add32 s.e 1 } ⟨l.ready, l.edit ++ [c]⟩ where
  ring := by
    have ring := Ring.Holds.push (x := c) holds.ring dvd room
    rw [append_assoc] at ring
    exact ring
  commit := holds.commit

theorem full_iff (holds : s.Holds l) : s.e = add32 s.r INPUT_BUF ↔ (l.ready ++ l.edit).length = INPUT_BUF :=
  Ring.Holds.full_iff holds.ring lt

/-- The line becomes readable. -/
theorem commitLine (holds : s.Holds l) : Console.Holds { s with w := s.e } ⟨l.ready ++ l.edit, []⟩ where
  ring := by
    rw [append_nil]
    exact holds.ring
  commit := Ring.Holds.put holds.ring

/-- **A character** does to the ring what it does to the line. -/
theorem key (holds : s.Holds l) (c : UInt8) : (s.key c).2.Holds (l.key c) := by
  obtain ⟨ready, edit⟩ := l
  have used : sub32 s.e s.r = (ready ++ edit).length := (between_eq (s := s) holds.ring).1
  unfold Console.key Line.key
  split
  · exact holds
  split
  · exact killLine _ holds (Nat.le_of_eq (between_eq (s := s) holds.back).1.symm)
  split
  · rcases eq_nil_or_concat' edit with rfl | ⟨xs, x, rfl⟩
    · rw [if_neg fun more => more (holds.edit_iff.2 rfl)]
      exact holds
    · have more : s.e ≠ s.w := fun same => by simpa using holds.edit_iff.1 same
      rw [if_pos more, dropLast_concat]
      exact holds.backspace.2
  rw [used]
  split
  · rename_i room
    dsimp only
    generalize (if c = 13 then (10 : UInt8) else c) = c
    have typed := holds.type room.2 c
    simp only [typed.full_iff]
    split
    · exact typed.commitLine
    · exact typed
  · exact holds

/-- The bytes between the old and the new `w` are those the line was committed with. -/
theorem grown {s' : Console} {l' : Line} {line : List UInt8} (holds : s.Holds l) (after : s'.Holds l') (same : s'.r = s.r)
    (grown : l'.ready = l.ready ++ line) : s'.between s.w s'.w = line := by
  have front := after.front
  rw [grown, same] at front
  have back := Ring.Holds.back front dvd
  rw [show (s.r + l.ready.length) % 2 ^ 32 = s.w from holds.commit.symm] at back
  exact (between_eq back).2

/-- **`consoleintr`** leaves `r` and the committed bytes, and appends what it commits. -/
theorem consoleintr (cs : List UInt8) : ∀ {s : Console} {l : Line}, s.Holds l →
    (Console.consoleintr cs s).2.Holds (cs.foldl Line.key l) ∧ (Console.consoleintr cs s).2.r = s.r ∧
      (cs.foldl Line.key l).ready = l.ready ++ Console.committed cs s := by
  induction cs with
  | nil => exact fun holds => ⟨holds, rfl, (append_nil _).symm⟩
  | cons c cs ih =>
    intro s l holds
    obtain ⟨line, grow⟩ := l.key_ready c
    have after := holds.key c
    have same := s.key_r c
    obtain ⟨holds', same', ready⟩ := ih after
    refine ⟨holds', same'.trans same, ?_⟩
    rw [foldl_cons, ready, Console.committed, holds.grown after same grow.symm, ← grow, append_assoc]

/-- The first committed byte. -/
theorem take {c : UInt8} (holds : s.Holds ⟨c :: ready, edit⟩) :
    s.buf (s.r % INPUT_BUF) = c ∧ Console.Holds { s with r := add32 s.r 1 } ⟨ready, edit⟩ := by
  obtain ⟨byte, popped⟩ := Ring.Holds.pop holds.ring dvd
  refine ⟨byte, popped, ?_⟩
  show s.w = add32 (add32 s.r 1) ready.length
  rw [holds.commit, add32, add32, add32, Nat.mod_add_mod, length_cons, Nat.add_assoc, Nat.add_comm 1]

/-- **A section of a reader** takes from the ring what it takes from the committed bytes. -/
theorem readLoop (killed : Bool) (target : Nat) :
    ∀ (n : Nat) {s : Console} {ready : List UInt8}, s.Holds ⟨ready, edit⟩ →
      ∃ s', Console.readLoop killed target n s = ((Line.read killed target n ready).1, s', (Line.read killed target n ready).2.2) ∧
        s'.Holds ⟨(Line.read killed target n ready).2.1, edit⟩ := by
  intro n
  induction n with
  | zero => exact fun holds => ⟨_, rfl, holds⟩
  | succ n ih =>
    intro s ready holds
    rw [Console.readLoop]
    cases ready with
    | nil =>
      rw [if_pos (holds.ready_iff.2 rfl)]
      exact ⟨s, rfl, holds⟩
    | cons c ready =>
      obtain ⟨byte, rest⟩ := holds.take
      have counter : s.r < 2 ^ 32 := Ring.Holds.counter holds.ring
      have back : sub32 (add32 s.r 1) 1 = s.r := by
        simp only [sub32, add32]
        omega
      rw [if_neg fun same => by simpa using holds.ready_iff.1 same, byte, Line.read]
      dsimp only
      rw [back]
      split
      · refine ⟨_, rfl, ?_⟩
        split
        · exact holds
        · exact rest
      split
      · exact ⟨_, rfl, rest⟩
      · obtain ⟨s', inner, holds'⟩ := ih rest
        rw [inner]
        exact ⟨s', rfl, holds'⟩

end Console.Holds

/-! ## Readers -/

/-- Where a process is in `consoleread`: it was called for `target` bytes, `n` are to go, and `got` is at `dst`. -/
inductive Reader where
  | idle
  | reading (target n : Nat) (got : List UInt8) (asleep : Bool)

def Reader.wake : Reader → Reader
  | .idle => .idle
  | .reading target n got _ => .reading target n got false

structure ConsoleSys where
  cons : Console
  reader : Nat → Reader := fun _ => .idle
  killed : Nat → Bool := fun _ => false

/-- What happens at the console. A section of a reader names the bytes it took, `cs`, and
those at `dst` after it, `got`. -/
inductive ConsoleOp where
  | intr (cs line : List UInt8)
  | call (t : Nat) (n : Int)
  | read (t target : Nat) (cs got : List UInt8) (last : ReadEnd)
  | kill (t : Nat)

/-- The reader after a section. -/
def ReadEnd.reader (target : Nat) (got : List UInt8) : ReadEnd → Reader
  | .sleep n => .reading target n got true
  | .ret _ => .idle

inductive ConsoleStep : ConsoleOp → ConsoleSys → ConsoleSys → Prop where
  | intr {s : ConsoleSys} {cs : List UInt8} {woke : Bool} {cons : Console} :
      Console.consoleintr cs s.cons = (woke, cons) →
      ConsoleStep (.intr cs (Console.committed cs s.cons)) s
        { s with cons := cons, reader := fun t => if woke then (s.reader t).wake else s.reader t }
  | call {s : ConsoleSys} {t : Nat} {n : Int} : s.reader t = .idle →
      ConsoleStep (.call t n) s { s with reader := Function.update s.reader t (.reading n.toNat n.toNat [] false) }
  | read {s : ConsoleSys} {t target n : Nat} {cs got : List UInt8} {cons : Console} {last : ReadEnd} :
      s.reader t = .reading target n got false →
      s.cons.readLoop (s.killed t) target n = (cs, cons, last) →
      ConsoleStep (.read t target cs (got ++ cs) last) s
        { s with cons := cons, reader := Function.update s.reader t (last.reader target (got ++ cs)) }
  | kill {s : ConsoleSys} {t : Nat} :
      ConsoleStep (.kill t) s
        { s with reader := Function.update s.reader t (s.reader t).wake, killed := Function.update s.killed t true }

namespace ConsoleOp

/-- The bytes committed. -/
def committed : ConsoleOp → List UInt8
  | .intr _ line => line
  | _ => []

/-- The bytes taken by readers. -/
def taken : ConsoleOp → List UInt8
  | .read _ _ cs _ _ => cs
  | _ => []

/-- The bytes a read returns. -/
def returned : ConsoleOp → List UInt8
  | .read _ _ _ got (.ret r) => if r < 0 then [] else got
  | _ => []

/-- A read for a positive number of bytes that returns none. -/
def isEmpty : ConsoleOp → Bool
  | .read _ target _ _ (.ret 0) => 0 < target
  | _ => false

/-- No other read is under way when one is called, and none fails with bytes taken. -/
def Alone (s : ConsoleSys) : ConsoleOp → Prop
  | .call _ _ => ∀ u, s.reader u = .idle
  | .read _ _ _ got (.ret r) => r < 0 → got = []
  | _ => True

end ConsoleOp

/-- Text without end-of-file marks. -/
def unmarked (xs : List UInt8) : List UInt8 := xs.filter (· ≠ 4)

/-- A reader has stored what it was called for less what is to go. -/
def Reader.Counted : Reader → Prop
  | .idle => True
  | .reading target n got _ => n + got.length = target ∧ (n = 0 → target = 0)

/-- What a read returns is the number of bytes at `dst`, or -1. -/
def ConsoleOp.Honest : ConsoleOp → Prop
  | .read _ _ _ got (.ret r) => r = -1 ∨ r = got.length
  | _ => True

section Run

variable {s s' s0 : ConsoleSys} {op : ConsoleOp} {ops : List ConsoleOp} {l : Line}

theorem unmarked_eq (clean : 4 ∉ xs) : unmarked xs = xs :=
  filter_eq_self.2 fun c inside => by simpa using fun mark : c = 4 => clean (mark ▸ inside)

theorem unmarked_append (xs ys : List UInt8) : unmarked (xs ++ ys) = unmarked xs ++ unmarked ys := filter_append ..

/-- **A section of a reader**: the bytes it passes are those it takes, or one end-of-file mark. -/
theorem readLoop_step {t target n : Nat} {cs got : List UInt8} {cons : Console} {last : ReadEnd} {killed : Bool}
    (holds : s.cons.Holds l) (counted : (Reader.reading target n got false).Counted)
    (call : s.cons.readLoop killed target n = (cs, cons, last)) :
    ∃ passed rest, cons.Holds ⟨rest, l.edit⟩ ∧ l.ready = passed ++ rest ∧ unmarked passed = cs ∧
      passed.count 4 = (if (ConsoleOp.read t target cs (got ++ cs) last).isEmpty then 1 else 0) ∧
      (last.reader target (got ++ cs)).Counted ∧ (ConsoleOp.read t target cs (got ++ cs) last).Honest := by
  obtain ⟨total, none⟩ := counted
  obtain ⟨s', inner, holds'⟩ := Console.Holds.readLoop killed target n holds
  cases shape : Line.read killed target n l.ready with
  | mk cs more =>
    obtain ⟨rest, last⟩ := more
    rw [shape] at inner holds'
    dsimp only at inner
    rw [call] at inner
    cases inner
    obtain ⟨clean, ⟨parts, ends⟩ | ⟨first, positive, empty, parts, zero⟩⟩ := Line.read_spec (by omega) shape
    · refine ⟨cs, rest, holds', parts, unmarked_eq clean, ?_⟩
      rw [count_eq_zero.2 clean]
      rcases ends with ⟨m, asleep, left, more⟩ | failed | ⟨back, one⟩
      · subst asleep
        refine ⟨rfl, ⟨?_, fun isZero => by omega⟩, trivial⟩
        rw [length_append]
        omega
      · subst failed
        exact ⟨rfl, trivial, .inl rfl⟩
      · have count : target - n + cs.length = (got ++ cs).length := by
          rw [length_append]
          omega
        rw [count] at back one
        subst back
        refine ⟨?_, trivial, .inr rfl⟩
        cases length : (got ++ cs).length with
        | zero => simp [ConsoleOp.isEmpty, one length]
        | succ k => rfl
    · subst empty zero
      have nothing : got = [] := length_eq_zero_iff.1 (by omega)
      refine ⟨[4], rest, holds', parts, rfl, ?_, trivial, .inr (by rw [nothing]; rfl)⟩
      simp [ConsoleOp.isEmpty, positive]

theorem Reader.Counted.wake {r : Reader} (counted : r.Counted) : r.wake.Counted := by
  cases r with
  | idle => trivial
  | reading target n got asleep => exact counted

/-- **One step**: what is committed goes in behind, what is passed comes off in front. -/
theorem ConsoleStep.moves (step : ConsoleStep op s s') (holds : s.cons.Holds l) (counted : ∀ t, (s.reader t).Counted) :
    ∃ passed l', s'.cons.Holds l' ∧ l.ready ++ op.committed = passed ++ l'.ready ∧ unmarked passed = op.taken ∧
      passed.count 4 = (if op.isEmpty then 1 else 0) ∧ (∀ t, (s'.reader t).Counted) ∧ op.Honest := by
  cases step with
  | @intr _ cs woke cons call =>
    obtain ⟨after, _, ready⟩ := Console.Holds.consoleintr cs holds
    rw [call] at after
    refine ⟨[], _, after, ready.symm, rfl, rfl, fun t => ?_, trivial⟩
    dsimp only
    split
    · exact (counted t).wake
    · exact counted t
  | @call _ t n =>
    refine ⟨[], l, holds, append_nil _, rfl, rfl, fun u => ?_, trivial⟩
    dsimp only
    by_cases own : u = t
    · subst own
      rw [update_self]
      exact ⟨Nat.add_zero _, id⟩
    · rw [update_of_ne own]
      exact counted u
  | @read _ t target n cs got cons last now call =>
    obtain ⟨passed, rest, after, parts, taken, marks, own, honest⟩ := readLoop_step (t := t) holds (now ▸ counted t) call
    refine ⟨passed, _, after, (append_nil _).trans parts, taken, marks, fun u => ?_, honest⟩
    dsimp only
    by_cases same : u = t
    · subst same
      rw [update_self]
      exact own
    · rw [update_of_ne same]
      exact counted u
  | @kill _ t =>
    refine ⟨[], l, holds, append_nil _, rfl, rfl, fun u => ?_, trivial⟩
    dsimp only
    by_cases own : u = t
    · subst own
      rw [update_self]
      exact (counted u).wake
    · rw [update_of_ne own]
      exact counted u

/-- The books of a run: all that was committed is passed or ready. -/
structure ConsoleSys.Books (ops : List ConsoleOp) (s : ConsoleSys) (l : Line) (passed : List UInt8) : Prop where
  holds : s.cons.Holds l
  committed : ops.flatMap ConsoleOp.committed = passed ++ l.ready
  taken : unmarked passed = ops.flatMap ConsoleOp.taken
  marks : passed.count 4 = ops.countP ConsoleOp.isEmpty
  counted : ∀ t, (s.reader t).Counted
  honest : ∀ op ∈ ops, op.Honest

theorem console_books (same : s0.cons.r = s0.cons.w) (edit : s0.cons.w = s0.cons.e) (word : s0.cons.r < 2 ^ 32)
    (idle : ∀ t, s0.reader t = .idle) (run : Trace ConsoleStep s0 ops s) : ∃ l passed, s.Books ops l passed := by
  refine run.history (I := fun ops s => ∃ l passed, s.Books ops l passed) ?_ ⟨⟨[], []⟩, [], ?_⟩
  · rintro ops op s s' ⟨l, passed, books⟩ step
    obtain ⟨more, l', holds, moved, taken, marks, counted, honest⟩ := step.moves books.holds books.counted
    refine ⟨l', passed ++ more, holds, ?_, ?_, ?_, counted, ?_⟩
    · rw [flatMap_append, books.committed, flatMap_singleton, append_assoc, moved, append_assoc]
    · rw [unmarked_append, books.taken, taken, flatMap_append, flatMap_singleton]
    · rw [count_append, books.marks, marks, countP_append, countP_singleton]
    · exact fun op' inside => (mem_append.1 inside).elim (books.honest op') fun last => mem_singleton.1 last ▸ honest
  · exact ⟨.start same edit word, rfl, rfl, rfl, fun t => (idle t).symm ▸ trivial, by simp⟩

end Run

section Run

variable {s s' s0 : ConsoleSys} {op : ConsoleOp} {ops : List ConsoleOp}

/-- The bytes a lone reader holds are those taken and not returned. -/
def ConsoleSys.Lone (ops : List ConsoleOp) (s : ConsoleSys) : Prop :=
  ∃ held, ops.flatMap ConsoleOp.taken = ops.flatMap ConsoleOp.returned ++ held ∧
    ((held = [] ∧ ∀ u, s.reader u = .idle) ∨
      ∃ t target n asleep, s.reader t = .reading target n held asleep ∧ ∀ u, u ≠ t → s.reader u = .idle)

theorem ConsoleSys.Lone.woken (lone : s.Lone ops) (nothing : op.taken = []) (none : op.returned = [])
    (readers : ∀ u, s'.reader u = s.reader u ∨ s'.reader u = (s.reader u).wake) : s'.Lone (ops ++ [op]) := by
  obtain ⟨held, balance, who⟩ := lone
  have idle : ∀ u, s.reader u = .idle → s'.reader u = .idle := fun u before => by
    rcases readers u with same | woken
    · rw [same, before]
    · rw [woken, before]
      rfl
  refine ⟨held, by simpa [nothing, none] using balance, ?_⟩
  rcases who with ⟨empty, all⟩ | ⟨t, target, n, asleep, now, others⟩
  · exact .inl ⟨empty, fun u => idle u (all u)⟩
  · refine .inr ⟨t, target, n, ?_⟩
    rcases readers t with same | woken
    · exact ⟨asleep, same.trans now, fun u other => idle u (others u other)⟩
    · exact ⟨false, woken.trans (by rw [now]; rfl), fun u other => idle u (others u other)⟩

/-- With one read at a time, the bytes taken are those returned and those the reader holds. -/
theorem ConsoleStep.lone (step : ConsoleStep op s s') (alone : op.Alone s) (lone : s.Lone ops) :
    s'.Lone (ops ++ [op]) := by
  cases step with
  | @intr _ cs woke cons call =>
    refine lone.woken rfl rfl fun u => ?_
    cases woke with
    | true => exact .inr rfl
    | false => exact .inl rfl
  | @call _ t n free =>
    obtain ⟨held, balance, ⟨rfl, _⟩ | ⟨u, _, _, _, now, _⟩⟩ := lone
    · refine ⟨[], by simpa [ConsoleOp.taken, ConsoleOp.returned] using balance, .inr ⟨t, _, _, _, update_self .., ?_⟩⟩
      exact fun u other => (update_of_ne other ..).trans (alone u)
    · rw [alone u] at now
      cases now
  | @read _ t target n cs got cons last now call =>
    obtain ⟨held, balance, ⟨_, all⟩ | ⟨u, target', n', asleep, now', others⟩⟩ := lone
    · rw [all t] at now
      cases now
    by_cases own : t = u
    · subst own
      rw [now] at now'
      cases now'
      have rest : ∀ r, ∀ u, u ≠ t → update s.reader t r u = .idle := fun r u other => by
        rw [update_of_ne other]
        exact others u other
      cases last with
      | sleep m =>
        refine ⟨got ++ cs, ?_, .inr ⟨t, target, m, true, update_self .., rest _⟩⟩
        simp [ConsoleOp.taken, ConsoleOp.returned, balance]
      | ret r =>
        refine ⟨[], ?_, .inl ⟨rfl, fun u => ?_⟩⟩
        · rw [flatMap_append, flatMap_append, balance, flatMap_singleton, flatMap_singleton,
            ConsoleOp.taken, ConsoleOp.returned, append_assoc, append_nil]
          split
          · rename_i failed
            rw [alone failed]
          · rfl
        · by_cases same : u = t
          · rw [same]
            exact update_self ..
          · exact rest _ u same
    · rw [others t own] at now
      cases now
  | @kill _ t =>
    refine lone.woken rfl rfl fun u => ?_
    by_cases own : u = t
    · subst own
      exact .inr (update_self ..)
    · exact .inl (update_of_ne own ..)

theorem console_lone (idle : ∀ t, s0.reader t = .idle)
    (run : Trace (fun op s s' => ConsoleStep op s s' ∧ op.Alone s) s0 ops s) : s.Lone ops := by
  induction run with
  | nil => exact ⟨[], rfl, .inl ⟨rfl, idle⟩⟩
  | snoc _ step lone => exact step.1.lone step.2 lone

/-- **The console's line discipline**, from any value of the indices: they stay in order and
within the ring; characters leave the bytes between `r` and `w`; the bytes readers take, in
the order they take them, are what was committed, without the end-of-file marks; every mark
passed is one read that returns 0; and what reads return is the beginning of what was
committed when they do not overlap and none fails with bytes taken. -/
theorem console_discipline (same : s0.cons.r = s0.cons.w) (edit : s0.cons.w = s0.cons.e) (word : s0.cons.r < 2 ^ 32)
    (idle : ∀ t, s0.reader t = .idle) (run : Trace ConsoleStep s0 ops s) :
    (sub32 s.cons.w s.cons.r ≤ sub32 s.cons.e s.cons.r ∧ sub32 s.cons.e s.cons.r ≤ INPUT_BUF) ∧
    (∀ cs line s', ConsoleStep (.intr cs line) s s' →
      s'.cons.r = s.cons.r ∧ s'.cons.ready = s.cons.ready ++ line) ∧
    unmarked (ops.flatMap ConsoleOp.committed) = ops.flatMap ConsoleOp.taken ++ unmarked s.cons.ready ∧
    (ops.flatMap ConsoleOp.committed).count 4 = ops.countP ConsoleOp.isEmpty + s.cons.ready.count 4 ∧
    (∀ t target cs got r, ConsoleOp.read t target cs got (.ret r) ∈ ops → r = -1 ∨ r = got.length) ∧
    (Trace (fun op s s' => ConsoleStep op s s' ∧ op.Alone s) s0 ops s →
      ops.flatMap ConsoleOp.returned <+: unmarked (ops.flatMap ConsoleOp.committed)) := by
  obtain ⟨l, passed, books⟩ := console_books same edit word idle run
  obtain ⟨readyCount, ready⟩ := Console.Holds.between_eq books.holds.front
  obtain ⟨allCount, _⟩ := Console.Holds.between_eq (s := s.cons) books.holds.ring
  have taken : unmarked (ops.flatMap ConsoleOp.committed) = ops.flatMap ConsoleOp.taken ++ unmarked l.ready := by
    rw [books.committed, unmarked_append, books.taken]
  rw [show s.cons.ready = l.ready from ready]
  refine ⟨⟨?_, ?_⟩, ?_, taken, ?_, fun t target cs got r inside => books.honest _ inside, fun lone => ?_⟩
  · rw [readyCount, allCount, List.length_append]
    omega
  · rw [allCount]
    exact Ring.Holds.fits books.holds.ring
  · intro cs line s' step
    cases step with
    | intr call =>
      obtain ⟨after, unmoved, more⟩ := Console.Holds.consoleintr cs books.holds
      rw [call] at after unmoved
      refine ⟨unmoved, ?_⟩
      rw [← more]
      exact (Console.Holds.between_eq after.front).2
  · rw [books.committed, List.count_append, books.marks]
  · obtain ⟨held, balance, _⟩ := console_lone idle lone
    rw [taken, balance, List.append_assoc]
    exact List.prefix_append _ _

end Run

/-- A step, computed. -/
def ConsoleSys.exec : ConsoleOp → ConsoleSys → Option ConsoleSys
  | .intr cs line, s =>
    let (woke, cons) := Console.consoleintr cs s.cons
    if Console.committed cs s.cons = line then
      some { s with cons := cons, reader := fun t => if woke then (s.reader t).wake else s.reader t }
    else none
  | .call t n, s =>
    match s.reader t with
    | .idle => some { s with reader := Function.update s.reader t (.reading n.toNat n.toNat [] false) }
    | _ => none
  | .read t target cs got last, s =>
    match s.reader t with
    | .reading target' n got' false =>
      let (cs', cons, last') := s.cons.readLoop (s.killed t) target n
      if target' = target ∧ cs' = cs ∧ got' ++ cs = got ∧ last' = last then
        some { s with cons := cons, reader := Function.update s.reader t (last.reader target got) }
      else none
    | _ => none
  | .kill t, s =>
    some { s with reader := Function.update s.reader t (s.reader t).wake, killed := Function.update s.killed t true }

theorem ConsoleSys.exec_step {op : ConsoleOp} {s s' : ConsoleSys} (call : s.exec op = some s') : ConsoleStep op s s' := by
  cases op with
  | intr cs line =>
    dsimp only [exec] at call
    split at call
    · rename_i same
      subst same
      cases call
      exact .intr rfl
    · cases call
  | call t n =>
    dsimp only [exec] at call
    split at call
    · rename_i idle
      cases call
      exact .call idle
    · cases call
  | read t target cs got last =>
    dsimp only [exec] at call
    split at call
    · rename_i now
      split at call
      · rename_i same
        obtain ⟨rfl, rfl, rfl, rfl⟩ := same
        cases call
        exact .read now rfl
      · cases call
    · cases call
  | kill t =>
    cases call
    exact .kill

theorem console_run {ops : List ConsoleOp} {s : ConsoleSys} {α : Type} {f : ConsoleSys → α} {a : α}
    (ends : (evaluate ConsoleSys.exec ops s).map f = some a) : ∃ s', Trace ConsoleStep s ops s' ∧ f s' = a :=
  Trace.of_evaluate ends fun _ _ _ _ => ConsoleSys.exec_step

/-- An empty console whose indices are about to wrap. -/
def wornConsole : ConsoleSys where
  cons := ⟨fun _ => 0, 0xffffffff, 0xffffffff, 0xffffffff⟩

/-- A line typed and read across the point where the indices wrap. -/
theorem console_discipline_wraps :
    ∃ s, Trace ConsoleStep wornConsole [.intr [97, 10] [97, 10], .call 0 5, .read 0 5 [97, 10] [97, 10] (.ret 2)] s ∧
      s.cons.ready = [] ∧ sub32 s.cons.e s.cons.r ≤ INPUT_BUF := by
  have ends : (evaluate ConsoleSys.exec [.intr [97, 10] [97, 10], .call 0 5, .read 0 5 [97, 10] [97, 10] (.ret 2)] wornConsole).map
      (·.cons.ready) = some [] := by decide +kernel
  obtain ⟨s, run, ready⟩ := console_run ends
  exact ⟨s, run, ready, (console_discipline rfl rfl (by decide) (fun _ => rfl) run).1.2⟩

/-- A full buffer of one letter. -/
def fullLine : List UInt8 := List.replicate INPUT_BUF 97

/-- The second reader takes a line while the first, which wants 200 bytes, sleeps with the full buffer. -/
def overlappingReads : List ConsoleOp :=
  [.intr fullLine fullLine, .call 0 200, .read 0 200 fullLine fullLine (.sleep 72)] ++
    [.intr [98, 10] [98, 10], .call 1 2, .read 1 2 [98, 10] [98, 10] (.ret 2)]

/-- The first reader is killed there, and the second comes after it. -/
def killedRead : List ConsoleOp :=
  [.intr fullLine fullLine, .call 0 200, .read 0 200 fullLine fullLine (.sleep 72)] ++
    ([.kill 0, .read 0 200 [] fullLine (.ret (-1))] ++
      [.intr [98, 10] [98, 10], .call 1 2, .read 1 2 [98, 10] [98, 10] (.ret 2)])

/-- **What reads return may have a gap**: both runs happen, and neither returns a beginning of what was committed. -/
theorem console_returns_gap :
    (∃ s, Trace ConsoleStep wornConsole overlappingReads s) ∧ (∃ s, Trace ConsoleStep wornConsole killedRead s) ∧
      ∀ ops ∈ [overlappingReads, killedRead],
        ¬ ops.flatMap ConsoleOp.returned <+: unmarked (ops.flatMap ConsoleOp.committed) := by
  have ends : ∀ ops ∈ [overlappingReads, killedRead], (evaluate ConsoleSys.exec ops wornConsole).map (fun _ => ()) = some () := by
    decide +kernel
  have runs : ∀ ops ∈ [overlappingReads, killedRead], ∃ s, Trace ConsoleStep wornConsole ops s := fun ops mem =>
    (console_run (ends ops mem)).imp fun _ run => run.1
  exact ⟨runs _ (by simp), runs _ (by simp), by decide +kernel⟩

end Xv6
