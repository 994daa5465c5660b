import Xv6.Fs.Dir
import Xv6.Lib.Decimal
import Mathlib.Data.List.TakeWhile

/-!
# The names of the swap files (`fs.c`, `string.c`)

`vpalloc` and `vpfree` write the path `./.vp<index>_<pid>` into a buffer of 20 bytes with
`itoa`. The path resolves in the current directory to a name of at most `DIRSIZ` bytes:
`skipelem` cuts off the rest. Five bytes come before the pid, so nine digits of it count.
-/

namespace Xv6.Fs

open Fallible CString Decimal Function List

variable {index pid i p : Nat}

/-! ## Numbers -/

/-- The first loop of `itoa`: `p` moves past a place for each digit of `shift`. -/
def itoaEnd : Nat → Nat → Nat → Nat
  | 0, _, p => p
  | fuel + 1, shift, p => if shift / 10 ≠ 0 then itoaEnd fuel (shift / 10) (p + 1) else p + 1

/-- The second loop of `itoa`: the digits of `i` are written backwards from `p`. -/
def itoaDigits : Nat → Nat → Nat → Bytes → Bytes
  | 0, _, _, s => s
  | fuel + 1, i, p, s =>
    let s := Function.update s (p - 1) (digit (i % 10))
    if i / 10 ≠ 0 then itoaDigits fuel (i / 10) (p - 1) s else s

/-- `itoa(i, s + p)`. The negation of the least `int` is itself, and its remainders are
negative indices of `digit`. -/
def itoa (i : Int) (s : Bytes) (p : Nat) : Res Bytes :=
  if i = -2 ^ 31 then .error .outOfBounds
  else
    let s1 := if i < 0 then Function.update s p 45 else s
    let p1 := if i < 0 then p + 1 else p
    let n := i.natAbs
    let last := itoaEnd (n + 1) n p1
    .ok (itoaDigits (n + 1) n last (Function.update s1 last 0))

theorem itoaEnd_eq {fuel : Nat} (enough : i < fuel) : itoaEnd fuel i p = p + (decimal i).length := by
  induction fuel generalizing i p with
  | zero => omega
  | succ fuel ih =>
    rw [itoaEnd]
    by_cases small : i < 10
    · rw [if_neg (by omega), decimal_small small, length_singleton]
    · rw [if_pos (by omega), ih (by omega), decimal_step (Nat.le_of_not_lt small), length_append, length_singleton]
      omega

theorem itoaDigits_eq {fuel : Nat} {s : Bytes} (enough : i < fuel) :
    itoaDigits fuel i (p + (decimal i).length) s = put s p (decimal i) := by
  induction fuel generalizing i s with
  | zero => omega
  | succ fuel ih =>
    simp only [itoaDigits]
    by_cases small : i < 10
    · rw [if_neg (by omega), decimal_small small, length_singleton, put_singleton, Nat.mod_eq_of_lt small]
      rfl
    · have large : 10 ≤ i := by omega
      -- the last digit is written first, behind the place of the others
      have place : p + (decimal i).length - 1 = p + (decimal (i / 10)).length := by
        rw [decimal_step large, length_append, length_singleton]
        omega
      rw [if_pos (by omega), place, ih (by omega), decimal_step large, put_append, put_singleton]

/-- `itoa` writes the digits and a NUL. -/
theorem itoa_eq (i : Nat) (s : Bytes) (p : Nat) : itoa i s p = .ok (put s p (decimal i ++ [0])) := by
  have positive : ¬ (i : Int) < 0 := by omega
  have least : (i : Int) ≠ -2 ^ 31 := by omega
  simp only [itoa, if_neg positive, if_neg least, Int.natAbs_natCast]
  rw [itoaEnd_eq (Nat.lt_succ_self i), itoaDigits_eq (Nat.lt_succ_self i), put_append, put_singleton]

/-! ## Paths -/

/-- The path that `vpalloc` and `vpfree` build in their buffer. -/
def vpPath (index : Nat) (pid : Int) (path : Bytes) : Res Bytes := do
  let path := put path 0 "./.vp".toUTF8.data.toList
  let path ← itoa index path 5
  let path := Function.update path 6 95
  itoa pid path 7

/-- Length of the buffer `path`. -/
def VP_PATH : Nat := 20

/-- `skipelem(path, name)` on the text of a path: the rest of it and the buffer `name`. -/
def skipelem (path : List UInt8) (name : Bytes) : Option (List UInt8 × Bytes) :=
  let path := path.dropWhile (· = 47)
  if path = [] then none
  else
    let elem := path.takeWhile (· ≠ 47)
    let rest := (path.dropWhile (· ≠ 47)).dropWhile (· = 47)
    if DIRSIZ ≤ elem.length then some (rest, put name 0 (elem.take DIRSIZ))
    else some (rest, Function.update (put name 0 elem) elem.length 0)

/-- What `nameiparent(path, name)` leaves in `name` when the directories on the way are
found: the loop of `namex` stops at the last element. -/
def parentName : Nat → List UInt8 → Bytes → Option Bytes
  | 0, _, _ => none
  | fuel + 1, path, name =>
    match skipelem path name with
    | none => none
    | some (rest, name) => if rest = [] then some name else parentName fuel rest name

/-- The bytes of `.vp<index>_<pid>`. -/
def vpNameText (index pid : Nat) : List UInt8 := [46, 118, 112] ++ decimal index ++ [95] ++ decimal pid

/-- The bytes of the path. -/
def vpPathText (index pid : Nat) : List UInt8 := [46, 47] ++ vpNameText index pid

theorem vpPath_eq (oneDigit : index < 10) (pid : Nat) (path : Bytes) :
    vpPath index pid path = .ok (put path 0 (vpPathText index pid ++ [0])) := by
  have start : "./.vp".toUTF8.data.toList = [46, 47, 46, 118, 112] := by decide
  -- the NUL behind the index is overwritten by the underscore
  have indexed := put_put (s := path) (a := 0) [46, 47, 46, 118, 112] (decimal index ++ [0])
  rw [decimal_small oneDigit] at indexed
  have marked := update_put (s := path) (a := 0) (o := 6) (l := [46, 47, 46, 118, 112, digit index, 0])
    (by simp) 95
  have whole := put_put (s := path) (a := 0) [46, 47, 46, 118, 112, digit index, 95] (decimal pid ++ [0])
  have text : vpPathText index pid ++ [0] = [46, 47, 46, 118, 112, digit index, 95] ++ (decimal pid ++ [0]) := by
    rw [vpPathText, vpNameText, decimal_small oneDigit]
    simp
  rw [text, ← whole, vpPath, start]
  simp only [itoa_eq, ok_bind, decimal_small oneDigit]
  apply congrArg Except.ok
  apply congrArg (put · 7 (decimal pid ++ [0]))
  exact (congrArg (update · 6 95) indexed).trans marked

theorem vpName_bytes {c : UInt8} (mem : c ∈ vpNameText index pid) : c ≠ 0 ∧ c ≠ 47 := by
  have digits : ∀ m, c ∈ decimal m → c ≠ 0 ∧ c ≠ 47 := by
    intro m mem
    have range := mem_decimal mem
    constructor
    · intro same
      subst same
      exact absurd range.1 (by decide)
    · intro same
      subst same
      exact absurd range.1 (by decide)
  have letters : ∀ c ∈ [46, 118, 112] ++ [(95 : UInt8)], c ≠ 0 ∧ c ≠ 47 := by
    intro c mem
    simp only [cons_append, nil_append, mem_cons, not_mem_nil, or_false] at mem
    obtain rfl | rfl | rfl | rfl := mem <;> decide
  simp only [vpNameText, mem_append] at mem
  rcases mem with ((mem | mem) | mem) | mem
  · exact letters c (mem_append_left _ mem)
  · exact digits _ mem
  · exact letters c (mem_append_right _ mem)
  · exact digits _ mem

/-- The last element of a path: `name` gets its first `DIRSIZ` bytes. -/
theorem skipelem_last {l : List UInt8} (name : Bytes) (some_ : l ≠ []) (bytes : ∀ c ∈ l, c ≠ 0 ∧ c ≠ 47) :
    ∃ name', skipelem l name = some ([], name') ∧ text name' DIRSIZ = l.take DIRSIZ := by
  have starts : l.dropWhile (fun c => decide (c = 47)) = l := by
    cases l with
    | nil => rfl
    | cons c l =>
      rw [dropWhile_cons_of_neg]
      simpa using (bytes c mem_cons_self).2
  have elem : l.takeWhile (fun c => decide (c ≠ 47)) = l := by
    rw [takeWhile_eq_self_iff]
    intro c mem
    simpa using (bytes c mem).2
  have rest : l.dropWhile (fun c => decide (c ≠ 47)) = [] := by
    rw [dropWhile_eq_nil_iff]
    intro c mem
    simpa using (bytes c mem).2
  simp only [skipelem, starts, elem, rest, if_neg some_, dropWhile_nil]
  split
  next long =>
    refine ⟨_, rfl, ?_⟩
    have whole : (l.take DIRSIZ).length = DIRSIZ := by rw [length_take]; omega
    rw [text, textFrom_bytes (l := l.take DIRSIZ), take_take, Nat.min_self]
    · intro o inside
      exact put_inside inside
    · intro c mem
      exact (bytes c (mem_of_mem_take mem)).1
    · omega
  next short =>
    refine ⟨_, rfl, ?_⟩
    have same : update (put name 0 l) l.length 0 = put name 0 (l ++ [0]) := by
      have behind := put_put (s := name) (a := 0) l [0]
      rw [put_singleton, Nat.zero_add] at behind
      exact behind
    rw [same, text_put name (fun c mem => (bytes c mem).1) (Nat.lt_of_not_le short)]
    rw [take_of_length_le (by omega)]

theorem skipelem_dot (l : List UInt8) (name : Bytes) (starts : l.head? ≠ some 47) :
    ∃ name', skipelem ([46, 47] ++ l) name = some (l, name') := by
  have rest : l.dropWhile (fun c => decide (c = 47)) = l := by
    cases l with
    | nil => rfl
    | cons c l =>
      rw [dropWhile_cons_of_neg]
      simpa using starts
  have path : (46 :: 47 :: l).dropWhile (fun c => decide (c = 47)) = 46 :: 47 :: l := by simp
  have elem : (46 :: 47 :: l).takeWhile (fun c => decide (c ≠ 47)) = [46] := by simp
  have behind : ((46 :: 47 :: l).dropWhile fun c => decide (c ≠ 47)).dropWhile (fun c => decide (c = 47)) = l := by
    simpa using rest
  refine ⟨update (put name 0 [46]) 1 0, ?_⟩
  simp only [skipelem, cons_append, nil_append, path, elem, behind]
  rw [if_neg (cons_ne_nil _ _), if_neg (by decide)]
  rfl

/-- The digits of a pid that fit into a name. -/
def shownPid (pid : Nat) : Nat := if pid < 10 ^ 9 then pid else pid / 10

theorem vpName_shown (oneDigit : index < 10) (bound : pid < 2 ^ 31) :
    (vpNameText index pid).take DIRSIZ = vpNameText index (shownPid pid) := by
  have digits := decimal_take (n := pid) (k := 9) (by decide) (by omega)
  rw [vpNameText, vpNameText, decimal_small oneDigit, shownPid, ← digits]
  rfl

theorem vpName_injective {j q : Nat} (hi : i < 10) (hj : j < 10) (same : vpNameText i p = vpNameText j q) :
    i = j ∧ p = q := by
  rw [vpNameText, vpNameText, decimal_small hi, decimal_small hj] at same
  simp only [cons_append, nil_append, cons.injEq, true_and] at same
  refine ⟨?_, decimal_injective same.2⟩
  have digits := congrArg UInt8.toNat same.1
  rw [digit_toNat hi, digit_toNat hj] at digits
  omega

/-- The path has its NUL inside the buffer, and nothing behind the buffer is written. -/
theorem vpPathText_length (oneDigit : index < 10) (bound : pid < 2 ^ 31) : (vpPathText index pid).length < VP_PATH := by
  have digits : (decimal pid).length ≤ 10 := decimal_length_le (by decide) (by omega)
  rw [vpPathText, vpNameText, decimal_small oneDigit]
  simp only [length_append, length_cons, length_nil, VP_PATH]
  omega

/-- The name that a path of `vpalloc` resolves to. -/
theorem parentName_vpPath (oneDigit : index < 10) (bound : pid < 2 ^ 31) (path name : Bytes) :
    ∃ name', parentName VP_PATH (text (put path 0 (vpPathText index pid ++ [0])) VP_PATH) name = some name' ∧
      text name' DIRSIZ = vpNameText index (shownPid pid) := by
  have noNul : ∀ c ∈ vpPathText index pid, c ≠ 0 := by
    intro c mem
    rw [vpPathText, mem_append] at mem
    rcases mem with mem | mem
    · simp only [mem_cons, not_mem_nil, or_false] at mem
      obtain rfl | rfl := mem <;> decide
    · exact (vpName_bytes mem).1
  rw [text_put path noNul (vpPathText_length oneDigit bound), vpPathText]
  have some_ : vpNameText index pid ≠ [] := by simp [vpNameText]
  obtain ⟨dot, first⟩ := skipelem_dot (vpNameText index pid) name (by simp [vpNameText])
  obtain ⟨name', second, shows⟩ := skipelem_last dot some_ fun c mem => vpName_bytes mem
  refine ⟨name', ?_, shows.trans (vpName_shown oneDigit bound)⟩
  simp only [VP_PATH, parentName, first, second, if_neg some_, ↓reduceIte]

/-- **Names of swap files.** The path fits its buffer. Two of them resolve to one name
only for the same index and pid, except when the pids differ in digits that are cut off. -/
theorem vp_names_unique {i j p q : Nat} (hi : i < MAX_VPFILES) (hj : j < MAX_VPFILES) (hp : p < 2 ^ 31) (hq : q < 2 ^ 31)
    (buf buf' name name' : Bytes) :
    ∃ path path' n n', vpPath i p buf = .ok path ∧ vpPath j q buf' = .ok path' ∧
      (∀ o, VP_PATH ≤ o → path o = buf o) ∧ (∃ o < VP_PATH, path o = 0) ∧
      parentName VP_PATH (text path VP_PATH) name = some n ∧ parentName VP_PATH (text path' VP_PATH) name' = some n' ∧
      ((namecmp n n' = 0 → i = j ∧ p = q) ↔ ¬ (i = j ∧ p ≠ q ∧ shownPid p = shownPid q)) := by
  have i10 : i < 10 := Nat.lt_trans hi (by decide)
  have j10 : j < 10 := Nat.lt_trans hj (by decide)
  obtain ⟨n, resolves, shows⟩ := parentName_vpPath i10 hp buf name
  obtain ⟨n', resolves', shows'⟩ := parentName_vpPath j10 hq buf' name'
  have short := vpPathText_length i10 hp
  have len : (vpPathText i p ++ [0]).length = (vpPathText i p).length + 1 := by simp
  refine ⟨_, _, n, n', vpPath_eq i10 p buf, vpPath_eq j10 q buf', ?_, ?_, resolves, resolves', ?_⟩
  · intro o behind
    exact put_outside (.inr (by omega))
  · refine ⟨0 + (vpPathText i p).length, by omega, ?_⟩
    rw [put_inside (by omega)]
    simp
  · rw [namecmp, strncmp_eq_zero, shows, shows']
    constructor
    · rintro unique ⟨rfl, differ, same⟩
      exact differ (unique (by rw [same])).2
    · intro apart same
      obtain ⟨sameIndex, sameShown⟩ := vpName_injective i10 j10 same
      refine ⟨sameIndex, ?_⟩
      by_contra differ
      exact apart ⟨sameIndex, differ, sameShown⟩

/-- Two processes with pids of nine digits. -/
theorem vp_names_unique_short : ∃ path path' n n',
    vpPath 0 123456788 (fun _ => 0) = .ok path ∧ vpPath 0 123456789 (fun _ => 0) = .ok path' ∧
    parentName VP_PATH (text path VP_PATH) (fun _ => 0) = some n ∧
    parentName VP_PATH (text path' VP_PATH) (fun _ => 0) = some n' ∧ namecmp n n' ≠ 0 := by
  obtain ⟨path, path', n, n', made, made', _, _, found, found', unique⟩ :=
    vp_names_unique (i := 0) (j := 0) (p := 123456788) (q := 123456789) (by decide) (by decide) (by decide) (by decide)
      (fun _ => 0) (fun _ => 0) (fun _ => 0) (fun _ => 0)
  refine ⟨path, path', n, n', made, made', found, found', ?_⟩
  intro same
  have equal := unique.2 (by decide) same
  exact absurd equal.2 (by decide)

/-- The last digit of the pid 1000000000 is cut off, and what is left is the name for the
pid 100000000. -/
theorem vp_names_meet : ∃ path path' n n',
    vpPath 0 100000000 (fun _ => 0) = .ok path ∧ vpPath 0 1000000000 (fun _ => 0) = .ok path' ∧
    parentName VP_PATH (text path VP_PATH) (fun _ => 0) = some n ∧
    parentName VP_PATH (text path' VP_PATH) (fun _ => 0) = some n' ∧ namecmp n n' = 0 := by
  obtain ⟨n, found, shows⟩ :=
    parentName_vpPath (show 0 < 10 by decide) (show 100000000 < 2 ^ 31 by decide) (fun _ => 0) fun _ => 0
  obtain ⟨n', found', shows'⟩ :=
    parentName_vpPath (show 0 < 10 by decide) (show 1000000000 < 2 ^ 31 by decide) (fun _ => 0) fun _ => 0
  refine ⟨_, _, n, n', vpPath_eq (by decide) _ _, vpPath_eq (by decide) _ _, found, found', ?_⟩
  rw [namecmp, strncmp_eq_zero, shows, shows']
  rfl

end Xv6.Fs
