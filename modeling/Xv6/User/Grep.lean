import Mathlib.Data.List.TakeWhile
import Xv6.Lib.Lines

/-!
# `grep`

A string is the list of its bytes before the NUL. The buffer of `grep` is the list of its
first `m` bytes, which the code ends with a NUL, so the end of the list reads as 0 as well.
-/

namespace Xv6
open Lines List

/-! ## The matcher -/

/-- The loop of `matchstar`: `here` is `matchhere` at the rest of the pattern. -/
def matchstar (c : UInt8) (here : List UInt8 → Bool) : List UInt8 → Bool
  | [] => here []
  | t :: text => here (t :: text) || ((t = c || c = 46) && matchstar c here text)

/-- `matchhere`: `'*'` is 42, `'$'` is 36 and `'.'` is 46. -/
def matchhere : List UInt8 → List UInt8 → Bool
  | [], _ => true
  | [r], text =>
    if r = 36 then text.isEmpty
    else
      match text with
      | [] => false
      | t :: _ => r = 46 || r = t
  | r :: s :: re, text =>
    if s = 42 then matchstar r (matchhere re) text
    else
      match text with
      | [] => false
      | t :: text => (r = 46 || r = t) && matchhere (s :: re) text

/-- The loop of `match`, which looks at every suffix, the empty one included. -/
def matchAny (here : List UInt8 → Bool) : List UInt8 → Bool
  | [] => here []
  | t :: text => here (t :: text) || matchAny here text

/-- `match`; `'^'` is 94. -/
def Grep.match (re text : List UInt8) : Bool :=
  if re.head? = some 94 then matchhere re.tail text else matchAny (matchhere re) text

/-! ## The buffer -/

/-- `strchr`: how far the first `c` before the NUL is. -/
def strchr (c : UInt8) : List UInt8 → Option Nat
  | [] => none
  | b :: s => if b = 0 then none else if b = c then some 0 else (strchr c s).map (· + 1)

/-- What stands before the NUL. -/
def cstring (s : List UInt8) : List UInt8 := s.takeWhile (· ≠ 0)

section Strchr

variable {c : UInt8} {s t : List UInt8} {i : Nat}

theorem strchr_some (found : strchr c s = some i) : ∃ l t, s = l ++ c :: t ∧ l.length = i ∧ c ∉ l ∧ 0 ∉ l := by
  induction s generalizing i with
  | nil => cases found
  | cons b s ih =>
    rw [strchr] at found
    split at found
    · cases found
    rename_i text
    split at found
    · rename_i here
      cases found
      exact ⟨[], s, by rw [here]; rfl, rfl, not_mem_nil, not_mem_nil⟩
    · rename_i other
      obtain ⟨j, rest, rfl⟩ := Option.map_eq_some_iff.1 found
      obtain ⟨l, t, rfl, rfl, clean, whole⟩ := ih rest
      refine ⟨b :: l, t, rfl, rfl, ?_, ?_⟩
      · exact fun inside => (mem_cons.1 inside).elim (fun same => other same.symm) clean
      · exact fun inside => (mem_cons.1 inside).elim (fun same => text same.symm) whole

theorem strchr_none (whole : 0 ∉ s) : strchr c s = none ↔ c ∉ s := by
  induction s with
  | nil => simp [strchr]
  | cons b s ih =>
    have inner := ih (not_mem_of_not_mem_cons whole)
    rw [strchr, if_neg fun isZero : b = 0 => whole (isZero ▸ mem_cons_self ..)]
    by_cases here : b = c
    · simp [here]
    · simp [here, inner, Ne.symm here]

theorem strchr_found (whole : 0 ∉ s) (text : c ≠ 0) : strchr c (s ++ c :: t) ≠ none := by
  induction s with
  | nil => simp [strchr, text]
  | cons b s ih =>
    rw [cons_append, strchr, if_neg fun isZero : b = 0 => whole (isZero ▸ mem_cons_self ..)]
    split
    · exact Option.some_ne_none 0
    · rw [Ne, Option.map_eq_none_iff]
      exact ih (not_mem_of_not_mem_cons whole)

/-- Text without `c` does not make `strchr` succeed. -/
theorem strchr_append (before : strchr c s = none) (clean : c ∉ t) : strchr c (s ++ t) = none := by
  induction s with
  | nil =>
    cases found : strchr c ([] ++ t) with
    | none => rfl
    | some i =>
      obtain ⟨l, r, rfl, _⟩ := strchr_some found
      exact absurd (mem_append_right l (mem_cons_self ..)) clean
  | cons b s ih =>
    rw [strchr] at before
    rw [cons_append, strchr]
    split
    · rfl
    · rename_i text
      rw [if_neg text] at before
      split
      · rename_i here
        rw [if_pos here] at before
        cases before
      · rename_i other
        rw [if_neg other, Option.map_eq_none_iff] at before
        rw [ih before]
        rfl

end Strchr

/-- The inner loop of `grep` at `p`: what it writes, and `p` and the buffer after it. Each round
moves `p`, so as many rounds as there are bytes are enough. -/
def grepLines (re : List UInt8) : Nat → Nat → List UInt8 → List UInt8 × Nat × List UInt8
  | 0, p, buf => ([], p, buf)
  | rounds + 1, p, buf =>
    match strchr 10 (buf.drop p) with
    | none => ([], p, buf)
    | some i =>
      let q := p + i
      let cut := buf.set q 0
      let accepted := Grep.match re (cstring (cut.drop p))
      let buf' := if accepted then cut.set q 10 else cut
      let out := if accepted then (buf'.drop p).take (q + 1 - p) else []
      let (outs, p', buf'') := grepLines re rounds (q + 1) buf'
      (out ++ outs, p', buf'')

/-- One round of the loop of `grep`: `buf` holds the bytes kept, and `chunk` is what `read` returns. -/
def grepChunk (re buf chunk : List UInt8) : List UInt8 × List UInt8 :=
  let (out, p, buf) := grepLines re (buf ++ chunk).length 0 (buf ++ chunk)
  let m := if p = 0 then 0 else buf.length
  (out, if 0 < m then (buf.drop p).take (m - p) else buf.take m)

/-- The loop of `grep`, over what the calls of `read` return. -/
def grepLoop (re : List UInt8) : List UInt8 → List (List UInt8) → List UInt8
  | _, [] => []
  | buf, chunk :: chunks =>
    let (out, buf) := grepChunk re buf chunk
    out ++ grepLoop re buf chunks

/-- `grep`: the bytes it writes, where `chunks` is what `read` returns before the end of the file. -/
def grep (re : List UInt8) (chunks : List (List UInt8)) : List UInt8 := grepLoop re [] chunks

/-- `sizeof(buf)`. -/
def GREPBUF : Nat := 1024

/-- **What `read` may return**: at least one byte, and no more than `sizeof(buf) - m - 1`. -/
def Reads (re : List UInt8) : List UInt8 → List (List UInt8) → Prop
  | _, [] => True
  | buf, chunk :: chunks =>
    chunk ≠ [] ∧ chunk.length ≤ GREPBUF - buf.length - 1 ∧ Reads re (grepChunk re buf chunk).2 chunks

/-! ## What a round does -/

/-- `match` accepts the line. -/
def accepts (re l : List UInt8) : Bool := Grep.match re (cstring l)

theorem cstring_eq {l : List UInt8} (whole : 0 ∉ l) (t : List UInt8) : cstring (l ++ 0 :: t) = l := by
  rw [cstring, takeWhile_append_of_pos fun c inside => by simpa using fun isZero : c = 0 => whole (isZero ▸ inside)]
  simp

section Lines

variable {re buf chunk l t : List UInt8} {p : Nat}

theorem grepLines_none (rounds : Nat) (done : strchr 10 (buf.drop p) = none) : grepLines re rounds p buf = ([], p, buf) := by
  cases rounds with
  | zero => rfl
  | succ rounds => rw [grepLines, done]

/-- One line: it is written when `match` accepts it, and the loop goes on behind it. -/
theorem grepLines_some {i : Nat} (re : List UInt8) (rounds : Nat) (found : strchr 10 (buf.drop p) = some i) :
    ∃ l t buf', buf.drop p = l ++ 10 :: t ∧ 10 ∉ l ∧ 0 ∉ l ∧ buf'.drop (p + l.length + 1) = t ∧
      grepLines re (rounds + 1) p buf = ((if accepts re l then l ++ [10] else []) ++
        (grepLines re rounds (p + l.length + 1) buf').1, (grepLines re rounds (p + l.length + 1) buf').2) := by
  obtain ⟨l, t, parts, rfl, clean, whole⟩ := strchr_some found
  have cut : (buf.set (p + l.length) 0).drop p = l ++ 0 :: t := by
    rw [drop_set, if_neg (by omega), parts, Nat.add_sub_cancel_left, set_append_right _ _ (Nat.le_refl _)]
    simp
  have back : (buf.set (p + l.length) 10).drop p = l ++ 10 :: t := by
    rw [drop_set, if_neg (by omega), parts, Nat.add_sub_cancel_left,
      set_append_right _ _ (Nat.le_refl _)]
    simp
  have behind : buf.drop (p + l.length + 1) = t := by
    rw [Nat.add_assoc, ← drop_drop, parts]
    simp
  have same : accepts re l = Grep.match re (cstring ((buf.set (p + l.length) 0).drop p)) := by
    rw [cut, cstring_eq whole, accepts, cstring, takeWhile_eq_self_iff.2]
    simpa using fun c inside (isZero : c = 0) => whole (isZero ▸ inside)
  refine ⟨l, t, if accepts re l then (buf.set (p + l.length) 0).set (p + l.length) 10 else buf.set (p + l.length) 0,
    parts, clean, whole, ?_, ?_⟩
  · split <;> simp only [set_set, drop_set, if_pos (Nat.lt_succ_self _), behind]
  · rw [grepLines, found]
    simp only [← same]
    cases accepts re l with
    | false => rfl
    | true => simp [back, Nat.add_assoc, take_append, take_of_length_le]

/-- **What the inner loop does** from `p` on: it takes the lines `strchr` finds, and stops before a rest without one. -/
theorem grepLines_spec (re : List UInt8) : ∀ (n : Nat) (p : Nat) (buf : List UInt8), (buf.drop p).length ≤ n →
    ∃ ls t buf', buf.drop p = text 10 ls ++ t ∧ (∀ l ∈ ls, 10 ∉ l ∧ 0 ∉ l) ∧ strchr 10 t = none ∧
      buf'.drop (p + (text 10 ls).length) = t ∧
      grepLines re n p buf = (text 10 (ls.filter (accepts re)), p + (text 10 ls).length, buf') := by
  intro n
  induction n with
  | zero =>
    intro p buf short
    have empty : buf.drop p = [] := length_eq_zero_iff.1 (by omega)
    have done : strchr 10 (buf.drop p) = none := by rw [empty]; rfl
    exact ⟨[], buf.drop p, buf, by simp, by simp, done, by simp, by simpa using grepLines_none 0 done⟩
  | succ n ih =>
    intro p buf short
    cases found : strchr 10 (buf.drop p) with
    | none => exact ⟨[], buf.drop p, buf, by simp, by simp, found, by simp, by simpa using grepLines_none (n + 1) found⟩
    | some i =>
      obtain ⟨l, t, buf1, parts, clean, whole, behind, step⟩ := grepLines_some re n found
      have shorter : (buf1.drop (p + l.length + 1)).length ≤ n := by
        rw [parts, length_append, length_cons] at short
        rw [behind]
        omega
      obtain ⟨ls, r, buf2, rest, cleans, done, kept, run⟩ := ih _ _ shorter
      refine ⟨l :: ls, r, buf2, ?_, ?_, done, ?_, ?_⟩
      · rw [parts, ← behind, rest, text_cons, append_assoc, cons_append]
      · exact fun k inside => (mem_cons.1 inside).elim (fun same => same ▸ ⟨clean, whole⟩) (cleans k)
      · rw [← kept]
        simp only [text_cons, length_append, length_cons]
        congr 1
        omega
      · rw [step, run]
        cases here : accepts re l with
        | false => simp [here]; omega
        | true => simp [here]; omega

/-- **What a round does**: the lines found are taken, and the rest is kept unless there was none. -/
theorem grepChunk_spec (re buf chunk : List UInt8) :
    ∃ ls t, buf ++ chunk = text 10 ls ++ t ∧ (∀ l ∈ ls, 10 ∉ l ∧ 0 ∉ l) ∧ strchr 10 t = none ∧
      grepChunk re buf chunk = (text 10 (ls.filter (accepts re)), if ls = [] then [] else t) := by
  obtain ⟨ls, t, buf', parts, clean, done, kept, run⟩ := grepLines_spec re (buf ++ chunk).length 0 (buf ++ chunk) (Nat.le_refl _)
  refine ⟨ls, t, parts, clean, done, ?_⟩
  rw [grepChunk, run]
  rw [Nat.zero_add] at kept ⊢
  cases ls with
  | nil => simp
  | cons l ls =>
    have length : t.length = buf'.length - (text 10 (l :: ls)).length := by rw [← kept, length_drop]
    have found : (text 10 (l :: ls)).length ≠ 0 := by simp
    simp only [if_neg found, kept, ← length, take_length, reduceCtorEq, if_false]
    split
    · rfl
    · have empty : buf' = [] := length_eq_zero_iff.1 (by omega)
      rw [← kept, empty, drop_nil]

end Lines

/-! ## Whole runs -/

section Loop

variable {re : List UInt8}

/-- **Every chunk with a newline, and no NUL**: the lines accepted are written. -/
theorem grepLoop_lines : ∀ (chunks : List (List UInt8)) (buf : List UInt8) (ls : List (List UInt8)), 10 ∉ buf →
    buf ++ chunks.flatten = text 10 ls → (∀ l ∈ ls, 10 ∉ l) → (∀ l ∈ ls, 0 ∉ l) → (∀ chunk ∈ chunks, 10 ∈ chunk) →
      grepLoop re buf chunks = text 10 (ls.filter (accepts re)) := by
  intro chunks
  induction chunks with
  | nil =>
    intro buf ls clean input _ _ _
    rw [flatten_nil, append_nil] at input
    have none : ls = [] := eq_nil_of_not_mem (input ▸ clean)
    rw [none]
    rfl
  | cons chunk chunks ih =>
    intro buf ls clean input lines whole newlines
    obtain ⟨ks, t, parts, found, done, run⟩ := grepChunk_spec re buf chunk
    rw [flatten_cons, ← append_assoc, parts, append_assoc] at input
    obtain ⟨ms, rfl, rest⟩ := text_cancel (fun k inside => (found k inside).1) lines input
    have wholeT : 0 ∉ t := fun inside =>
      (not_mem_text (by decide)).2 whole (input ▸ mem_append_right _ (mem_append_left _ inside))
    have cleanT : 10 ∉ t := (strchr_none wholeT).1 done
    have some : ks ≠ [] := by
      rintro rfl
      exact cleanT ((show buf ++ chunk = t from parts) ▸ mem_append_right buf (newlines chunk (mem_cons_self ..)))
    have tail := ih t ms cleanT rest (fun l inside => lines l (mem_append_right _ inside))
      (fun l inside => whole l (mem_append_right _ inside)) fun c inside => newlines c (mem_cons_of_mem _ inside)
    simp only [grepLoop, run, if_neg some, tail, text, filter_append, flatMap_append]

theorem Reads.nonempty : ∀ {chunks : List (List UInt8)} {buf : List UInt8}, Reads re buf chunks → ∀ chunk ∈ chunks, chunk ≠ [] := by
  intro chunks
  induction chunks with
  | nil => exact fun _ chunk inside => absurd inside not_mem_nil
  | cons c chunks ih =>
    intro buf reads chunk inside
    rcases mem_cons.1 inside with rfl | later
    · exact reads.1
    · exact ih reads.2.2 chunk later

/-- No NUL is ever written. -/
theorem grepLoop_whole : ∀ (chunks : List (List UInt8)) (buf : List UInt8), 0 ∉ grepLoop re buf chunks := by
  intro chunks
  induction chunks with
  | nil => exact fun buf => not_mem_nil
  | cons chunk chunks ih =>
    intro buf
    obtain ⟨ls, t, _, found, _, run⟩ := grepChunk_spec re buf chunk
    rw [grepLoop, run]
    intro inside
    refine (mem_append.1 inside).elim ((not_mem_text (by decide)).2 fun l taken => ?_) (ih _)
    exact (found l (mem_filter.1 taken).1).2

/-- **A chunk without a newline is lost**: a pattern that accepts every line writes less than was read. -/
theorem grepLoop_lost (all : ∀ l, accepts re l = true) : ∀ (chunks : List (List UInt8)) (buf : List UInt8),
    strchr 10 buf = none → (∀ chunk ∈ chunks, chunk ≠ []) →
      (grepLoop re buf chunks).length ≤ (buf ++ chunks.flatten).length ∧
        ((∃ chunk ∈ chunks, 10 ∉ chunk) → (grepLoop re buf chunks).length < (buf ++ chunks.flatten).length) := by
  intro chunks
  induction chunks with
  | nil => exact fun buf _ _ => ⟨Nat.zero_le _, by simp⟩
  | cons chunk chunks ih =>
    intro buf none nonempty
    obtain ⟨ls, t, parts, found, done, run⟩ := grepChunk_spec re buf chunk
    have taken : ls.filter (accepts re) = ls := filter_eq_self.2 fun l _ => all l
    have length := congrArg length parts
    have positive := length_pos_iff.2 (nonempty chunk (mem_cons_self ..))
    have rest := fun b done => ih b done fun c inside => nonempty c (mem_cons_of_mem _ inside)
    simp only [grepLoop, run, taken, length_append, flatten_cons] at length rest ⊢
    cases ls with
    | nil =>
      have inner := (rest [] rfl).1
      simp only [text_nil, if_true, length_nil] at length inner ⊢
      exact ⟨by omega, fun _ => by omega⟩
    | cons l ls =>
      have inner := rest t done
      simp only [reduceCtorEq, if_false]
      refine ⟨by omega, ?_⟩
      rintro ⟨c, inside, clean⟩
      rcases mem_cons.1 inside with rfl | later
      · -- the newline found would be one of the chunk
        have nothing := strchr_append none clean
        rw [parts, text_cons, append_assoc] at nothing
        exact absurd nothing (strchr_found (found l (mem_cons_self ..)).2 (by decide))
      · have less := inner.2 ⟨c, later, clean⟩
        omega

end Loop

theorem accepts_nil (l : List UInt8) : accepts [] l = true := by
  rw [accepts]
  cases cstring l <;> rfl

/-- **What `grep` writes over all patterns** is right exactly when no byte is NUL and every
chunk that `read` returns holds a newline. -/
theorem grep_lines_iff {re : List UInt8} {ls chunks : List (List UInt8)} (lines : ∀ l ∈ ls, 10 ∉ l)
    (input : chunks.flatten = text 10 ls) (reads : Reads re [] chunks) :
    (∀ re, grep re chunks = text 10 (ls.filter (accepts re))) ↔
      (∀ l ∈ ls, 0 ∉ l) ∧ ∀ chunk ∈ chunks, 10 ∈ chunk := by
  constructor
  · intro right
    have all : grep [] chunks = text 10 ls := by
      rw [right [], List.filter_eq_self.2 fun l _ => accepts_nil l]
    have whole : 0 ∉ text 10 ls := fun inside => grepLoop_whole chunks [] (all ▸ inside)
    refine ⟨(not_mem_text (by decide)).1 whole, fun chunk inside => ?_⟩
    by_contra clean
    have less := (grepLoop_lost accepts_nil chunks [] rfl reads.nonempty).2 ⟨chunk, inside, clean⟩
    rw [List.nil_append, input] at less
    exact absurd (congrArg List.length all) (by rw [grep]; omega)
  · rintro ⟨whole, newlines⟩ re
    exact grepLoop_lines chunks [] ls List.not_mem_nil input lines whole newlines

/-- The lines `b` and `ab`, read as `b`, newline, `a` and as `b`, newline. -/
theorem grep_lines_pair :
    Reads [97] [] [[98, 10, 97], [98, 10]] ∧
      ∀ re, grep re [[98, 10, 97], [98, 10]] = text 10 ([[98], [97, 98]].filter (accepts re)) := by
  have reads : Reads [97] [] [[98, 10, 97], [98, 10]] := ⟨by decide, by decide, by decide, by decide, trivial⟩
  have input : [[98, 10, 97], [98, 10]].flatten = text (10 : UInt8) [[98], [97, 98]] := rfl
  exact ⟨reads, (grep_lines_iff (by simp) input reads).2 (by simp)⟩

/-- The line `ab`, of which `read` returns one byte at first: `grep a` writes nothing. -/
theorem grep_loses_line :
    ∃ (re : List UInt8) (ls chunks : List (List UInt8)), (∀ l ∈ ls, 10 ∉ l ∧ l.length ≤ 1022) ∧ chunks.flatten = text 10 ls ∧
      Reads re [] chunks ∧ grep re chunks ≠ text 10 (ls.filter (accepts re)) := by
  refine ⟨[97], [[97, 98]], [[97], [98, 10]], by simp, rfl, ?_, by decide⟩
  exact ⟨by decide, by decide, by decide, by decide, trivial⟩

end Xv6
