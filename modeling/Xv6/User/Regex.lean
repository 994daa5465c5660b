import Mathlib.Computability.Language
import Xv6.User.Grep

/-!
# The matcher of `grep`

The matcher over its two NUL-terminated strings, as the code reads them: a read behind a
terminator has no result. It agrees with the matcher on lists, and that one with the
language of the pattern.
-/

namespace Xv6
open List

/-! ## Pointers -/

/-- The byte at index `i` of a string, with its terminator; there is nothing behind it. -/
def byteAt (s : List UInt8) (i : Nat) : Option UInt8 := (s ++ [0])[i]?

/-- The loops of `match` and `matchstar`: try `here`, and go on while `more` accepts the byte. -/
def tryLoop (text : List UInt8) (here : Nat → Option Bool) (more : UInt8 → Bool) : Nat → Nat → Option Bool
  | 0, _ => none
  | fuel + 1, j => do
    if ← here j then return true
    if more (← byteAt text j) then tryLoop text here more fuel (j + 1) else return false

/-- `matchhere` at `re + i` and `text + j`, with a bound on nested calls and on the rounds of `matchstar`. -/
def matchhereAt (re text : List UInt8) : Nat → Nat → Nat → Option Bool
  | 0, _, _ => none
  | fuel + 1, i, j => do
    let r ← byteAt re i
    if r = 0 then return true
    let s ← byteAt re (i + 1)
    if s = 42 then tryLoop text (matchhereAt re text fuel (i + 2)) (fun t => t ≠ 0 && (t = r || r = 46)) fuel j
    else
      let t ← byteAt text j
      if r = 36 ∧ s = 0 then return t = 0
      if t ≠ 0 ∧ (r = 46 ∨ r = t) then matchhereAt re text fuel (i + 1) (j + 1) else return false

/-- `match`. -/
def matchAt (re text : List UInt8) (fuel : Nat) : Option Bool := do
  if (← byteAt re 0) = 94 then matchhereAt re text fuel 1 0
  else tryLoop text (matchhereAt re text fuel 0) (fun t => t ≠ 0) fuel 0

section Pointers

variable {s re text : List UInt8} {i j fuel : Nat}

theorem byteAt_end (i : Nat) (isEnd : s.drop i = []) (inside : i ≤ s.length) : byteAt s i = some 0 := by
  have last : i = s.length := Nat.le_antisymm inside (drop_eq_nil_iff.1 isEnd)
  rw [byteAt, last, getElem?_concat_length]

theorem byteAt_cons {b : UInt8} {l : List UInt8} (rest : s.drop i = b :: l) : byteAt s i = some b ∧ s.drop (i + 1) = l ∧ i + 1 ≤ s.length := by
  have less : i < s.length := by
    by_contra past
    rw [drop_eq_nil_of_le (Nat.not_lt.1 past)] at rest
    cases rest
  rw [drop_eq_getElem_cons less] at rest
  cases rest
  exact ⟨by rw [byteAt, getElem?_append_left less, getElem?_eq_getElem less], rfl, less⟩

theorem ne_zero_of_drop {b : UInt8} {l : List UInt8} (clean : 0 ∉ s) (rest : s.drop i = b :: l) : b ≠ 0 := by
  rintro rfl
  exact clean (mem_of_mem_drop (rest ▸ mem_cons_self ..))

/-- **The loops end**, at the terminator at the latest. -/
theorem tryLoop_eq {here : Nat → Option Bool} {more : UInt8 → Bool} (on out : List UInt8 → Bool)
    (calls : ∀ j ≤ text.length, here j = some (on (text.drop j))) (stop : more 0 = false) (nil : out [] = on [])
    (cons : ∀ t l, t ≠ 0 → out (t :: l) = (on (t :: l) || (more t && out l))) (clean : 0 ∉ text) :
    ∀ {fuel j : Nat}, j ≤ text.length → text.length < j + fuel → tryLoop text here more fuel j = some (out (text.drop j)) := by
  intro fuel
  induction fuel with
  | zero =>
    intro j inside enough
    omega
  | succ fuel ih =>
    intro j inside enough
    rw [tryLoop, calls j inside]
    cases rest : text.drop j with
    | nil =>
      rw [byteAt_end j rest inside, nil]
      cases on [] <;> simp [stop]
    | cons t l =>
      obtain ⟨read, next, less⟩ := byteAt_cons rest
      rw [read, cons t l (ne_zero_of_drop clean rest)]
      cases on (t :: l) with
      | true => rfl
      | false =>
        have later := ih less (by omega)
        rw [next] at later
        cases go : more t <;> simp [go, later]

theorem matchhere_more (r q : UInt8) (l text : List UInt8) :
    matchhere (r :: q :: l) text =
      if q = 42 then matchstar r (matchhere l) text
      else
        match text with
        | [] => false
        | t :: text => (r = 46 || r = t) && matchhere (q :: l) text := by
  exact matchhere.eq_def ..

/-- **`matchhere` returns** what the matcher on lists does, and reads behind neither terminator. -/
theorem matchhereAt_eq (cleanRe : 0 ∉ re) (clean : 0 ∉ text) : ∀ {fuel i j : Nat}, i ≤ re.length → j ≤ text.length →
    re.length + text.length + 2 ≤ i + fuel → matchhereAt re text fuel i j = some (matchhere (re.drop i) (text.drop j)) := by
  intro fuel
  induction fuel with
  | zero =>
    intro i j inRe _ enough
    omega
  | succ fuel ih =>
    intro i j inRe inText enough
    rw [matchhereAt]
    cases restRe : re.drop i with
    | nil =>
      rw [byteAt_end i restRe inRe]
      rfl
    | cons r l =>
      obtain ⟨readR, nextRe, less⟩ := byteAt_cons restRe
      have isR := ne_zero_of_drop cleanRe restRe
      rw [readR]
      simp only [Option.bind_eq_bind, Option.bind_some, if_neg isR]
      cases l with
      | nil =>
        rw [byteAt_end (i + 1) nextRe less]
        cases rest : text.drop j with
        | nil =>
          rw [byteAt_end j rest inText]
          by_cases dollar : r = 36 <;> simp [matchhere, dollar]
        | cons t text' =>
          obtain ⟨read, next, lessT⟩ := byteAt_cons rest
          have isT := ne_zero_of_drop clean rest
          have done := ih less lessT (by omega)
          rw [nextRe, next] at done
          rw [read]
          by_cases dollar : r = 36
          · simp [matchhere, dollar, isT]
          · by_cases fits : r = 46 ∨ r = t
            · simp [matchhere, dollar, isT, fits, done]
            · simp [matchhere, dollar, isT, not_or.1 fits]
      | cons q l =>
        obtain ⟨readQ, nextQ, lessQ⟩ := byteAt_cons nextRe
        have isQ := ne_zero_of_drop cleanRe nextRe
        rw [readQ]
        simp only [Option.bind_some]
        by_cases star : q = 42
        · rw [if_pos star, matchhere_more, if_pos star, ← nextQ]
          have calls : ∀ j ≤ text.length, matchhereAt re text fuel (i + 2) j = some (matchhere (re.drop (i + 1 + 1)) (text.drop j)) :=
            fun j inside => ih lessQ inside (by omega)
          refine tryLoop_eq _ (matchstar r _) calls (by simp) rfl (fun t l isT => ?_) clean inText (by omega)
          simp [matchstar, isT]
        · rw [if_neg star, matchhere_more, if_neg star]
          cases rest : text.drop j with
          | nil =>
            rw [byteAt_end j rest inText]
            simp [isQ]
          | cons t text' =>
            obtain ⟨read, next, lessT⟩ := byteAt_cons rest
            have isT := ne_zero_of_drop clean rest
            have done := ih less lessT (by omega)
            rw [nextRe, next] at done
            rw [read]
            by_cases fits : r = 46 ∨ r = t
            · simp [isQ, isT, fits, done]
            · simp [isQ, isT, not_or.1 fits]

theorem matchAt_eq (cleanRe : 0 ∉ re) (clean : 0 ∉ text) (enough : re.length + text.length + 2 ≤ fuel) :
    matchAt re text fuel = some (Grep.match re text) := by
  have any : tryLoop text (matchhereAt re text fuel 0) (fun t => t ≠ 0) fuel 0 = some (matchAny (matchhere re) text) := by
    have calls : ∀ j ≤ text.length, matchhereAt re text fuel 0 j = some (matchhere re (text.drop j)) := fun j inside =>
      matchhereAt_eq cleanRe clean (Nat.zero_le _) inside (by omega)
    refine tryLoop_eq _ (matchAny _) calls (by simp) rfl (fun t l isT => ?_) clean (Nat.zero_le _) (by omega)
    simp [matchAny, isT]
  unfold matchAt Grep.match
  cases re with
  | nil => exact any
  | cons r l =>
    rw [(byteAt_cons (i := 0) (show (r :: l).drop 0 = r :: l from rfl)).1]
    by_cases caret : r = 94
    · have here : matchhereAt (r :: l) text fuel 1 0 = some (matchhere l text) :=
        matchhereAt_eq cleanRe clean (Nat.le_add_left ..) (Nat.zero_le _) (by omega)
      rw [caret] at here ⊢
      exact here
    · simp only [Option.bind_eq_bind, Option.bind_some, head?_cons, Option.some.injEq, caret, if_false]
      exact any

end Pointers

/-! ## The language of a pattern -/

/-- One item of a pattern: a byte, which stands for every byte if it is `'.'`, and whether a `'*'` follows. -/
structure Item where
  byte : UInt8
  star : Bool

/-- The texts of one byte that an item's byte stands for. -/
def Item.one (x : Item) : Language UInt8 := { w | ∃ t, w = [t] ∧ (x.byte = 46 ∨ x.byte = t) }

def Item.lang (x : Item) : Language UInt8 := if x.star then KStar.kstar x.one else x.one

/-- The items of a pattern, and whether it ends with a `'$'` at an item's place without a `'*'`. -/
def items : List UInt8 → List Item × Bool
  | [] => ([], false)
  | [r] => if r = 36 then ([], true) else ([⟨r, false⟩], false)
  | r :: s :: re =>
    if s = 42 then (⟨r, true⟩ :: (items re).1, (items re).2) else (⟨r, false⟩ :: (items (s :: re)).1, (items (s :: re)).2)

/-- A start of the text is in `L`, the whole text if the pattern is anchored at the end. -/
def Starts (L : Language UInt8) (atEnd : Bool) (text : List UInt8) : Prop :=
  ∃ mid post, text = mid ++ post ∧ mid ∈ L ∧ (atEnd → post = [])

def itemsLang (re : List UInt8) : Language UInt8 := ((items re).1.map Item.lang).prod

section Languages

variable {x : Item} {L M : Language UInt8} {e : Bool} {t : UInt8} {text re : List UInt8}

theorem starts_one : Starts 1 e text ↔ (e → text = []) := by
  constructor
  · rintro ⟨mid, post, rfl, empty, ends⟩ isEnd
    rw [Language.mem_one] at empty
    rw [empty, ends isEnd]
    rfl
  · exact fun ends => ⟨[], text, rfl, Language.nil_mem_one, ends⟩

theorem starts_add : Starts (L + M) e text ↔ Starts L e text ∨ Starts M e text := by
  simp only [Starts, Language.mem_add, or_and_right, and_or_left, exists_or]

theorem starts_nil : ¬ Starts (x.one * L) e [] := by
  rintro ⟨mid, post, parts, inside, _⟩
  obtain ⟨a, ⟨t, rfl, _⟩, b, _, rfl⟩ := Language.mem_mul.1 inside
  cases parts

theorem starts_cons : Starts (x.one * L) e (t :: text) ↔ (x.byte = 46 ∨ x.byte = t) ∧ Starts L e text := by
  constructor
  · rintro ⟨mid, post, parts, inside, ends⟩
    obtain ⟨a, ⟨u, rfl, fits⟩, b, inL, rfl⟩ := Language.mem_mul.1 inside
    cases parts
    exact ⟨fits, b, post, rfl, inL, ends⟩
  · rintro ⟨fits, mid, post, rfl, inL, ends⟩
    exact ⟨t :: mid, post, rfl, Language.mem_mul.2 ⟨[t], ⟨t, rfl, fits⟩, mid, inL, rfl⟩, ends⟩

/-- A starred item takes nothing, or one byte and is tried again. -/
theorem starts_star : Starts (KStar.kstar x.one * L) e text ↔ Starts L e text ∨ Starts (x.one * (KStar.kstar x.one * L)) e text := by
  rw [← starts_add, ← mul_assoc, ← one_add_mul, Language.one_add_self_mul_kstar_eq_kstar]

theorem matchstar_starts {here : List UInt8 → Bool} (b : Bool) (c : UInt8) (starts : ∀ text, here text = true ↔ Starts L e text) :
    ∀ text, matchstar c here text = true ↔ Starts (KStar.kstar (Item.one ⟨c, b⟩) * L) e text := by
  intro text
  induction text with
  | nil =>
    rw [matchstar, starts, starts_star]
    exact (or_iff_left starts_nil).symm
  | cons t text ih =>
    refine Iff.trans ?_ starts_star.symm
    rw [matchstar, Bool.or_eq_true, Bool.and_eq_true, starts, ih, starts_cons, Bool.or_eq_true, decide_eq_true_iff,
      decide_eq_true_iff, or_comm (a := t = c), eq_comm (a := t)]

/-- **`matchhere` decides** whether the text starts with a text of the pattern's language. -/
theorem matchhere_starts : ∀ text, matchhere re text = true ↔ Starts (itemsLang re) (items re).2 text := by
  induction re using items.induct with
  | case1 =>
    intro text
    exact iff_of_true (by rw [matchhere]) (starts_one.2 fun isEnd => by cases isEnd)
  | case2 =>
    intro text
    exact (by simp [matchhere] : matchhere [36] text = true ↔ text = []).trans
      ((starts_one (e := true)).trans ⟨fun ends => ends rfl, fun ends _ => ends⟩).symm
  | case3 r other =>
    intro text
    have lang : itemsLang [r] = Item.one ⟨r, false⟩ * 1 := by simp [itemsLang, items, other, Item.lang]
    have free : (items [r]).2 = false := by simp [items, other]
    rw [lang, free]
    cases text with
    | nil => exact iff_of_false (by simp [matchhere, other]) starts_nil
    | cons t text =>
      rw [starts_cons, starts_one]
      simp [matchhere, other]
  | case4 r re ih =>
    intro text
    have lang : itemsLang (r :: 42 :: re) = KStar.kstar (Item.one ⟨r, true⟩) * itemsLang re := by simp [itemsLang, items, Item.lang]
    have same : (items (r :: 42 :: re)).2 = (items re).2 := by simp [items]
    rw [matchhere_more, if_pos rfl, lang, same]
    exact matchstar_starts true r ih text
  | case5 r q re other ih =>
    intro text
    have lang : itemsLang (r :: q :: re) = Item.one ⟨r, false⟩ * itemsLang (q :: re) := by
      simp [itemsLang, items, other, Item.lang]
    have same : (items (r :: q :: re)).2 = (items (q :: re)).2 := by simp [items, other]
    rw [matchhere_more, if_neg other, lang, same]
    cases text with
    | nil => exact iff_of_false (by simp) starts_nil
    | cons t text =>
      rw [starts_cons, ← ih text]
      simp

theorem matchAny_eq (here : List UInt8 → Bool) : matchAny here text = text.tails.any here := by
  induction text with
  | nil => simp [matchAny]
  | cons t text ih => simp [matchAny, ih]

end Languages

/-- The pattern behind a leading `'^'`. -/
def body (re : List UInt8) : List UInt8 := if re.head? = some 94 then re.tail else re

/-- **What a pattern means**: a substring of the text is in its language, at the start of the text if the pattern
begins with `'^'`, and at its end if it ends with an unstarred `'$'`. -/
def Matches (re text : List UInt8) : Prop :=
  ∃ pre mid post, text = pre ++ (mid ++ post) ∧ mid ∈ itemsLang (body re) ∧ (re.head? = some 94 → pre = []) ∧
    ((items (body re)).2 → post = [])

theorem match_iff (re text : List UInt8) : Grep.match re text = true ↔ Matches re text := by
  unfold Grep.match Matches body
  by_cases caret : re.head? = some 94
  · simp only [if_pos caret]
    rw [matchhere_starts]
    constructor
    · rintro ⟨mid, post, parts, inside, ends⟩
      exact ⟨[], mid, post, parts, inside, fun _ => rfl, ends⟩
    · rintro ⟨pre, mid, post, parts, inside, start, ends⟩
      rw [start caret] at parts
      exact ⟨mid, post, parts, inside, ends⟩
  · simp only [if_neg caret]
    rw [matchAny_eq, List.any_eq_true]
    constructor
    · rintro ⟨rest, suffix, found⟩
      obtain ⟨pre, parts⟩ := (mem_tails _ _).1 suffix
      obtain ⟨mid, post, rfl, inside, ends⟩ := (matchhere_starts rest).1 found
      exact ⟨pre, mid, post, parts.symm, inside, fun is => absurd is caret, ends⟩
    · rintro ⟨pre, mid, post, parts, inside, _, ends⟩
      exact ⟨mid ++ post, (mem_tails _ _).2 ⟨pre, parts.symm⟩, (matchhere_starts _).2 ⟨mid, post, rfl, inside, ends⟩⟩

/-- **The regular-expression matcher**: for every pattern and text, `match` returns, without a read behind either
terminator, and says whether the text matches. -/
theorem match_language {re text : List UInt8} (cleanRe : 0 ∉ re) (clean : 0 ∉ text) :
    ∀ fuel ≥ re.length + text.length + 2, ∃ b, matchAt re text fuel = some b ∧ (b = true ↔ Matches re text) :=
  fun _ enough => ⟨_, matchAt_eq cleanRe clean enough, match_iff re text⟩

/-- `^a*b$` on `aab`. -/
theorem match_language_anchored :
    matchAt [94, 97, 42, 98, 36] [97, 97, 98] 10 = some true ∧ Matches [94, 97, 42, 98, 36] [97, 97, 98] := by
  obtain ⟨b, run, means⟩ := @match_language [94, 97, 42, 98, 36] [97, 97, 98] (by decide) (by decide) 10 (by decide)
  have found : matchAt [94, 97, 42, 98, 36] [97, 97, 98] 10 = some true := by decide
  exact ⟨found, means.1 (Option.some.inj (run.symm.trans found))⟩

end Xv6
