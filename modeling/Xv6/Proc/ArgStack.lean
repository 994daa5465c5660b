import Xv6.Proc.Copyout
import Xv6.Proc.ExecRoom

/-!
# The argument stack

`exec` pushes the argument strings, each at a multiple of 4, and below them the vector of
pointers and three words. The page below the stack page of a new image is not mapped, so a
push that leaves the stack page cannot succeed: the pushes that do succeed write one page,
at falling addresses, and what was pushed before stays.
-/

namespace Xv6
open RefCount Fallible List

variable {ss : List (List UInt8)}

/-- The first address of the stack page. -/
def stackBase : Nat := USERSTACKTOP - PGSIZE

/-! ## What the program is to find -/

/-- The little-endian word that is read at `a`. -/
def readWord (read : Nat → Option UInt8) (a : Nat) : Option Nat := do
  let b0 ← read a
  let b1 ← read (a + 1)
  let b2 ← read (a + 2)
  let b3 ← read (a + 3)
  pure (b0.toNat + 256 * b1.toNat + 256 ^ 2 * b2.toNat + 256 ^ 3 * b3.toNat)

/-- The bytes at `a` are `l`. -/
def ReadsBytes (read : Nat → Option UInt8) (a : Nat) (l : List UInt8) : Prop := ∀ o < l.length, read (a + o) = l[o]?

/-- The strings `ss` stand at the aligned addresses `ps`, each with a 0 behind it, inside
`[lo, hi)` and apart from each other. -/
structure ArgStrings (read : Nat → Option UInt8) (lo hi : Nat) (ss : List (List UInt8)) (ps : List Nat) : Prop where
  count : ps.length = ss.length
  each : ∀ (i p : Nat) s, ps[i]? = some p → ss[i]? = some s →
    p % 4 = 0 ∧ lo ≤ p ∧ p + (s.length + 1) ≤ hi ∧ ReadsBytes read p (s ++ [0])
  apart : ∀ (i j p q : Nat) t, i < j → ps[i]? = some p → ps[j]? = some q → ss[j]? = some t → q + (t.length + 1) ≤ p

/-- The stack that `main` starts with. -/
structure Delivered (read : Nat → Option UInt8) (esp : Nat) (argv : List (List UInt8)) (ptrs : List Nat) : Prop where
  aligned : esp % 4 = 0
  inside : stackBase ≤ esp
  returnPc : readWord read esp = some 0xffffffff
  argc : readWord read (esp + 4) = some argv.length
  vector : readWord read (esp + 8) = some (esp + 12)
  pointers : ∀ i p, ptrs[i]? = some p → readWord read (esp + 12 + 4 * i) = some p
  null : readWord read (esp + 12 + 4 * argv.length) = some 0
  strings : ArgStrings read (esp + 12 + 4 * (argv.length + 1)) USERSTACKTOP argv ptrs

/-- The space of a string with its 0, up to a multiple of 4. -/
def argSize (s : List UInt8) : Nat := (s.length + 1 + 3) / 4 * 4

/-- Where strings pushed below `sp` stand. -/
def argPtrs : List (List UInt8) → Nat → List Nat
  | [], _ => []
  | s :: ss, sp => (sp - argSize s) :: argPtrs ss (sp - argSize s)

/-- The space that the arguments take. -/
def argSpace (argv : List (List UInt8)) : Nat := (argv.map argSize).sum + 4 * (argv.length + 4)

theorem argPtrs_length (ss : List (List UInt8)) (sp : Nat) : (argPtrs ss sp).length = ss.length := by
  induction ss generalizing sp with
  | nil => rfl
  | cons s ss ih => rw [argPtrs, length_cons, length_cons, ih]

section Words

variable {read : Nat → Option UInt8}

theorem wordBytes_length (w : Nat) : (wordBytes w).length = 4 := by
  rw [wordBytes, length_map, length_range]

theorem words_length (ws : List Nat) : (ws.flatMap wordBytes).length = 4 * ws.length := by
  induction ws with
  | nil => rfl
  | cons w ws ih =>
    rw [flatMap_cons, length_append, ih, length_cons]
    simp only [wordBytes, length_map, length_range]
    omega

theorem readWord_bytes {a w : Nat} (small : w < 2 ^ 32) (bytes : ReadsBytes read a (wordBytes w)) :
    readWord read a = some w := by
  have b0 := bytes 0 (by rw [wordBytes_length]; decide)
  have b1 := bytes 1 (by rw [wordBytes_length]; decide)
  have b2 := bytes 2 (by rw [wordBytes_length]; decide)
  have b3 := bytes 3 (by rw [wordBytes_length]; decide)
  rw [Nat.add_zero] at b0
  rw [readWord, b0, b1, b2, b3]
  show some _ = some w
  congr 1
  simp only [UInt8.toNat_ofNat']
  omega

/-- A word of a vector of words. -/
theorem ReadsBytes.word {ws : List Nat} : ∀ {a : Nat}, ReadsBytes read a (ws.flatMap wordBytes) → (∀ w ∈ ws, w < 2 ^ 32) →
    ∀ {k w : Nat}, ws[k]? = some w → readWord read (a + 4 * k) = some w := by
  induction ws with
  | nil =>
    intro a _ _ k w isWord
    simp at isWord
  | cons v ws ih =>
    intro a bytes small k w isWord
    have length := wordBytes_length v
    rw [flatMap_cons] at bytes
    cases k with
    | zero =>
      cases isWord
      apply readWord_bytes (small _ (mem_cons_self ..))
      intro o inside
      rw [← getElem?_append_left inside]
      exact bytes o (by rw [length_append]; omega)
    | succ k =>
      rw [show a + 4 * (k + 1) = a + 4 + 4 * k by omega]
      apply ih _ (fun w mem => small w (mem_cons_of_mem _ mem)) isWord
      intro o inside
      have byte := bytes (4 + o) (by rw [length_append]; omega)
      rw [getElem?_append_right (by omega), length, Nat.add_sub_cancel_left, ← Nat.add_assoc] at byte
      exact byte

/-- One more string below. -/
theorem ArgStrings.cons {lo hi p : Nat} {s : List UInt8} {ps : List Nat} (rest : ArgStrings read lo p ss ps)
    (aligned : p % 4 = 0) (low : lo ≤ p) (high : p + (s.length + 1) ≤ hi) (bytes : ReadsBytes read p (s ++ [0])) :
    ArgStrings read lo hi (s :: ss) (p :: ps) where
  count := by rw [length_cons, length_cons, rest.count]
  each := by
    intro i q t isPtr isString
    cases i with
    | zero =>
      cases isPtr
      cases isString
      exact ⟨aligned, low, high, bytes⟩
    | succ i =>
      obtain ⟨aligned', low', high', bytes'⟩ := rest.each i q t isPtr isString
      exact ⟨aligned', low', by omega, bytes'⟩
  apart := by
    intro i j q r t less isFirst isSecond isString
    obtain ⟨j, rfl⟩ := Nat.exists_eq_succ_of_ne_zero (Nat.ne_zero_of_lt less)
    cases i with
    | zero =>
      cases isFirst
      exact (rest.each j r t isSecond isString).2.2.1
    | succ i => exact rest.apart i j q r t (Nat.lt_of_succ_lt_succ less) isFirst isSecond isString

end Words

/-! ## One push -/

/-- The stack page `f` of a new image, with nothing mapped below it. -/
structure PgDir.StackPage (d : PgDir) (f : Nat) : Prop where
  user : d.UserAt stackBase
  addr : (d.pte (NUPAGES - 1)).addr = f
  gap : (d.pte (NUPAGES - 2)).p = false

/-- The pointer after a push of `n` bytes below `sp`. -/
def pushed (sp n : Nat) : Nat := sub32 sp n / 4 * 4

/-- `n` up to a multiple of 4. -/
def round4 (n : Nat) : Nat := (n + 3) / 4 * 4

section Push

variable {sp n : Nat}

theorem pushed_fits (low : stackBase ≤ sp) (high : sp ≤ USERSTACKTOP) (aligned : sp % 4 = 0) (fits : stackBase + round4 n ≤ sp) :
    pushed sp n = sp - round4 n := by
  simp only [pushed, round4, sub32, stackBase, USERSTACKTOP, PGSIZE] at *
  omega

/-- A push that does not fit covers a byte of the page below the stack page. -/
theorem pushed_past (low : stackBase ≤ sp) (high : sp ≤ USERSTACKTOP) (aligned : sp % 4 = 0) (pos : 0 < n)
    (past : sp < stackBase + round4 n) : ∃ i < n, add32 (pushed sp n) i / PGSIZE = NUPAGES - 2 := by
  rcases Nat.lt_or_ge sp (stackBase + 4) with bottom | above
  · -- nothing fits: the last byte lies below the page
    refine ⟨n - 1, by omega, ?_⟩
    simp only [pushed, round4, add32, sub32, stackBase, USERSTACKTOP, PGSIZE, NUPAGES] at *
    omega
  · refine ⟨sub32 (stackBase - 1) (pushed sp n), ?_, ?_⟩
    · simp only [pushed, round4, sub32, stackBase, USERSTACKTOP, PGSIZE] at *
      omega
    · simp only [pushed, add32, sub32, stackBase, USERSTACKTOP, PGSIZE, NUPAGES] at *
      omega

variable {d : PgDir} {f : Nat} {buf : List UInt8} {km km' : Kmem}

/-- A push that fits writes the stack page. -/
theorem PgDir.StackPage.push (stack : d.StackPage f) (some_ : buf ≠ []) (low : stackBase ≤ sp) (high : sp ≤ USERSTACKTOP)
    (aligned : sp % 4 = 0) (fits : stackBase + round4 buf.length ≤ sp) (km : Kmem) :
    copyout d (pushed sp buf.length) buf km =
      .ok (true, km.store f (sp - round4 buf.length - stackBase) buf) := by
  rw [pushed_fits low high aligned fits]
  have length := length_pos_of_ne_nil some_
  have down : PGROUNDDOWN (sp - round4 buf.length) = stackBase := by
    simp only [PGROUNDDOWN, round4, stackBase, USERSTACKTOP, PGSIZE] at *
    omega
  have page : stackBase / PGSIZE = NUPAGES - 1 := by decide
  have found : walkpgdir (PGROUNDDOWN (sp - round4 buf.length)) d = some (d.pte (NUPAGES - 1)) := by
    rw [down, ← page]
    exact walkpgdir_some.2 ⟨stack.user.1, rfl⟩
  obtain ⟨_, present, user⟩ := stack.user
  rw [page] at present user
  have copied := copyout_page km some_ found present user (by
    rw [down]
    simp only [round4, stackBase, USERSTACKTOP, PGSIZE] at *
    omega)
  rw [down, stack.addr] at copied
  exact copied

/-- A push that succeeds fits. -/
theorem PgDir.StackPage.fits (stack : d.StackPage f) (some_ : buf ≠ []) (low : stackBase ≤ sp) (high : sp ≤ USERSTACKTOP)
    (aligned : sp % 4 = 0) (call : copyout d (pushed sp buf.length) buf km = .ok (true, km')) :
    stackBase + round4 buf.length ≤ sp := by
  by_contra past
  obtain ⟨i, inside, page⟩ := pushed_past low high aligned (length_pos_of_ne_nil some_) (Nat.lt_of_not_le past)
  have leaves : ¬ d.UserRange (pushed sp buf.length) buf.length := by
    intro range
    have present := (range i inside).2.1
    rw [page, stack.gap] at present
    cases present
  obtain ⟨j, stops⟩ := exists_stopsAt leaves
  have small : pushed sp buf.length < 2 ^ 32 := by
    have := sub32_lt sp buf.length
    simp only [pushed]
    omega
  obtain ⟨km1, stopped⟩ := copyoutLoop_stops buf.length _ buf km j (Nat.le_refl _) small stops
  rw [copyout, stopped] at call
  split at call <;> cases call

theorem PgDir.StackPage.top_present (stack : d.StackPage f) : (d.pte (NUPAGES - 1)).p = true := by
  have page : stackBase / PGSIZE = NUPAGES - 1 := by decide
  rw [← page]
  exact stack.user.2.1

/-- User code reads the stack page. -/
theorem PgDir.StackPage.read {a : Nat} (stack : d.StackPage f) (km : Kmem) (low : stackBase ≤ a)
    (high : a < USERSTACKTOP) : userRead a d km = some (km.mem f (a - stackBase)) := by
  have page : a / PGSIZE = stackBase / PGSIZE := by
    simp only [stackBase, USERSTACKTOP, PGSIZE] at *
    omega
  have top : stackBase / PGSIZE = NUPAGES - 1 := by decide
  have offset : a % PGSIZE = a - stackBase := by
    simp only [stackBase, USERSTACKTOP, PGSIZE] at *
    omega
  rw [userRead_at (stack.user.of_page page), PgDir.byteOf, page, top, stack.addr, offset]

/-- What stands at the pointer and above after a push. -/
theorem store_shows (f : Nat) (km : Kmem) (buf : List UInt8) {at_ : Nat} (base : stackBase ≤ at_) :
    (∀ o < buf.length, buf[o]? = some ((km.store f (at_ - stackBase) buf).mem f (at_ + o - stackBase))) ∧
      ∀ a, at_ + buf.length ≤ a → (km.store f (at_ - stackBase) buf).mem f (a - stackBase) = km.mem f (a - stackBase) := by
  constructor
  · intro o inside
    have index : at_ + o - stackBase - (at_ - stackBase) = o := by omega
    have byte := km.store_inside (f := f) (show at_ - stackBase ≤ at_ + o - stackBase by omega) (by rw [index]; exact inside)
    rwa [index] at byte
  · intro a above
    exact Kmem.store_outside fun inside => by omega

end Push

/-! ## The strings and the vector -/

section Stack

variable {d : PgDir} {f : Nat} {km km' : Kmem} {argv : List (List UInt8)} {esp : Nat}

theorem argSize_eq (s : List UInt8) : argSize s = round4 (s ++ [0]).length := by
  rw [argSize, round4, length_append]
  rfl

/-- What `pushArgs` leaves: the strings below `sp`, and everything above as it was. -/
structure StringsPushed (f : Nat) (ss : List (List UInt8)) (sp sp' : Nat) (km km' : Kmem) : Prop where
  base : stackBase ≤ sp'
  size : sp' + (ss.map argSize).sum = sp
  aligned : sp' % 4 = 0
  above : ∀ a, sp ≤ a → km'.mem f (a - stackBase) = km.mem f (a - stackBase)
  strings : ∀ read : Nat → Option UInt8, (∀ a, sp' ≤ a → a < sp → read a = some (km'.mem f (a - stackBase))) →
    ArgStrings read sp' sp ss (argPtrs ss sp)

/-- One string, and those pushed after it. -/
theorem StringsPushed.cons {s : List UInt8} {sp sp' : Nat} (aligned : sp % 4 = 0) (fits : stackBase + argSize s ≤ sp)
    (rest : StringsPushed f ss (sp - argSize s) sp' (km.store f (sp - argSize s - stackBase) (s ++ [0])) km') :
    StringsPushed f (s :: ss) sp sp' km km' := by
  have length : (s ++ [0]).length = s.length + 1 := by rw [length_append]; rfl
  have room : s.length + 1 ≤ argSize s ∧ argSize s % 4 = 0 := by
    simp only [argSize]
    omega
  have shows := store_shows f km (s ++ [0]) (show stackBase ≤ sp - argSize s by omega)
  rw [length] at shows
  have size := rest.size
  refine ⟨rest.base, ?_, rest.aligned, ?_, ?_⟩
  · rw [map_cons, List.sum_cons]
    omega
  · intro a above
    rw [rest.above a (by omega)]
    exact shows.2 a (by omega)
  · intro read sees
    apply (rest.strings read fun a low high => sees a low (by omega)).cons
    · omega
    · omega
    · omega
    · intro o inside
      rw [length] at inside
      rw [sees _ (by omega) (by omega), rest.above _ (by omega)]
      exact (shows.1 o inside).symm

/-- **The loop over the arguments** puts the strings below each other, and writes nothing else. -/
theorem pushArgs_pushes (stack : d.StackPage f) {r : Nat × List Nat} (ss : List (List UInt8)) :
    ∀ (sp : Nat) (ptrs : List Nat) (km : Kmem), stackBase ≤ sp → sp ≤ USERSTACKTOP → sp % 4 = 0 →
      pushArgs d ss sp ptrs km = .ok (some r, km') →
      r.2 = ptrs ++ argPtrs ss sp ∧ StringsPushed f ss sp r.1 km km' ∧
        ∀ g o, (g = f → stackBase + o < r.1) → km'.mem g o = km.mem g o := by
  induction ss with
  | nil =>
    intro sp ptrs km low high aligned call
    cases call
    refine ⟨(append_nil ptrs).symm, ⟨low, rfl, aligned, fun _ _ => rfl, fun read _ => ⟨rfl, ?_, ?_⟩⟩, fun _ _ _ => rfl⟩
    · intro i p s isPtr
      simp [argPtrs] at isPtr
    · intro i j p q t _ isPtr
      simp [argPtrs] at isPtr
  | cons s ss ih =>
    intro sp ptrs km low high aligned call
    have some_ : s ++ [0] ≠ [] := by simp
    have length : (s ++ [0]).length = s.length + 1 := by rw [length_append]; rfl
    unfold pushArgs at call
    split at call
    · cases call
    · obtain ⟨⟨ok, km1⟩, copy, rest⟩ := bind_ok.1 call
      cases ok with
      | false => cases rest
      | true =>
        have at_ : sub32 sp (s.length + 1) / 4 * 4 = pushed sp (s ++ [0]).length := by rw [length]; rfl
        rw [at_] at copy rest
        have fits := stack.fits some_ low high aligned copy
        rw [stack.push some_ low high aligned fits] at copy
        rw [pushed_fits low high aligned fits, ← argSize_eq] at rest
        rw [← argSize_eq] at copy fits
        cases copy
        have multiple : argSize s % 4 = 0 := Nat.mul_mod_left ..
        obtain ⟨isPtrs, pushed, below⟩ := ih (sp - argSize s) _ _ (by omega) (by omega) (by omega) rest
        refine ⟨?_, pushed.cons aligned fits, fun g o out => ?_⟩
        · rw [isPtrs, argPtrs, append_assoc]
          rfl
        · have size := pushed.size
          rw [below g o out]
          exact Kmem.store_outside fun inside => by
            have := out inside.1
            omega

theorem argPtrs_le (ss : List (List UInt8)) : ∀ sp, ∀ p ∈ argPtrs ss sp, p ≤ sp := by
  induction ss with
  | nil =>
    intro sp p mem
    simp [argPtrs] at mem
  | cons s ss ih =>
    intro sp p mem
    rcases mem_cons.1 mem with rfl | mem
    · exact Nat.sub_le ..
    · exact (ih _ p mem).trans (Nat.sub_le ..)

/-- The words of the stack, from the stack pointer on. -/
def ustack (sp : Nat) (ptrs : List Nat) : List Nat :=
  0xffffffff :: ptrs.length :: sub32 sp ((ptrs.length + 1) * 4) :: ptrs ++ [0]

theorem ustack_length (sp : Nat) (ptrs : List Nat) : ((ustack sp ptrs).flatMap wordBytes).length = 4 * (ptrs.length + 4) := by
  rw [words_length, ustack, length_append, length_cons, length_cons, length_cons, length_singleton]

/-- Pushing words moves the pointer by their size. -/
theorem pushed_words {sp n : Nat} (aligned : sp % 4 = 0) : sub32 sp ((3 + n + 1) * 4) = pushed sp (4 * (n + 4)) := by
  simp only [pushed, sub32]
  omega

theorem round4_words (n : Nat) : round4 (4 * n) = 4 * n := by
  simp only [round4]
  omega

theorem ustack_vector (sp i : Nat) (ptrs : List Nat) : (ustack sp ptrs)[i + 3]? = (ptrs ++ [0])[i]? := by simp [ustack]

/-- The words of the vector and the strings above it. -/
theorem Delivered.of_bytes {read : Nat → Option UInt8} {sp : Nat} {ptrs : List Nat} (aligned : sp % 4 = 0)
    (base : stackBase + 4 * (argv.length + 4) ≤ sp) (high : sp ≤ USERSTACKTOP) (below : ∀ p ∈ ptrs, p ≤ USERSTACKTOP)
    (strings : ArgStrings read sp USERSTACKTOP argv ptrs)
    (bytes : ReadsBytes read (sp - 4 * (argv.length + 4)) ((ustack sp ptrs).flatMap wordBytes)) :
    Delivered read (sp - 4 * (argv.length + 4)) argv ptrs := by
  have top : USERSTACKTOP < 2 ^ 32 := by decide
  have argc := strings.count
  have small : ∀ w ∈ ustack sp ptrs, w < 2 ^ 32 := by
    intro w mem
    simp only [ustack, mem_append, mem_cons, not_mem_nil, or_false] at mem
    have limit : MAXARG < 2 ^ 32 := by decide
    rcases mem with (rfl | rfl | rfl | mem) | rfl
    · decide
    · omega
    · exact sub32_lt ..
    · have := below _ mem
      omega
    · decide
  have word : ∀ k w : Nat, (ustack sp ptrs)[k]? = some w → readWord read (sp - 4 * (argv.length + 4) + 4 * k) = some w :=
    fun k w isWord => bytes.word small isWord
  have vector : sub32 sp ((ptrs.length + 1) * 4) = sp - 4 * (argv.length + 4) + 12 := by
    simp only [sub32]
    omega
  refine ⟨by omega, by omega, word 0 _ rfl, ?_, ?_, ?_, ?_, ?_⟩
  · have count := word 1 _ rfl
    rw [argc] at count
    exact count
  · rw [← vector]
    exact word 2 _ rfl
  · intro i p isPtr
    rw [show sp - 4 * (argv.length + 4) + 12 + 4 * i = sp - 4 * (argv.length + 4) + 4 * (i + 3) by omega]
    apply word
    rw [ustack_vector, List.getElem?_append_left (List.getElem?_eq_some_iff.1 isPtr).1]
    exact isPtr
  · rw [show sp - 4 * (argv.length + 4) + 12 + 4 * argv.length = sp - 4 * (argv.length + 4) + 4 * (ptrs.length + 3) by omega]
    apply word
    rw [ustack_vector, getElem?_append_right (Nat.le_refl _), Nat.sub_self]
    rfl
  · rwa [show sp - 4 * (argv.length + 4) + 12 + 4 * (argv.length + 1) = sp by omega]

/-- The stages of a successful `pushStack`. -/
theorem pushStack_some (call : pushStack d argv km = .ok (some esp, km')) :
    ∃ sp ptrs km1, pushArgs d argv USERSTACKTOP [] km = .ok (some (sp, ptrs), km1) ∧ esp = sub32 sp ((3 + ptrs.length + 1) * 4) ∧
      copyout d esp ((ustack sp ptrs).flatMap wordBytes) km1 = .ok (true, km') := by
  obtain ⟨⟨args, km1⟩, push, rest⟩ := bind_ok.1 call
  cases args with
  | none => cases rest
  | some args =>
    obtain ⟨⟨ok, km2⟩, copy, rest⟩ := bind_ok.1 rest
    cases ok with
    | false => cases rest
    | true =>
      cases rest
      exact ⟨args.1, args.2, km1, push, rfl, copy⟩

/-- What a successful `pushStack` has written. -/
theorem pushStack_pushes (stack : d.StackPage f) (call : pushStack d argv km = .ok (some esp, km')) :
    ∃ sp km1, StringsPushed f argv USERSTACKTOP sp km km1 ∧ (∀ g o, (g = f → stackBase + o < sp) → km1.mem g o = km.mem g o) ∧
      stackBase + 4 * (argv.length + 4) ≤ sp ∧ esp = sp - 4 * (argv.length + 4) ∧
      km' = km1.store f (esp - stackBase) ((ustack sp (argPtrs argv USERSTACKTOP)).flatMap wordBytes) := by
  obtain ⟨sp, ptrs, km1, push, isEsp, copy⟩ := pushStack_some call
  obtain ⟨isPtrs, strings, below⟩ := pushArgs_pushes stack argv USERSTACKTOP [] km (by decide) (by decide) (by decide) push
  rw [nil_append] at isPtrs
  subst isPtrs
  have argc : (argPtrs argv USERSTACKTOP).length = argv.length := argPtrs_length ..
  have length := ustack_length sp (argPtrs argv USERSTACKTOP)
  rw [argc] at length isEsp
  have size := strings.size
  have some_ : (ustack sp (argPtrs argv USERSTACKTOP)).flatMap wordBytes ≠ [] := List.ne_nil_of_length_pos (by omega)
  rw [isEsp, pushed_words strings.aligned, ← length] at copy
  have fits := stack.fits some_ strings.base (by omega) strings.aligned copy
  rw [stack.push some_ strings.base (by omega) strings.aligned fits] at copy
  rw [pushed_words strings.aligned, ← length, pushed_fits strings.base (by omega) strings.aligned fits] at isEsp
  rw [length, round4_words] at isEsp fits copy
  cases copy
  rw [← isEsp]
  exact ⟨sp, km1, strings, below, fits, isEsp, rfl⟩

/-- **The stack of the new program.** When the arguments have been pushed, they fit in the
stack page, and whoever reads that page finds them. -/
theorem pushStack_delivers (stack : d.StackPage f) (call : pushStack d argv km = .ok (some esp, km')) :
    esp + argSpace argv = USERSTACKTOP ∧ stackBase ≤ esp ∧
      ∀ read : Nat → Option UInt8, (∀ a, stackBase ≤ a → a < USERSTACKTOP → read a = some (km'.mem f (a - stackBase))) →
        Delivered read esp argv (argPtrs argv USERSTACKTOP) := by
  obtain ⟨sp, km1, strings, _, fits, rfl, rfl⟩ := pushStack_pushes stack call
  have length := ustack_length sp (argPtrs argv USERSTACKTOP)
  rw [argPtrs_length] at length
  have size := strings.size
  have shows := store_shows f km1 ((ustack sp (argPtrs argv USERSTACKTOP)).flatMap wordBytes)
    (show stackBase ≤ sp - 4 * (argv.length + 4) by omega)
  rw [length] at shows
  have space : argSpace argv = (argv.map argSize).sum + 4 * (argv.length + 4) := rfl
  refine ⟨by omega, by omega, fun read sees => ?_⟩
  have bytes : ReadsBytes read (sp - 4 * (argv.length + 4)) ((ustack sp (argPtrs argv USERSTACKTOP)).flatMap wordBytes) := by
    intro o inside
    rw [length] at inside
    rw [sees _ (by omega) (by omega)]
    exact (shows.1 o inside).symm
  apply Delivered.of_bytes strings.aligned (by omega) (by omega) (argPtrs_le _ _) _ bytes
  apply strings.strings
  intro a low high
  rw [sees a (by omega) high, shows.2 a (by omega)]

/-- The loop succeeds when the strings fit. -/
theorem pushArgs_returns (stack : d.StackPage f) (ss : List (List UInt8)) :
    ∀ (sp : Nat) (ptrs : List Nat) (km : Kmem), sp ≤ USERSTACKTOP → sp % 4 = 0 → stackBase + (ss.map argSize).sum ≤ sp →
      ptrs.length + ss.length ≤ MAXARG → ∃ r km', pushArgs d ss sp ptrs km = .ok (some r, km') := by
  induction ss with
  | nil => exact fun sp ptrs km _ _ _ _ => ⟨_, _, rfl⟩
  | cons s ss ih =>
    intro sp ptrs km high aligned room few
    rw [map_cons, List.sum_cons] at room
    rw [length_cons] at few
    have length : (s ++ [0]).length = s.length + 1 := by rw [length_append]; rfl
    have multiple : argSize s % 4 = 0 := Nat.mul_mod_left ..
    have fits : stackBase + round4 (s ++ [0]).length ≤ sp := by
      rw [← argSize_eq]
      omega
    have copy := stack.push (show s ++ [0] ≠ [] by simp) (by omega) high aligned fits km
    have at_ : sub32 sp (s.length + 1) / 4 * 4 = pushed sp (s ++ [0]).length := by rw [length]; rfl
    obtain ⟨r, km', rest⟩ := ih (sp - argSize s) (ptrs ++ [sp - argSize s]) _ (by omega) (by omega) (by omega)
      (by rw [length_append, length_singleton]; omega)
    refine ⟨r, km', ?_⟩
    rw [pushArgs, if_neg (by omega)]
    refine bind_ok.2 ⟨_, by rw [at_]; exact copy, ?_⟩
    rw [at_, pushed_fits (by omega) high aligned fits, ← argSize_eq]
    exact rest

/-- **Arguments that fit in the stack page are pushed.** -/
theorem pushStack_returns (stack : d.StackPage f) (few : argv.length ≤ MAXARG) (room : argSpace argv ≤ PGSIZE) (km : Kmem) :
    ∃ esp km', pushStack d argv km = .ok (some esp, km') := by
  have page : stackBase + PGSIZE = USERSTACKTOP := by decide
  have space : argSpace argv = (argv.map argSize).sum + 4 * (argv.length + 4) := rfl
  obtain ⟨⟨sp, ptrs⟩, km1, push⟩ := pushArgs_returns stack argv USERSTACKTOP [] km (Nat.le_refl _) (by decide) (by omega)
    (by rw [length_nil]; omega)
  obtain ⟨isPtrs, strings, _⟩ := pushArgs_pushes stack argv USERSTACKTOP [] km (by decide) (by decide) (by decide) push
  rw [nil_append] at isPtrs
  have size := strings.size
  have length := ustack_length sp ptrs
  have argc : ptrs.length = argv.length := by
    rw [show ptrs = argPtrs argv USERSTACKTOP from isPtrs, argPtrs_length]
  have copy := stack.push (show (ustack sp ptrs).flatMap wordBytes ≠ [] from List.ne_nil_of_length_pos (by omega)) strings.base
    (by omega) strings.aligned (by rw [length, round4_words, argc]; omega) km1
  rw [length, ← pushed_words strings.aligned] at copy
  exact ⟨_, _, bind_ok.2 ⟨_, push, bind_ok.2 ⟨_, copy, rfl⟩⟩⟩

end Stack

end Xv6
