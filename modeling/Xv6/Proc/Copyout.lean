import Xv6.Proc.Exec
import Xv6.Vm.TableUse

/-!
# `copyout`

The bytes go to the addresses `va`, `va + 1`, ... of an address space, 32-bit addresses
that wrap. An address is a byte of memory where its page is present for user code. The
copy stops at the first page that is not, and `uva2ka` reads the entry of that page
before anything has checked that there is a table for it.
-/

namespace Xv6
open Fallible List

/-- User code reaches the address: there is a table for it, and the entry has `PTE_P` and `PTE_U`. -/
def PgDir.UserAt (d : PgDir) (a : Nat) : Prop :=
  d.pde (PDX a) ≠ none ∧ (d.pte (a / PGSIZE)).p = true ∧ (d.pte (a / PGSIZE)).u = true

/-- Page and offset that the address stands for. -/
def PgDir.byteOf (d : PgDir) (a : Nat) : Nat × Nat := ((d.pte (a / PGSIZE)).addr, a % PGSIZE)

/-- User code reaches all of `[va, va + len)`. -/
def PgDir.UserRange (d : PgDir) (va len : Nat) : Prop := ∀ i < len, d.UserAt (add32 va i)

/-- The first address of `[va, va + len)` that user code does not reach is `va + i`. -/
structure PgDir.StopsAt (d : PgDir) (va len i : Nat) : Prop where
  inside : i < len
  out : ¬ d.UserAt (add32 va i)
  before : ∀ j < i, d.UserAt (add32 va j)

section Space

variable {d : PgDir} {km km' : Kmem} {va : Nat} {buf : List UInt8}

theorem userRead_at {a : Nat} (user : d.UserAt a) (km : Kmem) : userRead a d km = some (km.mem (d.byteOf a).1 (d.byteOf a).2) := by
  rw [userRead, walkpgdir_some.2 ⟨user.1, rfl⟩]
  simp only [user.2.1, user.2.2, Bool.and_self, if_true]
  rfl

theorem userRead_out {a : Nat} (out : ¬ d.UserAt a) (km : Kmem) : userRead a d km = none := by
  rw [userRead]
  cases walk : walkpgdir a d with
  | none => rfl
  | some e =>
    obtain ⟨table, rfl⟩ := walkpgdir_some.1 walk
    apply if_neg
    rw [Bool.and_eq_true]
    exact fun flags => out ⟨table, flags⟩

/-- Addresses of one page are reached together. -/
theorem PgDir.UserAt.of_page {a a' : Nat} (user : d.UserAt a) (page : a' / PGSIZE = a / PGSIZE) : d.UserAt a' := by
  have table : PDX a' = PDX a := by
    simp only [PDX, PGSIZE] at *
    omega
  rw [PgDir.UserAt, table, page]
  exact user

theorem PGROUNDDOWN_UserAt : d.UserAt (PGROUNDDOWN va) ↔ d.UserAt va := by
  have page : PGROUNDDOWN va / PGSIZE = va / PGSIZE := page_div _
  exact ⟨fun user => user.of_page page.symm, fun user => user.of_page page⟩

/-- The bytes of `[va, va + buf.length)` hold `buf`, where an address that is met again
keeps the last byte; everything else is as before. -/
structure CopiedOut (d : PgDir) (va : Nat) (buf : List UInt8) (km km' : Kmem) : Prop where
  mem_only : km' = { km with mem := km'.mem }
  bytes : ∀ f o, (∃ i < buf.length, d.byteOf (add32 va i) = (f, o) ∧ buf[i]? = some (km'.mem f o)) ∨
    ((∀ i < buf.length, d.byteOf (add32 va i) ≠ (f, o)) ∧ km'.mem f o = km.mem f o)

end Space

/-! ## The loop -/

section Loop

variable {d : PgDir} {km km' : Kmem} {va : Nat} {buf : List UInt8}

/-- How many bytes the iteration copies. -/
def chunk (va len : Nat) : Nat := min (PGSIZE - va % PGSIZE) len

theorem Kmem.store_page (km : Kmem) (f o x : Nat) (buf : List UInt8) :
    (km.store f o buf).mem f x = if o ≤ x then (buf[x - o]?).getD (km.mem f x) else km.mem f x := by
  simp only [Kmem.store, Kmem.copyPage, Function.update_self]

theorem Kmem.store_inside {f o x : Nat} (low : o ≤ x) (high : x - o < buf.length) :
    buf[x - o]? = some ((km.store f o buf).mem f x) := by
  rw [Kmem.store_page, if_pos low, getElem?_eq_getElem high, Option.getD_some]

theorem Kmem.store_outside {f g o x : Nat} (outside : ¬ (g = f ∧ o ≤ x ∧ x - o < buf.length)) :
    (km.store f o buf).mem g x = km.mem g x := by
  by_cases page : g = f
  · subst page
    rw [Kmem.store_page]
    apply ite_eq_right_iff.2
    intro low
    rw [getElem?_eq_none (by omega), Option.getD_none]
  · exact congrFun (Function.update_of_ne page _ _) x

theorem sub_PGROUNDDOWN (va : Nat) : va - PGROUNDDOWN va = va % PGSIZE := by
  simp only [PGROUNDDOWN, PGSIZE]
  omega

/-- The bytes of the iteration lie in the page of `va`. -/
theorem add32_here {i : Nat} (small : va < 2 ^ 32) (here : i < PGSIZE - va % PGSIZE) :
    add32 va i / PGSIZE = va / PGSIZE ∧ add32 va i % PGSIZE = va % PGSIZE + i := by
  simp only [add32, PGSIZE] at *
  omega

/-- The bytes after it are those from the next page on. -/
theorem add32_next (i : Nat) : add32 (add32 (PGROUNDDOWN va) PGSIZE) i = add32 va (PGSIZE - va % PGSIZE + i) := by
  simp only [add32, PGROUNDDOWN, PGSIZE]
  omega

/-- **One iteration** on a page that user code reaches. -/
theorem copyoutLoop_user {fuel : Nat} (some_ : buf ≠ []) (user : d.UserAt va) :
    copyoutLoop d (fuel + 1) va buf km = copyoutLoop d fuel (add32 (PGROUNDDOWN va) PGSIZE) (buf.drop (chunk va buf.length))
      (km.store (d.pte (va / PGSIZE)).addr (va % PGSIZE) (buf.take (chunk va buf.length))) := by
  obtain ⟨c, cs, rfl⟩ := exists_cons_of_ne_nil some_
  have table := (PGROUNDDOWN_UserAt.2 user).1
  have page : PGROUNDDOWN va / PGSIZE = va / PGSIZE := page_div _
  rw [copyoutLoop]
  · simp only [walkpgdir_some.2 ⟨table, rfl⟩, page, user.2.1, user.2.2, Bool.not_true, Bool.false_eq_true, if_false,
      sub_PGROUNDDOWN]
    rfl
  · exact some_

/-- **The iteration that stops the copy**: -1, or a null pointer when there is no table. -/
theorem copyoutLoop_out {fuel : Nat} (some_ : buf ≠ []) (out : ¬ d.UserAt va) :
    copyoutLoop d (fuel + 1) va buf km = if d.pde (PDX va) = none then .error .nullDeref else .ok (false, km) := by
  obtain ⟨c, cs, rfl⟩ := exists_cons_of_ne_nil some_
  rw [← pdx_page, copyoutLoop]
  · by_cases missing : d.pde (PDX (PGROUNDDOWN va)) = none
    · have walk : walkpgdir (PGROUNDDOWN va) d = none := by simp only [walkpgdir, missing]
      simp only [walk, if_pos missing]
    · simp only [walkpgdir_some.2 ⟨missing, rfl⟩, if_neg missing]
      apply ite_eq_left_iff.2
      intro present
      apply if_pos
      by_contra user
      apply out
      apply PGROUNDDOWN_UserAt.1
      exact ⟨missing, by simpa using present, by simpa using user⟩
  · exact some_

/-- The bytes of the iteration and those of the rest. -/
theorem CopiedOut.cons (small : va < 2 ^ 32)
    (rest : CopiedOut d (add32 (PGROUNDDOWN va) PGSIZE) (buf.drop (chunk va buf.length))
      (km.store (d.pte (va / PGSIZE)).addr (va % PGSIZE) (buf.take (chunk va buf.length))) km') :
    CopiedOut d va buf km km' := by
  refine ⟨rest.mem_only, fun f o => ?_⟩
  have later : ∀ i, PGSIZE - va % PGSIZE ≤ i → add32 va i =
      add32 (add32 (PGROUNDDOWN va) PGSIZE) (i - (PGSIZE - va % PGSIZE)) := by
    intro i above
    rw [add32_next, Nat.add_sub_cancel' above]
  rcases rest.bytes f o with ⟨i, inside, isByte, shown⟩ | ⟨none_, same⟩
  · -- a later iteration wrote the byte last
    rw [length_drop] at inside
    have whole : chunk va buf.length = PGSIZE - va % PGSIZE := by
      simp only [chunk] at *
      omega
    left
    refine ⟨PGSIZE - va % PGSIZE + i, by omega, ?_, ?_⟩
    · rw [← add32_next]
      exact isByte
    · rw [← whole, ← getElem?_drop]
      exact shown
  · by_cases here : f = (d.pte (va / PGSIZE)).addr ∧ va % PGSIZE ≤ o ∧ o - va % PGSIZE < chunk va buf.length
    · obtain ⟨rfl, low, high⟩ := here
      have inPage : o - va % PGSIZE < PGSIZE - va % PGSIZE ∧ o - va % PGSIZE < buf.length := by
        simp only [chunk] at high
        omega
      obtain ⟨page, offset⟩ := add32_here small inPage.1
      left
      refine ⟨o - va % PGSIZE, inPage.2, ?_, ?_⟩
      · rw [PgDir.byteOf, page, offset, Nat.add_sub_cancel' low]
      · rw [same, ← Kmem.store_inside low (by rw [length_take]; omega), getElem?_take_of_lt high]
    · right
      constructor
      · intro i inside isByte
        rcases Nat.lt_or_ge i (PGSIZE - va % PGSIZE) with first | above
        · obtain ⟨page, offset⟩ := add32_here small first
          rw [PgDir.byteOf, page, offset, Prod.mk.injEq] at isByte
          apply here
          refine ⟨isByte.1.symm, by omega, ?_⟩
          simp only [chunk]
          omega
        · rw [later i above] at isByte
          apply none_ (i - (PGSIZE - va % PGSIZE)) _ isByte
          rw [length_drop]
          simp only [chunk]
          omega
      · rw [same]
        apply Kmem.store_outside
        rw [length_take]
        exact fun inside => here ⟨inside.1, inside.2.1, by omega⟩

/-- **The loop on a range that user code reaches.** -/
theorem copyoutLoop_copies (fuel : Nat) : ∀ (va : Nat) (buf : List UInt8) (km : Kmem), buf.length ≤ fuel → va < 2 ^ 32 →
    d.UserRange va buf.length → ∃ km', copyoutLoop d fuel va buf km = .ok (true, km') ∧ CopiedOut d va buf km km' := by
  induction fuel with
  | zero =>
    intro va buf km enough _ _
    obtain rfl := eq_nil_of_length_eq_zero (Nat.le_zero.1 enough)
    exact ⟨km, rfl, rfl, fun f o => .inr ⟨fun i short => absurd short (Nat.not_lt_zero i), rfl⟩⟩
  | succ fuel ih =>
    intro va buf km enough small range
    by_cases empty : buf = []
    · subst empty
      exact ⟨km, rfl, rfl, fun f o => .inr ⟨fun i short => absurd short (Nat.not_lt_zero i), rfl⟩⟩
    · have length := length_pos_of_ne_nil empty
      have start : add32 va 0 = va := Nat.mod_eq_of_lt small
      have progress : 0 < chunk va buf.length := by
        have := Nat.mod_lt va (show 0 < PGSIZE by decide)
        simp only [chunk]
        omega
      obtain ⟨km', call, rest⟩ := ih (add32 (PGROUNDDOWN va) PGSIZE) (buf.drop (chunk va buf.length))
        (km.store (d.pte (va / PGSIZE)).addr (va % PGSIZE) (buf.take (chunk va buf.length)))
        (by rw [length_drop]; omega) (Nat.mod_lt _ (by decide)) (by
          intro i inside
          rw [add32_next]
          apply range
          rw [length_drop] at inside
          simp only [chunk] at inside
          omega)
      refine ⟨km', ?_, rest.cons small⟩
      rw [copyoutLoop_user empty (start ▸ range 0 length)]
      exact call

/-- **The loop on a range that leaves what user code reaches.** -/
theorem copyoutLoop_stops (fuel : Nat) : ∀ (va : Nat) (buf : List UInt8) (km : Kmem) (i : Nat), buf.length ≤ fuel →
    va < 2 ^ 32 → d.StopsAt va buf.length i →
    ∃ km', copyoutLoop d fuel va buf km = if d.pde (PDX (add32 va i)) = none then .error .nullDeref else .ok (false, km') := by
  induction fuel with
  | zero =>
    intro va buf km i enough _ stops
    exact absurd stops.inside (by omega)
  | succ fuel ih =>
    intro va buf km i enough small stops
    have inside := stops.inside
    have some_ : buf ≠ [] := List.ne_nil_of_length_pos (by omega)
    have start : add32 va 0 = va := Nat.mod_eq_of_lt small
    by_cases here : i < PGSIZE - va % PGSIZE
    · -- the page of `va` itself is not reached
      obtain ⟨page, _⟩ := add32_here small here
      have out : ¬ d.UserAt va := fun user => stops.out (user.of_page page)
      have table : PDX (add32 va i) = PDX va := by
        simp only [PDX, PGSIZE] at *
        omega
      rw [table]
      exact ⟨km, copyoutLoop_out some_ out⟩
    · have user : d.UserAt va := start ▸ stops.before 0 (by
        have := Nat.mod_lt va (show 0 < PGSIZE by decide)
        omega)
      have whole : chunk va buf.length = PGSIZE - va % PGSIZE := by
        simp only [chunk]
        omega
      have later : add32 (add32 (PGROUNDDOWN va) PGSIZE) (i - (PGSIZE - va % PGSIZE)) = add32 va i := by
        rw [add32_next]
        congr 1
        omega
      rw [copyoutLoop_user some_ user, ← later]
      apply ih
      · rw [length_drop, whole]
        have := Nat.mod_lt va (show 0 < PGSIZE by decide)
        omega
      · exact Nat.mod_lt _ (by decide)
      · refine ⟨?_, ?_, ?_⟩
        · rw [length_drop, whole]
          omega
        · rw [later]
          exact stops.out
        · intro j before
          rw [add32_next]
          exact stops.before _ (by omega)

end Loop

/-! ## Exactness -/

section Exact

variable {d : PgDir} {km : Kmem} {va : Nat} {buf : List UInt8}

/-- What the address is to show after `buf` was copied to `va`. -/
def wanted (d : PgDir) (va : Nat) (buf : List UInt8) (km : Kmem) (a : Nat) : Option UInt8 :=
  if sub32 a va < buf.length then buf[sub32 a va]? else userRead a d km

/-- The copy is complete and exact, or a page of the range is not mapped for user code and the result is -1. -/
def CopiesExactly (d : PgDir) (va : Nat) (buf : List UInt8) (km : Kmem) : Prop :=
  (∃ km', copyout d va buf km = .ok (true, km') ∧ d.UserRange va buf.length ∧
    (∀ a < 2 ^ 32, userRead a d km' = wanted d va buf km a) ∧
    ∀ f o, (∀ i < buf.length, d.byteOf (add32 va i) ≠ (f, o)) → km'.mem f o = km.mem f o) ∨
  ∃ km', copyout d va buf km = .ok (false, km') ∧ ¬ d.UserRange va buf.length

/-- Two addresses that stand for one byte of memory are to show the same. -/
def AliasesAgree (d : PgDir) (va : Nat) (buf : List UInt8) (km : Kmem) : Prop :=
  ∀ a < 2 ^ 32, ∀ b < 2 ^ 32, d.UserAt a → d.UserAt b → d.byteOf a = d.byteOf b → wanted d va buf km a = wanted d va buf km b

theorem sub32_add32 {a i : Nat} (small : a < 2 ^ 32) (small' : i < 2 ^ 32) : sub32 (add32 a i) a = i := by
  simp only [sub32, add32]
  omega

theorem add32_sub32 {a b : Nat} (small : a < 2 ^ 32) : add32 b (sub32 a b) = a := by
  simp only [sub32, add32]
  omega

theorem exists_stopsAt {len : Nat} (leaves : ¬ d.UserRange va len) : ∃ i, d.StopsAt va len i := by
  classical
  simp only [PgDir.UserRange, not_forall] at leaves
  have spec := Nat.find_spec leaves
  refine ⟨Nat.find leaves, spec.1, spec.2, fun j before => ?_⟩
  by_contra out
  exact Nat.find_min leaves before ⟨Nat.lt_trans before spec.1, out⟩

/-- In a complete copy, what is shown is what is wanted exactly if aliases agree. -/
theorem CopiedOut.exact_iff {km' : Kmem} (copied : CopiedOut d va buf km km') (small : va < 2 ^ 32) (short : buf.length < 2 ^ 32)
    (range : d.UserRange va buf.length) :
    (∀ a < 2 ^ 32, userRead a d km' = wanted d va buf km a) ↔ AliasesAgree d va buf km := by
  have want : ∀ i < buf.length, wanted d va buf km (add32 va i) = buf[i]? := by
    intro i inside
    have index : sub32 (add32 va i) va = i := sub32_add32 small (by omega)
    rw [wanted, index, if_pos inside]
  constructor
  · intro exact_ a smallA b smallB userA userB same
    rw [← exact_ a smallA, ← exact_ b smallB, userRead_at userA, userRead_at userB, same]
  · intro agree a smallA
    by_cases user : d.UserAt a
    · rw [userRead_at user]
      rcases copied.bytes (d.byteOf a).1 (d.byteOf a).2 with ⟨i, inside, isByte, shown⟩ | ⟨none_, same⟩
      · rw [← shown, ← want i inside]
        exact agree _ (Nat.mod_lt _ (by decide)) _ smallA (range i inside) user isByte
      · have outside : ¬ sub32 a va < buf.length := by
          intro inside
          apply none_ _ inside
          rw [add32_sub32 smallA]
        rw [wanted, if_neg outside, userRead_at user, same]
    · have outside : ¬ sub32 a va < buf.length := by
        intro inside
        apply user
        have reached := range _ inside
        rwa [add32_sub32 smallA] at reached
      rw [wanted, if_neg outside, userRead_out user, userRead_out user]

/-- **`copyout` is total and exact** exactly when the first page of the range that is not
mapped for user code, if there is one, has a page table, and otherwise no two addresses
that stand for one byte of memory are to show different bytes. -/
theorem copyout_exact (small : va < 2 ^ 32) (short : buf.length < 2 ^ 32) :
    CopiesExactly d va buf km ↔
      (∀ i, d.StopsAt va buf.length i → d.pde (PDX (add32 va i)) ≠ none) ∧
        (d.UserRange va buf.length → AliasesAgree d va buf km) := by
  by_cases range : d.UserRange va buf.length
  · obtain ⟨km', call, copied⟩ := copyoutLoop_copies buf.length va buf km (Nat.le_refl _) small range
    have never : ∀ i, d.StopsAt va buf.length i → d.pde (PDX (add32 va i)) ≠ none :=
      fun i stops => absurd (range i stops.inside) stops.out
    constructor
    · rintro (⟨km1, call1, _, shows, _⟩ | ⟨km1, _, leaves⟩)
      · obtain rfl : km' = km1 := by
          rw [copyout, call] at call1
          cases call1
          rfl
        exact ⟨never, fun _ => (copied.exact_iff small short range).1 shows⟩
      · exact absurd range leaves
    · rintro ⟨-, agree⟩
      left
      refine ⟨km', call, range, (copied.exact_iff small short range).2 (agree range), fun f o outside => ?_⟩
      rcases copied.bytes f o with ⟨i, inside, isByte, _⟩ | ⟨_, same⟩
      · exact absurd isByte (outside i inside)
      · exact same
  · obtain ⟨i, stops⟩ := exists_stopsAt range
    obtain ⟨km', call⟩ := copyoutLoop_stops buf.length va buf km i (Nat.le_refl _) small stops
    have unique : ∀ j, d.StopsAt va buf.length j → j = i := by
      intro j stopsJ
      rcases Nat.lt_trichotomy i j with less | same | less
      · exact absurd (stopsJ.before i less) stops.out
      · exact same.symm
      · exact absurd (stops.before j less) stopsJ.out
    constructor
    · intro exactly
      refine ⟨fun j stopsJ missing => ?_, fun whole => absurd whole range⟩
      rw [unique j stopsJ] at missing
      rw [if_pos missing] at call
      rcases exactly with ⟨km1, call1, _⟩ | ⟨km1, call1, _⟩ <;> rw [copyout, call] at call1 <;> cases call1
    · rintro ⟨tables, -⟩
      right
      rw [if_neg (tables i stops)] at call
      exact ⟨km', call, range⟩

/-- The address space of a program whose only page is the stack page. -/
def stackOnly : PgDir where
  pde := fun i => if i = 511 then some 0x300 else none
  pte := fun v => if v = 0x7ffff then { addr := 0x301, p := true, w := true, u := true } else {}

theorem stackOnly_userAt {a : Nat} : stackOnly.UserAt a ↔ a / PGSIZE = 0x7ffff := by
  constructor
  · rintro ⟨_, present, _⟩
    by_contra other
    simp only [stackOnly, if_neg other] at present
    cases present
  · intro page
    have table : PDX a = 511 := by
      simp only [PDX, PGSIZE] at *
      omega
    rw [PgDir.UserAt, table, page]
    exact ⟨by rintro ⟨⟩, rfl, rfl⟩

/-- Four bytes at the top of the stack. -/
theorem copyout_exact_stack :
    CopiesExactly stackOnly 0x7ffffffc [1, 2, 3, 4] (Kmem.bss 0x200 0x100 fun _ _ => 0) := by
  apply (copyout_exact (by decide) (by decide)).2
  have range : stackOnly.UserRange 0x7ffffffc 4 := by
    intro i inside
    rw [stackOnly_userAt]
    simp only [add32, PGSIZE]
    omega
  refine ⟨fun i stops => absurd (range i stops.inside) stops.out, fun _ a _ b _ userA userB same => ?_⟩
  rw [stackOnly_userAt] at userA userB
  have offset : a % PGSIZE = b % PGSIZE := congrArg Prod.snd same
  have : a = b := by
    simp only [PGSIZE] at *
    omega
  rw [this]

/-- An argument of 4 MB: the copy starts below the table of the stack page. -/
theorem pushArgs_long {s : List UInt8} (km : Kmem) (length : s.length = 0x400000) :
    copyout stackOnly 0x7fbffffc (s ++ [0]) km = .error .nullDeref ∧
      pushArgs stackOnly [s] USERSTACKTOP [] km = .error .nullDeref := by
  have out : ¬ stackOnly.UserAt 0x7fbffffc := by
    rw [stackOnly_userAt]
    decide
  have missing : stackOnly.pde (PDX 0x7fbffffc) = none := by decide
  have call : copyout stackOnly 0x7fbffffc (s ++ [0]) km = .error .nullDeref := by
    rw [copyout, length_append]
    exact (copyoutLoop_out (by simp) out).trans (if_pos missing)
  refine ⟨call, ?_⟩
  have pointer : sub32 USERSTACKTOP (s.length + 1) / 4 * 4 = 0x7fbffffc := by
    rw [length]
    decide
  rw [pushArgs, if_neg (by decide)]
  simp only [pointer, call]
  rfl

/-- `exec` pushes such an argument. -/
theorem copyout_no_table : ∃ s, s.length = 0x400000 ∧
    copyout stackOnly 0x7fbffffc (s ++ [0]) (Kmem.bss 0x200 0x100 fun _ _ => 0) = .error .nullDeref ∧
      pushArgs stackOnly [s] USERSTACKTOP [] (Kmem.bss 0x200 0x100 fun _ _ => 0) = .error .nullDeref :=
  ⟨List.replicate 0x400000 97, List.length_replicate, pushArgs_long _ List.length_replicate⟩

end Exact

end Xv6
