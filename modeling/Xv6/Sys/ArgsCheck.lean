import Xv6.Sys.Args

/-!
# What the argument checks let through

The user part of the address space is the heap from the second page on and the stack.
`fetchint` and `fetchstr` compare addresses with the `esp` the user chose, and `argptr`
adds a signed size, so each check accepts more than it should; the results here say
exactly when it does not.
-/

namespace Xv6

open Words List

namespace Caller

variable {c : Caller}

/-- Heap and stack are apart, with a page between them. -/
structure Layout (c : Caller) : Prop where
  apart : c.sz + PGSIZE ≤ USERSTACKTOP - c.stacksize
  esp : c.esp < 2 ^ 32

/-- The lowest address of the stack. -/
def stackBottom (c : Caller) : Nat := USERSTACKTOP - c.stacksize

/-- A byte of the heap above page 0, or of the stack. -/
def Owns (c : Caller) (a : Nat) : Prop :=
  (PGSIZE ≤ a ∧ a < c.sz) ∨ (c.stackBottom ≤ a ∧ a < USERSTACKTOP)

/-- The `n` bytes from `i` on lie in one of the two regions. -/
def Holds (c : Caller) (i n : Nat) : Prop :=
  (PGSIZE ≤ i ∧ i + n ≤ c.sz) ∨ (c.stackBottom ≤ i ∧ i + n ≤ USERSTACKTOP)

theorem Layout.bottom (layout : c.Layout) : sub32 USERSTACKTOP c.stacksize = c.stackBottom := by
  have apart := layout.apart
  simp only [sub32, stackBottom, USERSTACKTOP, PGSIZE] at *
  omega

end Caller

/-! ## `argptr` -/

/-- For a negative size: `argptr` refuses the pointer, or the end of the buffer. -/
def NegativeRefused (c : Caller) (i : Nat) (size : Int) : Prop :=
  i < PGSIZE ∨ USERSTACKTOP < i ∨ (c.sz ≤ i ∧ i < c.stackBottom) ∨ i + size < 0 ∨
    (c.stackBottom ≤ i ∧ (c.sz : Int) < i + size ∧ i + size < c.stackBottom)

section

variable {c : Caller} {i p : Nat} {size : Int}

/-- The end of the buffer as `argptr` computes it. -/
theorem addInt32_cases (small : i < 2 ^ 32) (low : -2 ^ 31 ≤ size) (high : size < 2 ^ 31) :
    (addInt32 i size : Int) = i + size ∨ (i + size < 0 ∧ (addInt32 i size : Int) = i + size + 2 ^ 32) ∨
      (2 ^ 32 ≤ i + size ∧ (addInt32 i size : Int) = i + size - 2 ^ 32) := by
  simp only [addInt32]
  omega

/-- The six checks as one condition. -/
theorem argptrCheck_some (layout : c.Layout) :
    argptrCheck c i size ≠ none ↔
      PGSIZE ≤ i ∧ i ≤ USERSTACKTOP ∧ (i < c.sz ∨ c.stackBottom ≤ i) ∧
        (addInt32 i size ≤ c.sz ∨ c.stackBottom ≤ addInt32 i size) ∧ addInt32 i size ≤ USERSTACKTOP ∧
        (i < c.sz → addInt32 i size < c.stackBottom) := by
  rw [argptrCheck, layout.bottom]
  constructor
  · intro accepted
    split at accepted; · exact absurd rfl accepted
    split at accepted; · exact absurd rfl accepted
    split at accepted; · exact absurd rfl accepted
    split at accepted; · exact absurd rfl accepted
    split at accepted; · exact absurd rfl accepted
    split at accepted; · exact absurd rfl accepted
    omega
  · intro checks
    rw [if_neg (by omega), if_neg (by omega), if_neg (by omega), if_neg (by omega), if_neg (by omega),
      if_neg (by omega)]
    exact Option.some_ne_none i

/-- An accepted buffer whose size is not negative lies in the heap or in the stack. -/
theorem argptrCheck_inside (layout : c.Layout) (small : i < 2 ^ 32) (positive : 0 ≤ size) (high : size < 2 ^ 31)
    (accepted : argptrCheck c i size ≠ none) : c.Holds i size.toNat := by
  have checks := (argptrCheck_some layout).1 accepted
  have apart := layout.apart
  have sum := addInt32_cases small (by omega) high
  simp only [Caller.Holds, Caller.stackBottom, USERSTACKTOP, PGSIZE] at *
  omega

/-- Which negative sizes are accepted. -/
theorem argptrCheck_negative (layout : c.Layout) (small : i < 2 ^ 32) (low : -2 ^ 31 ≤ size) (negative : size < 0) :
    argptrCheck c i size ≠ none ↔ ¬ NegativeRefused c i size := by
  have apart := layout.apart
  have sum := addInt32_cases small low (by omega)
  rw [argptrCheck_some layout]
  simp only [NegativeRefused, Caller.stackBottom, USERSTACKTOP, PGSIZE] at *
  omega

/-- When an accepted buffer is in user memory: the size is not negative, or the call is refused. -/
theorem argptrCheck_holds_iff (layout : c.Layout) (small : i < 2 ^ 32) (low : -2 ^ 31 ≤ size) (high : size < 2 ^ 31) :
    (argptrCheck c i size ≠ none → 0 ≤ size ∧ c.Holds i size.toNat) ↔ 0 ≤ size ∨ NegativeRefused c i size := by
  by_cases positive : 0 ≤ size
  · constructor
    · intro _
      exact .inl positive
    · intro _ accepted
      exact ⟨positive, argptrCheck_inside layout small positive high accepted⟩
  · rw [argptrCheck_negative layout small low (by omega)]
    constructor
    · intro property
      right
      by_contra accepted
      exact positive (property accepted).1
    · rintro (nonneg | refused) accepted
      · exact absurd nonneg positive
      · exact absurd refused accepted

/-! ## `sys_read` -/

theorem consoleread_length (input : List UInt8) : ∀ n : Int, (consoleread n input).length ≤ n.toNat := by
  induction input with
  | nil => intro n; simp [consoleread]
  | cons ch input ih =>
    intro n
    have := ih (n - 1)
    rw [consoleread]
    split; · simp
    split; · simp
    split
    · simp; omega
    · simp; omega

/-- With a count that is not negative `fileread` stores at most that many bytes. -/
theorem fileread_length (f : File) (positive : 0 ≤ size) (high : size < 2 ^ 31) :
    (fileread f size).length ≤ size.toNat := by
  rw [fileread]
  split
  · split
    · rw [piperead, length_take]
      exact Nat.min_le_left _ _
    · rename_i off ip _
      have count : ofInt32 size = size.toNat := by simp only [ofInt32]; omega
      rw [readi, count]
      by_cases bad : ip.size < off ∨ 2 ^ 32 ≤ off + size.toNat
      · rw [if_pos bad]
        simp
      · rw [if_neg bad]
        simp only [length_map, length_range]
        exact Nat.min_le_left _ _
    · exact consoleread_length _ _
  · simp

end

section

variable {c : Caller}

theorem fetchint_word {addr w : Nat} (fetched : (fetchint c addr).val = some w) : w < 2 ^ 32 := by
  rw [fetchint] at fetched
  split at fetched; · cases fetched
  split at fetched; · cases fetched
  split at fetched; · cases fetched
  cases fetched
  exact getWord_lt _ _

theorem argptr_arg {n i : Nat} {size : Int} (arg : (argint c n).val = some i) :
    argptr c n size = argptrCheck c i size := by
  rw [argptr, arg]
  rfl

theorem sysRead_some {ofile : Nat → Option File} {p : Nat} {bytes : List UInt8} (call : sysRead c ofile = some (p, bytes)) :
    ∃ f w, (argint c 2).val = some w ∧ argptr c 1 (toInt32 w) = some p ∧ bytes = fileread f (toInt32 w) := by
  rw [sysRead] at call
  obtain ⟨f, _, call⟩ := Option.bind_eq_some_iff.1 call
  obtain ⟨w, count, call⟩ := Option.bind_eq_some_iff.1 call
  obtain ⟨q, pointer, call⟩ := Option.bind_eq_some_iff.1 call
  cases call
  exact ⟨f, w, count, pointer, rfl⟩

/-- Validated buffers stay in user memory exactly when the size is not negative or one of
the checks refuses the call. Then `sys_read`, whose count is the size it validates, stores
no byte that was not validated. -/
theorem argptr_user_buffer_iff (layout : c.Layout) {n i : Nat} {size : Int} (arg : (argint c n).val = some i)
    (low : -2 ^ 31 ≤ size) (high : size < 2 ^ 31) :
    (argptr c n size ≠ none → 0 ≤ size ∧ c.Holds i size.toNat) ∧
        (n = 1 → (argint c 2).val.map toInt32 = some size →
          ∀ ofile p bytes, sysRead c ofile = some (p, bytes) → bytes.length ≤ size.toNat) ↔
      0 ≤ size ∨ NegativeRefused c i size := by
  have small := fetchint_word arg
  rw [argptr_arg arg, argptrCheck_holds_iff layout small low high]
  constructor
  · exact And.left
  · intro good
    refine ⟨good, ?_⟩
    intro first count ofile p bytes call
    subst first
    obtain ⟨f, w, word, pointer, rfl⟩ := sysRead_some call
    have same : toInt32 w = size := by simpa [word] using count
    rw [same] at pointer ⊢
    have accepted : argptrCheck c i size ≠ none := by
      rw [← argptr_arg arg, pointer]
      exact Option.some_ne_none p
    have positive := ((argptrCheck_holds_iff layout small low high).2 good accepted).1
    exact fileread_length f positive high

end

/-- A caller with three arguments on its stack: the descriptor 0, the address `0x3fff` and
the count -1. -/
def readCaller : Caller where
  sz := 0x4000
  stacksize := 0x1000
  esp := 0x7fffffe0
  mem := fun a =>
    if a = 0x7fffffe8 ∨ (0x7fffffec ≤ a ∧ a < 0x7ffffff0) then 0xff
    else if a = 0x7fffffe9 then 0x3f else 0

/-- `read(0, 0x3fff, -1)` on a file of 512 bytes: `argptr` accepts the size -1 and the file
is stored from the last byte of the heap on. -/
theorem argptr_negative_size :
    readCaller.Layout ∧ argptr readCaller 1 (-1) = some 0x3fff ∧
      (sysRead readCaller fun _ => some ⟨true, .inode 0 ⟨512, fun _ => 1⟩⟩).map (fun r => (r.1, r.2.length)) =
        some (0x3fff, 512) := by
  refine ⟨⟨?_, ?_⟩, ?_, ?_⟩ <;> decide +kernel

/-- The same caller with the size 1. -/
theorem argptr_user_buffer_small :
    (argptr readCaller 1 1 ≠ none → 0 ≤ (1 : Int) ∧ readCaller.Holds 0x3fff 1) ∧
        (1 = 1 → (argint readCaller 2).val.map toInt32 = some 1 →
          ∀ ofile p bytes, sysRead readCaller ofile = some (p, bytes) → bytes.length ≤ 1) ↔
      0 ≤ (1 : Int) ∨ NegativeRefused readCaller 0x3fff 1 :=
  @argptr_user_buffer_iff readCaller ⟨by decide, by decide⟩ 1 0x3fff 1 (by decide +kernel) (by decide) (by decide)

/-! ## `fetchint` and `fetchstr` -/

/-- When `fetchint(base + off)` reads user memory only. Below `esp` it is the check against
`sz` that refuses; from `esp` on only the one against `USERSTACKTOP` is left. -/
def FetchintSafe (c : Caller) (base off : Nat) : Prop :=
  let addr := add32 base off
  if addr < c.esp then c.sz < addr + 4 ∨ (PGSIZE ≤ addr ∧ base + off < 2 ^ 32)
  else (USERSTACKTOP < addr + 4 ∧ addr + 4 < 2 ^ 32) ∨
    (base + off < 2 ^ 32 ∧ addr + 4 ≤ USERSTACKTOP ∧
      (c.stackBottom ≤ addr ∨ (PGSIZE ≤ addr ∧ addr + 4 ≤ c.sz)))

instance (c : Caller) (base off : Nat) : Decidable (FetchintSafe c base off) :=
  inferInstanceAs (Decidable (ite (add32 base off < c.esp) (_ ∨ _) (_ ∨ _)))

/-- When `fetchstr(addr)` inspects user memory only. -/
def FetchstrSafe (c : Caller) (addr : Nat) : Prop :=
  (addr < c.sz → PGSIZE ≤ addr) ∧ (c.sz ≤ addr → c.esp ≤ addr → addr < USERSTACKTOP → c.stackBottom ≤ addr)

section

variable {c : Caller} {addr : Nat}

/-- What `fetchint` accepts, and that it then reads four bytes. -/
theorem fetchint_cases (c : Caller) (addr : Nat) :
    (fetchint c addr).val = none ∧ (fetchint c addr).reads = [] ∧
        ((addr < c.esp ∧ (c.sz ≤ addr ∨ c.sz < add32 addr 4)) ∨ USERSTACKTOP < add32 addr 4) ∨
      (fetchint c addr).val ≠ none ∧ (fetchint c addr).reads = [0, 1, 2, 3].map (add32 addr) ∧
        (addr < c.esp → addr < c.sz ∧ add32 addr 4 ≤ c.sz) ∧ add32 addr 4 ≤ USERSTACKTOP := by
  rw [fetchint]
  split
  · exact .inl ⟨rfl, rfl, by omega⟩
  split
  · exact .inl ⟨rfl, rfl, by omega⟩
  split
  · exact .inl ⟨rfl, rfl, by omega⟩
  · exact .inr ⟨Option.some_ne_none _, rfl, by omega, by omega⟩

theorem fetchint_safe_iff (layout : c.Layout) (base off : Nat) :
    ((fetchint c (add32 base off)).val ≠ none →
        base + off < 2 ^ 32 ∧ ∀ a ∈ (fetchint c (add32 base off)).reads, c.Owns a) ↔
      FetchintSafe c base off := by
  have apart := layout.apart
  have word : add32 base off < 2 ^ 32 := Nat.mod_lt _ (by decide)
  rcases fetchint_cases c (add32 base off) with ⟨refused, _, checks⟩ | ⟨accepted, reads, checks⟩
  · -- refused: nothing to show, and the condition says so
    simp only [refused, ne_eq, not_true_eq_false, false_imp_iff, true_iff]
    rw [FetchintSafe]
    generalize add32 base off = addr at *
    simp only [add32, USERSTACKTOP, PGSIZE] at *
    split <;> omega
  · rw [reads]
    simp only [ne_eq, accepted, not_false_eq_true, true_imp_iff, map_cons, map_nil, forall_mem_cons,
      not_mem_nil, false_imp_iff, implies_true, and_true]
    rw [FetchintSafe]
    generalize add32 base off = addr at *
    simp only [Caller.Owns, Caller.stackBottom, add32, USERSTACKTOP, PGSIZE] at *
    split <;> omega

/-- The bytes `fetchstr` inspects lie between the start and `ep`, and the first is the start. -/
theorem scanString_reads (mem : Bytes) (n : Nat) :
    ∀ s, (∀ a ∈ (scanString mem s n).reads, s ≤ a ∧ a < s + n) ∧ (0 < n → s ∈ (scanString mem s n).reads) := by
  induction n with
  | zero => intro s; simp [scanString]
  | succ n ih =>
    intro s
    rw [scanString]
    split
    · simp
    · refine ⟨?_, fun _ => mem_cons_self⟩
      intro a mem
      rcases mem_cons.1 mem with here | later
      · omega
      · have := (ih (s + 1)).1 a later
        omega

theorem fetchstr_safe_iff (layout : c.Layout) (addr : Nat) :
    (∀ a ∈ (fetchstr c addr).reads, c.Owns a) ↔ FetchstrSafe c addr := by
  have apart := layout.apart
  rw [fetchstr]
  simp only [FetchstrSafe, Caller.Owns, Caller.stackBottom]
  split
  · simp only [Fetched.refused, not_mem_nil, false_imp_iff, implies_true, true_iff]
    simp only [USERSTACKTOP, PGSIZE] at *
    omega
  split
  · rename_i heap
    obtain ⟨range, first⟩ := scanString_reads c.mem (c.sz - addr) addr
    constructor
    · intro owned
      have start := owned addr (first (by omega))
      simp only [USERSTACKTOP, PGSIZE] at *
      omega
    · intro safe a mem
      have := range a mem
      simp only [USERSTACKTOP, PGSIZE] at *
      omega
  split
  · rename_i stack
    obtain ⟨range, first⟩ := scanString_reads c.mem (USERSTACKTOP - addr) addr
    constructor
    · intro owned
      have start := owned addr (first (by omega))
      simp only [USERSTACKTOP, PGSIZE] at *
      omega
    · intro safe a mem
      have := range a mem
      simp only [USERSTACKTOP, PGSIZE] at *
      omega
  · simp only [Fetched.refused, not_mem_nil, false_imp_iff, implies_true, true_iff]
    simp only [USERSTACKTOP, PGSIZE] at *
    omega

/-- Exactly when argument words and strings are fetched from user memory only: for the
words at any `base + off`, as `sys_exec` passes them, for the arguments behind `esp`, and
for every byte of a string. -/
theorem fetch_user_memory_iff (layout : c.Layout) :
    (∀ base off, ((fetchint c (add32 base off)).val ≠ none →
        base + off < 2 ^ 32 ∧ ∀ a ∈ (fetchint c (add32 base off)).reads, c.Owns a) ↔ FetchintSafe c base off) ∧
      (∀ n, ((argint c n).val ≠ none →
        c.esp + (4 + 4 * n) < 2 ^ 32 ∧ ∀ a ∈ (argint c n).reads, c.Owns a) ↔ FetchintSafe c c.esp (4 + 4 * n)) ∧
      ∀ addr, (∀ a ∈ (fetchstr c addr).reads, c.Owns a) ↔ FetchstrSafe c addr := by
  refine ⟨fetchint_safe_iff layout, ?_, fetchstr_safe_iff layout⟩
  intro n
  exact fetchint_safe_iff layout c.esp (4 + 4 * n)

end

/-- A caller with a heap of four pages and one page of stack that has set `esp`. -/
def espCaller (esp : Nat) : Caller where
  sz := 0x4000
  stacksize := 0x1000
  esp := esp
  mem := fun _ => 0

/-- With `esp` at the top of the address space `argint(0)` reads kernel addresses, the sum
`addr + 4` having wrapped; with `esp` 0 it reads page 0; with `esp` in the gap above the
heap it reads the gap; and a string may start in page 0. -/
theorem fetch_outside_user_memory :
    (argint (espCaller 0xfffffff8) 0).reads = [0xfffffffc, 0xfffffffd, 0xfffffffe, 0xffffffff] ∧
      (argint (espCaller 0) 0).reads = [4, 5, 6, 7] ∧
      (argint (espCaller 0x5000) 0).reads = [0x5004, 0x5005, 0x5006, 0x5007] ∧
      (fetchstr (espCaller 0x7ffffff0) 0).reads = [0] := by
  refine ⟨?_, ?_, ?_, ?_⟩ <;> decide +kernel

/-- A caller whose `esp` is in its stack. -/
theorem fetch_user_memory_stack :
    ((argint (espCaller 0x7fffff00) 2).val ≠ none →
        (espCaller 0x7fffff00).esp + (4 + 4 * 2) < 2 ^ 32 ∧
          ∀ a ∈ (argint (espCaller 0x7fffff00) 2).reads, (espCaller 0x7fffff00).Owns a) ↔
      FetchintSafe (espCaller 0x7fffff00) (espCaller 0x7fffff00).esp (4 + 4 * 2) :=
  (@fetch_user_memory_iff (espCaller 0x7fffff00) ⟨by decide, by decide⟩).2.1 2

end Xv6
