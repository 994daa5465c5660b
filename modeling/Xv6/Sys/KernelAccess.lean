import Xv6.Sys.Args
import Xv6.Proc.StackLayout

/-!
# Kernel accesses to user memory

The kernel reads arguments and fills buffers through the user's own addresses. A fault
that such an access raises goes to `cast_page_fault` like any other, and the instruction
is run again when the handler returns: `trap` looks at `killed` only on the way back to
user mode. An access completes when each fault brings its page in, makes it writable, or
grows the stack towards it.
-/

namespace Xv6
open Fallible Runs Function List

variable {km : Kmem} {f : Nat}

/-- The access faults in kernel mode. The processor does not look at `PTE_U` there, and
with `CR0_WP` set it does look at `PTE_W`. -/
def kernelFaults (write : Bool) (va : Nat) (d : PgDir) : Bool :=
  match walkpgdir va d with
  | none => true
  | some e => !(e.p && (!write || e.w))

/-- The handler has brought the access nearer: it succeeds on retry, or the stack has got
the page below it. -/
def Advances (write : Bool) (va : Nat) (c c' : Ctx) : Prop :=
  kernelFaults write va c'.cur.pgdir = false ∨
    (c'.cur.stacksize = c.cur.stacksize + PGSIZE ∧ (c.cur.pgdir.pte (c.cur.below / PGSIZE)).p = false ∧
      (c'.cur.pgdir.pte (c.cur.below / PGSIZE)).p = true)

/-- The access completes after finitely many faults, each of which brings it nearer. -/
inductive Completes (write : Bool) (va : Nat) : Ctx → Prop where
  | access {c : Ctx} : kernelFaults write va c.cur.pgdir = false → Completes write va c
  | fault {c c' : Ctx} : kernelFaults write va c.cur.pgdir = true →
      castPageFault (presentFlag va c.cur.pgdir) va c = .ok c' → Advances write va c c' → Completes write va c' →
      Completes write va c

/-- The process that makes a system call with its `esp` at `esp`. -/
def Ctx.caller (c : Ctx) (esp : Nat) : Caller where
  sz := c.cur.sz
  stacksize := c.cur.stacksize
  esp := esp
  mem := fun a => (userRead a c.cur.pgdir c.km).getD 0

/-- The bytes that the argument functions accept, and how the kernel uses them: words and
strings are read, a buffer is read or written. -/
inductive Accepted (p : Caller) : Bool → Nat → Prop where
  | int {n a : Nat} : a ∈ (argint p n).reads → Accepted p false a
  | str {n addr a : Nat} : (argint p n).val = some addr → a ∈ (fetchstr p addr).reads → Accepted p false a
  | ptr {n i a : Nat} {size : Int} (write : Bool) : argptr p n size = some i → i ≤ a → a < i + size →
      Accepted p write a

/-- The page at `addr` can be brought in: there is a victim other than itself, and a slot
in a swap file that is open. -/
def PageInReady (addr : Nat) (p : Proc) : Prop :=
  ¬ p.exempt ∧ ∃ l last j, p.mq.Wf (l ++ [last]) ∧ l ≠ [] ∧
    p.pgdir.pte ((p.mq.entries last).vaddr / PGSIZE) ≠ {} ∧ (p.mq.entries last).vaddr / PGSIZE ≠ addr / PGSIZE ∧
    p.vtab.find addr = some j ∧ j * PGSIZE / VPFILE_SIZE < MAX_VPFILES ∧ p.vpfile (j * PGSIZE / VPFILE_SIZE) ≠ none

/-- The stack can grow down to `va`: the pages between are unmapped, the queue has room
for them, the limits of `allocuvm` allow them and there is memory. -/
structure GrowReady (va : Nat) (c : Ctx) : Prop where
  grows : growsStack va c.cur
  clear : c.cur.Clear va
  capacity : c.cur.mq.num + (c.cur.below / PGSIZE - va / PGSIZE) < MEM_CAPACITY
  guard : c.cur.sz + PGSIZE ≤ PGROUNDDOWN va
  half : USERSTACKTOP ≤ 2 * PGROUNDDOWN va
  room : Room (c.cur.below / PGSIZE - va / PGSIZE + 1) c.cur.pgdir c.km

/-- What an access needs. -/
inductive AccessReady (write : Bool) (va : Nat) (c : Ctx) : Prop where
  | direct : kernelFaults write va c.cur.pgdir = false → AccessReady write va c
  | copy {e : Pte} : va < KERNBASE → walkpgdir va c.cur.pgdir = some e → e.p = true → e.addr ≠ 0 →
      (c.km.pcSh e.addr = 1 ∨ 1 < c.km.pcSh e.addr ∧ c.km.freelist ≠ []) → AccessReady write va c
  | pageIn : PGSIZE ≤ va → pagedOut va c.cur.pgdir = true → PageInReady (PGROUNDDOWN va) c.cur →
      AccessReady write va c
  | grow : GrowReady va c → AccessReady write va c

section Faults

variable {write : Bool} {va : Nat} {c c' : Ctx} {d : PgDir} {e : Pte} {kend kdata lo : Nat} {files : VpFiles} {j : Nat}

theorem kernelFaults_false : kernelFaults write va d = false ↔
    ∃ e, walkpgdir va d = some e ∧ e.p = true ∧ (write = true → e.w = true) := by
  unfold kernelFaults
  split
  · rename_i none
    simp [none]
  · rename_i e found
    rw [found]
    constructor
    · intro allowed
      simp only [Bool.not_eq_false', Bool.and_eq_true, Bool.or_eq_true, Bool.not_eq_true'] at allowed
      refine ⟨e, rfl, allowed.1, fun isWrite => allowed.2.resolve_left ?_⟩
      rw [isWrite]
      exact Bool.true_eq_false_eq_False
    · rintro ⟨e', same, present, writable⟩
      cases same
      cases write with
      | false => simp [present]
      | true => simp [present, writable rfl]

theorem presentFlag_true (found : walkpgdir va d = some e) : presentFlag va d = e.p := by
  rw [presentFlag, found]

/-- An entry that has been set to a present and writable one lets the access through. -/
theorem kernelFaults_set (table : d.pde (PDX va) ≠ none) (present : (d.pte (va / PGSIZE)).p = true)
    (writable : (d.pte (va / PGSIZE)).w = true) : kernelFaults write va d = false :=
  kernelFaults_false.2 ⟨_, walkpgdir_some.2 ⟨table, rfl⟩, present, fun _ => writable⟩

/-! ## Copy on write -/

theorem cowFault_completes (sane : c.Sane kend kdata lo) (user : va < KERNBASE) (found : walkpgdir va c.cur.pgdir = some e)
    (present : e.p = true) (frame : e.addr ≠ 0) (shared : c.km.pcSh e.addr = 1 ∨ 1 < c.km.pcSh e.addr ∧ c.km.freelist ≠ []) :
    ∃ c', cowFault va e c = .ok c' ∧ kernelFaults write va c'.cur.pgdir = false := by
  obtain ⟨table, entry⟩ := walkpgdir_some.1 found
  have isFrame : IsFrame kend e.addr := by
    refine (sane.table.pages (va / PGSIZE) (user_page user).2).resolve_left ?_ |> fun h => entry ▸ h
    rw [entry]
    exact frame
  have inRange : ∀ km : Kmem, km.kend = kend → ¬ shareOutOfRange km (e.addr * PGSIZE) := by
    intro km isEnd
    rw [shareOutOfRange, isEnd]
    obtain ⟨low, high⟩ := isFrame
    omega
  have share : getPageShare (e.addr * PGSIZE) c.km = .ok (c.km.pcSh e.addr) := by
    rw [getPageShare, if_neg (inRange c.km sane.memory.isEnd), page_div]
  rcases shared with one | ⟨more, free⟩
  · refine ⟨_, bind_ok.2 ⟨_, share, if_pos one⟩, ?_⟩
    apply kernelFaults_set
    · exact table
    · show ((c.cur.pgdir.set va { e with w := true }).pte (va / PGSIZE)).p = true
      rw [PgDir.set_pte, if_pos rfl]
      exact present
    · show ((c.cur.pgdir.set va { e with w := true }).pte (va / PGSIZE)).w = true
      rw [PgDir.set_pte, if_pos rfl]
  · obtain ⟨f, km1, got, _⟩ := kalloc_free (n := 0) (length_pos_iff.2 free)
    have isEnd : km1.kend = kend := (sane.memory.kalloc got).1.isEnd
    have reduce : ∃ km2, redPageShare (e.addr * PGSIZE) (km1.copyPage f (km1.mem e.addr)) = .ok km2 :=
      ⟨_, if_neg (inRange _ isEnd)⟩
    obtain ⟨km2, reduce⟩ := reduce
    have call : cowFault va e c =
        .ok { c with km := km2, cur := { c.cur with pgdir := c.cur.pgdir.set va (Pte.fresh f) } } := by
      refine bind_ok.2 ⟨_, share, ?_⟩
      rw [if_neg (by omega), if_pos more, got]
      exact bind_ok.2 ⟨_, reduce, rfl⟩
    refine ⟨_, call, ?_⟩
    apply kernelFaults_set
    · exact table
    · show ((c.cur.pgdir.set va (Pte.fresh f)).pte (va / PGSIZE)).p = true
      rw [PgDir.set_pte, if_pos rfl]
      rfl
    · show ((c.cur.pgdir.set va (Pte.fresh f)).pte (va / PGSIZE)).w = true
      rw [PgDir.set_pte, if_pos rfl]
      rfl

/-- A copy-on-write fault after which the access succeeds had a page to give. -/
theorem cowFault_needs (found : walkpgdir va c.cur.pgdir = some e) (readOnly : e.w = false)
    (fits : e.addr * PGSIZE = 0 → shareOutOfRange c.km 0)
    (call : cowFault va e c = .ok c') (done : kernelFaults true va c'.cur.pgdir = false) :
    e.addr ≠ 0 ∧ (c.km.pcSh e.addr = 1 ∨ 1 < c.km.pcSh e.addr ∧ c.km.freelist ≠ []) := by
  obtain ⟨ref, share, rest⟩ := bind_ok.1 call
  unfold getPageShare at share
  split at share
  · cases share
  · rename_i inRange
    cases share
    rw [page_div] at rest
    refine ⟨fun zero => ?_, ?_⟩
    · rw [zero, Nat.zero_mul] at inRange
      exact inRange (fits (by rw [zero, Nat.zero_mul]))
    · split at rest
      · rename_i one
        exact .inl one
      · split at rest
        · rename_i more
          refine .inr ⟨more, fun empty => ?_⟩
          have none : kalloc c.km = (Option.none, c.km) := by
            unfold kalloc
            rw [empty]
          rw [none] at rest
          cases rest
          obtain ⟨e', found', _, writable⟩ := kernelFaults_false.1 done
          have same : e' = e := Option.some.inj (found'.symm.trans found)
          rw [same] at writable
          exact Bool.false_ne_true (readOnly.symm.trans (writable rfl))
        · cases rest

/-! ## Page-in -/

theorem vpfileAt_ok {offset : Nat} :
    (∃ r, vpfileAt files offset = .ok r) ↔
      offset / VPFILE_SIZE < MAX_VPFILES ∧ files (offset / VPFILE_SIZE) ≠ none := by
  unfold vpfileAt
  simp only
  split
  · simp only [reduceCtorEq, exists_false, false_iff]
    omega
  · split
    · simp only [reduceCtorEq, exists_false, false_iff]
      omega
    · split
      · rename_i missing
        simp [missing]
      · rename_i ip found
        simp only [found]
        refine iff_of_true ⟨_, rfl⟩ ⟨by omega, by simp⟩

/-- A slot lies in one file. -/
theorem slot_file {q : Nat} (inside : q < 4) :
    (j * PGSIZE + REPLACE_BUF_SIZE * q) / VPFILE_SIZE = j * PGSIZE / VPFILE_SIZE := by
  simp only [PGSIZE, REPLACE_BUF_SIZE, VPFILE_SIZE]
  omega

theorem swapLoop_returns (inside : j * PGSIZE / VPFILE_SIZE < MAX_VPFILES) (qs : List Nat) :
    ∀ (files : VpFiles) (km : Kmem), (∀ q ∈ qs, q < 4) → files (j * PGSIZE / VPFILE_SIZE) ≠ none →
      ∃ r, swapLoop f (j * PGSIZE) qs files km = .ok r := by
  induction qs with
  | nil => exact fun files km _ _ => ⟨_, rfl⟩
  | cons q qs ih =>
    intro files km quarters isOpen
    have file := slot_file (j := j) (quarters q (mem_cons_self ..))
    have isFound : ∃ r, vpfileAt files (j * PGSIZE + REPLACE_BUF_SIZE * q) = .ok r :=
      vpfileAt_ok.2 ⟨by rw [file]; exact inside, by rw [file]; exact isOpen⟩
    obtain ⟨⟨n, ip⟩, found⟩ := isFound
    have isNumber : n = j * PGSIZE / VPFILE_SIZE := by
      unfold vpfileAt at found
      simp only at found
      split at found
      · cases found
      · split at found
        · cases found
        · split at found
          · cases found
          · cases found
            exact file
    have read : ∃ r, vpread files (fun _ => 0) (j * PGSIZE + REPLACE_BUF_SIZE * q) REPLACE_BUF_SIZE = .ok r := by
      unfold vpread
      rw [found, ok_bind]
      cases size : readi ip ((j * PGSIZE + REPLACE_BUF_SIZE * q) % VPFILE_SIZE) REPLACE_BUF_SIZE with
      | none => exact ⟨_, by simp only [size]; rfl⟩
      | some n => exact ⟨_, by simp only [size]; rfl⟩
    obtain ⟨⟨r, buf⟩, read⟩ := read
    have write : ∃ r ip', vpwrite files (fun o => km.mem f (REPLACE_BUF_SIZE * q + o))
        (j * PGSIZE + REPLACE_BUF_SIZE * q) REPLACE_BUF_SIZE = .ok (r, update files n (some ip')) := by
      unfold vpwrite
      rw [found, ok_bind]
      exact ⟨_, _, rfl⟩
    obtain ⟨r', ip', write⟩ := write
    obtain ⟨final, loop⟩ := ih (update files n (some ip')) _
      (fun q' mem => quarters q' (mem_cons_of_mem _ mem)) (by rw [isNumber, update_self]; simp)
    exact ⟨final, bind_ok.2 ⟨_, read, bind_ok.2 ⟨_, write, loop⟩⟩⟩

theorem swapLoop_needs {r : VpFiles × Kmem} (call : swapLoop f (j * PGSIZE) (List.range 4) files km = .ok r) :
    j * PGSIZE / VPFILE_SIZE < MAX_VPFILES ∧ files (j * PGSIZE / VPFILE_SIZE) ≠ none := by
  rw [show List.range 4 = [0, 1, 2, 3] from rfl] at call
  obtain ⟨_, read, _⟩ := bind_ok.1 call
  obtain ⟨x, found, _⟩ := bind_ok.1 read
  have first := vpfileAt_ok.1 ⟨x, found⟩
  rw [slot_file (by decide)] at first
  exact first

theorem fifoReplace_completes {addr : Nat} {p : Proc} (km : Kmem) (sound : p.pgdir.Sound kend lo) (queue : UserQueue p.mq)
    (user : addr < KERNBASE) (out : (p.pgdir.pte (addr / PGSIZE)).pg = true) (ready : PageInReady addr p) :
    ∃ p' km', fifoReplace addr p km = .ok (p', km') ∧ p'.pgdir.pde = p.pgdir.pde ∧
      ∃ f, p'.pgdir.pte (addr / PGSIZE) = Pte.fresh f := by
  obtain ⟨_, l, last, j, wf, two, nonempty, apart, slot, inside, isOpen⟩ := ready
  obtain ⟨i, mq, taken⟩ := wf.take_last_exists (by
    rw [length_append, length_singleton]
    have := length_pos_iff.2 two
    omega) "[ERROR] Only 0 or 1 pages in memory." "[ERROR] last null!"
  obtain ⟨m, isLast, _, _, _, vaddr, _⟩ := wf.take_last taken
  have isI : i = last := by
    have := (append_inj' isLast rfl).2
    exact (singleton_inj.1 this).symm
  subst isI
  have victim : walkpgdir (mq.entries i).vaddr p.pgdir = some (p.pgdir.pte ((p.mq.entries i).vaddr / PGSIZE)) := by
    rw [vaddr]
    have low : (p.mq.entries i).vaddr < KERNBASE := vaddr i ▸ queue.victim taken
    exact sound.wf.walk (user_page low).1 nonempty
  have outNonempty : p.pgdir.pte (addr / PGSIZE) ≠ {} := by
    intro empty
    rw [empty] at out
    cases out
  have here := sound.wf.walk (user_page user).1 outNonempty
  obtain ⟨⟨files, km'⟩, loop⟩ := swapLoop_returns (f := (p.pgdir.pte ((p.mq.entries i).vaddr / PGSIZE)).addr) inside
    (List.range 4) p.vpfile km (fun q mem => mem_range.1 mem) isOpen
  generalize (p.pgdir.pte ((p.mq.entries i).vaddr / PGSIZE)) = e at victim nonempty loop
  refine ⟨{ p with
    pgdir := (p.pgdir.set addr (Pte.fresh e.addr)).set (mq.entries i).vaddr Pte.out
    vtab := p.vtab.set j (mq.entries i).vaddr
    vpfile := files
    mq := mq.linkFront i addr }, km', ?_, rfl, e.addr, ?_⟩
  · refine bind_ok.2 ⟨_, taken, ?_⟩
    simp only [victim, slot, here]
    rw [if_neg nonempty, if_neg outNonempty]
    exact bind_ok.2 ⟨_, loop, rfl⟩
  · show ((p.pgdir.set addr (Pte.fresh e.addr)).set (mq.entries i).vaddr Pte.out).pte (addr / PGSIZE) = Pte.fresh e.addr
    rw [PgDir.set_pte, vaddr, if_neg (Ne.symm apart), PgDir.set_pte, if_pos rfl]

/-! ## Stack growth -/

theorem kernelFaults_empty (empty : d.pte (va / PGSIZE) = {}) : kernelFaults write va d = true := by
  rw [← Bool.not_eq_false, kernelFaults_false]
  rintro ⟨e, found, present, _⟩
  rw [← entry_of_walk found, empty] at present
  cases present

/-- One fault in a gap that can be filled. -/
theorem gap_fault {n : Nat} (sane : c.Sane kend kdata lo) (tidy : c.cur.Tidy) (gap : Gap va n c)
    (guard : c.cur.sz + PGSIZE ≤ PGROUNDDOWN va) (half : USERSTACKTOP ≤ 2 * PGROUNDDOWN va)
    (memory : Room (n + 1) c.cur.pgdir c.km) :
    kernelFaults write va c.cur.pgdir = true ∧
      ∃ c', castPageFault (presentFlag va c.cur.pgdir) va c = .ok c' ∧ Deepened c c' ∧ GrewQuietly c c' ∧
        Room n c'.cur.pgdir c'.km := by
  obtain ⟨room, isBelow, atBelow⟩ := gap.below_eq sane.layout
  obtain ⟨empty, emptyBelow⟩ := gap.empty sane.layout
  have capacity := gap.capacity
  have under : PGROUNDDOWN va ≤ c.cur.below := by
    rw [← atBelow, PGROUNDDOWN, gap.here]
    exact Nat.mul_le_mul_right _ (Nat.le_add_right _ _)
  obtain ⟨c', call, deepened⟩ := gap.fault sane tidy
  obtain ⟨quiet, memory'⟩ := deepened.room sane room (by omega) emptyBelow ⟨by omega, by omega⟩ memory
  exact ⟨kernelFaults_empty empty, c', call, deepened, quiet, memory'⟩

/-- By induction on the pages between `va` and the stack. -/
theorem completes_gap (first : lo ≤ 1) (user : va < KERNBASE) (n : Nat) :
    ∀ c : Ctx, c.Sane kend kdata lo → c.cur.Tidy → Gap va n c → c.cur.sz + PGSIZE ≤ PGROUNDDOWN va →
      USERSTACKTOP ≤ 2 * PGROUNDDOWN va → Room (n + 1) c.cur.pgdir c.km → Completes write va c := by
  induction n with
  | zero =>
    intro c sane tidy gap guard half memory
    obtain ⟨fault, c', call, _, quiet, _⟩ := gap_fault sane tidy gap guard half memory
    have sane' := (castPageFault_sane sane first call).sane
    obtain ⟨f, page⟩ := quiet.page
    rw [gap.here, Nat.add_zero] at page
    have nonempty : c'.cur.pgdir.pte (va / PGSIZE) ≠ {} := by
      rw [page]
      rintro ⟨⟩
    have found := sane'.table.wf.walk (user_page user).1 nonempty
    have done : kernelFaults write va c'.cur.pgdir = false :=
      kernelFaults_false.2 ⟨_, found, by rw [page]; rfl, fun _ => by rw [page]; rfl⟩
    exact .fault fault call (.inl done) (.access done)
  | succ n ih =>
    intro c sane tidy gap guard half memory
    obtain ⟨fault, c', call, deepened, quiet, memory'⟩ := gap_fault sane tidy gap guard half memory
    obtain ⟨sz, stack, _⟩ := deepened.fields sane.layout (gap.below_eq sane.layout).1
    obtain ⟨f, page⟩ := quiet.page
    have advances : Advances write va c c' :=
      .inr ⟨stack, by rw [(gap.empty sane.layout).2], by rw [page]; rfl⟩
    exact .fault fault call advances (ih c' (castPageFault_sane sane first call).sane (castPageFault_tidy sane tidy call)
      (gap.next sane.layout deepened quiet) (sz ▸ guard) half memory')

/-! ## Any access -/

theorem AccessReady.completes (first : lo ≤ 1) (sane : c.Sane kend kdata lo) (tidy : c.cur.Tidy)
    (ready : AccessReady write va c) : Completes write va c := by
  by_cases faults : kernelFaults write va c.cur.pgdir = false
  · exact .access faults
  have fault : kernelFaults write va c.cur.pgdir = true := by
    cases h : kernelFaults write va c.cur.pgdir with
    | false => exact absurd h faults
    | true => rfl
  cases ready with
  | direct direct => exact .access direct
  | @copy e user found present frame shared =>
    have entry := entry_of_walk found
    have isUser : e.u = true := entry ▸ sane.table.wf.user _ (user_page user).2 (entry.symm ▸ present)
    have readOnly : e.w = false := by
      cases h : e.w with
      | false => rfl
      | true => exact absurd (kernelFaults_false.2 ⟨e, found, present, fun _ => h⟩) faults
    have copied : ∃ c', cowFault va e c = .ok c' ∧ kernelFaults write va c'.cur.pgdir = false :=
      cowFault_completes sane user found present frame shared
    obtain ⟨c', call, done⟩ := copied
    refine .fault fault ?_ (.inl done) (.access done)
    rw [presentFlag_true found, present, castPageFault, if_pos rfl, protectionFault, if_neg (Nat.not_le.2 user), found]
    simp only [present, isUser, readOnly, Bool.not_true, Bool.false_eq_true, if_false]
    exact call
  | pageIn above out ready =>
    have user := pagedOut_user sane.table.wf out
    have page : PGROUNDDOWN va / PGSIZE = va / PGSIZE := page_div _
    obtain ⟨table, entryOut⟩ := pagedOut_true.1 out
    have absent : presentFlag va c.cur.pgdir = false := by
      refine presentFlag_false (Bool.eq_false_iff.2 fun present => ?_)
      have resident := sane.table.wf.resident (va / PGSIZE) present
      rw [entryOut] at resident
      cases resident
    obtain ⟨p', km', call, tables, f, fresh⟩ := fifoReplace_completes c.km sane.table sane.queue
      (Nat.lt_of_le_of_lt (Nat.div_mul_le_self va PGSIZE) user) (page.symm ▸ entryOut) ready
    rw [show va / PGSIZE * PGSIZE / PGSIZE = va / PGSIZE from page] at fresh
    have done : kernelFaults write va p'.pgdir = false :=
      kernelFaults_set (by rw [tables]; exact table) (by rw [fresh]; rfl) (by rw [fresh]; rfl)
    have isCall : fifoReplace (PGROUNDDOWN va) c.cur c.km = .ok (p', km') := call
    have handled : castPageFault (presentFlag va c.cur.pgdir) va c = .ok { c with cur := p', km := km' } := ?_
    · exact .fault fault handled (.inl done) (.access done)
    rw [absent, castPageFault, if_neg Bool.false_ne_true, if_neg (Nat.not_lt.2 above), if_pos out, replacePageIn,
      if_neg ready.1, isCall]
    rfl
  | grow ready =>
    obtain ⟨low, high, room⟩ := growsStack_bounds sane.layout ready.grows
    have user : va < KERNBASE := by
      simp only [USERSTACKTOP, KERNBASE] at *
      omega
    exact completes_gap first user _ c sane tidy (.of_clear sane.layout ready.grows ready.clear ready.capacity) ready.guard
      ready.half ready.room

/-- A handler that leaves the table and the size of the stack as they are does not help. -/
theorem Advances.changed (fault : kernelFaults write va c.cur.pgdir = true) (table : c'.cur.pgdir = c.cur.pgdir)
    (stack : c'.cur.stacksize = c.cur.stacksize) : ¬ Advances write va c c' := by
  rintro (done | ⟨grown, _⟩)
  · rw [table, fault] at done
    cases done
  · rw [stack] at grown
    simp only [PGSIZE] at grown
    omega

/-- What a protection fault that helps needed. -/
theorem protectionFault_needs (fault : kernelFaults write va c.cur.pgdir = true) (isEnd : 0 < c.km.kend)
    (call : protectionFault va c = .ok c') (advances : Advances write va c c') : AccessReady write va c := by
  rcases protectionFault_ok call with rfl | ⟨e, user, found, present, _, readOnly, cow⟩
  · exact absurd advances (Advances.changed fault rfl rfl)
  · have isWrite : write = true := by
      cases write with
      | true => rfl
      | false =>
        have direct : kernelFaults false va c.cur.pgdir = false :=
          kernelFaults_false.2 ⟨e, found, present, fun isTrue => absurd isTrue Bool.false_ne_true⟩
        exact direct.symm.trans fault
    subst isWrite
    obtain ⟨_, stack⟩ := protectionFault_sizes call
    have done : kernelFaults true va c'.cur.pgdir = false := by
      rcases advances with done | ⟨grown, _⟩
      · exact done
      · rw [stack] at grown
        simp only [PGSIZE] at grown
        omega
    obtain ⟨frame, shared⟩ := cowFault_needs found readOnly (fun _ => .inr isEnd) cow done
    exact .copy user found present frame shared

/-- What a page-in that helps needed. -/
theorem replacePageIn_needs {p : Proc} (tidy : c.cur.Tidy) (fault : kernelFaults write va c.cur.pgdir = true)
    (call : replacePageIn (PGROUNDDOWN va) c.cur c.km = .ok (p, km))
    (advances : Advances write va c { c with cur := p, km := km }) : PageInReady (PGROUNDDOWN va) c.cur := by
  unfold replacePageIn at call
  split at call
  · cases call
    exact absurd advances (Advances.changed fault rfl rfl)
  · rename_i ordinary
    obtain ⟨l, wf, _⟩ := tidy.queue
    obtain ⟨last, mq, e, j, e', files, taken, victim, nonempty, slot, _, _, loop, isP⟩ := fifoReplace_ok call
    obtain ⟨m, rfl, two, _, _, vaddr, _⟩ := wf.take_last taken
    obtain ⟨inside, isOpen⟩ := swapLoop_needs loop
    refine ⟨ordinary, m, last, j, wf, two, ?_, ?_, slot, inside, isOpen⟩
    · rw [← vaddr, entry_of_walk victim]
      exact nonempty
    · -- a page that takes its own place ends up paged out
      intro same
      rw [← vaddr] at same
      have stack : p.stacksize = c.cur.stacksize := by rw [isP]
      have out : p.pgdir.pte (va / PGSIZE) = Pte.out := by
        have page : PGROUNDDOWN va / PGSIZE = va / PGSIZE := page_div _
        rw [isP, PgDir.set_pte, if_pos (page.symm.trans same.symm)]
      rcases advances with done | ⟨grown, _⟩
      · obtain ⟨e, found, present, _⟩ := kernelFaults_false.1 done
        rw [← entry_of_walk found, out] at present
        cases present
      · simp only [PGSIZE] at grown
        omega

theorem Completes.ready (symbols : Symbols kend kdata) (sane : c.Sane kend kdata lo) (tidy : c.cur.Tidy)
    (other : ¬ c.cur.AsksStack va) (completes : Completes write va c) : AccessReady write va c := by
  cases completes with
  | access direct => exact .direct direct
  | @fault _ c' fault call advances rest =>
    have isEnd : 0 < c.km.kend := by
      rw [sane.memory.isEnd]
      exact Nat.lt_of_lt_of_le (Nat.zero_lt_of_lt symbols.text) symbols.data
    generalize isFlag : presentFlag va c.cur.pgdir = flag at call
    cases castPageFault_ok call with
    | protection _ protection => exact protectionFault_needs fault isEnd protection advances
    | null => exact absurd advances (Advances.changed fault rfl rfl)
    | pageIn absent above out replaced =>
      exact .pageIn above out (replacePageIn_needs tidy fault replaced advances)
    | stack absent above out grows grow => exact absurd ⟨isFlag.trans absent, out, grows⟩ other
    | noMemory => exact absurd advances (Advances.changed fault rfl rfl)
    | @leaked _ f km absent out outside got protection =>
      rcases protectionFault_ok protection with rfl | ⟨e, _, found, present, _⟩
      · exact absurd advances (Advances.changed fault rfl rfl)
      · have flagged := presentFlag_true found
        rw [isFlag, absent, present] at flagged
        cases flagged

end Faults

/-- An access to an unmapped page outside the gap costs a page and gets nothing. -/
theorem castPageFault_outside {c : Ctx} {va : Nat} (above : PGSIZE ≤ va) (empty : c.cur.pgdir.pte (va / PGSIZE) = {})
    (outside : ¬ growsStack va c.cur) (got : kalloc c.km = (some f, km)) :
    castPageFault (presentFlag va c.cur.pgdir) va c = .ok { c with km := km }.kill := by
  have absent : presentFlag va c.cur.pgdir = false := presentFlag_false (by rw [empty])
  have inside : pagedOut va c.cur.pgdir = false := pagedOut_false (by rw [empty])
  have protection : protectionFault va { c with km := km } = .ok { c with km := km }.kill := by
    unfold protectionFault
    cases found : walkpgdir va c.cur.pgdir with
    | none => split <;> rfl
    | some e =>
      cases (entry_of_walk found).symm.trans empty
      split <;> rfl
  rw [castPageFault, absent, if_neg Bool.false_ne_true, if_neg (Nat.not_lt.2 above), inside, if_neg Bool.false_ne_true,
    if_neg outside, got]
  exact protection

/-- The word above `esp` is always an argument, wherever `esp` points. -/
theorem Accepted.first {p : Caller} (plain : p.esp ≤ add32 p.esp 4) (user : add32 (add32 p.esp 4) 4 ≤ USERSTACKTOP) :
    Accepted p false (add32 (add32 p.esp 4) 0) := by
  refine .int (n := 0) ?_
  show _ ∈ (fetchint p (add32 p.esp 4)).reads
  rw [fetchint, if_neg (by omega), if_neg (by omega), if_neg (Nat.not_lt.2 user)]
  exact mem_cons_self ..

/-- **A kernel access completes when its page can be had.** In every state that boot
reaches, and for every byte that the argument functions accept. When the byte does not
lie in the gap below the stack, nothing else will do. -/
theorem kernel_access_completes {kend kdata : Nat} {mem : Nat → Nat → UInt8} {km : Kmem} {init : Bytes} {size : Nat}
    {k0 k : Kernel} {ls : List Op} (symbols : Symbols kend kdata) (boot : kinitMain kend kdata mem = .ok km)
    (start : userinit init size (Kernel.blank km) = .ok k0) (run : Trace Step k0 ls k) {i : Nat} (bound : i < NPROC)
    (canRun : (k.proc i).canRun) (esp : Nat) :
    ∀ write a, Accepted ((k.ctx i).caller esp) write a →
      (AccessReady write a (k.ctx i) → Completes write a (k.ctx i)) ∧
      (¬ (k.proc i).AsksStack a → Completes write a (k.ctx i) → AccessReady write a (k.ctx i)) := by
  have sane0 := (Kernel.Sane.boot symbols boot start).mono fun _ => Nat.zero_le _
  have tidy0 := (userinit_booted symbols boot start).tidy
  obtain ⟨sane, tidy⟩ : k.Sane kend kdata (fun _ => 0) ∧ k.Tidy :=
    run.invariant (I := fun k => k.Sane kend kdata (fun _ => 0) ∧ k.Tidy)
      (fun _ _ _ inv step => ⟨inv.1.any symbols step, inv.2.step symbols inv.1 step⟩)
      ⟨sane0, tidy0⟩
  have saneHere := sane.procs i bound canRun.1
  have tidyHere := tidy.procs i bound canRun.1
  intro write a _
  constructor
  · exact fun ready => ready.completes (Nat.zero_le 1) saneHere tidyHere
  · exact fun other completes => completes.ready symbols saneHere tidyHere other

/-- The first process passes a word sixteen pages below the top of its empty stack. -/
theorem kernel_access_completes_first :
    ∃ km k, bootKmem = .ok km ∧ userinit (fun _ => 0) 0 (Kernel.blank km) = .ok k ∧
      Accepted ((k.ctx 0).caller 0x7fff0000) false 0x7fff0004 ∧ Completes false 0x7fff0004 (k.ctx 0) := by
  obtain ⟨km, k, boot, start, started⟩ := boot_started
  have below : (k.ctx 0).cur.below = 0x7ffff000 := started.below
  have size : (k.ctx 0).cur.sz = PGSIZE := started.sz
  have stack : (k.ctx 0).cur.stacksize = 0 := started.stack.1
  have accepted : Accepted ((k.ctx 0).caller 0x7fff0000) false 0x7fff0004 :=
    Accepted.first (p := (k.ctx 0).caller 0x7fff0000) (show 0x7fff0000 ≤ add32 0x7fff0000 4 by decide)
      (show add32 (add32 0x7fff0000 4) 4 ≤ USERSTACKTOP by decide)
  have ready : GrowReady 0x7fff0004 (k.ctx 0) := by
    constructor
    · rw [growsStack, size, stack]
      decide
    · exact started.clear (by decide)
    · rw [show (k.ctx 0).cur.mq.num = 0 from started.queue.num, below]
      decide
    · rw [size]
      decide
    · decide
    · rw [below]
      exact started.room.mono (by decide)
  exact ⟨km, k, boot, start, accepted,
    (kernel_access_completes bootSymbols boot start .nil (by decide) started.canRun _ _ _ accepted).1 (.grow ready)⟩

/-- A first argument at the end of the heap, behind an `esp` in the heap, is accepted. The
handler returns with the table unchanged, and the access never completes. -/
theorem kernel_access_stuck :
    ∃ km k, bootKmem = .ok km ∧ userinit (fun _ => 0) 0 (Kernel.blank km) = .ok k ∧
      Accepted ((k.ctx 0).caller 0xffc) false PGSIZE ∧ ¬ Completes false PGSIZE (k.ctx 0) ∧
      kernelFaults false PGSIZE (k.ctx 0).cur.pgdir = true ∧
      ∃ c, castPageFault (presentFlag PGSIZE (k.ctx 0).cur.pgdir) PGSIZE (k.ctx 0) = .ok c ∧
        c.cur.pgdir = (k.ctx 0).cur.pgdir := by
  obtain ⟨km, k, boot, start, started⟩ := boot_started
  have size : (k.ctx 0).cur.sz = PGSIZE := started.sz
  have accepted : Accepted ((k.ctx 0).caller 0xffc) false PGSIZE :=
    Accepted.first (p := (k.ctx 0).caller 0xffc) (show 0xffc ≤ add32 0xffc 4 by decide)
      (show add32 (add32 0xffc 4) 4 ≤ USERSTACKTOP by decide)
  have empty : (k.ctx 0).cur.pgdir.pte (PGSIZE / PGSIZE) = {} := started.empty_walk _ (Nat.le_refl _) (by decide)
  have outside : ¬ growsStack PGSIZE (k.ctx 0).cur := by
    rw [growsStack, size]
    rintro ⟨low, _⟩
    exact absurd low (by decide)
  have fault : kernelFaults false PGSIZE (k.ctx 0).cur.pgdir = true := kernelFaults_empty empty
  obtain ⟨f, km', got, _⟩ := kalloc_free (n := 0) (Nat.le_trans (by decide) started.room.free : 0 + 1 ≤ k.km.freelist.length)
  have handled : castPageFault (presentFlag PGSIZE (k.ctx 0).cur.pgdir) PGSIZE (k.ctx 0) =
      .ok { k.ctx 0 with km := km' }.kill :=
    castPageFault_outside (Nat.le_refl _) empty outside got
  refine ⟨km, k, boot, start, accepted, fun completes => ?_, fault, _, handled, rfl⟩
  cases completes with
  | access direct => exact Bool.false_ne_true (direct.symm.trans fault)
  | fault _ call advances _ =>
    cases handled.symm.trans call
    exact Advances.changed fault rfl rfl advances

end Xv6
