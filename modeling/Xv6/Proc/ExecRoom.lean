import Xv6.Proc.ExecSound
import Xv6.Vm.GrowRoom

/-!
# An `exec` that succeeds

The smallest program: one segment of zeros and no arguments. With memory to spare `exec`
loads it, and the process has the segment's pages and one page of stack.
-/

namespace Xv6

open Fallible List

/-- The header of an ELF file with one program header, and that header but for its size in memory: a segment at
`0x1000` with nothing in the file. -/
def zeroHeader : List UInt8 :=
  [0x7f, 0x45, 0x4c, 0x46] ++ List.replicate 24 0 ++ [52] ++ List.replicate 15 0 ++ [1] ++ List.replicate 7 0 ++
    [1, 0, 0, 0, 0, 0, 0, 0, 0, 0x10]

/-- A program whose image is `m` pages of zeros. -/
def zeroElf (m : Nat) : Inode where
  size := 84
  data o := if 72 ≤ o ∧ o < 76 then UInt8.ofNat (m * PGSIZE / 256 ^ (o - 72)) else zeroHeader.getD o 0

section File

variable (m : Nat)

theorem Inode.word_congr {ip ip' : Inode} (n : Nat) :
    ∀ off, (∀ o, off ≤ o → o < off + n → ip.data o = ip'.data o) → ip.word off n = ip'.word off n := by
  induction n with
  | zero => exact fun _ _ => rfl
  | succ n ih =>
    intro off same
    unfold Inode.word
    rw [same off (Nat.le_refl _) (by omega), ih (off + 1) fun o low high => same o (by omega) (by omega)]

/-- The words before the segment's size do not depend on it. -/
theorem zeroElf_word {off n : Nat} (early : off + n ≤ 72) : (zeroElf m).word off n = (zeroElf 0).word off n := by
  refine Inode.word_congr n off fun o low high => ?_
  simp only [zeroElf]
  rw [if_neg (by omega), if_neg (by omega)]

theorem zeroElf_header :
    readi (zeroElf m) 0 ELFHDR = some ELFHDR ∧ (zeroElf m).word 0 4 = ELF_MAGIC ∧ (zeroElf m).word 44 2 = 1 ∧
      (zeroElf m).word 28 4 = 52 := by
  rw [zeroElf_word m (by decide), zeroElf_word m (by decide), zeroElf_word m (by decide)]
  exact ⟨rfl, by decide, by decide, by decide⟩

theorem zeroElf_segment (small : m * PGSIZE < 2 ^ 32) :
    readi (zeroElf m) 52 PROGHDR = some PROGHDR ∧ (zeroElf m).word 52 4 = ELF_PROG_LOAD ∧
      (zeroElf m).word (52 + 8) 4 = PGSIZE ∧ (zeroElf m).word (52 + 16) 4 = 0 ∧
      (zeroElf m).word (52 + 20) 4 = m * PGSIZE := by
  rw [zeroElf_word m (by decide), zeroElf_word m (by decide), zeroElf_word m (by decide)]
  refine ⟨rfl, by decide, by decide, by decide, ?_⟩
  simp only [Inode.word, zeroElf, Nat.reduceAdd, Nat.reduceLeDiff, Nat.reduceLT, Nat.reduceSub, and_self, if_true,
    UInt8.toNat_ofNat', Nat.reducePow]
  simp only [PGSIZE] at *
  omega

end File

section Room

variable {c : Ctx} {m n : Nat} {vs : List Nat}

/-- The segment is loaded. -/
theorem loadProgram_zeros (small : PGSIZE + m * PGSIZE ≤ KERNBASE)
    (accepted : ¬ growRefused c.cur PGSIZE (PGSIZE + m * PGSIZE)) (wf : c.img.Wf)
    (blank : ∀ v, v < NUPAGES → c.img.pte v = {}) (holds : c.cur.mq.Holds vs) (capacity : vs.length + m ≤ MEM_CAPACITY)
    (room : Room (n + m) c.img c.km) :
    ∃ c', loadProgram (zeroElf m) 1 52 PGSIZE c = .ok (some (PGSIZE + m * PGSIZE), c') ∧
      c.Mapped .img (pageRange PGSIZE (PGSIZE + m * PGSIZE)) c' ∧
      c'.cur.mq.Holds ((pageRange PGSIZE (PGSIZE + m * PGSIZE)).reverse ++ vs) ∧ Room n c'.img c'.km := by
  have count : (pageRange (PGROUNDUP PGSIZE) (PGSIZE + m * PGSIZE)).length = m := by
    simp only [pageRange, PGROUNDUP, length_map, length_range, PGSIZE]
    omega
  have absent : ∀ v, PGROUNDUP PGSIZE ≤ v * PGSIZE → v * PGSIZE < PGSIZE + m * PGSIZE →
      ((c.table .img).pte v).p = false := by
    intro v _ high
    show (c.img.pte v).p = false
    rw [blank v (by simp only [PGSIZE, NUPAGES, KERNBASE] at *; omega)]
  obtain ⟨c', alloc, mapped, queue, room'⟩ := @allocuvm_room c .img _ _ n _ accepted (Nat.le_add_right _ _) wf absent
    holds (by rw [count]; exact capacity) (by rw [count]; exact room)
  have first : PGROUNDUP PGSIZE = PGSIZE := rfl
  rw [first] at mapped queue
  have sizes : m * PGSIZE < 2 ^ 32 := by
    simp only [PGSIZE, KERNBASE] at *
    omega
  obtain ⟨header, isLoad, vaddr, filesz, memsz⟩ := zeroElf_segment m sizes
  have last : add32 PGSIZE (m * PGSIZE) = PGSIZE + m * PGSIZE := by
    simp only [add32, PGSIZE, KERNBASE] at *
    omega
  refine ⟨c', ?_, mapped, queue, room'⟩
  unfold loadProgram
  simp only [header, isLoad, vaddr, filesz, memsz, last]
  rw [if_neg (not_not.2 rfl), if_neg (not_not.2 rfl), if_neg (Nat.not_lt_zero _), if_neg (by omega), alloc, ok_bind]
  simp only
  rw [if_neg (by simp only [PGSIZE]; omega), if_neg (by decide)]
  rfl

/-- The pages of the stack of a new program. -/
theorem stack_pages_first : pageRange (PGROUNDUP (USERSTACKTOP - PGSIZE)) USERSTACKTOP = [0x7ffff000] := rfl

/-- `copyout` within one page. -/
theorem copyout_page {d : PgDir} {va : Nat} {e : Pte} {buf : List UInt8} (km : Kmem) (nonempty : buf ≠ [])
    (found : walkpgdir (PGROUNDDOWN va) d = some e) (present : e.p = true) (user : e.u = true)
    (fits : buf.length ≤ PGSIZE - (va - PGROUNDDOWN va)) :
    copyout d va buf km = .ok (true, km.store e.addr (va - PGROUNDDOWN va) buf) := by
  obtain ⟨b, bs, rfl⟩ := exists_cons_of_ne_nil nonempty
  have whole : min (PGSIZE - (va - PGROUNDDOWN va)) (b :: bs).length = (b :: bs).length := Nat.min_eq_right fits
  unfold copyout
  rw [length_cons]
  unfold copyoutLoop
  simp only [found, present, user, Bool.not_true, Bool.false_eq_true, if_false, whole, drop_length, take_length]
  unfold copyoutLoop
  rfl

/-- Without arguments `exec` pushes four words. -/
theorem pushStack_nil {d : PgDir} {f : Nat} (km : Kmem) (found : walkpgdir 0x7ffff000 d = some (Pte.fresh f)) :
    ∃ mem, pushStack d [] km = .ok (some 0x7ffffff0, { km with mem := mem }) := by
  have copied : ∃ mem, copyout d 0x7ffffff0 ([0xffffffff, 0, sub32 USERSTACKTOP ((0 + 1) * 4), 0].flatMap wordBytes) km =
      .ok (true, { km with mem := mem }) :=
    ⟨_, copyout_page km (by decide) found rfl rfl (by decide)⟩
  obtain ⟨mem, copied⟩ := copied
  refine ⟨mem, ?_⟩
  unfold pushStack
  rw [show pushArgs d [] USERSTACKTOP [] km = .ok (some (USERSTACKTOP, []), km) from rfl, ok_bind]
  show (copyout d 0x7ffffff0 ([0xffffffff, 0, sub32 USERSTACKTOP ((0 + 1) * 4), 0].flatMap wordBytes) km >>= _) = _
  rw [copied, ok_bind]
  rfl

/-- The pages of a program of `m` pages of zeros, in its table `d`. -/
structure ZeroImage (m : Nat) (d : PgDir) : Prop where
  heap : ∀ v, 1 ≤ v → v ≤ m → ∃ f, d.pte v = Pte.fresh f
  top : ∃ f, d.pte 0x7ffff = Pte.fresh f
  empty : ∀ v, v < NUPAGES → (v = 0 ∨ m < v) → v ≠ 0x7ffff → d.pte v = {}
  wf : d.Wf

/-- The stack page, after the segment has been loaded. -/
theorem loadStack_zeros (clear : c.cur.stackGrowing = true) (layout : c.cur.Layout)
    (space : PGSIZE + m * PGSIZE ≤ c.cur.stackSpace) (near : c.cur.sz + PGSIZE ≤ c.cur.stackSpace) (wf : c.img.Wf)
    (heap : ∀ v, 1 ≤ v → v ≤ m → ∃ f, c.img.pte v = Pte.fresh f)
    (empty : ∀ v, v < NUPAGES → v = 0 ∨ m < v → c.img.pte v = {}) (holds : c.cur.mq.Holds vs)
    (capacity : vs.length < MEM_CAPACITY) (room : Room (n + 1) c.img c.km) :
    ∃ c', allocuvm .img (USERSTACKTOP - PGSIZE) USERSTACKTOP c = .ok (USERSTACKTOP, c') ∧
      c'.cur = { c.cur with mq := c'.cur.mq } ∧ c'.cur.mq.Holds (0x7ffff000 :: vs) ∧ ZeroImage m c'.img ∧
      Room n c'.img c'.km := by
  have stackSpace := stackSpace_le layout
  have accepted : ¬ growRefused c.cur (USERSTACKTOP - PGSIZE) USERSTACKTOP := by
    have apart : sub32 c.cur.stackSpace PGSIZE = c.cur.stackSpace - PGSIZE := by
      simp only [sub32, PGSIZE, KERNBASE] at *
      omega
    unfold growRefused
    rw [apart, clear]
    simp only [add32, PGSIZE, KERNBASE, USERSTACKTOP] at *
    rintro (⟨_, less⟩ | ⟨_, isTop, less⟩ | ⟨no, _⟩ | no)
    · omega
    · omega
    · cases no
    · omega
  have absent : ∀ v, PGROUNDUP (USERSTACKTOP - PGSIZE) ≤ v * PGSIZE → v * PGSIZE < USERSTACKTOP →
      ((c.table .img).pte v).p = false := by
    intro v low high
    show (c.img.pte v).p = false
    rw [empty v (by simp only [PGSIZE, NUPAGES, USERSTACKTOP] at *; omega)
      (by simp only [PGROUNDUP, PGSIZE, KERNBASE, USERSTACKTOP] at *; omega)]
  obtain ⟨c', alloc, mapped, queue, room'⟩ := @allocuvm_room c .img _ _ n _ accepted (by decide) wf absent holds
    capacity room
  rw [stack_pages_first] at mapped queue
  have old : ∀ v, v ≠ 0x7ffff → c'.img.pte v = c.img.pte v := by
    intro v other
    refine mapped.old v fun a mem here => other ?_
    cases mem_singleton.1 mem
    exact here.symm
  refine ⟨c', alloc, ?_, queue, ⟨?_, mapped.new _ (mem_singleton_self _), ?_, mapped.wf⟩, room'⟩
  · have same := mapped.cur
    rw [show c'.cur.pgdir = c.cur.pgdir from mapped.untouched .cur (by decide)] at same
    exact same
  · intro v pos high
    rw [old v (by simp only [PGSIZE, KERNBASE] at *; omega)]
    exact heap v pos high
  · intro v low outside other
    rw [old v other]
    exact empty v low outside

/-- **The image** is built. -/
theorem buildImage_zeros (clear : c.cur.stackGrowing = false) (layout : c.cur.Layout)
    (space : PGSIZE + m * PGSIZE ≤ c.cur.stackSpace) (near : c.cur.sz + PGSIZE ≤ c.cur.stackSpace) (wf : c.img.Wf)
    (blank : ∀ v, v < NUPAGES → c.img.pte v = {}) (holds : c.cur.mq.Holds vs) (capacity : m < MEM_CAPACITY)
    (room : Room (n + 1 + m) c.img c.km) :
    ∃ c', buildImage (zeroElf m) [] c = .ok (some (PGSIZE + m * PGSIZE, 0x7ffffff0), c') ∧
      c'.cur = { c.cur with mq := c'.cur.mq, vtab := vmemClear c.cur.vtab, stackGrowing := false } ∧
      c'.cur.mq.Holds (0x7ffff000 :: (pageRange PGSIZE (PGSIZE + m * PGSIZE)).reverse) ∧ ZeroImage m c'.img ∧
      Room n c'.img c'.km := by
  have stackSpace := stackSpace_le layout
  have fits : ¬ growRefused c.cleared.cur PGSIZE (PGSIZE + m * PGSIZE) := by
    show ¬ growRefused { c.cur with mq := _, vtab := _ } PGSIZE (PGSIZE + m * PGSIZE)
    simp only [growRefused, clear, Bool.false_eq_true, false_and, false_or, true_and, not_or]
    exact ⟨Nat.not_lt.2 space, by omega⟩
  obtain ⟨c2, load, mapped2, queue2, room2⟩ := @loadProgram_zeros c.cleared m (n + 1) [] (by omega) fits wf blank
    holds.clear (by simpa using capacity.le) room
  rw [append_nil] at queue2
  have cur2 : c2.cur = { c.cur with mq := c2.cur.mq, vtab := vmemClear c.cur.vtab } := by
    have same := mapped2.cur
    rw [show c2.cur.pgdir = c.cur.pgdir from mapped2.untouched .cur (by decide)] at same
    exact same
  have empty2 : ∀ v, v < NUPAGES → v = 0 ∨ m < v → c2.img.pte v = {} := by
    intro v low outside
    rw [← blank v low]
    refine mapped2.old v fun a mem here => ?_
    obtain ⟨j, rfl, high⟩ := mem_pageRange.1 mem
    simp only [PGSIZE] at *
    omega
  have heap2 : ∀ v, 1 ≤ v → v ≤ m → ∃ f, c2.img.pte v = Pte.fresh f := by
    intro v pos high
    have := mapped2.new (v * PGSIZE)
      (mem_pageRange.2 ⟨v - 1, by simp only [PGSIZE] at *; omega, by simp only [PGSIZE] at *; omega⟩)
    rwa [page_div] at this
  have length2 : (pageRange PGSIZE (PGSIZE + m * PGSIZE)).reverse.length = m := by
    simp only [length_reverse, pageRange, length_map, length_range, PGSIZE]
    omega
  have space2 : (c2.flag true).cur.stackSpace = c.cur.stackSpace := by
    show c2.cur.stackSpace = c.cur.stackSpace
    rw [cur2]
    rfl
  have near2 : (c2.flag true).cur.sz = c.cur.sz := by
    show c2.cur.sz = c.cur.sz
    rw [cur2]
  have layout2 : (c2.flag true).cur.Layout := by
    show ({ c2.cur with stackGrowing := true } : Proc).Layout
    rw [cur2]
    exact layout.same rfl rfl
  obtain ⟨c3, alloc, cur3, queue3, image3, room3⟩ := @loadStack_zeros (c2.flag true) m n _ rfl layout2
    (by rw [space2]; exact space) (by rw [space2, near2]; exact near) mapped2.wf heap2 empty2 queue2
    (by rw [length2]; exact capacity) room2
  obtain ⟨f, top⟩ := image3.top
  have found : walkpgdir 0x7ffff000 c3.img = some (Pte.fresh f) := by
    have := image3.wf.walk (by decide : 0x7ffff000 < 2 ^ 32) (by show c3.img.pte 0x7ffff ≠ {}; rw [top]; rintro ⟨⟩)
    rw [this]
    exact congrArg some top
  obtain ⟨bytes, push⟩ := pushStack_nil c3.km found
  refine ⟨{ c3.flag false with km := { c3.km with mem := bytes } }, ?_, ?_, queue3, image3, room3⟩
  · obtain ⟨_, _, phnum, phoff⟩ := zeroElf_header m
    have aligned : PGROUNDUP (PGSIZE + m * PGSIZE) = PGSIZE + m * PGSIZE := by
      simp only [PGROUNDUP, PGSIZE]
      omega
    unfold buildImage
    rw [phnum, phoff]
    show (loadProgram (zeroElf m) 1 52 PGSIZE c.cleared >>= _) = _
    rw [load, ok_bind]
    show (allocuvm .img (USERSTACKTOP - PGSIZE) USERSTACKTOP (c2.flag true) >>= _) = _
    rw [alloc, ok_bind]
    show (pushStack c3.img [] c3.km >>= _) = _
    rw [push, ok_bind]
    show Except.ok (some (PGROUNDUP (PGSIZE + m * PGSIZE), 0x7ffffff0), _) = _
    rw [aligned]
    rfl
  · show { c3.cur with stackGrowing := false } = _
    rw [cur3]
    show { c2.cur with stackGrowing := false, mq := c3.cur.mq } = _
    rw [cur2]
    rfl

/-- The process after it has loaded a program of `m` pages of zeros. -/
structure Loaded (m n : Nat) (created : Nat → Inode) (c c' : Ctx) : Prop where
  sz : c'.cur.sz = PGSIZE + m * PGSIZE
  stack : c'.cur.stacksize = PGSIZE ∧ c'.cur.stackGrowing = false
  state : c'.cur.state = c.cur.state
  name : c'.cur.name = "zeros"
  queue : c'.cur.mq.Holds (0x7ffff000 :: (pageRange PGSIZE (PGSIZE + m * PGSIZE)).reverse)
  slots : c'.cur.vtab = vmemClear c.cur.vtab
  files : c'.cur.vpfile = vpalloc created c.cur.vpfile
  image : ZeroImage m c'.cur.pgdir
  room : Room n c'.cur.pgdir c'.km

/-- **A program of `m` pages of zeros is loaded.** -/
theorem exec_zeros {kend kdata lo : Nat} (created : Nat → Inode) (symbols : Symbols kend kdata)
    (sane : c.Sane kend kdata lo) (framed : c.cur.pgdir.Framed kend) (holds : c.cur.mq.Holds vs)
    (clear : c.cur.stackGrowing = false) (space : PGSIZE + m * PGSIZE ≤ c.cur.stackSpace)
    (near : c.cur.sz + PGSIZE ≤ c.cur.stackSpace) (capacity : m < MEM_CAPACITY)
    (free : n + 1 + m + 1 + NPDENTRIES ≤ c.km.freelist.length) :
    ∃ c', exec (some (zeroElf m)) "zeros" [] created c = .ok (0, c') ∧ Loaded m n created c c' := by
  have linked := symbols.linked sane.memory
  obtain ⟨d, km1, setup, room1⟩ := @setupkvm_room (n + 1 + m) c.km linked (by rw [sane.memory.isData]; exact symbols.page)
    free
  obtain ⟨wf1, blank⟩ := setupkvm_blank linked setup
  obtain ⟨c2, built, cur2, queue2, image2, room2⟩ := @buildImage_zeros { c with km := km1, img := d } m n vs clear
    sane.layout space near wf1 blank holds capacity room1
  -- the old table is freed
  obtain ⟨_, _, again, memory1, table1⟩ := setupkvm_sound symbols sane.memory
  cases setup.symm.trans again
  have sound2 := (buildImage_ok built).sound (Imaging.start sane.table.wf linked setup)
    ⟨memory1, sane.table, (table1 d rfl).mono (by decide)⟩
  have table2 : c2.cur.pgdir = c.cur.pgdir := by rw [cur2]
  obtain ⟨km3, freed⟩ := freevm_returns symbols.pos sane.table framed sound2.memory
  refine ⟨c2.committed (zeroElf m) "zeros" created (PGSIZE + m * PGSIZE) 0x7ffffff0 km3, ?_, ?_⟩
  · obtain ⟨header, magic, _⟩ := zeroElf_header m
    exact exec_zero.2 ⟨_, d, km1, c2, _, _, km3, rfl, header, magic, setup, built, table2 ▸ freed, rfl⟩
  · rw [Ctx.committed, cur2]
    refine ⟨rfl, ⟨rfl, rfl⟩, rfl, (by decide : programName "zeros" = "zeros"), queue2, rfl, rfl, image2, ?_⟩
    exact Nat.le_trans room2 (freevm_free freed)

end Room

end Xv6
