import Xv6.Proc.StackGrow
import Xv6.Proc.BootExec

/-!
# The layout of the stack

A page of the stack is present or paged out, and a page lies between heap and stack, in
every state of a run whose stack growth finds its limits met and memory for the page. The
faults of such a run map no other page. A growth that is refused counts the page as stack
all the same.
-/

namespace Xv6
open Fallible Runs

/-- The layout of a process. -/
structure Proc.Stacked (p : Proc) : Prop where
  mapped : p.StackMapped
  guard : p.Guarded

/-- What a page fault leaves of the layout: the stack is whole and apart from the heap, its
growth is over, and no page is new but the one below the old stack. -/
structure StackKept (p p' : Proc) : Prop where
  mapped : p'.StackMapped
  guard : p'.Guarded
  flag : p'.stackGrowing = false
  news : ∀ v, v < NUPAGES → (p'.pgdir.pte v).Mapped → (p.pgdir.pte v).Mapped ∨ v * PGSIZE = p.below

section Ops

variable {kend kdata lo va : Nat} {c c' : Ctx} {p p' : Proc} {argv : List (List UInt8)}
  {created : Nat → Inode} {ip : Option Inode} {v : Nat}

/-- The sizes and the mapped pages are as they were. -/
structure Proc.SameSpace (p p' : Proc) : Prop where
  sz : p'.sz = p.sz
  stacksize : p'.stacksize = p.stacksize
  mapped : ∀ v, v < NUPAGES → ((p.pgdir.pte v).Mapped ↔ (p'.pgdir.pte v).Mapped)

theorem Proc.Stacked.same (stacked : p.Stacked) (same : p.SameSpace p') : p'.Stacked := by
  constructor
  · intro v user inside
    rw [same.stacksize] at inside
    exact (same.mapped v user).1 (stacked.mapped v user inside)
  · unfold Proc.Guarded
    rw [same.sz, same.stacksize]
    exact stacked.guard

/-- An entry that mapped a page is set to another that does. -/
theorem mapped_set {d : PgDir} {e : Pte} {a : Nat} (before : (d.pte (a / PGSIZE)).Mapped) (after : e.Mapped) :
    (d.pte v).Mapped ↔ ((d.set a e).pte v).Mapped := by
  rw [PgDir.set_pte]
  split
  · rename_i here
    rw [here]
    exact iff_of_true before after
  · rfl

theorem protectionFault_space (call : protectionFault va c = .ok c') :
    c.cur.SameSpace c'.cur ∧ c'.cur.stackGrowing = c.cur.stackGrowing := by
  rcases protectionFault_ok call with rfl | ⟨e, _, found, present, _, _, cow⟩
  · exact ⟨⟨rfl, rfl, fun _ _ => Iff.rfl⟩, rfl⟩
  · obtain ⟨_, entry⟩ := walkpgdir_some.1 found
    have before : (c.cur.pgdir.pte (va / PGSIZE)).Mapped := .inl (entry ▸ present)
    rcases cowFault_ok cow with rfl | ⟨_, rfl⟩ | ⟨f, _, _, _, _, rfl⟩
    · exact ⟨⟨rfl, rfl, fun _ _ => mapped_set before (.inl present)⟩, rfl⟩
    · exact ⟨⟨rfl, rfl, fun _ _ => Iff.rfl⟩, rfl⟩
    · exact ⟨⟨rfl, rfl, fun _ _ => mapped_set before (Pte.mapped_fresh f)⟩, rfl⟩

theorem fifoReplace_space {addr : Nat} {km km' : Kmem} (tidy : p.Tidy) (queue : UserQueue p.mq)
    (out : (p.pgdir.pte (addr / PGSIZE)).pg = true) (call : fifoReplace addr p km = .ok (p', km')) :
    p.SameSpace p' ∧ p'.stackGrowing = p.stackGrowing := by
  obtain ⟨last, mq, e, j, e', files, taken, found, nonempty, _, _, _, _, rfl⟩ := fifoReplace_ok call
  obtain ⟨_, entry⟩ := walkpgdir_some.1 found
  have user := user_page (queue.victim taken)
  have victim : (p.pgdir.pte ((mq.entries last).vaddr / PGSIZE)).Mapped :=
    (tidy.entries _ user.2).resolve_left fun empty => nonempty (entry.symm.trans empty)
  have first : ∀ v, (p.pgdir.pte v).Mapped ↔ ((p.pgdir.set addr (Pte.fresh e.addr)).pte v).Mapped :=
    fun v => mapped_set (.inr out) (Pte.mapped_fresh _)
  exact ⟨⟨rfl, rfl, fun v _ => (first v).trans (mapped_set ((first _).1 victim) Pte.mapped_out)⟩, rfl⟩

/-- The fault asks for stack. -/
def Proc.AsksStack (va : Nat) (p : Proc) : Prop :=
  presentFlag va p.pgdir = false ∧ pagedOut va p.pgdir = false ∧ growsStack va p

instance (va : Nat) (p : Proc) : Decidable (p.AsksStack va) := by unfold Proc.AsksStack; infer_instance

/-- A fault that does not ask for stack leaves the layout alone. -/
theorem castPageFault_space (sane : c.Sane kend kdata lo) (tidy : c.cur.Tidy) (other : ¬ c.cur.AsksStack va)
    (call : castPageFault (presentFlag va c.cur.pgdir) va c = .ok c') :
    c.cur.SameSpace c'.cur ∧ c'.cur.stackGrowing = c.cur.stackGrowing := by
  cases castPageFault_ok call with
  | protection _ protection => exact protectionFault_space protection
  | null => exact ⟨⟨rfl, rfl, fun _ _ => Iff.rfl⟩, rfl⟩
  | pageIn _ _ out replaced =>
    unfold replacePageIn at replaced
    split at replaced
    · cases replaced
      exact ⟨⟨rfl, rfl, fun _ _ => Iff.rfl⟩, rfl⟩
    · refine fifoReplace_space tidy sane.queue ?_ replaced
      rw [show PGROUNDDOWN va / PGSIZE = va / PGSIZE from page_div _]
      exact (pagedOut_true.1 out).2
  | stack absent _ inside grows _ => exact absurd ⟨absent, inside, grows⟩ other
  | noMemory => exact ⟨⟨rfl, rfl, fun _ _ => Iff.rfl⟩, rfl⟩
  | @leaked _ _ km _ _ _ _ protection => exact protectionFault_space (c := { c with km := km }) protection

/-- The stack with the page below it. -/
theorem Proc.StackMapped.deepen (mapped : p.StackMapped) (stack : p'.stacksize = p.stacksize + PGSIZE)
    (layout : p.Layout) (room : p.stacksize + 2 * PGSIZE ≤ USERSTACKTOP)
    (kept : ∀ v, (p.pgdir.pte v).Mapped → (p'.pgdir.pte v).Mapped) (page : (p'.pgdir.pte (p.below / PGSIZE)).Mapped) :
    p'.StackMapped := by
  intro v user inside
  by_cases old : USERSTACKTOP ≤ v * PGSIZE + p.stacksize
  · exact kept v (mapped v user old)
  · have isBelow : v = p.below / PGSIZE := by
      have aligned := layout.stack
      simp only [Proc.below, stack, USERSTACKTOP, PGSIZE] at *
      omega
    rw [isBelow]
    exact page

/-- **The page fault**, with its stack growth possible. -/
theorem castPageFault_kept (sane : c.Sane kend kdata lo) (tidy : c.cur.Tidy) (stacked : c.cur.Stacked)
    (flag : c.cur.stackGrowing = false)
    (possible : c.cur.AsksStack va → c.cur.Deepens ∧ c.growthNeeds ≤ c.km.freelist.length)
    (call : castPageFault (presentFlag va c.cur.pgdir) va c = .ok c') : StackKept c.cur c'.cur := by
  by_cases asks : c.cur.AsksStack va
  · obtain ⟨deepens, free⟩ := possible asks
    obtain ⟨absent, inside, grows⟩ := asks
    obtain ⟨low, _, room⟩ := growsStack_bounds sane.layout grows
    have above : ¬ va < PGSIZE := by omega
    rw [castPageFault, absent, if_neg Bool.false_ne_true, if_neg above, inside, if_neg Bool.false_ne_true,
      if_pos grows] at call
    have deepened := growStack_ok sane.layout room call
    obtain ⟨sz, stack, off⟩ := deepened.fields sane.layout room
    have entries := deepened.entries sane room
    obtain ⟨f, page⟩ := deepened.succeeds sane room deepens free
    have aligned := (stack_next sane.layout room).2.2.1
    constructor
    · exact stacked.mapped.deepen stack sane.layout room (fun v => (entries v).1) (page ▸ Pte.mapped_fresh f)
    · have guard := deepens.guard
      have whole := sane.layout.stack
      rw [Proc.Guarded, sz, stack]
      simp only [PGROUNDUP, USERSTACKTOP, PGSIZE] at guard whole ⊢
      omega
    · exact off
    · intro v _ mapped
      refine ((entries v).2 mapped).imp_right fun isBelow => ?_
      rw [isBelow]
      simp only [PGSIZE] at *
      omega
  · obtain ⟨same, off⟩ := castPageFault_space sane tidy asks call
    have stacked' := stacked.same same
    exact ⟨stacked'.mapped, stacked'.guard, off.trans flag, fun v user mapped => .inl ((same.mapped v user).2 mapped)⟩

/-- Growth of the own table keeps what is mapped, whether it succeeds or not. -/
theorem allocuvm_keeps {oldsz newsz r : Nat} (growing : c.Growing .cur) (call : allocuvm .cur oldsz newsz c = .ok (r, c'))
    (mapped : (c.cur.pgdir.pte v).Mapped) : (c'.cur.pgdir.pte v).Mapped := by
  obtain ⟨_, _, ⟨_, mapped'⟩, _⟩ := allocuvm_rule (I := fun _ _ c => c.Growing .cur ∧ (c.cur.pgdir.pte v).Mapped) ⟨growing, mapped⟩
    (fun {a as fresh fresh' p km ok c c'} aligned low high top inv room page => by
      obtain ⟨growing, mapped⟩ := inv
      have user := Nat.lt_of_lt_of_le high top
      refine ⟨(growing.body aligned low high top room page).2.1, ?_⟩
      cases ok with
      | false =>
        rw [(growPage_failed_cur aligned user page).2]
        rcases makeRoom_evicts room v with same | ⟨out, _⟩
        · exact same ▸ mapped
        · exact out ▸ Pte.mapped_out
      | true => exact growing.maps aligned user room page (.inr mapped)) call
  exact mapped'

/-- The stack of a process whose heap ends below its stack space. -/
theorem Proc.Stacked.resize (stacked : p.Stacked) (layout : p'.Layout) (stack : p'.stacksize = p.stacksize)
    (kept : ∀ v, (p.pgdir.pte v).Mapped → (p'.pgdir.pte v).Mapped) (space : p'.sz ≤ p'.stackSpace) : p'.Stacked := by
  refine ⟨fun v user inside => ?_, layout.guarded_iff.2 space⟩
  rw [stack] at inside
  exact kept v (stacked.mapped v user inside)

theorem Resized.stacked {n : Int} {ok : Bool} (resized : Resized n c ok c') (sane : c.Sane kend kdata lo)
    (stacked : c.cur.Stacked) :
    c'.cur.stacksize = c.cur.stacksize ∧ c'.cur.sz ≤ c.cur.stackSpace ∧
      ∀ v, (c.cur.pgdir.pte v).Mapped → (c'.cur.pgdir.pte v).Mapped := by
  have space := sane.layout.guarded_iff.1 stacked.guard
  cases resized with
  | refused => exact ⟨rfl, space, fun _ => id⟩
  | noGrowth _ _ alloc =>
    obtain ⟨sz, stack⟩ := (allocuvm_same alloc).1.sizes
    exact ⟨stack, sz ▸ space, fun _ => allocuvm_keeps sane.growing alloc⟩
  | @grown sz c1 fits _ alloc success =>
    obtain ⟨_, size⟩ := allocuvm_size alloc success
    have keeps : ∀ v, (c.cur.pgdir.pte v).Mapped → (c1.cur.pgdir.pte v).Mapped :=
      fun v => allocuvm_keeps sane.growing alloc
    refine ⟨(allocuvm_same alloc).1.sizes.2, ?_, keeps⟩
    show sz ≤ c.cur.stackSpace
    rw [size]
    exact Nat.max_le.2 ⟨space, fits⟩
  | emptied _ _ dealloc =>
    obtain ⟨t, rfl, _⟩ := Ctx.dealloc_cur dealloc
    exact ⟨rfl, space, fun _ => id⟩
  | @shrunk sz c1 fits _ dealloc _ =>
    obtain ⟨t, rfl, size, _⟩ := Ctx.dealloc_cur dealloc
    refine ⟨rfl, ?_, fun _ => id⟩
    show sz ≤ c.cur.stackSpace
    rw [size]
    split
    · exact space
    · exact fits
  | same => exact ⟨rfl, space, fun _ => id⟩

theorem sysSbrk_stacked {n r : Int} (sane : c.Sane kend kdata lo) (stacked : c.cur.Stacked)
    (call : sysSbrk n c = .ok (r, c')) : c'.cur.Stacked := by
  have layout := sysSbrk_layout sane.layout call
  obtain ⟨ok, c1, resized, cases⟩ := sysSbrk_ok call
  obtain ⟨stack, size, kept⟩ := resized.stacked sane stacked
  have space : c1.cur.stackSpace = c.cur.stackSpace := by rw [Proc.stackSpace, stack]; rfl
  rcases cases with ⟨_, _, rfl⟩ | ⟨_, fits, _, rfl⟩
  · exact stacked.resize layout stack kept (space.symm ▸ size)
  · exact stacked.resize layout stack kept fits

/-- Where the segments that the `n` program headers from `off` on ask for end. -/
def Inode.segmentsEnd (ip : Inode) : Nat → Nat → Nat
  | 0, _ => PGSIZE
  | n + 1, off =>
    max (if ip.word off 4 = ELF_PROG_LOAD then add32 (ip.word (off + 8) 4) (ip.word (off + 20) 4) else 0)
      (ip.segmentsEnd n (add32 off PROGHDR))

/-- Where the image of the program ends. -/
def Inode.imageEnd (ip : Inode) : Nat := ip.segmentsEnd (ip.word 44 2) (ip.word 28 4)

theorem loadProgram_end {ip : Inode} {s : Nat} (n : Nat) :
    ∀ (off sz : Nat) (c : Ctx), loadProgram ip n off sz c = .ok (some s, c') → s ≤ max sz (ip.segmentsEnd n off) := by
  induction n with
  | zero =>
    intro off sz c call
    cases call
    exact Nat.le_max_left _ _
  | succ n ih =>
    intro off sz c call
    rcases loadProgram_some call with ⟨_, _, rest⟩ | ⟨sz1, c1, km, accepted, _, rest⟩
    · have := ih _ sz c rest
      simp only [Inode.segmentsEnd]
      omega
    · obtain ⟨_, size⟩ := allocuvm_size accepted.alloc accepted.success
      have := ih _ sz1 _ rest
      rw [Inode.segmentsEnd, if_pos accepted.type]
      simp only [Inode.proghdr] at size
      omega

/-- What `exec` does to the tables that are not thrown away. -/
theorem ImageBuilt.kept {ip : Inode} {r : Option (Nat × Nat)} (built : ImageBuilt ip argv c r c')
    (imaging : Imaging p PGSIZE c.cleared) (mapped : (c.cur.pgdir.pte v).Mapped) : (c'.cur.pgdir.pte v).Mapped := by
  refine (built.rule (X := fun c => (c.cur.pgdir.pte v).Mapped) (fun image x _ grow => ?_)
    (fun _ x _ _ => x) (fun x => x) (fun _ x _ => x) imaging mapped).2.1
  have evicted : PgDir.Evicted _ _ := (allocuvm_grew image.growing grow).2.1.other
  rcases evicted.pte v with same | ⟨out, _⟩
  · exact same ▸ x
  · exact out ▸ Pte.mapped_out

/-- The image that `exec` has built has its first page of stack. -/
theorem ImageBuilt.stacked {ip : Inode} {sz sp : Nat} (built : ImageBuilt ip argv c (some (sz, sp)) c')
    (imaging : Imaging p PGSIZE c.cleared) : (c'.img.pte (NUPAGES - 1)).Mapped ∧ sz ≤ PGROUNDUP ip.imageEnd := by
  generalize isResult : some (sz, sp) = result at built
  cases built with
  | bad => cases isResult
  | noStack => cases isResult
  | @stack size r sp' km c1 c2 load stack success push =>
    obtain ⟨sp1, _, isSize⟩ := Option.map_eq_some_iff.1 isResult.symm
    have fits := loadProgram_end _ _ _ _ load
    obtain ⟨_, image⟩ := loadProgram_rule (I := fun s c => Imaging p s c)
      (fun image grow => ⟨fun _ => ⟨_, image.failed grow⟩, fun done => image.grown grow done⟩)
      (fun image _ _ => image.memory _) _ _ _ _ imaging load
    have growing := ((image size rfl).flag true).growing
    have mapped := (allocuvm_maps growing stack success).2 0x7ffff000
      (by rw [stack_pages_first]; exact List.mem_singleton_self _)
    refine ⟨mapped, ?_⟩
    cases isSize
    have first : PGSIZE ≤ ip.imageEnd := by
      unfold Inode.imageEnd
      generalize ip.word 44 2 = n
      generalize ip.word 28 4 = off
      induction n generalizing off with
      | zero => exact Nat.le_refl _
      | succ n ih => exact Nat.le_trans (ih _) (Nat.le_max_right _ _)
    have below : size ≤ ip.imageEnd := by
      unfold Inode.imageEnd at first ⊢
      omega
    simp only [PGROUNDUP, PGSIZE]
    omega

/-- The program that `exec` has loaded. -/
theorem exec_loaded {path : String} (call : exec ip path argv created c = .ok (0, c')) :
    ∃ f d km c2 sz sp, ip = some f ∧ setupkvm c.km = .ok (some d, km) ∧
      ImageBuilt f argv { c with km := km, img := d } (some (sz, sp)) c2 ∧
      c'.cur.pgdir = c2.img ∧ c'.cur.stacksize = PGSIZE ∧ c'.cur.sz = sz := by
  obtain ⟨f, d, km, c2, sz, sp, _, isFile, _, _, setup, build, _, rfl⟩ := exec_zero.1 call
  exact ⟨f, d, km, c2, sz, sp, isFile, setup, buildImage_ok build, rfl, rfl, rfl⟩

theorem exec_stacked {path : String} {r : Int} (symbols : Symbols kend kdata) (sane : c.Sane kend kdata lo)
    (stacked : c.cur.Stacked) (short : ∀ f, ip = some f → f.imageEnd + 2 * PGSIZE ≤ USERSTACKTOP)
    (call : exec ip path argv created c = .ok (r, c')) : c'.cur.Stacked := by
  have linked := symbols.linked sane.memory
  have inversion := exec_ok call
  cases inversion with
  | refused => exact stacked
  | noTable => exact stacked
  | @failed ip d km km' c2 setup built freed =>
    have imaging := Imaging.start sane.table.wf linked setup
    obtain ⟨⟨s, image⟩, _⟩ := built.imaging imaging
    obtain ⟨_, sz, stack⟩ := image.same.fields
    constructor
    · intro v user inside
      rw [stack] at inside
      exact built.kept imaging (stacked.mapped v user inside)
    · show PGROUNDUP c2.cur.sz + PGSIZE + c2.cur.stacksize ≤ USERSTACKTOP
      rw [sz, stack]
      exact stacked.guard
  | committed =>
    obtain ⟨f, d, km, c2, sz, sp, isFile, setup, built, table, stack, size⟩ := exec_loaded call
    obtain ⟨top, fits⟩ := built.stacked (Imaging.start sane.table.wf linked setup)
    have low := short f isFile
    constructor
    · intro v user inside
      have isTop : v = NUPAGES - 1 := by
        rw [stack] at inside
        simp only [USERSTACKTOP, NUPAGES, PGSIZE] at *
        omega
      rw [table, isTop]
      exact top
    · rw [Proc.Guarded, stack, size]
      simp only [PGROUNDUP, USERSTACKTOP, PGSIZE] at fits low ⊢
      omega

end Ops

/-! ## Runs -/

/-- What a step must meet for the stack to keep its layout. A fault finds no growth of the
stack under way; one that asks for stack finds the limits of `allocuvm` met and memory for
what it takes. A program ends two pages below the top of the stack. -/
def Op.Fits (k k' : Kernel) : Op → Prop
  | .fault i _ va => (k.proc i).stackGrowing = false ∧
      ((k.proc i).AsksStack va → (k.proc i).Deepens ∧ (k.ctx i).growthNeeds ≤ k.km.freelist.length)
  | .exec i r => ∃ (ip : Option Inode) (path : String) (argv : List (List UInt8)) (created : Nat → Inode) (c : Ctx),
      Xv6.exec ip path argv created (k.ctx i) = .ok (r, c) ∧ k' = k.put i c ∧
        ∀ f, ip = some f → f.imageEnd + 2 * PGSIZE ≤ USERSTACKTOP
  | _ => True

def FittingStep (op : Op) (k k' : Kernel) : Prop := Step op k k' ∧ op.Fits k k'

/-- Every process has its layout. -/
structure Kernel.Stacked (kend kdata : Nat) (k : Kernel) : Prop where
  sane : k.Sane kend kdata fun _ => 0
  tidy : k.Tidy
  procs : ∀ i, i < NPROC → (k.proc i).live → (k.proc i).Stacked

section Runs

variable {kend kdata : Nat} {k k' : Kernel} {op : Op} {i j : Nat}

theorem ProcEffect.stacked {p : Proc} (symbols : Symbols kend kdata) (stacked : k.Stacked kend kdata)
    (bound : j < NPROC) (fits : op.Fits k k') (notExec : ∀ r, op ≠ .exec j r) (effect : ProcEffect j k op p) :
    p.Stacked := by
  cases effect with
  | kept live => exact stacked.procs j bound live
  | orphaned live orphaned =>
    have here := stacked.procs j bound live
    obtain ⟨parent, ⟨rfl, _⟩ | ⟨rfl, _⟩⟩ := orphaned
    · exact ⟨here.mapped, here.guard⟩
    · exact ⟨here.mapped, here.guard⟩
  | fault isOp canRun _ _ call =>
    subst isOp
    have kept := castPageFault_kept (stacked.sane.procs j bound canRun.1) (stacked.tidy.procs j bound canRun.1)
      (stacked.procs j bound canRun.1) fits.1 fits.2 call
    exact ⟨kept.mapped, kept.guard⟩
  | sbrk _ canRun _ _ call =>
    exact sysSbrk_stacked (stacked.sane.procs j bound canRun.1) (stacked.procs j bound canRun.1) call
  | exec isOp _ _ => exact absurd isOp (notExec _)
  | @parent r l k1 child d km _ canRun allocating copy =>
    have here := stacked.sane.procs j bound canRun.1
    have layout := stacked.procs j bound canRun.1
    have copied := copyuvm_copied symbols (allocating.memory stacked.sane.memory).1 here.table here.layout copy
    exact ⟨fun v user inside => copied.prot.mapped (layout.mapped v user inside), layout.guard⟩
  | @child i r k1 created d d' km1 p _ boundI canRun allocating copy make =>
    have here := stacked.sane.procs i boundI canRun.1
    have layout := stacked.procs i boundI canRun.1
    have copied := copyuvm_copied symbols (allocating.memory stacked.sane.memory).1 here.table here.layout copy
    obtain ⟨_, _, ranged, _, _⟩ := copied.child d' rfl
    obtain ⟨_, table, size, stack, _, _⟩ := forkChild_ok here.queue make
    have size' : p.sz = (k.proc i).sz := size
    have stack' : p.stacksize = (k.proc i).stacksize := stack
    constructor
    · intro v user inside
      rw [stack'] at inside
      have top : v * PGSIZE < USERSTACKTOP := by
        simp only [NUPAGES, PGSIZE, USERSTACKTOP] at *
        omega
      rw [table, ranged v user (.inr ⟨inside, top⟩)]
      exact Pte.copy_mapped (layout.mapped v user inside)
    · rw [Proc.Guarded, size', stack']
      exact layout.guard

/-- **One step.** -/
theorem Kernel.Stacked.step (symbols : Symbols kend kdata) (stacked : k.Stacked kend kdata)
    (step : FittingStep op k k') : k'.Stacked kend kdata := by
  refine ⟨stacked.sane.any symbols step.1, stacked.tidy.step symbols stacked.sane step.1, fun j bound live => ?_⟩
  by_cases isExec : ∃ r, op = .exec j r
  · obtain ⟨r, rfl⟩ := isExec
    obtain ⟨ip, path, argv, created, c, call, isPut, short⟩ := step.2
    have live0 : (k.proc j).live := by
      cases step.1 with
      | exec _ canRun _ => exact canRun.1
    rw [isPut, Kernel.put_proc]
    exact exec_stacked symbols (stacked.sane.procs j bound live0) (stacked.procs j bound live0) short call
  · exact (step.1.effect live).stacked symbols stacked bound step.2 (fun r isOp => isExec ⟨r, isOp⟩)

theorem Booted.stacked (booted : Booted kend kdata k) (sane : k.Sane kend kdata fun _ => 0) :
    k.Stacked kend kdata := by
  refine ⟨sane, booted.tidy, fun i bound live => ?_⟩
  by_cases here : i = 0
  · subst here
    constructor
    · intro v user inside
      rw [booted.stack] at inside
      simp only [USERSTACKTOP, NUPAGES, PGSIZE] at *
      omega
    · rw [Proc.Guarded, booted.size, booted.stack]
      decide
  · exact absurd live (booted.others i here).1

/-- **Stack growth keeps the layout.** In a run from boot whose steps all fit, a page fault
that fits leaves the stack whole, one page at least from the heap, with no growth under
way, and maps no page but the one below the stack. An access to a clear gap that the
resident queue has room for settles. -/
theorem stack_layout_kept {mem : Nat → Nat → UInt8} {km : Kmem} {init : Bytes} {size : Nat} {k0 : Kernel}
    {ls : List Op} (symbols : Symbols kend kdata) (boot : kinitMain kend kdata mem = .ok km)
    (start : userinit init size (Kernel.blank km) = .ok k0) (run : Trace FittingStep k0 ls k) :
    (∀ (i : Nat) (write : Bool) (va : Nat) (k' : Kernel), FittingStep (.fault i write va) k k' →
      StackKept (k.proc i) (k'.proc i)) ∧
    ∀ (i va : Nat), i < NPROC → (k.proc i).canRun → growsStack va (k.proc i) → (k.proc i).Clear va →
      (k.proc i).mq.num + ((k.proc i).below / PGSIZE - va / PGSIZE) < MEM_CAPACITY → Settles va (k.ctx i) := by
  have booted := userinit_booted symbols boot start
  have stacked0 := booted.stacked ((Kernel.Sane.boot symbols boot start).mono fun _ => Nat.zero_le _)
  have stacked : k.Stacked kend kdata := run.invariant (fun _ _ _ inv step => inv.step symbols step) stacked0
  constructor
  · intro i write va k' step
    obtain ⟨step, fits⟩ := step
    cases step with
    | @fault k i va write c bound canRun below raised call =>
      rw [Kernel.put_proc]
      exact castPageFault_kept (stacked.sane.procs i bound canRun.1) (stacked.tidy.procs i bound canRun.1)
        (stacked.procs i bound canRun.1) fits.1 fits.2 call
  · intro i va bound canRun grows clear capacity
    have sane := stacked.sane.procs i bound canRun.1
    exact settles (Nat.zero_le 1) _ (k.ctx i) sane (stacked.tidy.procs i bound canRun.1)
      (.of_clear sane.layout grows clear capacity)

end Runs

/-! ## The first process -/

section First

variable {n : Nat} {k : Kernel}

theorem Started.deepens (started : Started n k) : (k.proc 0).Deepens := by
  constructor
  · rw [started.sz, started.stack.1]
    decide
  · rw [started.stack.1]
    decide

theorem Started.below (started : Started n k) : (k.proc 0).below = 0x7ffff000 := by
  rw [Proc.below, started.stack.1]
  decide

theorem Started.empty_walk (started : Started n k) (va : Nat) (above : PGSIZE ≤ va) (user : va < KERNBASE) :
    (k.proc 0).pgdir.pte (va / PGSIZE) = {} := by
  apply started.empty
  · simp only [PGSIZE] at *
    omega
  · simp only [PGSIZE, NUPAGES, KERNBASE] at *
    omega

theorem Started.clear {va : Nat} (started : Started n k) (above : PGSIZE ≤ va) : (k.proc 0).Clear va := by
  intro v low high
  rw [started.stack.1] at high
  simp only [PGSIZE, USERSTACKTOP] at *
  exact started.empty v (by omega) (by simp only [NUPAGES]; omega)

theorem Started.growthNeeds (started : Started n k) : (k.ctx 0).growthNeeds ≤ 2 := by
  have few : ¬ (MEM_CAPACITY ≤ (k.ctx 0).cur.mq.num ∧ (k.ctx 0).cur.vtab.find SLOT_USABLE = none) := by
    rintro ⟨full, _⟩
    rw [show (k.ctx 0).cur.mq.num = 0 from started.queue.num] at full
    exact absurd full (by decide)
  rw [Ctx.growthNeeds, if_neg few]
  split <;> omega

/-- An access to an empty entry faults. -/
theorem faults_empty {d : PgDir} {va : Nat} (write : Bool) (empty : d.pte (va / PGSIZE) = {}) :
    faults write va d = true := faults_absent write (by rw [empty])

end First

/-- The first process grows its stack by the page below its top; an access further down settles. -/
theorem stack_layout_kept_first :
    ∃ km k k', bootKmem = .ok km ∧ userinit (fun _ => 0) 0 (Kernel.blank km) = .ok k ∧
      FittingStep (.fault 0 false 0x7fffffff) k k' ∧ StackKept (k.proc 0) (k'.proc 0) ∧ Settles 0x7fff0000 (k.ctx 0) := by
  obtain ⟨km, k, boot, start, started⟩ := boot_started
  have sane := ((Kernel.Sane.boot bootSymbols boot start).mono fun _ => Nat.zero_le _).procs 0 (by decide) started.canRun.1
  have tidy := (userinit_booted bootSymbols boot start).tidy.procs 0 (by decide) started.canRun.1
  have size : (k.ctx 0).cur.sz = PGSIZE := started.sz
  have stack : (k.ctx 0).cur.stacksize = 0 := started.stack.1
  have num : (k.ctx 0).cur.mq.num = 0 := started.queue.num
  have below : (k.ctx 0).cur.below = 0x7ffff000 := started.below
  have grows : ∀ va, 2 * PGSIZE ≤ va → va < USERSTACKTOP → growsStack va (k.proc 0) := by
    intro va low high
    rw [growsStack, started.sz, started.stack.1]
    simp only [add32, sub32, USERSTACKTOP, PGSIZE] at *
    omega
  have empty := started.empty_walk 0x7fffffff (by decide) (by decide)
  obtain ⟨c, grow⟩ := growStack_returns sane tidy (by rw [stack]; decide)
    (by rw [below]; exact started.empty_walk 0x7ffff000 (by decide) (by decide)) (by rw [num]; decide)
  have call := (castPageFault_gap sane.layout (grows 0x7fffffff (by decide) (by decide)) empty).trans grow
  have step : FittingStep (.fault 0 false 0x7fffffff) k (k.put 0 c) := by
    refine ⟨.fault (by decide) started.canRun (by decide) (faults_empty false empty) call, started.stack.2, fun _ => ?_⟩
    have needs := started.growthNeeds
    have free := started.room.free
    exact ⟨started.deepens, by omega⟩
  have main := stack_layout_kept bootSymbols boot start .nil
  refine ⟨km, k, _, boot, start, step, main.1 _ _ _ _ step, ?_⟩
  refine main.2 0 0x7fff0000 (by decide) started.canRun (grows _ (by decide) (by decide)) (started.clear (by decide)) ?_
  rw [show (k.proc 0).mq.num = 0 from num, show (k.proc 0).below = 0x7ffff000 from below]
  decide

/-! ## Growth that is refused -/

/-- Process 0 with its heap ending at `s`. -/
def Kernel.heapAt (k : Kernel) (s : Nat) : Kernel := k.put 0 ((k.ctx 0).resize s)

section Refused

variable {n : Nat} {k : Kernel} {c : Ctx}

theorem Kernel.heapAt_ctx (k : Kernel) (s : Nat) : (k.heapAt s).ctx 0 = (k.ctx 0).resize s := Kernel.put_ctx k 0 _

theorem Kernel.heapAt_put (k : Kernel) (s s' : Nat) : (k.heapAt s).put 0 ((k.ctx 0).resize s') = k.heapAt s' := by
  simp only [Kernel.heapAt, Kernel.put, Kernel.setProc, Function.update_idem]

/-- Growth within the last page of the heap maps nothing and moves the break twice. -/
theorem sysSbrk_quiet {m : Nat} (layout : c.cur.Layout) (flag : c.cur.stackGrowing = false) (pos : 0 < m)
    (fits : c.cur.sz + 2 * m ≤ c.cur.stackSpace) (within : c.cur.sz + m ≤ PGROUNDUP c.cur.sz) :
    sysSbrk m c = .ok (c.cur.sz, c.resize (c.cur.sz + 2 * m)) := by
  have top := stackSpace_le layout
  have accepted : ¬ growRefused c.cur c.cur.sz (c.cur.sz + m) := by
    simp only [growRefused, flag, Bool.false_eq_true, false_and, false_or, true_and]
    omega
  have alloc : allocuvm .cur c.cur.sz (c.cur.sz + m) c = .ok (c.cur.sz + m, c) := by
    have none : pageRange (PGROUNDUP c.cur.sz) (c.cur.sz + m) = [] := by
      have rest : c.cur.sz + m - PGROUNDUP c.cur.sz + PGSIZE - 1 = PGSIZE - 1 := by omega
      have zero : (PGSIZE - 1) / PGSIZE = 0 := by decide
      rw [pageRange, rest, zero]
      rfl
    rw [allocuvm, if_neg accepted, if_neg (by omega), none]
    rfl
  exact sysSbrk_grows layout pos fits alloc

/-- From the middle of a page, `sbrk` of half a page moves the break by a page, and no page is mapped. -/
theorem Started.half_page {s : Nat} (started : Started n k) (half : s % PGSIZE = 2048)
    (fits : s + PGSIZE ≤ (k.proc 0).stackSpace) : Step (.sbrk 0 2048 s) (k.heapAt s) (k.heapAt (s + PGSIZE)) := by
  have stack : ((k.ctx 0).resize s).cur.stacksize = 0 := started.stack.1
  have layout : ((k.ctx 0).resize s).cur.Layout := by
    refine ⟨by rw [stack]; rfl, by rw [stack]; decide, ?_⟩
    show s + ((k.ctx 0).resize s).cur.stacksize ≤ KERNBASE
    rw [started.stackSpace] at fits
    rw [stack]
    simp only [KERNBASE]
    omega
  have within : s + 2048 ≤ PGROUNDUP s := by
    simp only [PGROUNDUP, PGSIZE] at *
    omega
  have call : sysSbrk 2048 ((k.heapAt s).ctx 0) = .ok ((s : Int), (k.ctx 0).resize (s + PGSIZE)) := by
    rw [Kernel.heapAt_ctx]
    exact sysSbrk_quiet layout started.stack.2 (by decide) fits within
  rw [← Kernel.heapAt_put k s (s + PGSIZE)]
  refine .sbrk (by decide) ?_ (by decide) (by decide) call
  show ((k.heapAt s).ctx 0).cur.canRun
  rw [Kernel.heapAt_ctx]
  exact started.canRun

/-- So it moves as far as the stack space goes. -/
theorem Started.moves (started : Started n k) (count : Nat) :
    2048 + PGSIZE * count ≤ (k.proc 0).stackSpace → ∃ ls, Trace Step k ls (k.heapAt (2048 + PGSIZE * count)) := by
  induction count with
  | zero =>
    intro _
    have space : (k.ctx 0).cur.stackSpace = 0x7ffff000 := started.stackSpace
    have size : (k.ctx 0).cur.sz = PGSIZE := started.sz
    have layout : (k.ctx 0).cur.Layout := by
      have stack : (k.ctx 0).cur.stacksize = 0 := started.stack.1
      exact ⟨by rw [stack]; rfl, by rw [stack]; decide, by rw [stack, size]; decide⟩
    have call := sysSbrk_shrinks (m := 1024) layout (by decide) (by rw [size]; decide) (by rw [size, space]; decide)
      (by rw [size]; decide)
    rw [size] at call
    have step : Step (.sbrk 0 (-1024) PGSIZE) k (k.heapAt 2048) :=
      .sbrk (by decide) started.canRun (by decide) (by decide) call
    exact ⟨_, .snoc .nil step⟩
  | succ count ih =>
    intro fits
    rw [Nat.mul_succ, ← Nat.add_assoc] at fits ⊢
    obtain ⟨ls, run⟩ := ih (Nat.le_trans (Nat.le_add_right _ _) fits)
    exact ⟨_, run.snoc (started.half_page (Nat.add_mul_mod_self_left 2048 PGSIZE count) fits)⟩

end Refused

/-- **A refused growth counts as stack**: with the heap half a page short of the guard page, the fault
at the top of the address space kills the process, and its stack has a page that is not mapped. -/
theorem stack_growth_counted :
    ∃ km k0 ls k k', bootKmem = .ok km ∧ userinit (fun _ => 0) 0 (Kernel.blank km) = .ok k0 ∧ Trace Step k0 ls k ∧
      Step (.fault 0 false 0x7fffffff) k k' ∧ (k'.proc 0).stacksize = PGSIZE ∧
      (k'.proc 0).pgdir.pte (NUPAGES - 1) = {} ∧ ¬ StackKept (k.proc 0) (k'.proc 0) := by
  obtain ⟨km, k0, boot, start, started⟩ := boot_started
  have far : 2048 + PGSIZE * 0x7fffe = 0x7fffe800 := by norm_num [PGSIZE]
  obtain ⟨ls, run⟩ := started.moves 0x7fffe (by rw [far, started.stackSpace]; decide)
  rw [far] at run
  have booted := (Kernel.Sane.boot bootSymbols boot start).mono fun _ => Nat.zero_le _
  have canRun : ((k0.heapAt 0x7fffe800).proc 0).canRun := by
    show ((k0.heapAt 0x7fffe800).ctx 0).cur.canRun
    rw [Kernel.heapAt_ctx]
    exact started.canRun
  have sane := (booted.run bootSymbols run).procs 0 (by decide) canRun.1
  generalize isC : (k0.heapAt 0x7fffe800).ctx 0 = c at sane
  have cur : c.cur = { k0.proc 0 with sz := 0x7fffe800 } := by
    rw [← isC, Kernel.heapAt_ctx]
    rfl
  have size : c.cur.sz = 0x7fffe800 := by rw [cur]
  have stack : c.cur.stacksize = 0 := by rw [cur]; exact started.stack.1
  have table : c.cur.pgdir = (k0.proc 0).pgdir := by rw [cur]
  have empty : c.cur.pgdir.pte (0x7fffffff / PGSIZE) = {} := by
    rw [table]
    exact started.empty_walk 0x7fffffff (by decide) (by decide)
  have grows : growsStack 0x7fffffff c.cur := by
    rw [growsStack, size, stack]
    decide
  have room : c.cur.stacksize + 2 * PGSIZE ≤ USERSTACKTOP := by
    rw [stack]
    decide
  have shallow : ¬ c.cur.Deepens := by
    rintro ⟨guard, _⟩
    rw [size, stack] at guard
    exact absurd guard (by decide)
  have refused : growStack c = .ok (c.flag true).kill.deepen := growStack_refused sane.layout room shallow
  have step : Step (.fault 0 false 0x7fffffff) (k0.heapAt 0x7fffe800)
      ((k0.heapAt 0x7fffe800).put 0 (c.flag true).kill.deepen) := by
    have atC : ((k0.heapAt 0x7fffe800).proc 0).pgdir = c.cur.pgdir := by rw [← isC]; rfl
    refine .fault (by decide) canRun (by decide) ?_ ?_
    · rw [atC]
      exact faults_empty false empty
    · rw [atC, isC, castPageFault_gap sane.layout grows empty]
      exact refused
  refine ⟨km, k0, ls, _, _, boot, start, run, step, ?_⟩
  rw [Kernel.put_proc]
  have deeper : (c.flag true).kill.deepen.cur.stacksize = PGSIZE := by
    show add32 c.cur.stacksize PGSIZE = PGSIZE
    rw [stack]
    decide
  have unmapped : (c.flag true).kill.deepen.cur.pgdir.pte (NUPAGES - 1) = {} := empty
  refine ⟨deeper, unmapped, fun kept => ?_⟩
  have mapped := kept.mapped (NUPAGES - 1) (by decide) (by rw [deeper]; decide)
  rw [unmapped] at mapped
  rcases mapped with present | out
  · cases present
  · cases out

end Xv6
