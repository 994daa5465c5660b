import Xv6.Proc.ExecImage

/-!
# The arguments of a program

A program that starts finds its arguments in the stack page, and arguments that fit there
do not keep a program from starting.
-/

namespace Xv6
open RefCount Fallible

section Image

variable {D : Nat → Prop} {R : Use Nat} {P : Nat → Prop} {b : Nat → Option UInt8} {c c' : Ctx} {ip : Inode}
  {argv : List (List UInt8)}

/-- Whatever is written to memory, the image shows something. -/
theorem Loading.rewritten {km : Kmem} (loading : Loading D R P b c) (wrote : c.km.Wrote km) :
    ∃ b', Loading D R P b' { c with km := km } := by
  classical
  refine ⟨fun va => if va < KERNBASE ∧ P (va / PGSIZE) then some (km.mem (c.img.pte (va / PGSIZE)).addr (va % PGSIZE)) else none,
    ?_, ⟨loading.growing.good, loading.growing.wf⟩, loading.image, loading.pages, ?_, ?_⟩
  · exact wrote.held loading.held
  · intro v low present o inside below
    have page : (v * PGSIZE + o) / PGSIZE = v ∧ (v * PGSIZE + o) % PGSIZE = o := by
      simp only [PGSIZE] at *
      omega
    simp only [page.1, page.2]
    rw [if_pos ⟨below, (loading.pages v low).1 present⟩]
    rfl
  · intro va some_
    by_contra out
    exact some_ (if_neg out)

/-- **The pages of the image after the last program header**, whatever the file put there. -/
theorem loadProgram_pages {s : Nat} (n : Nat) : ∀ (off sz : Nat) (c : Ctx) (b : Nat → Option UInt8),
    Loading D R (heapPage sz) b c → PGSIZE ≤ sz → sz ≤ KERNBASE → loadProgram ip n off sz c = .ok (some s, c') →
    ∃ b', Loading D R (heapPage s) b' c' := by
  induction n with
  | zero =>
    intro off sz c b loading _ _ call
    cases call
    exact ⟨b, loading⟩
  | succ n ih =>
    intro off sz c b loading low top call
    rcases loadProgram_some call with ⟨_, _, rest⟩ | ⟨sz1, c1, km, accepted, load, rest⟩
    · exact ih _ _ _ _ loading low top rest
    · obtain ⟨next, low', top', _⟩ := accepted.loading loading low top
      obtain ⟨b', written⟩ := next.rewritten (loaduvm_wrote load)
      exact ih _ _ _ _ written low' top' rest

/-- The image under the arguments. -/
theorem stack_page {s r : Nat} {c1 c2 : Ctx} (loading : Loading D R (heapPage PGSIZE) (fun _ => none) c.cleared)
    (load : loadProgram ip (ip.word 44 2) (ip.word 28 4) PGSIZE c.cleared = .ok (some s, c1))
    (grow : allocuvm .img (USERSTACKTOP - PGSIZE) USERSTACKTOP (c1.flag true) = .ok (r, c2)) (success : r ≠ 0) :
    c2.img.StackPage (c2.img.pte (NUPAGES - 1)).addr ∧ Held D R (c2.use .img) c2.km ∧ c2.Growing .img := by
  obtain ⟨b, loaded⟩ := loadProgram_pages _ _ _ _ _ loading (Nat.le_refl _) (by decide) load
  obtain ⟨stack, _, stacked⟩ := loaded.stack_page grow success
  exact ⟨stack, stacked.held, stacked.growing⟩

/-- **A program that starts finds its arguments.** -/
theorem exec_delivers {file : Option Inode} {path : String} {created : Nat → Inode} (linked : c.km.Linked)
    (held : Held D R c.cur.res c.km) (good : c.cur.Good) (call : exec file path argv created c = .ok (0, c')) :
    c'.cur.esp + argSpace argv = USERSTACKTOP ∧
      Delivered (fun a => userRead a c'.cur.pgdir c'.km) c'.cur.esp argv (argPtrs argv USERSTACKTOP) := by
  obtain ⟨_, d, km, c2', sz, sp, km', rfl, _, _, setup, build, freed, rfl⟩ := exec_zero.1 call
  obtain ⟨s, r, km3, c1, c2, load, grow, success, push, _, rfl⟩ := (buildImage_ok build).stages
  obtain ⟨stack, held2, growing⟩ := stack_page (Loading.start linked held good setup) load grow success
  obtain ⟨size, _, delivers⟩ := pushStack_delivers stack push
  have pushed : Held D R (c2.cur.own + c2.img.use + c2.cur.pgdir.use) km3 :=
    ((pushStack_wrote push).held held2).congr (by simp only [Ctx.use, Ctx.others, Ctx.table, Proc.res]; abel)
  -- freeing the old table leaves the stack page alone
  obtain ⟨km4, free, _, kept⟩ := freevm_held (linked.zero held.acct.inv) pushed growing.good.table
  cases free.symm.trans freed
  have page := kept.mem (c2.img.pte (NUPAGES - 1)).addr (by
    have := growing.wf.refers (show NUPAGES - 1 < NUPAGES by decide) stack.top_present
    rw [total_add, total_add]
    exact Nat.lt_of_lt_of_le this (Nat.le_trans (Nat.le_add_left ..) (Nat.le_add_left ..)))
  refine ⟨size, delivers _ fun a low high => ?_⟩
  rw [← page]
  exact stack.read _ low high

/-- Arguments that fit change nothing in whether the image is built. -/
theorem buildImage_fits {sz sp : Nat} (loading : Loading D R (heapPage PGSIZE) (fun _ => none) c.cleared)
    (built : ImageBuilt ip [] c (some (sz, sp)) c') (few : argv.length ≤ MAXARG) (room : argSpace argv ≤ PGSIZE) :
    ∃ sp' km, buildImage ip argv c = .ok (some (sz, sp'), { c' with km := km }) ∧ Held D R (c'.use .img) km ∧ c'.cur.pgdir.Wf := by
  obtain ⟨s, r, km0, c1, c2, load, grow, success, _, isSize, rfl⟩ := built.stages
  obtain ⟨stack, held, growing⟩ := stack_page loading load grow success
  obtain ⟨sp', km, push⟩ := pushStack_returns stack few room c2.km
  refine ⟨sp', km, bind_ok.2 ⟨_, load, bind_ok.2 ⟨_, grow, ?_⟩⟩, ?_, growing.good.table⟩
  · simp only
    rw [if_neg success]
    refine bind_ok.2 ⟨_, push, ?_⟩
    rw [isSize]
    rfl
  · exact (pushStack_wrote push).held held

/-- **A program that starts without arguments starts with all that fit.** -/
theorem exec_fits (argv : List (List UInt8)) {path : String} {created : Nat → Inode} (linked : c.km.Linked) (held : Held D R c.cur.res c.km)
    (good : c.cur.Good) (call : exec (some ip) path [] created c = .ok (0, c')) (few : argv.length ≤ MAXARG)
    (room : argSpace argv ≤ PGSIZE) : ∃ c', exec (some ip) path argv created c = .ok (0, c') := by
  obtain ⟨_, d, km, c2, sz, sp, _, ⟨⟩, header, magic, setup, build, _, _⟩ := exec_zero.1 call
  obtain ⟨sp', km3, again, held3, table⟩ :=
    buildImage_fits (Loading.start linked held good setup) (buildImage_ok build) few room
  have swapped : Held D R (c2.cur.own + c2.img.use + c2.cur.pgdir.use) km3 :=
    held3.congr (by simp only [Ctx.use, Ctx.others, Ctx.table, Proc.res]; abel)
  obtain ⟨km4, free, _⟩ := freevm_held (linked.zero held.acct.inv) swapped table
  exact ⟨_, exec_zero.2 ⟨ip, d, km, _, sz, sp', km4, rfl, header, magic, setup, again, free, rfl⟩⟩

end Image

section Kernel

variable {D : Nat → Prop} {k : Kernel} {i : Nat}

/-- **`exec` delivers the arguments.** If it succeeds they fit in the stack page, and the new program finds them there. -/
theorem exec_arguments {ip : Option Inode} {path : String} {argv : List (List UInt8)} {created : Nat → Inode} {c' : Ctx}
    (acc : k.Accounted D) (bound : i < NPROC) (live : (k.proc i).live)
    (call : exec ip path argv created (k.ctx i) = .ok (0, c')) :
    argSpace argv ≤ PGSIZE ∧ ∃ ptrs, Delivered (fun a => userRead a c'.cur.pgdir c'.km) c'.cur.esp argv ptrs := by
  obtain ⟨size, delivered⟩ := exec_delivers (c := k.ctx i) acc.linked (acc.held_live bound live) ((acc.procs i bound).good live) call
  have base := delivered.inside
  have page : stackBase + PGSIZE = USERSTACKTOP := by decide
  exact ⟨by omega, _, delivered⟩

/-- The first process starts a program with the arguments `"ls"` and `"-l"`. -/
theorem exec_arguments_ls : ∃ km0 k0 c' ptrs, bootKmem = .ok km0 ∧ userinit (fun _ => 0) 0 (Kernel.blank km0) = .ok k0 ∧
    exec (some (zeroElf 1)) "zeros" [[108, 115], [45, 108]] (fun _ => {}) (k0.ctx 0) = .ok (0, c') ∧
    Delivered (fun a => userRead a c'.cur.pgdir c'.km) c'.cur.esp [[108, 115], [45, 108]] ptrs := by
  obtain ⟨km0, k0, c, boot, start, runs, call, _⟩ := boot_exec 1 (fun _ => {}) (by decide)
  have acc := (Kernel.Isolated.boot boot (by decide) (by decide) start).acc
  obtain ⟨c', args⟩ := exec_fits (c := k0.ctx 0) [[108, 115], [45, 108]] acc.linked (acc.held_live (by decide) runs.1)
    ((acc.procs 0 (by decide)).good runs.1) call (by decide) (by decide)
  obtain ⟨_, ptrs, delivered⟩ := exec_arguments acc (by decide) runs.1 args
  exact ⟨km0, k0, c', ptrs, boot, start, args, delivered⟩

end Kernel

end Xv6
