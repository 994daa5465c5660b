import Xv6.Proc.BootExec

/-!
# An `exec` that fails

`exec` empties the resident queue and the slot table of the process as soon as the new page
table exists, long before it commits to the new image. A file that is refused before that
point leaves the process as it was. A file that is refused later leaves the records that
the failed attempt has made in the place of the process's own.
-/

namespace Xv6
open RefCount Fallible Runs

/-- The call fails before the records are cleared: there is no file, its header is refused, or there is no memory
for the kernel part of a page table. -/
def ExecEarly (ip : Option Inode) (c : Ctx) : Prop :=
  ∀ file, ip = some file →
    readi file 0 ELFHDR ≠ some ELFHDR ∨ file.word 0 4 ≠ ELF_MAGIC ∨ ∃ km, setupkvm c.km = .ok (none, km)

/-- The first program header is refused before any page is allocated for it. -/
def FirstHeaderBad (ip : Inode) : Prop :=
  let off := ip.word 28 4
  0 < ip.word 44 2 ∧ (readi ip off PROGHDR ≠ some PROGHDR ∨
    ip.word off 4 = ELF_PROG_LOAD ∧ (ip.word (off + 20) 4 < ip.word (off + 16) 4 ∨
      add32 (ip.word (off + 8) 4) (ip.word (off + 20) 4) < ip.word (off + 8) 4))

/-- The process is as before, and so is what it reads. -/
structure Unchanged (c c' : Ctx) : Prop where
  cur : c'.cur = c.cur
  reads : ∀ a < 2 ^ 32, userRead a c'.cur.pgdir c'.km = userRead a c.cur.pgdir c.km

section Failed

variable {D : Nat → Prop} {R : Use Nat} {p : Proc} {km km' : Kmem} {c c' : Ctx}

/-- A process reads the same while the pages it refers to are kept. -/
theorem Proc.read_kept {a : Nat} (kept : Kept (R + p.res) km km') (fits : a < 2 ^ 32) :
    userRead a p.pgdir km' = userRead a p.pgdir km := by
  unfold userRead
  split
  · rfl
  · rename_i e found
    split
    · rename_i mapped
      obtain ⟨_, entry⟩ := walkpgdir_some.1 found
      have user : e.p = true ∧ e.u = true := by simpa using mapped
      have held : 0 < total (R + p.res) e.addr := by
        rw [Proc.res, PgDir.use_eq _ (vpage_lt fits), entry, Pte.use_mapped user.1 user.2]
        simp
      rw [kept.mem _ held]
    · rfl

/-- The loop over the program headers stops at the first one. -/
theorem loadProgram_bad {ip : Inode} (bad : FirstHeaderBad ip) (sz : Nat) (c : Ctx) :
    loadProgram ip (ip.word 44 2) (ip.word 28 4) sz c = .ok (none, c) := by
  obtain ⟨some_, bad⟩ := bad
  obtain ⟨n, isN⟩ := Nat.exists_eq_succ_of_ne_zero (Nat.pos_iff_ne_zero.1 some_)
  rw [isN, loadProgram]
  by_cases unreadable : readi ip (ip.word 28 4) PROGHDR ≠ some PROGHDR
  · rw [if_pos unreadable]
  · rw [if_neg unreadable]
    obtain not | ⟨isLoad, sizes⟩ := bad
    · exact absurd not unreadable
    · rw [if_neg (fun not => not isLoad)]
      by_cases short : ip.word (ip.word 28 4 + 20) 4 < ip.word (ip.word 28 4 + 16) 4
      · rw [if_pos short]
      · rw [if_neg short]
        obtain not | wraps := sizes
        · exact absurd not short
        · rw [if_pos wraps]

theorem buildImage_bad {ip : Inode} (bad : FirstHeaderBad ip) (argv : List (List UInt8)) (c : Ctx) :
    buildImage ip argv c = .ok (none, c.cleared) := by
  unfold buildImage
  exact bind_ok.2 ⟨_, loadProgram_bad bad PGSIZE c.cleared, rfl⟩

end Failed

section Kernel

variable {D : Nat → Prop} {k : Kernel} {i : Nat} {c' : Ctx} {ip : Option Inode} {path : String} {argv : List (List UInt8)}
  {created : Nat → Inode}

/-- A call that fails early changes nothing. -/
theorem exec_early {r : Int} (acc : k.Accounted D) (bound : i < NPROC) (live : (k.proc i).live) (early : ExecEarly ip (k.ctx i))
    (call : exec ip path argv created (k.ctx i) = .ok (r, c')) : Unchanged (k.ctx i) c' := by
  cases ip with
  | none =>
    cases call
    exact ⟨rfl, fun _ _ => rfl⟩
  | some file =>
    rw [exec] at call
    by_cases header : readi file 0 ELFHDR ≠ some ELFHDR
    · rw [if_pos header] at call
      cases call
      exact ⟨rfl, fun _ _ => rfl⟩
    · rw [if_neg header] at call
      by_cases magic : file.word 0 4 ≠ ELF_MAGIC
      · rw [if_pos magic] at call
        cases call
        exact ⟨rfl, fun _ _ => rfl⟩
      · rw [if_neg magic] at call
        obtain not | not | ⟨km, setup⟩ := early file rfl
        · exact absurd not header
        · exact absurd not magic
        · have kept := (setupkvm_held acc.linked (acc.held_live bound live) setup).1
          change setupkvm (k.ctx i).km >>= _ = _ at call
          rw [setup, ok_bind] at call
          cases call
          exact ⟨rfl, fun a fits => Proc.read_kept kept fits⟩

/-- A call that fails at the first program header leaves the process with empty records. -/
theorem exec_bad {file : Inode} {r : Int} (acc : k.Accounted D) (bound : i < NPROC) (live : (k.proc i).live)
    (late : ¬ ExecEarly (some file) (k.ctx i)) (bad : FirstHeaderBad file)
    (call : exec (some file) path argv created (k.ctx i) = .ok (r, c')) :
    c'.cur = (k.ctx i).cleared.cur ∧ ∀ a < 2 ^ 32, userRead a c'.cur.pgdir c'.km = userRead a (k.proc i).pgdir k.km := by
  rw [ExecEarly] at late
  push Not at late
  obtain ⟨_, ⟨⟩, header, magic, noFail⟩ := late
  rw [exec, if_neg (fun not => not header), if_neg (fun not => not magic)] at call
  obtain ⟨⟨r1, km1⟩, setup, rest⟩ := bind_ok.1 call
  cases r1 with
  | none => exact absurd setup (noFail km1)
  | some d =>
    have held := acc.held_live bound live
    obtain ⟨kept, _, made⟩ := setupkvm_held acc.linked held setup
    obtain ⟨wf, _⟩ := setupkvm_blank acc.linked setup
    obtain ⟨km2, freed, _, kept2⟩ := freevm_held (acc.linked.zero held.acct.inv) (made d rfl) wf
    obtain ⟨⟨image, c1⟩, build, rest⟩ := bind_ok.1 rest
    rw [buildImage_bad bad] at build
    cases build
    obtain ⟨km3, free, same⟩ := bind_ok.1 rest
    cases freed.symm.trans free
    cases same
    refine ⟨rfl, ?_⟩
    intro a fits
    exact (Proc.read_kept (p := k.proc i) kept2 fits).trans (Proc.read_kept (p := k.proc i) kept fits)

/-- **An `exec` that returns -1** leaves the process as it was if it fails before the records are cleared. If the first
program header is refused, it does so only for a process that has no record and no slot in use. -/
theorem failed_exec (acc : k.Accounted D) (bound : i < NPROC) (live : (k.proc i).live)
    (call : exec ip path argv created (k.ctx i) = .ok (-1, c')) :
    (ExecEarly ip (k.ctx i) → Unchanged (k.ctx i) c') ∧
    ∀ file, ip = some file → ¬ ExecEarly ip (k.ctx i) → FirstHeaderBad file →
      (Unchanged (k.ctx i) c' ↔
        memClear (k.proc i).mq = (k.proc i).mq ∧ vmemClear (k.proc i).vtab = (k.proc i).vtab) := by
  refine ⟨fun early => exec_early acc bound live early call, ?_⟩
  rintro file rfl late bad
  obtain ⟨cur, reads⟩ := exec_bad acc bound live late bad call
  constructor
  · intro same
    have records := same.cur.symm.trans cur
    exact ⟨(congrArg Proc.mq records).symm, (congrArg Proc.vtab records).symm⟩
  · rintro ⟨queue, slots⟩
    have isCur : (k.ctx i).cleared.cur = (k.ctx i).cur := by
      show { k.proc i with mq := memClear (k.proc i).mq, vtab := vmemClear (k.proc i).vtab } = k.proc i
      rw [queue, slots]
    exact ⟨cur.trans isCur, reads⟩

/-- A file whose header is good and whose program headers are missing. -/
def stubElf : Inode := { zeroElf 0 with size := 52 }

theorem stubElf_bad : FirstHeaderBad stubElf := by
  refine ⟨by decide, Or.inl ?_⟩
  decide

/-- The refused call returns when there is memory for the page table. -/
theorem exec_stub (path : String) (argv : List (List UInt8)) (created : Nat → Inode) (acc : k.Accounted D) (bound : i < NPROC)
    (live : (k.proc i).live) (aligned : k.km.kdata % PGSIZE = 0) (free : 1 + NPDENTRIES ≤ k.km.freelist.length) :
    ¬ ExecEarly (some stubElf) (k.ctx i) ∧ ∃ c', exec (some stubElf) path argv created (k.ctx i) = .ok (-1, c') := by
  have held := acc.held_live bound live
  obtain ⟨d, km1, setup, _⟩ := setupkvm_room (n := 0) acc.linked aligned (by omega)
  obtain ⟨_, _, made⟩ := setupkvm_held acc.linked held setup
  obtain ⟨wf, _⟩ := setupkvm_blank acc.linked setup
  obtain ⟨km2, freed, _⟩ := freevm_held (acc.linked.zero held.acct.inv) (made d rfl) wf
  have header : readi stubElf 0 ELFHDR = some ELFHDR := by decide
  have magic : stubElf.word 0 4 = ELF_MAGIC := by decide
  constructor
  · intro early
    obtain not | not | ⟨km, fails⟩ := early stubElf rfl
    · exact not header
    · exact not magic
    · change setupkvm k.km = _ at fails
      rw [setup] at fails
      cases fails
  · refine ⟨{ Ctx.cleared { k.ctx i with km := km1, img := d } with km := km2 }, ?_⟩
    rw [exec, if_neg (fun not => not header), if_neg (fun not => not magic)]
    refine bind_ok.2 ⟨_, setup, bind_ok.2 ⟨_, buildImage_bad stubElf_bad argv _, bind_ok.2 ⟨km2, freed, rfl⟩⟩⟩

end Kernel

section Boot

/-- The first process, before it has any record: a path without a file. -/
theorem failed_exec_first : ∃ km0 k0 c', bootKmem = .ok km0 ∧ userinit (fun _ => 0) 0 (Kernel.blank km0) = .ok k0 ∧
    exec none "missing" [] (fun _ => {}) (k0.ctx 0) = .ok (-1, c') ∧ Unchanged (k0.ctx 0) c' := by
  obtain ⟨km0, k0, boot, start, started⟩ := boot_started
  have acc := (Kernel.Isolated.boot boot (by decide) (by decide) start).acc
  have call : exec none "missing" [] (fun _ => {}) (k0.ctx 0) = .ok (-1, k0.ctx 0) := rfl
  refine ⟨km0, k0, k0.ctx 0, boot, start, call, ?_⟩
  exact (failed_exec acc (by decide) started.canRun.1 call).1 fun _ none_ => by cases none_

/-- A program that has been loaded calls `exec` on a file without program headers: the call returns -1, and the record
of its stack page is gone. -/
theorem failed_exec_forgets : ∃ km0 k0 k c', bootKmem = .ok km0 ∧ userinit (fun _ => 0) 0 (Kernel.blank km0) = .ok k0 ∧
    Trace Step k0 [.exec 0 0] k ∧ exec (some stubElf) "stub" [] (fun _ => {}) (k.ctx 0) = .ok (-1, c') ∧
    (k.proc 0).mq.Holds [0x7ffff000] ∧ c'.cur.mq.Holds [] ∧ (k.proc 0).mq.num = 1 ∧ c'.cur.mq.num = 0 := by
  obtain ⟨km0, k0, c, boot, start, step, loaded, canRun, _, sane⟩ := boot_loaded 0 (fun _ => {}) (by decide)
  have iso := (Kernel.Isolated.boot boot (by decide) (by decide) start).step ⟨step, rfl⟩
  have proc0 : (k0.put 0 c).proc 0 = c.cur := Kernel.put_proc ..
  have live : ((k0.put 0 c).proc 0).live := by
    rw [proc0]
    exact canRun.1
  have queue : ((k0.put 0 c).proc 0).mq.Holds [0x7ffff000] := by
    rw [proc0]
    exact loaded.queue
  have free : 1 + NPDENTRIES ≤ (k0.put 0 c).km.freelist.length := by
    have := loaded.room.free
    show 1 + NPDENTRIES ≤ c.km.freelist.length
    simp only [NPDENTRIES]
    omega
  have aligned : (k0.put 0 c).km.kdata % PGSIZE = 0 := by
    rw [(sane.any bootSymbols step).memory.isData]
    decide
  obtain ⟨late, c', call⟩ := exec_stub "stub" [] (fun _ => {}) iso.acc (by decide) live aligned free
  obtain ⟨cur, _⟩ := exec_bad iso.acc (by decide) live late stubElf_bad call
  have cleared : c'.cur.mq.Holds [] := by
    rw [cur]
    exact queue.clear
  exact ⟨km0, k0, _, c', boot, start, .snoc .nil step, call, queue, cleared, queue.num, cleared.num⟩

end Boot

end Xv6
