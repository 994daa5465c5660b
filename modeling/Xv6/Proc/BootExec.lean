import Xv6.Proc.Reach
import Xv6.Proc.ExecRoom
import Xv6.Proc.Isolation

/-!
# The first program

The first process of the kernel of `bootKmem` loads a program of zeros.
-/

namespace Xv6

open Fallible Runs Finset

/-- Every page a process has present is a frame. -/
theorem Kernel.Accounted.framed {D : Nat → Prop} {k : Kernel} {i : Nat} (acc : k.Accounted D) (bound : i < NPROC)
    (live : (k.proc i).live) : (k.proc i).pgdir.Framed k.km.kend := by
  intro v low present
  have user := ((acc.procs i bound).good live).table.user v low present
  have maps : k.Maps ((k.proc i).pgdir.pte v).addr i v := by
    refine ⟨⟨bound, by simp only [NUPAGES, NVPAGES] at *; omega⟩, live, ?_⟩
    simp [Pte.maps, present, user]
  have counted : 1 ≤ k.km.pcSh ((k.proc i).pgdir.pte v).addr := by
    rw [acc.count_mappings maps]
    refine card_pos.2 ⟨(i, v), ?_⟩
    simp only [Kernel.mappings, mem_filter, mem_product, mem_range]
    exact maps
  exact acc.acct.inv.range _ (acc.acct.inv.of_counted counted)

/-- The kernel's symbols in `bootKmem`. -/
theorem bootSymbols : Symbols 0x200000 0x180000 := ⟨by decide, by decide, by decide, by decide⟩

/-- The first process can run. -/
theorem Started.canRun {n : Nat} {k : Kernel} (started : Started n k) : (k.proc 0).canRun := by
  simp [Proc.canRun, Proc.live, started.state]

theorem Started.stackSpace {n : Nat} {k : Kernel} (started : Started n k) : (k.proc 0).stackSpace = 0x7ffff000 := by
  rw [Proc.stackSpace, started.stack.1]
  decide

/-- **The first process loads `m` pages of zeros**, with at least 40000 pages of memory left. -/
theorem boot_exec (m : Nat) (created : Nat → Inode) (small : m < MEM_CAPACITY) :
    ∃ km0 k0 c, bootKmem = .ok km0 ∧ userinit (fun _ => 0) 0 (Kernel.blank km0) = .ok k0 ∧ (k0.proc 0).canRun ∧
      exec (some (zeroElf m)) "zeros" [] created (k0.ctx 0) = .ok (0, c) ∧ Loaded m 40000 created (k0.ctx 0) c ∧
      (∀ i, i ≠ 0 → k0.proc i = {}) ∧ k0.Sane 0x200000 0x180000 fun _ => 0 := by
  obtain ⟨km0, k0, boot, start, started⟩ := boot_started
  have first := (Kernel.Sane.boot bootSymbols boot start).mono fun _ => Nat.zero_le _
  have framed := (Kernel.Isolated.boot boot (by decide) (by decide) start).acc.framed (by decide) started.canRun.1
  rw [first.memory.isEnd] at framed
  have space := started.stackSpace
  have fits : PGSIZE + m * PGSIZE ≤ (k0.ctx 0).cur.stackSpace := by
    show PGSIZE + m * PGSIZE ≤ (k0.proc 0).stackSpace
    rw [space]
    simp only [PGSIZE, MEM_CAPACITY] at *
    omega
  have near : (k0.ctx 0).cur.sz + PGSIZE ≤ (k0.ctx 0).cur.stackSpace := by
    show (k0.proc 0).sz + PGSIZE ≤ (k0.proc 0).stackSpace
    rw [space, started.sz]
    decide
  have free : 40000 + 1 + m + 1 + NPDENTRIES ≤ (k0.ctx 0).km.freelist.length := by
    have := started.room.free
    show 40000 + 1 + m + 1 + NPDENTRIES ≤ k0.km.freelist.length
    simp only [NPDENTRIES, MEM_CAPACITY] at *
    omega
  obtain ⟨c, call, loaded⟩ := exec_zeros created bootSymbols (first.procs 0 (by decide) started.canRun.1) framed
    started.queue started.stack.2 fits near small free
  exact ⟨km0, k0, c, boot, start, started.canRun, call, loaded, started.others, first⟩

/-- The same as a step of the kernel. -/
theorem boot_loaded (m : Nat) (created : Nat → Inode) (small : m < MEM_CAPACITY) :
    ∃ km0 k0 c, bootKmem = .ok km0 ∧ userinit (fun _ => 0) 0 (Kernel.blank km0) = .ok k0 ∧
      Step (.exec 0 0) k0 (k0.put 0 c) ∧ Loaded m 40000 created (k0.ctx 0) c ∧ c.cur.canRun ∧
      (∀ i, i ≠ 0 → k0.proc i = {}) ∧ k0.Sane 0x200000 0x180000 fun _ => 0 := by
  obtain ⟨km0, k0, c, boot, start, runs, call, loaded, others, sane⟩ := boot_exec m created small
  have canRun : c.cur.canRun := by
    have := runs
    simp only [Proc.canRun, Proc.live, loaded.state] at this ⊢
    exact this
  exact ⟨km0, k0, c, boot, start, .exec (by decide) runs call, loaded, canRun, others, sane⟩

end Xv6
