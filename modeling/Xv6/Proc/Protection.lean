import Xv6.Proc.BootExec
import Xv6.Vm.TableFrames

/-!
# What user code can reach

In every run, user code reaches only pages above the kernel, and page 0, which eviction can leave in an entry. In the
runs of the isolation theorem, none of them is a page that the kernel uses itself.
-/

namespace Xv6
open RefCount Runs Finset

/-- The kernel's pages for `p`: its kernel stack, those of its queue and slot table, its page table. -/
def Proc.KernelPage (p : Proc) (f : Nat) : Prop :=
  p.kstack = some f ∨ f ∈ p.mq.pages ∨ f ∈ p.vtab.pages ∨
    p.live ∧ (p.pgdir.frame = f ∨ ∃ x < NPDENTRIES, p.pgdir.pde x = some f)

variable {kend kdata size i j f va : Nat} {mem : Nat → Nat → UInt8} {init : Bytes} {km0 : Kmem} {k0 k : Kernel}
  {ls : List Op} {write : Bool} {e : Pte}

theorem total_pageList {fs : List Nat} (inside : f ∈ fs) : 0 < total (pageList fs) f := by
  induction inside with
  | head => simp [pageList_cons]
  | tail _ _ ih => simp [pageList_cons, ih]

/-- They are counted as such. -/
theorem Proc.KernelPage.used {p : Proc} (page : p.KernelPage f) : 0 < total p.kernelUse f := by
  simp only [Proc.kernelUse, Proc.own, total_add]
  obtain stack | queue | slots | ⟨live, frame | ⟨x, bound, table⟩⟩ := page
  · simp [stack, pdeUse]
  · simp [total_pageList queue]
  · simp [total_pageList slots]
  · simp [live, frame]
  · have tables : 0 < total p.pgdir.tables f := by
      rw [PgDir.tables_total]
      exact card_pos.2 ⟨x, by simp [bound, table]⟩
    simp [live, tables]

/-- A page with a user mapping is not among them. -/
theorem Kernel.Accounted.user_page {D : Nat → Prop} {v : Nat} (acc : k.Accounted D) (maps : k.Maps f i v)
    (bound : j < NPROC) : ¬ (k.proc j).KernelPage f := by
  intro page
  have alone := acc.acct.counted.alone f
  have kernel := k.kernelUse_exclusive f
  have user := maps.pos
  have pos := page.used
  have used := single_le_sum (f := fun x => total (k.proc x).kernelUse f) (fun _ _ => Nat.zero_le _) (mem_range.2 bound)
  rw [← total_sum] at used
  rw [k.use_parts] at alone
  -- the kernel's reference would be the only one
  simp only [total_add, Pi.add_apply, Prod.snd_add] at alone
  simp only [total] at *
  omega

/-- **User code does not reach the kernel.** An address that it can read or write is below `KERNBASE`, its page is page 0
or lies above the kernel, and in the runs of the isolation theorem it is no kernel page of any process. -/
theorem user_access_confined (boot : kinitMain kend kdata mem = .ok km0) (text : EXTMEM < kdata) (data : kdata ≤ kend)
    (aligned : kdata % PGSIZE = 0) (start : userinit init size (Kernel.blank km0) = .ok k0) (run : Trace Step k0 ls k)
    (bound : i < NPROC) (live : (k.proc i).live) (found : walkpgdir va (k.proc i).pgdir = some e)
    (allowed : e.allows write) :
    va < KERNBASE ∧ (e.addr = 0 ∨ IsFrame kend e.addr) ∧
      (Trace CalmStep k0 ls k → ∀ j < NPROC, ¬ (k.proc j).KernelPage e.addr) := by
  have symbols := Symbols.boot boot text data aligned
  have sane := Kernel.Sane.run symbols ((Kernel.Sane.boot symbols boot start).mono fun _ => Nat.zero_le _) run
  have table : (k.proc i).pgdir.Sound kend 0 := (sane.procs i bound live).table
  have entry : (k.proc i).pgdir.pte (va / PGSIZE) = e := by
    unfold walkpgdir at found
    split at found <;> cases found
    rfl
  have user : e.p ∧ e.u := by
    simp only [Pte.allows, Bool.and_eq_true] at allowed
    exact allowed.1
  have low : va / PGSIZE < NUPAGES := by
    by_contra high
    have kernel := (table.wf.kernel _ (Nat.le_of_not_lt high)).1
    simp [← entry, kernel] at user
  refine ⟨by simp only [NUPAGES, PGSIZE, KERNBASE] at *; omega, entry ▸ table.pages _ low, fun calm j bound' => ?_⟩
  have maps : k.Maps e.addr i (va / PGSIZE) := ⟨⟨bound, low.trans (by decide)⟩, live, by simp [Pte.maps, entry, user]⟩
  exact (Kernel.Isolated.run calm (.boot boot text data start)).acc.user_page maps bound'

theorem user_access_confined_first : ∃ km0 k0 f, bootKmem = .ok km0 ∧
    userinit (fun _ => 0) 0 (Kernel.blank km0) = .ok k0 ∧ (k0.proc 0).pgdir.pte 0 = Pte.fresh f ∧
      (f = 0 ∨ IsFrame 0x200000 f) ∧ ∀ j < NPROC, ¬ (k0.proc j).KernelPage f := by
  obtain ⟨km0, k0, boot, start, started⟩ := boot_started
  obtain ⟨f, entry⟩ := started.page
  have wf := ((Kernel.Sane.boot bootSymbols boot start).procs 0 (by decide) started.canRun.1).table.wf
  have found : walkpgdir 0 (k0.proc 0).pgdir = some (Pte.fresh f) :=
    entry ▸ wf.walk (by decide : 0 < 2 ^ 32) (by show (k0.proc 0).pgdir.pte 0 ≠ {}; simp [entry, Pte.fresh])
  have confined := user_access_confined boot (by decide) (by decide) (by decide) start .nil (by decide)
    started.canRun.1 found (rfl : (Pte.fresh f).allows true = true)
  exact ⟨km0, k0, f, boot, start, entry, confined.2.1, confined.2.2 .nil⟩

end Xv6
