import Xv6.Proc.Boot
import Xv6.Vm.Panics

/-!
# Copy-on-write isolation

In every state that processes reach by reading and writing memory, forking, growing,
executing programs, exiting and waiting, `pc_sh` of a mapped page is the number of user
mappings of it, and a page mapped writable has one mapping. So a process that writes
changes nothing that another process reads.
-/

namespace Xv6
open RefCount Fallible Runs Finset

/-! ## User mappings -/

/-- The entry maps page `f` for user code. -/
def Pte.maps (e : Pte) (f : Nat) : Bool := e.p && e.u && e.addr == f

/-- The entry of virtual page `v` in the table of process `i` maps page `f` for user code. -/
def Kernel.Maps (k : Kernel) (f i v : Nat) : Prop :=
  (i < NPROC ∧ v < NVPAGES) ∧ (k.proc i).live ∧ ((k.proc i).pgdir.pte v).maps f

/-- Process and virtual page number of each present user entry for page `f`. -/
def Kernel.mappings (k : Kernel) (f : Nat) : Finset (Nat × Nat) :=
  (Finset.range NPROC ×ˢ Finset.range NVPAGES).filter fun x =>
    (k.proc x.1).live ∧ ((k.proc x.1).pgdir.pte x.2).maps f

section Mappings

variable {k : Kernel} {f i v : Nat}

theorem Pte.total_use (e : Pte) (f : Nat) : total e.use f = if e.maps f then 1 else 0 := by
  unfold Pte.use Pte.maps
  by_cases mapped : e.p && e.u
  · rw [if_pos mapped, total_ref, mapped, Bool.true_and]
    simp only [beq_iff_eq]
    exact if_congr eq_comm rfl rfl
  · rw [if_neg mapped]
    simp [mapped]

theorem PgDir.total_pages (d : PgDir) (f : Nat) :
    total d.pages f = ((Finset.range NVPAGES).filter fun v => (d.pte v).maps f).card := by
  rw [PgDir.pages, total_sum, card_filter]
  exact sum_congr rfl fun v _ => (d.pte v).total_use f

/-- What the kernel itself refers to for process `p`. -/
def Proc.kernelUse (p : Proc) : Use Nat :=
  p.own + if p.live then ref p.pgdir.frame true + p.pgdir.tables else 0

/-- What user code refers to. -/
def Proc.userUse (p : Proc) : Use Nat := if p.live then p.pgdir.pages else 0

theorem Proc.use_parts (p : Proc) : p.use = p.kernelUse + p.userUse := by
  unfold Proc.use Proc.kernelUse Proc.userUse
  split
  · rw [PgDir.use]
    abel
  · abel

theorem Proc.kernelUse_exclusive (p : Proc) : AllExclusive p.kernelUse := by
  unfold Proc.kernelUse
  split
  · exact p.own_exclusive.add ((allExclusive_ref _).add p.pgdir.tables_exclusive)
  · rw [add_zero]
    exact p.own_exclusive

theorem Kernel.card_mappings (k : Kernel) (f : Nat) :
    (k.mappings f).card = total (∑ i ∈ Finset.range NPROC, (k.proc i).userUse) f := by
  rw [total_sum, Kernel.mappings, card_filter, sum_product]
  refine sum_congr rfl fun i _ => ?_
  unfold Proc.userUse
  split
  · rename_i live
    rw [PgDir.total_pages, card_filter]
    simp only [live, true_and]
  · rename_i dead
    simp only [dead, false_and, if_false, sum_const_zero, total_zero]

theorem Kernel.use_parts (k : Kernel) :
    k.use = (∑ i ∈ Finset.range NPROC, (k.proc i).kernelUse) + ∑ i ∈ Finset.range NPROC, (k.proc i).userUse := by
  rw [Kernel.use, ← sum_add_distrib]
  exact sum_congr rfl fun i _ => (k.proc i).use_parts

theorem Kernel.kernelUse_exclusive (k : Kernel) :
    AllExclusive (∑ i ∈ Finset.range NPROC, (k.proc i).kernelUse) := by
  intro f
  rw [Finset.sum_apply, Prod.fst_sum]
  exact sum_eq_zero fun i _ => (k.proc i).kernelUse_exclusive f

theorem Kernel.Maps.pos (maps : k.Maps f i v) : 0 < total (∑ i ∈ Finset.range NPROC, (k.proc i).userUse) f := by
  obtain ⟨⟨boundI, boundV⟩, live, mapped⟩ := maps
  have page := single_le_sum (f := fun x => total ((k.proc i).pgdir.pte x).use f) (fun _ _ => Nat.zero_le _)
    (mem_range.2 boundV)
  have proc := single_le_sum (f := fun x => total (k.proc x).userUse f) (fun _ _ => Nat.zero_le _)
    (mem_range.2 boundI)
  rw [total_sum]
  refine lt_of_lt_of_le ?_ proc
  simp only [Proc.userUse, if_pos live, PgDir.pages, total_sum]
  refine lt_of_lt_of_le ?_ page
  simp only [Pte.total_use, if_pos mapped, Nat.one_pos]

/-- **The share count of a mapped page is the number of its mappings.** -/
theorem Kernel.Accounted.count_mappings {D : Nat → Prop} (acc : k.Accounted D) (maps : k.Maps f i v) :
    k.km.pcSh f = (k.mappings f).card := by
  have count := acc.acct.counted.count f
  have alone := acc.acct.counted.alone f
  have kernel := k.kernelUse_exclusive f
  have pos := maps.pos
  rw [Kernel.card_mappings]
  rw [k.use_parts] at count alone
  -- a reference of the kernel would be the only one
  simp only [total_add, Pi.add_apply, Prod.snd_add] at count alone
  simp only [total] at count alone pos ⊢
  omega

/-- A mapped page is not free. -/
theorem Kernel.Accounted.not_free {D : Nat → Prop} (acc : k.Accounted D) (maps : k.Maps f i v) :
    f ∉ k.km.freelist := by
  intro free
  have zero := ((acc.acct.inv.exact f).1 free).2
  have pos := maps.pos
  rw [acc.count_mappings maps, Kernel.card_mappings] at zero
  omega

/-- A writable mapping is the only one. -/
theorem Kernel.Accounted.writable_alone {D : Nat → Prop} (acc : k.Accounted D) (mapping : k.Maps f i v)
    (writable : ((k.proc i).pgdir.pte v).w = true) : k.km.pcSh f = 1 := by
  obtain ⟨⟨boundI, boundV⟩, live, maps⟩ := mapping
  obtain ⟨⟨present, user⟩, addr⟩ : (((k.proc i).pgdir.pte v).p = true ∧ ((k.proc i).pgdir.pte v).u = true) ∧
      ((k.proc i).pgdir.pte v).addr = f := by
    simpa [Pte.maps] using maps
  have use : k.use = k.others i + (k.proc i).own + (k.proc i).pgdir.rest v + ref f true := by
    rw [k.use_split boundI, Proc.use_live live, Proc.res, PgDir.use_eq _ boundV, Pte.use_mapped present user, addr,
      writable]
    abel
  have acct := acc.acct.congr use
  rw [acct.count, acct.counted.exclusive]

end Mappings

/-! ## Runs -/

/-- The condition on a step: growth does not evict a page, and `exec` commits. -/
def Op.Calm (k : Kernel) : Op → Prop
  | .sbrk i n _ => 0 < n → (k.proc i).mq.num + sbrkPages (k.proc i) n ≤ MEM_CAPACITY
  | .fault i _ va =>
    presentFlag va (k.proc i).pgdir = false → growsStack va (k.proc i) → (k.proc i).mq.num < MEM_CAPACITY
  | .exec _ r => r = 0
  | _ => True

/-- A step under that condition. -/
def CalmStep (op : Op) (k k' : Kernel) : Prop := Step op k k' ∧ op.Calm k

/-- The invariant of such runs. -/
structure Kernel.Isolated (D : Nat → Prop) (k : Kernel) : Prop where
  acc : k.Accounted D
  resident : k.NoneOut

section Runs

variable {D : Nat → Prop} {k k' : Kernel} {i va : Nat} {op : Op} {write : Bool}

/-- A fault that the processor raises is not on a writable page. -/
theorem fault_readOnly {d : PgDir} (raised : faults write va d) {e : Pte} (found : walkpgdir va d = some e)
    (present : e.p = true) (user : e.u = true) : e.w = false := by
  simp only [faults, found, Pte.allows, present, user] at raised
  cases write with
  | false => simp at raised
  | true => simpa using raised

/-- The handler of a fault in an isolated state. -/
theorem Kernel.Isolated.fault {c : Ctx} (iso : k.Isolated D) (bound : i < NPROC) (live : (k.proc i).live)
    (raised : faults write va (k.proc i).pgdir) (call : castPageFault (presentFlag va (k.proc i).pgdir) va (k.ctx i) = .ok c) :
    (k.put i c).Accounted D ∧ Kept (k.others i) k.km c.km ∧
      ((Op.fault i write va).Calm k → (k.put i c).NoneOut) := by
  have held := iso.acc.held_live bound live
  have good := (iso.acc.procs i bound).good live
  have layout := (iso.acc.procs i bound).layout live
  have none := iso.resident i bound live
  obtain ⟨faulted, noneOut⟩ := castPageFault_held (c := k.ctx i) iso.acc.zero held good none
    (fun e found present user => fault_readOnly raised found present user) call
  have layout' := (castPageFault_ok call).layout layout
  exact ⟨iso.acc.put bound live faulted layout', faulted.kept, fun calm =>
    iso.resident.update rfl fun _ => noneOut calm⟩

/-- The state after `userinit`. The text of the kernel ends where its data starts. -/
theorem Kernel.Isolated.boot {kend kdata size : Nat} {mem : Nat → Nat → UInt8} {init : Bytes} {km0 : Kmem}
    (boot : kinitMain kend kdata mem = .ok km0) (text : EXTMEM < kdata) (data : kdata ≤ kend)
    (start : userinit init size (Kernel.blank km0) = .ok k) : k.Isolated (InitPage kend) := by
  obtain ⟨acc, none⟩ := userinit_held (Kernel.blank_accounted boot text data)
    (fun i _ live => absurd rfl live.1) (fun _ _ _ => rfl) start
  exact ⟨acc, none⟩

/-- **Every step keeps the invariant.** -/
theorem Kernel.Isolated.step (iso : k.Isolated D) (step : CalmStep op k k') : k'.Isolated D := by
  obtain ⟨step, calm⟩ := step
  cases step with
  | load => exact iso
  | store bound canRun fits found allowed =>
    exact ⟨(store_held iso.acc bound canRun.1 fits found allowed).1, iso.resident⟩
  | fault bound canRun _ raised call =>
    obtain ⟨acc, _, none⟩ := iso.fault bound canRun.1 raised call
    exact ⟨acc, none calm⟩
  | @sbrk _ i n r c bound canRun _ _ call =>
    have live := canRun.1
    obtain ⟨faulted, none⟩ := sysSbrk_held (c := k.ctx i) iso.acc.zero (iso.acc.held_live bound live)
      ((iso.acc.procs i bound).good live) call
    exact ⟨iso.acc.put bound live faulted (sysSbrk_layout (c := k.ctx i) ((iso.acc.procs i bound).layout live) call),
      iso.resident.update rfl fun _ => none calm (iso.resident i bound live)⟩
  | fork bound canRun call =>
    obtain ⟨acc, none⟩ := fork_held iso.acc bound canRun.1 call
    exact ⟨acc, none iso.resident⟩
  | @exec _ i ip path argv created r c bound canRun call =>
    have live := canRun.1
    have ok := iso.acc.procs i bound
    obtain ⟨faulted, none⟩ := exec_held (c := k.ctx i) iso.acc.linked (iso.acc.held_live bound live) (ok.good live) call
    have layout := (exec_ok call).layout (c := k.ctx i) iso.acc.linked (ok.good live).table (ok.layout live)
    exact ⟨iso.acc.put bound live faulted layout,
      iso.resident.update rfl fun _ => none calm⟩
  | exit bound canRun call =>
    obtain ⟨acc, none⟩ := exit_held iso.acc canRun.1 call
    exact ⟨acc, none iso.resident⟩
  | wait bound canRun call =>
    obtain ⟨acc, none⟩ := wait_held iso.acc call
    exact ⟨acc, none iso.resident⟩

theorem Kernel.Isolated.run {k0 : Kernel} {ls : List Op} (run : Trace CalmStep k0 ls k) (start : k0.Isolated D) :
    k.Isolated D :=
  run.invariant (fun _ _ _ iso step => iso.step step) start

/-- What process `j` reads is on pages that it refers to. -/
theorem Kernel.read_kept {km : Kmem} {j a : Nat} (kept : Kept (k.others i) k.km km) (bound : j < NPROC)
    (ne : j ≠ i) (live : (k.proc j).live) (fits : a < 2 ^ 32) :
    userRead a (k.proc j).pgdir km = userRead a (k.proc j).pgdir k.km := by
  unfold userRead
  split
  · rfl
  · rename_i e found
    split
    · rename_i mapped
      obtain ⟨_, entry⟩ := walkpgdir_some.1 found
      have user : e.p = true ∧ e.u = true := by simpa using mapped
      have held : 0 < total (k.others i) e.addr := by
        rw [k.others_split ne bound, Proc.use_live live, Proc.res, PgDir.use_eq _ (vpage_lt fits), entry,
          Pte.use_mapped user.1 user.2]
        simp
      rw [kept.mem _ held]
    · rfl

/-- The handler does not stop for a wrong share count. -/
theorem Kernel.Isolated.fault_stops (iso : k.Isolated D) (bound : i < NPROC) (live : (k.proc i).live)
    (raised : faults write va (k.proc i).pgdir) :
    StopsIn Stop.Other (castPageFault (presentFlag va (k.proc i).pgdir) va (k.ctx i)) := by
  have good := (iso.acc.procs i bound).good live
  have readOnly : ∀ e, walkpgdir va (k.proc i).pgdir = some e → e.p = true → e.u = true → e.w = false :=
    fun e found present user => fault_readOnly raised found present user
  have protection : ∀ km, Held D (k.others i) (k.proc i).res km →
      StopsIn Stop.Other (protectionFault va { k.ctx i with km := km }) := fun km held => by
    obtain ⟨c, returns, _⟩ := protectionFault_held (c := { k.ctx i with km := km }) held good readOnly
    rw [returns]
    exact .ok c
  have held := iso.acc.held_live bound live
  unfold castPageFault
  have none : pagedOut va (k.ctx i).cur.pgdir = false := pagedOut_none (iso.resident i bound live)
  rw [none]
  split
  · exact protection _ held
  · split
    · exact .ok _
    · rw [if_neg Bool.false_ne_true]
      split
      · exact growStack_stops _
      · split
        · exact .ok _
        · rename_i f km got
          exact protection km (held.kalloc_lost got)

/-- **Copy-on-write isolation.** Along every such run from the first process on, the
share count of a page that user code can reach is the number of its mappings, the page is
not free, and a writable mapping is the only one. A write, or the fault it raises, leaves
what every other process reads, and the handler never finds a share count it does not
expect. -/
theorem copy_on_write_isolation {kend kdata size : Nat} {mem : Nat → Nat → UInt8} {init : Bytes} {km0 : Kmem}
    {k0 : Kernel} {ls : List Op} (boot : kinitMain kend kdata mem = .ok km0) (text : EXTMEM < kdata)
    (data : kdata ≤ kend) (start : userinit init size (Kernel.blank km0) = .ok k0)
    (run : Trace CalmStep k0 ls k) :
    (∀ f i v, k.Maps f i v → k.km.pcSh f = (k.mappings f).card ∧ f ∉ k.km.freelist ∧
      (((k.proc i).pgdir.pte v).w = true → k.km.pcSh f = 1)) ∧
    (∀ i va b k', Step (.store i va b) k k' → ∀ j, j < NPROC → j ≠ i → (k.proc j).live → ∀ a, a < 2 ^ 32 →
      userRead a (k'.proc j).pgdir k'.km = userRead a (k.proc j).pgdir k.km) ∧
    (∀ i write va k', Step (.fault i write va) k k' → ∀ j, j < NPROC → j ≠ i → (k.proc j).live → ∀ a, a < 2 ^ 32 →
      userRead a (k'.proc j).pgdir k'.km = userRead a (k.proc j).pgdir k.km) ∧
    (∀ i write va, i < NPROC → (k.proc i).canRun → va < 2 ^ 32 → faults write va (k.proc i).pgdir →
      castPageFault (presentFlag va (k.proc i).pgdir) va (k.ctx i) ≠
          .error (.panic "page fault. Unknown page fault due to a writable pte.") ∧
        castPageFault (presentFlag va (k.proc i).pgdir) va (k.ctx i) ≠
          .error (.panic "page fault. Wrong share count error.")) := by
  have iso : k.Isolated (InitPage kend) := Kernel.Isolated.run run (.boot boot text data start)
  refine ⟨fun f i v maps => ⟨iso.acc.count_mappings maps, iso.acc.not_free maps, iso.acc.writable_alone maps⟩,
    ?_, ?_, ?_⟩
  · intro i va b k' step j bound ne live a fits
    cases step with
    | store boundI canRun fitsVa found allowed =>
      exact Kernel.read_kept (store_held iso.acc boundI canRun.1 fitsVa found allowed).2 bound ne live fits
  · intro i write va k' step j bound ne live a fits
    cases step with
    | fault boundI canRun fitsVa raised call =>
      have kept := (iso.fault boundI canRun.1 raised call).2.1
      have same : ∀ c, ((k.put i c).proc j) = k.proc j := fun c => Function.update_of_ne ne _ _
      rw [same]
      exact Kernel.read_kept kept bound ne live fits
  · intro i write va bound canRun fits raised
    have stops := iso.fault_stops bound canRun.1 raised
    exact ⟨fun stop => stops _ stop (by simp [shareStops]), fun stop => stops _ stop (by simp [shareStops])⟩

/-- The first process writes to its page, which stays the only mapping of its frame. -/
theorem copy_on_write_isolation_store : ∃ km0 k0 k f, bootKmem = .ok km0 ∧
    userinit (fun _ => 0) 0 (Kernel.blank km0) = .ok k0 ∧ Trace CalmStep k0 [.store 0 0 7] k ∧ k.Maps f 0 0 ∧
      k.km.pcSh f = (k.mappings f).card := by
  obtain ⟨km0, k0, boot, start, started⟩ := boot_started
  have iso := Kernel.Isolated.boot boot (by decide) (by decide) start
  have canRun : (k0.proc 0).canRun := by simp [Proc.canRun, Proc.live, started.state]
  obtain ⟨f, entry⟩ := started.page
  have wf := ((iso.acc.procs 0 (by decide)).good canRun.1).table
  have found : walkpgdir 0 (k0.proc 0).pgdir = some (Pte.fresh f) :=
    entry ▸ wf.walk (by decide : 0 < 2 ^ 32) (by show (k0.proc 0).pgdir.pte 0 ≠ {}; rw [entry]; simp [Pte.fresh])
  have store : Step (.store 0 0 7) k0 { k0 with km := k0.km.store (Pte.fresh f).addr (0 % PGSIZE) [7] } :=
    .store (by decide) canRun (by decide) found rfl
  have maps : Kernel.Maps { k0 with km := k0.km.store (Pte.fresh f).addr (0 % PGSIZE) [7] } f 0 0 := by
    refine ⟨⟨by decide, by decide⟩, canRun.1, ?_⟩
    show ((k0.proc 0).pgdir.pte 0).maps f
    rw [entry]
    simp [Pte.maps, Pte.fresh]
  have run := Trace.snoc .nil (show CalmStep _ _ _ from ⟨store, trivial⟩)
  exact ⟨km0, k0, _, f, boot, start, run, maps,
    ((copy_on_write_isolation boot (by decide) (by decide) start run).1 f 0 0 maps).1⟩

end Runs

end Xv6
