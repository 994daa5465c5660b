import Xv6.Vm.Fault
import Xv6.Vm.Grow

/-!
# What a page fault does

`fifoReplace_ok` and `castPageFault_ok` say everything that a page-in and a page fault can
do. The page table stays sound, and no page below `lo` becomes present when the fault is
above.
-/

namespace Xv6
open Fallible

variable {kend kdata lo va : Nat} {c c' : Ctx} {p p' : Proc} {km km' : Kmem} {present : Bool} {addr : Nat}

/-- `km'` differs from `km` in the bytes of its pages. -/
def Kmem.Wrote (km km' : Kmem) : Prop := km' = { km with mem := km'.mem }

theorem Kmem.Wrote.trans {km'' : Kmem} (first : km.Wrote km') (second : km'.Wrote km'') : km.Wrote km'' := by
  unfold Kmem.Wrote at *
  rw [second, first]

theorem Kmem.copyPage_mem (km : Kmem) (f : Nat) (bytes : Bytes) : (km.copyPage f bytes).mem f = bytes := Function.update_self ..

theorem Kmem.wrote_copyPage (km : Kmem) (f : Nat) (bytes : Bytes) : km.Wrote (km.copyPage f bytes) := rfl

theorem Kmem.Sound.wrote (memory : km.Sound kend kdata) (wrote : km.Wrote km') : km'.Sound kend kdata := by
  rw [wrote]
  exact memory.of_mem _

/-! ## Page replacement -/

section PagedOut

variable {d : PgDir}

theorem pagedOut_true : pagedOut va d = true ↔ d.pde (PDX va) ≠ none ∧ (d.pte (va / PGSIZE)).pg = true := by
  unfold pagedOut walkpgdir
  cases d.pde (PDX va) <;> simp

theorem pagedOut_false (inside : (d.pte (va / PGSIZE)).pg = false) : pagedOut va d = false := by
  rw [← Bool.not_eq_true, pagedOut_true, inside]
  simp

/-- A page that is paged out is a user page. -/
theorem pagedOut_user (sound : d.Wf) (out : pagedOut va d = true) : va < KERNBASE := by
  have : va / PGSIZE < NUPAGES := by
    by_contra high
    have entry := (pagedOut_true.1 out).2
    rw [(sound.kernel _ (by omega)).2] at entry
    cases entry
  simp only [PGSIZE, NUPAGES, KERNBASE] at *
  omega

end PagedOut

theorem swapLoop_wrote {f offset : Nat} {files' : VpFiles} (js : List Nat) :
    ∀ (files : VpFiles) (km : Kmem), swapLoop f offset js files km = .ok (files', km') → km.Wrote km' := by
  induction js with
  | nil =>
    intro files km call
    cases call
    rfl
  | cons j js ih =>
    intro files km call
    obtain ⟨⟨_, buf⟩, _, rest⟩ := bind_ok.1 call
    obtain ⟨⟨_, files1⟩, _, rest⟩ := bind_ok.1 rest
    exact (km.wrote_copyPage _ _).trans (ih files1 _ rest)

/-- Everything `fifo_replace` does. -/
theorem fifoReplace_ok (call : fifoReplace addr p km = .ok (p', km')) :
    ∃ last mq e j e' files,
      takeLast "[ERROR] Only 0 or 1 pages in memory." "[ERROR] last null!" p.mq = .ok (last, mq) ∧
      walkpgdir (mq.entries last).vaddr p.pgdir = some e ∧ e ≠ {} ∧ p.vtab.find addr = some j ∧
      walkpgdir addr p.pgdir = some e' ∧ e' ≠ {} ∧
      swapLoop e.addr (j * PGSIZE) (List.range 4) p.vpfile km = .ok (files, km') ∧
      p' = { p with
        pgdir := (p.pgdir.set addr (Pte.fresh e.addr)).set (mq.entries last).vaddr Pte.out
        vtab := p.vtab.set j (mq.entries last).vaddr
        vpfile := files
        mq := mq.linkFront last addr } := by
  obtain ⟨⟨last, mq⟩, taken, rest⟩ := bind_ok.1 call
  simp only at rest
  split at rest
  · cases rest
  · rename_i e victim
    split at rest
    · cases rest
    · rename_i some1
      split at rest
      · cases rest
      · rename_i j slot
        split at rest
        · cases rest
        · rename_i e' found
          split at rest
          · cases rest
          · rename_i some2
            obtain ⟨⟨files, km1⟩, swap, rest⟩ := bind_ok.1 rest
            cases rest
            exact ⟨last, mq, e, j, e', files, taken, victim, some1, slot, found, some2, swap, rfl⟩

/-- A page-in keeps the table sound. When the victim is itself paged out, its entry has
address 0, and the new page is page 0. -/
theorem fifoReplace_sound (sound : p.pgdir.Sound kend lo) (queue : UserQueue p.mq) (user : addr < KERNBASE)
    (above : lo ≤ addr / PGSIZE) (call : fifoReplace addr p km = .ok (p', km')) :
    p'.pgdir.Sound kend lo ∧ UserQueue p'.mq := by
  obtain ⟨last, mq, e, j, e', files, taken, victim, _, _, found, _, swap, rfl⟩ := fifoReplace_ok call
  have userV := queue.victim taken
  obtain ⟨below, page⟩ := user_page user
  obtain ⟨belowV, pageV⟩ := user_page userV
  obtain ⟨tableV, entryV⟩ := walkpgdir_some.1 victim
  obtain ⟨table, _⟩ := walkpgdir_some.1 found
  obtain ⟨uq, _⟩ := queue.recycle user taken
  have frame : e.addr = 0 ∨ IsFrame kend e.addr := entryV ▸ sound.pages _ pageV
  have one : (p.pgdir.set addr (Pte.fresh e.addr)).Sound kend lo :=
    sound.set (by rw [← pdx_eq below]; exact table) (Pte.sound_fresh page above frame)
  have two : ((p.pgdir.set addr (Pte.fresh e.addr)).set (mq.entries last).vaddr Pte.out).Sound kend lo :=
    one.set (by rw [PgDir.set_pde, ← pdx_eq belowV]; exact tableV) (Pte.sound_out pageV)
  exact ⟨two, uq⟩

/-! ## Copy on write -/

/-- Everything a copy-on-write fault does. -/
theorem cowFault_ok {e : Pte} (call : cowFault va e c = .ok c') :
    (c' = { c with cur := { c.cur with pgdir := c.cur.pgdir.set va { e with w := true } } }) ∨
    (kalloc c.km = (none, c.km) ∧ c' = c.kill) ∨
    ∃ f km1 km2, kalloc c.km = (some f, km1) ∧
      redPageShare (e.addr * PGSIZE) (km1.copyPage f (km1.mem e.addr)) = .ok km2 ∧
      c' = { c with km := km2, cur := { c.cur with pgdir := c.cur.pgdir.set va (Pte.fresh f) } } := by
  obtain ⟨ref, _, rest⟩ := bind_ok.1 call
  simp only at rest
  split at rest
  · cases rest
    exact .inl rfl
  · split at rest
    · split at rest
      · rename_i km1 none
        cases rest
        obtain ⟨rfl, _⟩ := kalloc_none none
        exact .inr (.inl ⟨none, rfl⟩)
      · rename_i f km1 got
        obtain ⟨km2, red, rest⟩ := bind_ok.1 rest
        cases rest
        exact .inr (.inr ⟨f, km1, km2, got, red, rfl⟩)
    · cases rest

theorem redPageShare_memory {pa : Nat} (memory : km.Sound kend kdata) (call : redPageShare pa km = .ok km') :
    km'.Sound kend kdata := by
  unfold redPageShare at call
  split at call
  · cases call
  · cases call
    exact memory.count _

/-- A protection fault kills the process or is a copy-on-write fault. -/
theorem protectionFault_ok (call : protectionFault va c = .ok c') :
    c' = c.kill ∨ ∃ e, va < KERNBASE ∧ walkpgdir va c.cur.pgdir = some e ∧ e.p = true ∧ e.u = true ∧ e.w = false ∧
      cowFault va e c = .ok c' := by
  unfold protectionFault at call
  split at call
  · cases call
    exact .inl rfl
  · rename_i user
    split at call
    · cases call
      exact .inl rfl
    · rename_i e found
      split at call
      · cases call
        exact .inl rfl
      · rename_i present
        split at call
        · cases call
          exact .inl rfl
        · rename_i isUser
          split at call
          · cases call
          · rename_i readOnly
            refine .inr ⟨e, by omega, found, ?_, ?_, ?_, call⟩
            · simpa using present
            · simpa using isUser
            · simpa using readOnly

/-- What every call of a process keeps of it. -/
structure Proc.Kin (p p' : Proc) : Prop where
  state : p'.state = p.state
  chain : p'.mq.pages = p.mq.pages

theorem Proc.Kin.refl (p : Proc) : p.Kin p := ⟨rfl, rfl⟩

theorem Proc.SameMeta.kin (same : p.SameMeta p') (chain : p'.mq.pages = p.mq.pages) : p.Kin p' :=
  ⟨by rw [same], chain⟩

/-! ## The handler -/

/-- The cases of `cast_page_fault`. -/
inductive Handled (present : Bool) (va : Nat) (c : Ctx) : Ctx → Prop where
  | protection {c' : Ctx} : present = true → protectionFault va c = .ok c' → Handled present va c c'
  | null : present = false → va < PGSIZE → Handled present va c c.kill
  | pageIn {p : Proc} {km : Kmem} : present = false → PGSIZE ≤ va → pagedOut va c.cur.pgdir = true →
      replacePageIn (PGROUNDDOWN va) c.cur c.km = .ok (p, km) → Handled present va c { c with cur := p, km := km }
  | stack {c' : Ctx} : present = false → PGSIZE ≤ va → pagedOut va c.cur.pgdir = false → growsStack va c.cur →
      growStack c = .ok c' → Handled present va c c'
  | noMemory : present = false → pagedOut va c.cur.pgdir = false → ¬ growsStack va c.cur →
      kalloc c.km = (none, c.km) → Handled present va c c.kill
  | leaked {c' : Ctx} {f : Nat} {km : Kmem} : present = false → pagedOut va c.cur.pgdir = false →
      ¬ growsStack va c.cur → kalloc c.km = (some f, km) → protectionFault va { c with km := km } = .ok c' →
      Handled present va c c'

theorem castPageFault_ok (call : castPageFault present va c = .ok c') : Handled present va c c' := by
  unfold castPageFault at call
  cases present with
  | true => exact .protection rfl call
  | false =>
    rw [if_neg Bool.false_ne_true] at call
    split at call
    · rename_i low
      cases call
      exact .null rfl low
    · split at call
      · rename_i out
        obtain ⟨⟨p, km⟩, replaced, rest⟩ := bind_ok.1 call
        cases rest
        exact .pageIn rfl (by omega) out replaced
      · rename_i out
        split at call
        · rename_i grows
          exact .stack rfl (by omega) (by simpa using out) grows call
        · rename_i outside
          split at call
          · rename_i km none
            cases call
            obtain ⟨rfl, _⟩ := kalloc_none none
            exact .noMemory rfl (by simpa using out) outside none
          · rename_i f km got
            exact .leaked rfl (by simpa using out) outside got call

/-- The sizes of a process after a protection fault. -/
theorem protectionFault_sizes (call : protectionFault va c = .ok c') :
    c'.cur.sz = c.cur.sz ∧ c'.cur.stacksize = c.cur.stacksize := by
  rcases protectionFault_ok call with rfl | ⟨e, _, _, _, _, _, cow⟩
  · exact ⟨rfl, rfl⟩
  · rcases cowFault_ok cow with rfl | ⟨_, rfl⟩ | ⟨f, km1, km2, _, _, rfl⟩ <;> exact ⟨rfl, rfl⟩

/-- Stack growth keeps the layout, even when `allocuvm` fails. -/
theorem growStack_layout (layout : c.cur.Layout) (grows : growsStack va c.cur) (call : growStack c = .ok c') :
    c'.cur.Layout := by
  obtain ⟨⟨r, c1⟩, grow, rest⟩ := bind_ok.1 call
  obtain ⟨low, high⟩ := grows
  obtain ⟨aligned, room, heap⟩ := layout
  obtain ⟨same, _⟩ := allocuvm_same grow
  have sizes : c1.cur.sz = c.cur.sz ∧ c1.cur.stacksize = c.cur.stacksize := by
    rw [same]
    exact ⟨rfl, rfl⟩
  have grown : (add32 c1.cur.stacksize PGSIZE) % PGSIZE = 0 ∧ add32 c1.cur.stacksize PGSIZE + PGSIZE ≤ KERNBASE ∧
      c1.cur.sz + add32 c1.cur.stacksize PGSIZE ≤ KERNBASE := by
    rw [sizes.1, sizes.2]
    simp only [add32, sub32, USERSTACKTOP, KERNBASE, PGSIZE] at *
    omega
  cases rest
  split <;> exact ⟨grown.1, grown.2.1, grown.2.2⟩

theorem fifoReplace_same (call : fifoReplace addr p km = .ok (p', km')) :
    p.SameMeta p' ∧ p'.mq.pages = p.mq.pages ∧ km.Wrote km' := by
  obtain ⟨last, mq, e, j, e', files, taken, _, _, _, _, _, swap, rfl⟩ := fifoReplace_ok call
  obtain ⟨_, _, _, _, _, _, pages, _⟩ := takeLast_ok taken
  exact ⟨rfl, by rw [linkFront_pages, pages], swapLoop_wrote _ _ _ swap⟩

/-- **Page faults** keep heap and stack apart. -/
theorem Handled.layout (handled : Handled present va c c') (layout : c.cur.Layout) : c'.cur.Layout := by
  cases handled with
  | protection _ protection =>
    obtain ⟨sz, stack⟩ := protectionFault_sizes protection
    exact layout.same sz stack
  | null => exact layout.same rfl rfl
  | pageIn _ _ _ replaced =>
    unfold replacePageIn at replaced
    split at replaced
    · cases replaced
      exact layout.same rfl rfl
    · exact (fifoReplace_same replaced).1.layout layout
  | stack _ _ _ grows grow => exact growStack_layout layout grows grow
  | noMemory => exact layout.same rfl rfl
  | leaked _ _ _ _ protection =>
    obtain ⟨sz, stack⟩ := protectionFault_sizes protection
    exact layout.same sz stack

/-- A process that runs, in any run. -/
structure Ctx.Sane (kend kdata lo : Nat) (c : Ctx) : Prop where
  memory : c.km.Sound kend kdata
  table : c.cur.pgdir.Sound kend lo
  queue : UserQueue c.cur.mq
  layout : c.cur.Layout

/-- What a system call or a fault of a sane process leaves. -/
structure Ctx.After (kend kdata lo : Nat) (c c' : Ctx) : Prop where
  sane : c'.Sane kend kdata lo
  kin : c.cur.Kin c'.cur

section

variable (sane : c.Sane kend kdata lo)
include sane

theorem Ctx.Sane.kill : Ctx.After kend kdata lo c c.kill :=
  ⟨⟨sane.memory, sane.table, sane.queue, sane.layout.same rfl rfl⟩, rfl, rfl⟩

theorem Ctx.Sane.growing : c.Growing .cur :=
  ⟨⟨sane.table.wf, sane.queue⟩, sane.table.wf⟩

theorem Ctx.Sane.memory_of {km : Kmem} (memory : km.Sound kend kdata) :
    Ctx.Sane kend kdata lo { c with km := km } :=
  ⟨memory, sane.table, sane.queue, sane.layout⟩

theorem cowFault_sane {e : Pte} (user : va < KERNBASE)
    (found : walkpgdir va c.cur.pgdir = some e) (present : e.p = true) (call : cowFault va e c = .ok c') :
    Ctx.After kend kdata lo c c' := by
  obtain ⟨below, page⟩ := user_page user
  obtain ⟨table, entry⟩ := walkpgdir_some.1 found
  rw [pdx_eq below] at table
  have here := sane.table.entry (va / PGSIZE)
  rw [entry] at here
  have above : lo ≤ va / PGSIZE := by
    by_contra less
    rw [here.low (by omega)] at present
    cases present
  rcases cowFault_ok call with rfl | ⟨_, rfl⟩ | ⟨f, km1, km2, got, red, rfl⟩
  · have sound := sane.table.set (e := { e with w := true }) table
      ⟨here.user, here.kernel, here.resident, here.page, here.low⟩
    exact ⟨⟨sane.memory, sound, sane.queue, sane.layout.same rfl rfl⟩, rfl, rfl⟩
  · exact sane.kill
  · obtain ⟨memory1, frame⟩ := sane.memory.kalloc got
    have memory2 := redPageShare_memory (memory1.wrote (km1.wrote_copyPage _ _)) red
    have sound := sane.table.set table (Pte.sound_fresh page above (.inr frame))
    exact ⟨⟨memory2, sound, sane.queue, sane.layout.same rfl rfl⟩, rfl, rfl⟩

theorem protectionFault_sane (call : protectionFault va c = .ok c') :
    Ctx.After kend kdata lo c c' := by
  rcases protectionFault_ok call with rfl | ⟨e, user, found, present, _, _, cow⟩
  · exact sane.kill
  · exact cowFault_sane sane user found present cow

/-- The stack grows by the page below it, which is not page 0. -/
theorem growStack_sane (first : lo ≤ 1) (grows : growsStack va c.cur)
    (call : growStack c = .ok c') : Ctx.After kend kdata lo c c' := by
  obtain ⟨⟨r, c1⟩, grow, rest⟩ := bind_ok.1 call
  have start : Ctx.Sane kend kdata lo { c with cur := { c.cur with stackGrowing := true } } :=
    ⟨sane.memory, sane.table, sane.queue, sane.layout.same rfl rfl⟩
  have above : lo * PGSIZE ≤ PGROUNDUP (sub32 (sub32 USERSTACKTOP c.cur.stacksize) PGSIZE) := by
    have : lo * PGSIZE ≤ PGSIZE := by simp only [PGSIZE]; omega
    obtain ⟨low, high⟩ := grows
    obtain ⟨aligned, room, heap⟩ := sane.layout
    simp only [add32, sub32, USERSTACKTOP, KERNBASE, PGSIZE, PGROUNDUP] at *
    omega
  obtain ⟨memory1, own1, _⟩ := allocuvm_sound (c := { c with cur := { c.cur with stackGrowing := true } }) start.memory
    start.growing start.table start.table above (fun _ => rfl) grow
  obtain ⟨growing1, _⟩ := allocuvm_grew start.growing grow
  obtain ⟨same1, chain1⟩ := allocuvm_same grow
  have state : c1.cur.state = c.cur.state := by rw [same1]
  have layout := growStack_layout sane.layout grows call
  cases rest
  split at layout <;> rename_i zero <;> simp only [zero, if_true, if_false] <;>
    exact ⟨⟨memory1, own1, growing1.good.queue, layout⟩, state, chain1⟩

/-- **Page faults** keep a process sane. -/
theorem castPageFault_sane (first : lo ≤ 1) (call : castPageFault present va c = .ok c') : Ctx.After kend kdata lo c c' := by
  cases castPageFault_ok call with
  | protection _ protection => exact protectionFault_sane sane protection
  | null => exact sane.kill
  | pageIn _ above out replaced =>
    unfold replacePageIn at replaced
    split at replaced
    · cases replaced
      exact ⟨⟨sane.memory, sane.table, sane.queue.of_num _, sane.layout.same rfl rfl⟩, rfl, rfl⟩
    · have user : PGROUNDDOWN va < KERNBASE := Nat.lt_of_le_of_lt (Nat.div_mul_le_self va PGSIZE) (pagedOut_user sane.table.wf out)
      obtain ⟨sound, queue⟩ := fifoReplace_sound sane.table sane.queue user
        (by simp only [PGROUNDDOWN, PGSIZE] at *; omega) replaced
      obtain ⟨same, chain, wrote⟩ := fifoReplace_same replaced
      exact ⟨⟨sane.memory.wrote wrote, sound, queue, same.layout sane.layout⟩, same.kin chain⟩
  | stack _ _ _ grows grow => exact growStack_sane sane first grows grow
  | noMemory => exact sane.kill
  | leaked _ _ _ got protection =>
    exact ⟨(protectionFault_sane (sane.memory_of (sane.memory.kalloc got).1) protection).sane,
      (protectionFault_sane (sane.memory_of (sane.memory.kalloc got).1) protection).kin⟩

end

end Xv6
