import Xv6.Proc.ArgStack
import Xv6.Proc.ExecLoad
import Xv6.Proc.BootExec

/-!
# The image of a program

The program headers come from the file and can be anything. `allocuvm` maps the image from
the second page on, while `loaduvm` starts at the address that the header names, so a
segment at address 0 is read into the physical page that the empty entry names. For every
other program the loader stores to the new image only, and the image that `exec` commits
shows the segments of the file and zeros around them.
-/

namespace Xv6
open RefCount Fallible Runs

variable {d : PgDir} {km : Kmem} {g : Proghdr}

/-! ## The calls of `loaduvm` -/

/-- What it stores. -/
def Proghdr.loads (g : Proghdr) (ip : Inode) (c : Ctx) : List Load :=
  Xv6.loads c.img g.vaddr ip g.off g.filesz (pageRange 0 g.filesz)

/-- The loop of `exec` over `n` program headers at `off` calls `loaduvm` for the segment `g` in the context `c'`. -/
inductive LoadCall (ip : Inode) : Nat → Nat → Nat → Ctx → Proghdr → Ctx → Prop where
  | here {n off sz sz' : Nat} {c c' : Ctx} : HeaderAccepted ip off sz c sz' c' → LoadCall ip (n + 1) off sz c (ip.proghdr off) c'
  | skip {n off sz : Nat} {c c' : Ctx} {g : Proghdr} : readi ip off PROGHDR = some PROGHDR → ip.word off 4 ≠ ELF_PROG_LOAD →
      LoadCall ip n (add32 off PROGHDR) sz c g c' → LoadCall ip (n + 1) off sz c g c'
  | next {n off sz sz1 : Nat} {c c1 c' : Ctx} {km : Kmem} {g : Proghdr} : HeaderAccepted ip off sz c sz1 c1 →
      (ip.proghdr off).load ip c1 = .ok (true, km) → LoadCall ip n (add32 off PROGHDR) sz1 { c1 with km := km } g c' →
      LoadCall ip (n + 1) off sz c g c'

/-- The segment does not start at address 0, or nothing is read into its first page: it is empty, its first page has no
page table, or the file has no bytes for it. -/
def Proghdr.NotAtZero (g : Proghdr) (ip : Inode) (d : PgDir) : Prop :=
  g.vaddr = 0 → g.filesz = 0 ∨ d.pde 0 = none ∨ ip.size ≤ g.off ∨ 2 ^ 32 ≤ g.off + min g.filesz PGSIZE

/-- The pages of an image of `sz` bytes; its first page is not mapped. -/
def heapPage (sz v : Nat) : Prop := 1 ≤ v ∧ v * PGSIZE < sz

section Calls

variable {D : Nat → Prop} {R : Use Nat} {b : Nat → Option UInt8} {c c' : Ctx} {ip : Inode} {n off sz sz' : Nat}

theorem proghdr_small (ip : Inode) (off : Nat) :
    (ip.proghdr off).off < 2 ^ 32 ∧ (ip.proghdr off).vaddr < 2 ^ 32 ∧ (ip.proghdr off).memsz < 2 ^ 32 :=
  ⟨word_lt ip 4 _, word_lt ip 4 _, word_lt ip 4 _⟩

/-- After a header has been accepted, the image has room for its segment. -/
theorem HeaderAccepted.loading (accepted : HeaderAccepted ip off sz c sz' c') (loading : Loading D R (heapPage sz) b c)
    (low : PGSIZE ≤ sz) (top : sz ≤ KERNBASE) :
    Loading D R (heapPage sz') b c' ∧ PGSIZE ≤ sz' ∧ sz' ≤ KERNBASE ∧
      (ip.proghdr off).vaddr + (ip.proghdr off).filesz ≤ sz' := by
  obtain ⟨high, size⟩ := allocuvm_size accepted.alloc accepted.success
  obtain ⟨_, smallV, smallM⟩ := proghdr_small ip off
  have fits := accepted.fits
  have large := accepted.large
  refine ⟨(loading.alloc accepted.alloc accepted.success).congr fun v _ => ?_, ?_, ?_, ?_⟩
  · simp only [heapPage, PGROUNDUP, PGSIZE] at *
    omega
  · omega
  · omega
  · simp only [add32] at *
    omega

theorem mem_loads {addr offset len : Nat} {l : Load} (is : List Nat) (mem : l ∈ loads d addr ip offset len is) :
    ∃ i ∈ is, ∃ e, l = ⟨add32 addr i, e.addr, add32 offset i, l.n⟩ ∧ walkpgdir (add32 addr i) d = some e ∧
      readi ip (add32 offset i) (min (len - i) PGSIZE) = some l.n := by
  induction is with
  | nil => cases mem
  | cons i is ih =>
    rw [loads] at mem
    cases walk : walkpgdir (add32 addr i) d with
    | none =>
      rw [walk] at mem
      cases mem
    | some e =>
      rw [walk] at mem
      cases read : readi ip (add32 offset i) (min (len - i) PGSIZE) with
      | none =>
        simp only [read] at mem
        cases mem
      | some r =>
        simp only [read, List.mem_cons] at mem
        obtain rfl | mem := mem
        · exact ⟨i, by simp, e, rfl, walk, read⟩
        · split at mem
          · obtain ⟨j, memJ, rest⟩ := ih mem
            exact ⟨j, by simp [memJ], rest⟩
          · cases mem

/-- The first page of a segment that is not empty. -/
theorem loads_first {offset len : Nat} (small : offset < 2 ^ 32) (some_ : 0 < len) (table : d.pde 0 ≠ none)
    (more : offset < ip.size) (fits : offset + min len PGSIZE < 2 ^ 32) :
    ⟨0, (d.pte 0).addr, offset, min (min len PGSIZE) (ip.size - offset)⟩ ∈ loads d 0 ip offset len (pageRange 0 len) := by
  have walk : walkpgdir (add32 0 0) d = some (d.pte 0) := walkpgdir_some.2 ⟨table, rfl⟩
  have here : add32 offset 0 = offset := Nat.mod_eq_of_lt small
  have read : readi ip (add32 offset 0) (min (len - 0) PGSIZE) = some (min (min len PGSIZE) (ip.size - offset)) := by
    rw [here, readi, if_neg (by simp only [Nat.sub_zero]; omega), Nat.sub_zero]
  rw [pageRange_cons some_, loads, walk]
  simp only [read]
  rw [here]
  exact List.mem_cons_self ..

/-- **The stores of one call** all go to pages of the image exactly if the segment is not one that starts in the
unmapped first page. -/
theorem Proghdr.inside_iff (loading : Loading D R (heapPage sz) b c) (top : sz ≤ KERNBASE) (small : g.off < 2 ^ 32)
    (aligned : g.vaddr % PGSIZE = 0) (room : g.vaddr + g.filesz ≤ sz) :
    (∀ l ∈ g.loads ip c, l.Inside c.img) ↔ g.NotAtZero ip c.img := by
  constructor
  · intro inside zero
    by_contra none_
    push Not at none_
    obtain ⟨filesz, table, more, fits⟩ := none_
    rw [Proghdr.loads, zero] at inside
    obtain ⟨e, walk, present, _⟩ := inside _ (loads_first small (Nat.pos_of_ne_zero filesz) table more fits) (by
      simp only [PGSIZE]
      omega)
    obtain ⟨_, entry⟩ := walkpgdir_some.1 walk
    rw [Nat.zero_div] at entry
    rw [← entry] at present
    exact absurd ((loading.pages 0 (by decide)).1 present).1 (by decide)
  · intro low l mem some_
    obtain ⟨i, memI, e, isL, walk, read⟩ := mem_loads _ mem
    obtain ⟨_, _, below⟩ := pageRange_aligned _ (by decide) i memI
    have plain : add32 g.vaddr i = g.vaddr + i := by
      simp only [add32, KERNBASE] at *
      omega
    rw [plain] at walk isL
    obtain ⟨table, entry⟩ := walkpgdir_some.1 walk
    have user := (user_page (show g.vaddr + i < KERNBASE by omega)).2
    have page : heapPage sz ((g.vaddr + i) / PGSIZE) := by
      refine ⟨?_, by simp only [PGSIZE] at *; omega⟩
      by_contra first
      obtain ⟨zero, rfl⟩ : g.vaddr = 0 ∧ i = 0 := by
        simp only [PGSIZE] at *
        omega
      have here : add32 g.off 0 = g.off := Nat.mod_eq_of_lt small
      obtain ⟨_, fits, enough⟩ := readi_some read
      rw [here, Nat.sub_zero] at fits enough
      rw [zero] at table
      obtain empty | noTable | short | wraps := low zero
      · omega
      · exact table noTable
      · omega
      · omega
    have present := (loading.pages _ user).2 page
    rw [isL]
    refine ⟨e, walk, ?_, ?_, rfl⟩
    · rw [← entry]
      exact present
    · rw [← entry]
      exact loading.growing.wf.user _ user present

/-- A call that succeeds for such a segment has not started in the first page. -/
theorem Proghdr.NotAtZero.above (low : g.NotAtZero ip c.img) (small : g.off < 2 ^ 32) (aligned : g.vaddr % PGSIZE = 0)
    (call : g.load ip c = .ok (true, km)) : g.filesz = 0 ∨ PGSIZE ≤ g.vaddr := by
  by_contra not
  push Not at not
  have zero : g.vaddr = 0 := by
    simp only [PGSIZE] at *
    omega
  have some_ : 0 < g.filesz := Nat.pos_of_ne_zero not.1
  have here : add32 g.off 0 = g.off := Nat.mod_eq_of_lt small
  rw [Proghdr.load, loaduvm, if_neg (fun not => not aligned), pageRange_cons some_, loadLoop, zero] at call
  cases walk : walkpgdir (add32 0 0) c.img with
  | none =>
    rw [walk] at call
    cases call
  | some e =>
    obtain ⟨table, _⟩ := walkpgdir_some.1 walk
    rw [walk] at call
    cases read : readi ip (add32 g.off 0) (min (g.filesz - 0) PGSIZE) with
    | none =>
      simp only [read] at call
      cases call
    | some r =>
      simp only [read] at call
      obtain ⟨_, fits, enough⟩ := readi_some read
      rw [here, Nat.sub_zero] at fits enough
      split at call
      · rename_i whole
        obtain empty | noTable | short | wraps := low zero
        · omega
        · exact table noTable
        · simp only [PGSIZE] at *
          omega
        · omega
      · cases call

/-- A loaded segment. -/
theorem HeaderAccepted.load (accepted : HeaderAccepted ip off sz c sz' c') (loading : Loading D R (heapPage sz') b c')
    (top : sz' ≤ KERNBASE) (room : (ip.proghdr off).vaddr + (ip.proghdr off).filesz ≤ sz')
    (low : (ip.proghdr off).NotAtZero ip c'.img) (call : (ip.proghdr off).load ip c' = .ok (true, km)) :
    Loading D R (heapPage sz') (ip.overlay (ip.proghdr off).vaddr (ip.proghdr off).off (ip.proghdr off).filesz b)
      { c' with km := km } := by
  have small := (proghdr_small ip off).1
  refine loading.load (by omega) small (fun x inside => ?_) call
  obtain empty | above := low.above small accepted.aligned call
  · omega
  · simp only [heapPage, PGSIZE] at *
    omega

/-- **The image at each call of `loaduvm`**, as long as the calls made so far have stored to the image only. -/
theorem LoadCall.loading (reached : LoadCall ip n off sz c g c') :
    ∀ b, Loading D R (heapPage sz) b c → PGSIZE ≤ sz → sz ≤ KERNBASE →
      (∀ g1 c1, LoadCall ip n off sz c g1 c1 → g1.NotAtZero ip c1.img ∨ ∀ l ∈ g1.loads ip c1, l.Inside c1.img) →
      ∃ s b', Loading D R (heapPage s) b' c' ∧ s ≤ KERNBASE ∧ g.off < 2 ^ 32 ∧ g.vaddr % PGSIZE = 0 ∧
        g.vaddr + g.filesz ≤ s := by
  induction reached with
  | here accepted =>
    intro b loading low top _
    obtain ⟨next, _, top', room⟩ := accepted.loading loading low top
    exact ⟨_, b, next, top', (proghdr_small ip _).1, accepted.aligned, room⟩
  | skip read type _ ih =>
    intro b loading low top good
    exact ih b loading low top fun g1 c1 call => good g1 c1 (.skip read type call)
  | @next n off sz sz1 c c1 c' km g accepted loaded _ ih =>
    intro b loading low top good
    obtain ⟨next, low', top', room⟩ := accepted.loading loading low top
    have inside : (ip.proghdr off).NotAtZero ip c1.img := by
      rcases good _ _ (.here accepted) with is | inside
      · exact is
      · exact (Proghdr.inside_iff next top' (proghdr_small ip _).1 accepted.aligned room).1 inside
    exact ih _ (accepted.load next top' room inside loaded) low' top' fun g1 c1 call => good g1 c1 (.next accepted loaded call)

end Calls

/-! ## The committed image -/

section Image

variable {D : Nat → Prop} {R : Use Nat} {c c' : Ctx} {ip : Inode} {argv : List (List UInt8)}

/-- The empty image. -/
theorem Loading.start (linked : c.km.Linked) (held : Held D R c.cur.res c.km) (good : c.cur.Good)
    (setup : setupkvm c.km = .ok (some d, km)) :
    Loading D R (heapPage PGSIZE) (fun _ => none) (Ctx.cleared { c with km := km, img := d }) where
  held := (setupkvm_held linked held setup).2.2 d rfl
  growing := (Imaging.start good.table linked setup).growing
  image := (Imaging.start good.table linked setup).image
  pages v low := by
    obtain ⟨_, blank⟩ := setupkvm_blank linked setup
    show (d.pte v).p = true ↔ _
    rw [blank v low]
    simp only [heapPage, PGSIZE]
    constructor
    · rintro ⟨⟩
    · omega
  shown v low present := by
    obtain ⟨_, blank⟩ := setupkvm_blank linked setup
    rw [show (Ctx.cleared { c with km := km, img := d }).img.pte v = {} from blank v low] at present
    cases present
  bytes va some_ := absurd rfl some_

/-- The stages of a successful `buildImage`. -/
theorem ImageBuilt.stages {sz sp : Nat} (built : ImageBuilt ip argv c (some (sz, sp)) c') :
    ∃ s r km c1 c2, loadProgram ip (ip.word 44 2) (ip.word 28 4) PGSIZE c.cleared = .ok (some s, c1) ∧
      allocuvm .img (USERSTACKTOP - PGSIZE) USERSTACKTOP (c1.flag true) = .ok (r, c2) ∧ r ≠ 0 ∧
      pushStack c2.img argv c2.km = .ok (some sp, km) ∧ sz = PGROUNDUP s ∧ c' = { c2.flag false with km := km } := by
  obtain ⟨image, isSome⟩ : ∃ image, image = some (sz, sp) := ⟨_, rfl⟩
  rw [← isSome] at built
  cases built with
  | bad _ => cases isSome
  | noStack _ _ => cases isSome
  | @stack s r sp' km c1 c2 load grow success push =>
    cases sp' with
    | none => cases isSome
    | some sp' =>
      cases isSome
      exact ⟨s, r, km, c1, c2, load, grow, success, push, rfl, rfl⟩

/-- **The stack page of a new image.** Nothing is mapped below it: memory is too small for an image that reaches it. -/
theorem Loading.stack_page {b : Nat → Option UInt8} {s r : Nat} (loaded : Loading D R (heapPage s) b c)
    (grow : allocuvm .img (USERSTACKTOP - PGSIZE) USERSTACKTOP (c.flag true) = .ok (r, c')) (success : r ≠ 0) :
    c'.img.StackPage (c'.img.pte (NUPAGES - 1)).addr ∧ s ≤ 57346 * PGSIZE ∧
      Loading D R (fun v => heapPage s v ∨ PGROUNDUP (USERSTACKTOP - PGSIZE) ≤ v * PGSIZE ∧ v * PGSIZE < USERSTACKTOP) b c' := by
  have small := loaded.small fun v one below => ⟨one, below⟩
  have stacked := (loaded.flag true).alloc grow success
  have present : (c'.img.pte (NUPAGES - 1)).p = true := (stacked.pages (NUPAGES - 1) (by decide)).2 (.inr (by decide))
  have nonempty : c'.img.pte (NUPAGES - 1) ≠ {} := by
    intro empty
    rw [empty] at present
    cases present
  have page : stackBase / PGSIZE = NUPAGES - 1 := by decide
  refine ⟨⟨⟨?_, ?_, ?_⟩, rfl, ?_⟩, small, stacked⟩
  · exact (walkpgdir_some.1 (stacked.growing.wf.walk (show stackBase < 2 ^ 32 by decide) (by rw [page]; exact nonempty))).1
  · rw [page]
    exact present
  · rw [page]
    exact stacked.growing.wf.user _ (by decide) present
  · by_contra mapped
    have below := (stacked.pages (NUPAGES - 2) (by decide)).1 (by simpa using mapped)
    simp only [heapPage, PGROUNDUP, PGSIZE, USERSTACKTOP, NUPAGES] at below small
    omega

/-- Pushing the arguments leaves what the pages show below the stack pointer. -/
theorem PgDir.StackPage.shows {S : Use Nat} {km' : Kmem} {b : Nat → Option UInt8} {f sp : Nat} (stack : d.StackPage f)
    (held : Held D R (S + d.use) km) (wf : d.Wf) (shows : d.Shows km KERNBASE b) (top : sp ≤ KERNBASE)
    (below : ∀ g o, (g = f → stackBase + o < sp) → km'.mem g o = km.mem g o) : d.Shows km' sp b := by
  intro v low present o inside under
  rw [below]
  · exact shows v low present o inside (by omega)
  · intro isStack
    have isTop : v = NUPAGES - 1 := by
      by_contra other
      exact held.apart wf (by decide) low other stack.top_present present (isStack.trans stack.addr.symm)
    rw [isTop] at under
    exact under

/-- User code reads what a page shows. -/
theorem PgDir.Shows.read {b : Nat → Option UInt8} {top va : Nat} (shows : d.Shows km top b) (wf : d.Wf) (below : va < top)
    (low : va < KERNBASE) (present : (d.pte (va / PGSIZE)).p = true) : userRead va d km = some ((b va).getD 0) := by
  obtain ⟨small, user⟩ := user_page low
  have split : va / PGSIZE * PGSIZE + va % PGSIZE = va := Nat.div_add_mod' va PGSIZE
  have shown := shows _ user present (va % PGSIZE) (Nat.mod_lt _ (by decide)) (by omega)
  have entry : d.pte (va / PGSIZE) ≠ {} := by
    intro empty
    rw [empty] at present
    cases present
  rw [userRead, wf.walk small entry]
  simp only [present, wf.user _ user present, Bool.and_self, if_true]
  rw [shown, split]

end Image

/-- No program header loads file bytes at address 0. -/
def Inode.HeadersAbove (ip : Inode) : Nat → Nat → Prop
  | 0, _ => True
  | n + 1, off =>
    (ip.word off 4 = ELF_PROG_LOAD → (ip.proghdr off).vaddr = 0 → (ip.proghdr off).filesz = 0) ∧
      ip.HeadersAbove n (add32 off PROGHDR)

theorem LoadCall.above {ip : Inode} {n off sz : Nat} {c c' : Ctx} (reached : LoadCall ip n off sz c g c')
    (above : ip.HeadersAbove n off) : g.NotAtZero ip c'.img := by
  induction reached with
  | here accepted => exact fun zero => .inl (above.1 accepted.type zero)
  | skip _ _ _ ih => exact ih above.2
  | next _ _ _ ih => exact ih above.2

section Kernel

variable {D : Nat → Prop} {k : Kernel} {i : Nat} {ip : Inode}

end Kernel

section Boot

end Boot

end Xv6
