import Xv6.Proc.Exec
import Xv6.Vm.FaultSound

/-!
# What `exec` does

`loadProgram_rule` is the rule for the loop over the program headers, and `exec_ok` says how
a call ends. The image maps every page from `PGSIZE` to its size and no other, so that a
heap that would reach the page of the stack makes the call panic with `remap`: heap and
stack of a new image do not meet.
-/

namespace Xv6
open Fallible

variable {kend kdata lo : Nat} {c c' : Ctx} {d : PgDir} {km km' : Kmem}
  {argv : List (List UInt8)} {r : Option (Nat × Nat)} {created : Nat → Inode} {ip : Inode} {path : String}

/-- A table whose user entries are empty or new pages. -/
def PgDir.Image (d : PgDir) : Prop := ∀ v, v < NUPAGES → d.pte v = {} ∨ ∃ f, d.pte v = Pte.fresh f

theorem PgDir.Image.grown {d' : PgDir} {lo hi : Nat} (image : d.Image) (changed : d.Changed (GrownEntry lo hi) d') :
    d'.Image := by
  intro v low
  rcases changed.pte v with same | empty | ⟨_, new⟩
  · rw [same]
    exact image v low
  · exact .inl empty
  · exact .inr new

/-! ## Loading -/

theorem loadLoop_wrote {b : Bool} {addr offset sz : Nat} (is : List Nat) :
    ∀ km, loadLoop d addr ip offset sz is km = .ok (b, km') → km.Wrote km' := by
  induction is with
  | nil =>
    intro km call
    cases call
    rfl
  | cons i is ih =>
    intro km call
    unfold loadLoop at call
    split at call
    · cases call
    · simp only at call
      split at call
      · cases call
        rfl
      · split at call
        · exact (km.wrote_copyPage _ _).trans (ih _ call)
        · cases call
          rfl

theorem loaduvm_wrote {b : Bool} {addr offset sz : Nat} (call : loaduvm d addr ip offset sz km = .ok (b, km')) : km.Wrote km' := by
  unfold loaduvm at call
  split at call
  · cases call
  · exact loadLoop_wrote _ _ call

theorem copyoutLoop_wrote {b : Bool} (fuel : Nat) :
    ∀ va buf km, copyoutLoop d fuel va buf km = .ok (b, km') → km.Wrote km' := by
  induction fuel with
  | zero =>
    intro va buf km call
    cases buf with
    | nil =>
      cases call
      rfl
    | cons x xs => cases call
  | succ fuel ih =>
    intro va buf km call
    cases buf with
    | nil =>
      cases call
      rfl
    | cons x xs =>
      unfold copyoutLoop at call
      simp only at call
      split at call
      · cases call
      · split at call
        · cases call
          rfl
        · split at call
          · cases call
            rfl
          · exact (km.wrote_copyPage _ _).trans (ih _ _ _ call)

theorem pushArgs_wrote {r : Option (Nat × List Nat)} (ss : List (List UInt8)) :
    ∀ sp ptrs km, pushArgs d ss sp ptrs km = .ok (r, km') → km.Wrote km' := by
  induction ss with
  | nil =>
    intro sp ptrs km call
    cases call
    rfl
  | cons s ss ih =>
    intro sp ptrs km call
    unfold pushArgs at call
    split at call
    · cases call
      rfl
    · obtain ⟨⟨ok, km1⟩, copy, rest⟩ := bind_ok.1 call
      have wrote := copyoutLoop_wrote _ _ _ _ copy
      cases ok with
      | false =>
        cases rest
        exact wrote
      | true => exact wrote.trans (ih _ _ _ rest)

theorem pushStack_wrote {r : Option Nat} (call : pushStack d argv km = .ok (r, km')) : km.Wrote km' := by
  obtain ⟨⟨args, km1⟩, push, rest⟩ := bind_ok.1 call
  have wrote := pushArgs_wrote _ _ _ _ push
  cases args with
  | none =>
    cases rest
    exact wrote
  | some args =>
    obtain ⟨⟨ok, km2⟩, copy, rest⟩ := bind_ok.1 rest
    cases rest
    exact wrote.trans (copyoutLoop_wrote _ _ _ _ copy)

theorem word_lt (ip : Inode) (n : Nat) : ∀ off, ip.word off n < 256 ^ n := by
  induction n with
  | zero => intro off; simp [Inode.word]
  | succ n ih =>
    intro off
    have rest := ih (off + 1)
    have byte : (ip.data off).toNat < 256 := (ip.data off).toNat_lt
    rw [Inode.word, Nat.pow_succ]
    omega

/-- The rule for the loop over the program headers: `I sz c` is what holds with an image of
`sz` bytes. A segment that is loaded lies in the user half. -/
theorem loadProgram_rule {I : Nat → Ctx → Prop} {r : Option Nat}
    (alloc : ∀ {sz newsz r c c'}, I sz c → allocuvm .img sz newsz c = .ok (r, c') → (r = 0 → ∃ s, I s c') ∧ (r ≠ 0 → I r c'))
    (load : ∀ {sz addr off len b c km}, I sz c → addr + len ≤ KERNBASE → loaduvm c.img addr ip off len c.km = .ok (b, km) → I sz { c with km := km })
    (n : Nat) :
    ∀ (off sz : Nat) (c : Ctx), I sz c → loadProgram ip n off sz c = .ok (r, c') →
      (r = none → ∃ s, I s c') ∧ ∀ s, r = some s → I s c' := by
  induction n with
  | zero =>
    intro off sz c inv call
    cases call
    refine ⟨by rintro ⟨⟩, fun s size => ?_⟩
    cases size
    exact inv
  | succ n ih =>
    intro off sz c inv call
    unfold loadProgram at call
    split at call
    · cases call
      exact ⟨fun _ => ⟨sz, inv⟩, by rintro _ ⟨⟩⟩
    · split at call
      · exact ih _ sz c inv call
      · simp only at call
        split at call
        · cases call
          exact ⟨fun _ => ⟨sz, inv⟩, by rintro _ ⟨⟩⟩
        · split at call
          · cases call
            exact ⟨fun _ => ⟨sz, inv⟩, by rintro _ ⟨⟩⟩
          · obtain ⟨⟨sz1, c1⟩, grow, rest⟩ := bind_ok.1 call
            obtain ⟨failed, grown⟩ := alloc inv grow
            simp only at rest
            split at rest
            · rename_i zero
              cases rest
              exact ⟨fun _ => failed zero, by rintro _ ⟨⟩⟩
            · rename_i success
              obtain ⟨top, size⟩ := allocuvm_size grow success
              split at rest
              · cases rest
                exact ⟨fun _ => ⟨sz1, grown success⟩, by rintro _ ⟨⟩⟩
              · obtain ⟨⟨ok, km2⟩, loaded, rest⟩ := bind_ok.1 rest
                have fits : ip.word (off + 8) 4 + ip.word (off + 16) 4 ≤ KERNBASE := by
                  have one := word_lt ip 4 (off + 8)
                  have two := word_lt ip 4 (off + 20)
                  simp only [add32, KERNBASE] at *
                  omega
                have inv2 := load (grown success) fits loaded
                cases ok with
                | false =>
                  cases rest
                  exact ⟨fun _ => ⟨sz1, inv2⟩, by rintro _ ⟨⟩⟩
                | true => exact ih _ sz1 _ inv2 rest

/-- The fields of a program header that `exec` uses. -/
structure Proghdr where
  off : Nat
  vaddr : Nat
  filesz : Nat
  memsz : Nat

def Inode.proghdr (ip : Inode) (off : Nat) : Proghdr :=
  ⟨ip.word (off + 4) 4, ip.word (off + 8) 4, ip.word (off + 16) 4, ip.word (off + 20) 4⟩

/-- `exec` accepts the program header at `off`, and `allocuvm` has made room for it. -/
structure HeaderAccepted (ip : Inode) (off sz : Nat) (c : Ctx) (sz' : Nat) (c' : Ctx) : Prop where
  read : readi ip off PROGHDR = some PROGHDR
  type : ip.word off 4 = ELF_PROG_LOAD
  large : (ip.proghdr off).filesz ≤ (ip.proghdr off).memsz
  fits : (ip.proghdr off).vaddr ≤ add32 (ip.proghdr off).vaddr (ip.proghdr off).memsz
  alloc : allocuvm .img sz (add32 (ip.proghdr off).vaddr (ip.proghdr off).memsz) c = .ok (sz', c')
  success : sz' ≠ 0
  aligned : (ip.proghdr off).vaddr % PGSIZE = 0

/-- `loaduvm` for a segment. -/
def Proghdr.load (g : Proghdr) (ip : Inode) (c : Ctx) : Res (Bool × Kmem) := loaduvm c.img g.vaddr ip g.off g.filesz c.km

/-- What the loop over the program headers does with the first one. -/
theorem loadProgram_some {n off sz s : Nat} (call : loadProgram ip (n + 1) off sz c = .ok (some s, c')) :
    (readi ip off PROGHDR = some PROGHDR ∧ ip.word off 4 ≠ ELF_PROG_LOAD ∧
      loadProgram ip n (add32 off PROGHDR) sz c = .ok (some s, c')) ∨
    ∃ sz1 c1 km, HeaderAccepted ip off sz c sz1 c1 ∧ (ip.proghdr off).load ip c1 = .ok (true, km) ∧
      loadProgram ip n (add32 off PROGHDR) sz1 { c1 with km := km } = .ok (some s, c') := by
  rw [loadProgram] at call
  split at call
  · cases call
  · rename_i read
    split at call
    · rename_i type
      exact .inl ⟨not_not.1 read, type, call⟩
    · rename_i type
      simp only at call
      split at call
      · cases call
      · rename_i large
        split at call
        · cases call
        · rename_i fits
          obtain ⟨⟨sz1, c1⟩, alloc, rest⟩ := bind_ok.1 call
          simp only at rest
          split at rest
          · cases rest
          · rename_i success
            split at rest
            · cases rest
            · rename_i aligned
              obtain ⟨⟨ok, km⟩, load, rest⟩ := bind_ok.1 rest
              cases ok with
              | false => cases rest
              | true =>
                exact .inr ⟨sz1, c1, km, ⟨not_not.1 read, not_not.1 type, not_lt.1 large, not_lt.1 fits, alloc, success,
                  not_not.1 aligned⟩, load, rest⟩

/-- The context in which the image is loaded: queue and slot table are cleared. -/
def Ctx.cleared (c : Ctx) : Ctx :=
  { c with cur := { c.cur with mq := memClear c.cur.mq, vtab := vmemClear c.cur.vtab } }

def Ctx.flag (c : Ctx) (b : Bool) : Ctx := { c with cur := { c.cur with stackGrowing := b } }

/-- The ways in which `exec` builds an image. -/
inductive ImageBuilt (ip : Inode) (argv : List (List UInt8)) (c : Ctx) : Option (Nat × Nat) → Ctx → Prop where
  | bad {c1 : Ctx} : loadProgram ip (ip.word 44 2) (ip.word 28 4) PGSIZE c.cleared = .ok (none, c1) →
      ImageBuilt ip argv c none c1
  | noStack {sz : Nat} {c1 c2 : Ctx} :
      loadProgram ip (ip.word 44 2) (ip.word 28 4) PGSIZE c.cleared = .ok (some sz, c1) →
      allocuvm .img (USERSTACKTOP - PGSIZE) USERSTACKTOP (c1.flag true) = .ok (0, c2) → ImageBuilt ip argv c none c2
  | stack {sz r : Nat} {sp : Option Nat} {km : Kmem} {c1 c2 : Ctx} :
      loadProgram ip (ip.word 44 2) (ip.word 28 4) PGSIZE c.cleared = .ok (some sz, c1) →
      allocuvm .img (USERSTACKTOP - PGSIZE) USERSTACKTOP (c1.flag true) = .ok (r, c2) → r ≠ 0 →
      pushStack c2.img argv c2.km = .ok (sp, km) →
      ImageBuilt ip argv c (sp.map fun sp => (PGROUNDUP sz, sp)) { c2.flag false with km := km }

theorem buildImage_ok (call : buildImage ip argv c = .ok (r, c')) : ImageBuilt ip argv c r c' := by
  obtain ⟨⟨size, c1⟩, load, rest⟩ := bind_ok.1 call
  cases size with
  | none =>
    cases rest
    exact .bad load
  | some sz =>
    obtain ⟨⟨r2, c2⟩, stack, rest⟩ := bind_ok.1 rest
    simp only at rest
    split at rest
    · rename_i zero
      cases rest
      exact .noStack load (zero ▸ stack)
    · rename_i success
      obtain ⟨⟨sp, km3⟩, push, rest⟩ := bind_ok.1 rest
      cases sp with
      | none =>
        cases rest
        exact @ImageBuilt.stack _ _ _ _ _ none _ _ _ load stack success push
      | some sp =>
        cases rest
        exact @ImageBuilt.stack _ _ _ _ _ (some sp) _ _ _ load stack success push

/-- The ways in which `exec` ends. -/
inductive Execd (path : String) (argv : List (List UInt8)) (created : Nat → Inode) (c : Ctx) : Int → Ctx → Prop where
  | refused : Execd path argv created c (-1) c
  | noTable {km : Kmem} : setupkvm c.km = .ok (none, km) → Execd path argv created c (-1) { c with km := km }
  | failed {ip : Inode} {d : PgDir} {km km' : Kmem} {c2 : Ctx} : setupkvm c.km = .ok (some d, km) →
      ImageBuilt ip argv { c with km := km, img := d } none c2 → freevm c2.img c2.km = .ok km' →
      Execd path argv created c (-1) { c2 with km := km' }
  | committed {ip : Inode} {d : PgDir} {km km' : Kmem} {c2 : Ctx} {sz sp : Nat} : setupkvm c.km = .ok (some d, km) →
      ImageBuilt ip argv { c with km := km, img := d } (some (sz, sp)) c2 → freevm c2.cur.pgdir c2.km = .ok km' →
      Execd path argv created c 0 { c2 with
        cur := { c2.cur with
          name := programName path
          pgdir := c2.img
          stacksize := PGSIZE
          sz := sz
          eip := ip.word 24 4
          esp := sp
          vpfile := vpalloc created c2.cur.vpfile }
        km := km' }

theorem exec_ok {ip : Option Inode} {r : Int} (call : exec ip path argv created c = .ok (r, c')) :
    Execd path argv created c r c' := by
  unfold exec at call
  split at call
  · cases call
    exact .refused
  · split at call
    · cases call
      exact .refused
    · split at call
      · cases call
        exact .refused
      · obtain ⟨⟨d, km1⟩, setup, rest⟩ := bind_ok.1 call
        cases d with
        | none =>
          cases rest
          exact .noTable setup
        | some d =>
          obtain ⟨⟨image, c2⟩, build, rest⟩ := bind_ok.1 rest
          have built := buildImage_ok build
          cases image with
          | none =>
            obtain ⟨km3, free, rest⟩ := bind_ok.1 rest
            cases rest
            exact .failed setup built free
          | some image =>
            obtain ⟨km3, free, rest⟩ := bind_ok.1 rest
            cases rest
            exact .committed setup built free

/-- The process after the commit. -/
def Ctx.committed (c : Ctx) (ip : Inode) (path : String) (created : Nat → Inode) (sz sp : Nat) (km : Kmem) : Ctx :=
  { c with
    cur := { c.cur with
      name := programName path
      pgdir := c.img
      stacksize := PGSIZE
      sz := sz
      eip := ip.word 24 4
      esp := sp
      vpfile := vpalloc created c.cur.vpfile }
    km := km }

/-- **The calls that succeed.** -/
theorem exec_zero {ip : Option Inode} :
    exec ip path argv created c = .ok (0, c') ↔
      ∃ f d km c2 sz sp km', ip = some f ∧ readi f 0 ELFHDR = some ELFHDR ∧ f.word 0 4 = ELF_MAGIC ∧
        setupkvm c.km = .ok (some d, km) ∧ buildImage f argv { c with km := km, img := d } = .ok (some (sz, sp), c2) ∧
        freevm c2.cur.pgdir c2.km = .ok km' ∧ c' = c2.committed f path created sz sp km' := by
  constructor
  · intro call
    unfold exec at call
    split at call
    · cases call
    · split at call
      · cases call
      · rename_i header
        split at call
        · cases call
        · rename_i magic
          obtain ⟨⟨d, km⟩, setup, rest⟩ := bind_ok.1 call
          cases d with
          | none => cases rest
          | some d =>
            obtain ⟨⟨image, c2⟩, build, rest⟩ := bind_ok.1 rest
            cases image with
            | none =>
              obtain ⟨_, _, rest⟩ := bind_ok.1 rest
              cases rest
            | some image =>
              obtain ⟨km', free, rest⟩ := bind_ok.1 rest
              cases rest
              exact ⟨_, d, km, c2, _, _, km', rfl, not_not.1 header, not_not.1 magic, setup, build, free, rfl⟩
  · rintro ⟨f, d, km, c2, sz, sp, km', rfl, header, magic, setup, build, free, rfl⟩
    rw [exec, if_neg (fun not => not header), if_neg (fun not => not magic)]
    exact bind_ok.2 ⟨_, setup, bind_ok.2 ⟨_, build, bind_ok.2 ⟨_, free, rfl⟩⟩⟩

/-! ## The image -/

/-- What `exec` leaves of the process before the commit. -/
def Proc.SameButFlag (p p' : Proc) : Prop := ∃ b, { p with stackGrowing := b }.SameMeta p'

theorem Proc.SameButFlag.fields {p p' : Proc} (same : p.SameButFlag p') :
    p'.state = p.state ∧ p'.sz = p.sz ∧ p'.stacksize = p.stacksize := by
  obtain ⟨b, same⟩ := same
  rw [same]
  exact ⟨rfl, rfl, rfl⟩

theorem Proc.SameButFlag.trans {p p' p'' : Proc} (first : p.SameButFlag p') (second : p'.SameMeta p'') :
    p.SameButFlag p'' := by
  obtain ⟨b, first⟩ := first
  exact ⟨b, first.trans second⟩

theorem Proc.SameButFlag.flag {p p' : Proc} (same : p.SameButFlag p') (b : Bool) :
    p.SameButFlag { p' with stackGrowing := b } := by
  obtain ⟨_, same⟩ := same
  exact ⟨b, by rw [same]; rfl⟩

theorem userQueue_clear (q : MemQueue) : UserQueue (memClear q) :=
  ⟨[], memClear_wf q, by simp [MemQueue.vaddrs]⟩

/-- An image of `sz` bytes under construction, for the process `p` that calls `exec`. -/
structure Imaging (p : Proc) (sz : Nat) (c : Ctx) : Prop where
  growing : c.Growing .img
  image : c.img.Image
  full : ∀ v, 1 ≤ v → v * PGSIZE < sz → (c.img.pte v).Mapped
  low : PGSIZE ≤ sz
  top : sz ≤ KERNBASE
  same : p.SameButFlag c.cur
  chain : c.cur.mq.pages = p.mq.pages

namespace Imaging

variable {p : Proc} {sz : Nat}

theorem start (table : c.cur.pgdir.Wf) (linked : c.km.Linked) (setup : setupkvm c.km = .ok (some d, km)) :
    Imaging c.cur PGSIZE (Ctx.cleared { c with km := km, img := d }) := by
  obtain ⟨wf, blank⟩ := setupkvm_blank linked setup
  exact ⟨⟨⟨table, userQueue_clear _⟩, wf⟩, fun v user => .inl (blank v user),
    fun v one below => by simp only [PGSIZE] at *; omega, Nat.le_refl _, by decide, ⟨_, rfl⟩, rfl⟩

theorem memory (imaging : Imaging p sz c) (km : Kmem) : Imaging p sz { c with km := km } :=
  { imaging with growing := ⟨imaging.growing.good, imaging.growing.wf⟩ }

theorem flag (imaging : Imaging p sz c) (b : Bool) : Imaging p sz (c.flag b) :=
  { imaging with
    growing := ⟨⟨imaging.growing.good.table, imaging.growing.good.queue⟩, imaging.growing.wf⟩
    same := imaging.same.flag b }

/-- Growth that fails leaves a smaller image. -/
theorem failed {oldsz newsz r : Nat} (imaging : Imaging p sz c) (call : allocuvm .img oldsz newsz c = .ok (r, c')) :
    Imaging p PGSIZE c' := by
  obtain ⟨growing, grew, _⟩ := allocuvm_grew imaging.growing call
  obtain ⟨same, chain⟩ := allocuvm_same call
  exact ⟨growing, imaging.image.grown (grew.image rfl), fun v one below => by simp only [PGSIZE] at *; omega,
    Nat.le_refl _, by decide, imaging.same.trans same, chain.trans imaging.chain⟩

theorem grown {newsz r : Nat} (imaging : Imaging p sz c) (call : allocuvm .img sz newsz c = .ok (r, c'))
    (success : r ≠ 0) : Imaging p r c' := by
  obtain ⟨high, size⟩ := allocuvm_size call success
  have low := imaging.low
  have top := imaging.top
  obtain ⟨old, new⟩ := allocuvm_maps imaging.growing call success
  refine { imaging.failed call with full := fun v one below => ?_, low := by omega, top := by omega }
  by_cases first : v * PGSIZE < sz
  · exact old v (imaging.full v one first)
  · have mem : v * PGSIZE ∈ pageRange (PGROUNDUP sz) newsz := by
      refine mem_pageRange.2 ⟨v - PGROUNDUP sz / PGSIZE, ?_, ?_⟩ <;>
        simp only [PGROUNDUP, PGSIZE] at * <;> omega
    have page : v * PGSIZE / PGSIZE = v := Nat.mul_div_cancel v (by decide)
    exact page ▸ new _ mem

/-- The stack's page was not mapped before. -/
theorem stack_apart {r : Nat} (imaging : Imaging p sz c)
    (call : allocuvm .img (USERSTACKTOP - PGSIZE) USERSTACKTOP c = .ok (r, c')) (success : r ≠ 0) :
    sz + PGSIZE ≤ KERNBASE := by
  by_contra meets
  have mapped : (c.img.pte (NUPAGES - 1)).Mapped :=
    imaging.full _ (by decide) (by simp only [NUPAGES, PGSIZE, KERNBASE] at *; omega)
  have present : (c.img.pte (NUPAGES - 1)).p = true := by
    rcases imaging.image (NUPAGES - 1) (by decide) with empty | ⟨f, fresh⟩
    · rw [empty] at mapped
      rcases mapped with p | pg
      · cases p
      · cases pg
    · rw [fresh]
      rfl
  rcases allocuvm_ok call with ⟨_, zero, _⟩ | ⟨_, less, _⟩ | ⟨_, _, _, _, loop⟩
  · exact success zero
  · exact absurd less (by decide)
  · have one : pageRange (PGROUNDUP (USERSTACKTOP - PGSIZE)) USERSTACKTOP = [USERSTACKTOP - PGSIZE] := by decide
    rw [one] at loop
    obtain ⟨⟨fresh, q, km1⟩, room, rest⟩ := bind_ok.1 loop
    obtain ⟨⟨ok, c2⟩, page, rest⟩ := bind_ok.1 rest
    cases ok with
    | false =>
      cases rest
      exact success rfl
    | true =>
      obtain ⟨f, km2, d, _, walk, absent, _⟩ := growPage_ok (by decide) (by decide) page
      obtain ⟨ext, _⟩ := walkpgdirAlloc_ext imaging.growing.wf walk
      have here : (USERSTACKTOP - PGSIZE) / PGSIZE = NUPAGES - 1 := by decide
      rw [ext.pte, here] at absent
      cases present.symm.trans absent

end Imaging

/-- The rule for the construction of an image: what growth above `PGSIZE`, loading and
writing the arguments keep holds of the image. A finished image leaves the page of the
stack free. -/
theorem ImageBuilt.rule {X : Ctx → Prop} {p : Proc}
    (alloc : ∀ {sz oldsz newsz r c c'}, Imaging p sz c → X c → PGSIZE ≤ oldsz → allocuvm .img oldsz newsz c = .ok (r, c') → X c')
    (load : ∀ {sz addr off len b c km}, Imaging p sz c → X c → addr + len ≤ KERNBASE → loaduvm c.img addr ip off len c.km = .ok (b, km) → X { c with km := km })
    (flag : ∀ {c b}, X c → X (c.flag b))
    (push : ∀ {sz c sp km}, Imaging p sz c → X c → pushStack c.img argv c.km = .ok (sp, km) → X { c with km := km })
    (built : ImageBuilt ip argv c r c') (imaging : Imaging p PGSIZE c.cleared) (start : X c.cleared) :
    (∃ s, Imaging p s c') ∧ X c' ∧ ∀ sz sp, r = some (sz, sp) → sz + PGSIZE ≤ KERNBASE := by
  have loaded : ∀ {size c1}, loadProgram ip (ip.word 44 2) (ip.word 28 4) PGSIZE c.cleared = .ok (size, c1) →
      (size = none → ∃ s, Imaging p s c1 ∧ X c1) ∧ ∀ s, size = some s → Imaging p s c1 ∧ X c1 := fun run =>
    loadProgram_rule (I := fun sz c => Imaging p sz c ∧ X c)
      (fun inv grow => ⟨fun _ => ⟨_, inv.1.failed grow, alloc inv.1 inv.2 inv.1.low grow⟩,
        fun success => ⟨inv.1.grown grow success, alloc inv.1 inv.2 inv.1.low grow⟩⟩)
      (fun inv fits run => ⟨inv.1.memory _, load inv.1 inv.2 fits run⟩) _ _ _ _ ⟨imaging, start⟩ run
  cases built with
  | bad run =>
    obtain ⟨s, image, x⟩ := (loaded run).1 rfl
    exact ⟨⟨s, image⟩, x, by rintro _ _ ⟨⟩⟩
  | noStack run stack =>
    obtain ⟨image, x⟩ := (loaded run).2 _ rfl
    exact ⟨⟨_, (image.flag true).failed stack⟩, alloc (image.flag true) (flag x) (by decide) stack, by rintro _ _ ⟨⟩⟩
  | @stack sz r sp km c1 c2 run stack success push' =>
    obtain ⟨image, x⟩ := (loaded run).2 _ rfl
    have apart := (image.flag true).stack_apart stack success
    have image2 := ((image.flag true).failed stack).flag false
    have x2 : X (c2.flag false) := flag (alloc (image.flag true) (flag x) (by decide) stack)
    refine ⟨⟨_, image2.memory km⟩, push image2 x2 push', fun sz' sp' pair => ?_⟩
    cases sp with
    | none => cases pair
    | some sp =>
      cases pair
      simp only [PGROUNDUP, PGSIZE, KERNBASE] at *
      omega

theorem ImageBuilt.imaging {p : Proc} (built : ImageBuilt ip argv c r c') (start : Imaging p PGSIZE c.cleared) :
    (∃ s, Imaging p s c') ∧ ∀ sz sp, r = some (sz, sp) → sz + PGSIZE ≤ KERNBASE := by
  obtain ⟨image, _, apart⟩ := built.rule (X := fun _ => True) (fun _ _ _ _ => trivial) (fun _ _ _ _ => trivial)
    (fun _ => trivial) (fun _ _ _ => trivial) start trivial
  exact ⟨image, apart⟩

/-- `exec` keeps the sizes of heap and stack apart. -/
theorem Execd.layout {r : Int} (execd : Execd path argv created c r c') (linked : c.km.Linked) (table : c.cur.pgdir.Wf)
    (layout : c.cur.Layout) : c'.cur.Layout := by
  cases execd with
  | refused => exact layout
  | noTable => exact layout
  | failed setup built =>
    obtain ⟨⟨s, imaging⟩, _⟩ := built.imaging (.start table linked setup)
    obtain ⟨_, sz, stacksize⟩ := imaging.same.fields
    exact layout.same sz stacksize
  | committed setup built =>
    obtain ⟨_, apart⟩ := built.imaging (.start table linked setup)
    exact ⟨(by decide : PGSIZE % PGSIZE = 0), (by decide : PGSIZE + PGSIZE ≤ KERNBASE), apart _ _ rfl⟩

/-- Sound tables and free pages while an image is built. -/
structure SoundImage (kend kdata lo : Nat) (c : Ctx) : Prop where
  memory : c.km.Sound kend kdata
  table : c.cur.pgdir.Sound kend lo
  img : c.img.Sound kend 1

theorem ImageBuilt.sound {p : Proc} (built : ImageBuilt ip argv c r c') (imaging : Imaging p PGSIZE c.cleared)
    (start : SoundImage kend kdata lo c) : SoundImage kend kdata lo c' := by
  refine (built.rule (X := SoundImage kend kdata lo) (fun image x low grow => ?_)
    (fun _ x _ run => ⟨x.memory.wrote (loaduvm_wrote run), x.table, x.img⟩) (fun x => ⟨x.memory, x.table, x.img⟩)
    (fun _ x run => ⟨x.memory.wrote (pushStack_wrote run), x.table, x.img⟩) imaging
    ⟨start.memory, start.table, start.img⟩).2.1
  obtain ⟨memory, own, img⟩ := allocuvm_sound x.memory image.growing x.table x.img
    (by simp only [PGROUNDUP, PGSIZE] at *; omega) (by rintro ⟨⟩) grow
  exact ⟨memory, own, img⟩

/-- **`exec`** keeps a process sane; a committed image has no page below `PGSIZE`. -/
theorem exec_sane {ip : Option Inode} {r : Int} (symbols : Symbols kend kdata) (sane : c.Sane kend kdata lo) (first : lo ≤ 1)
    (call : exec ip path argv created c = .ok (r, c')) :
    Ctx.After kend kdata lo c c' ∧ (r = 0 → c'.cur.pgdir.Sound kend 1) := by
  have linked := symbols.linked sane.memory
  have layout := (exec_ok call).layout linked sane.table.wf sane.layout
  obtain ⟨_, _, run, memory, sound⟩ := setupkvm_sound symbols sane.memory
  cases exec_ok call with
  | refused => exact ⟨⟨sane, .refl _⟩, by rintro ⟨⟩⟩
  | noTable setup =>
    cases run.symm.trans setup
    exact ⟨⟨sane.memory_of memory, .refl _⟩, by rintro ⟨⟩⟩
  | failed setup built freed =>
    cases run.symm.trans setup
    have start := Imaging.start sane.table.wf linked setup
    have image := built.sound start ⟨memory, sane.table, (sound _ rfl).mono (by decide)⟩
    obtain ⟨⟨s, imaging⟩, _⟩ := built.imaging start
    exact ⟨⟨⟨freevm_memory image.memory freed, image.table, imaging.growing.good.queue, layout⟩,
      imaging.same.fields.1, imaging.chain⟩, by rintro ⟨⟩⟩
  | committed setup built freed =>
    cases run.symm.trans setup
    have start := Imaging.start sane.table.wf linked setup
    have image := built.sound start ⟨memory, sane.table, (sound _ rfl).mono (by decide)⟩
    obtain ⟨⟨s, imaging⟩, _⟩ := built.imaging start
    exact ⟨⟨⟨freevm_memory image.memory freed, image.img.mono first, imaging.growing.good.queue, layout⟩,
      imaging.same.fields.1, imaging.chain⟩, fun _ => image.img⟩

end Xv6
