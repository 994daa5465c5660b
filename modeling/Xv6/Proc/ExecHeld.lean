import Xv6.Proc.ExecSound
import Xv6.Vm.FaultHeld
import Xv6.Vm.CopyHeld

/-!
# `exec` keeps the share counts

The image that `exec` builds has only new pages, which nobody else refers to, so loading
the program and the arguments touches no page of another process.
-/

namespace Xv6
open RefCount Fallible

variable {D : Nat → Prop} {R S : Use Nat} {d : PgDir} {km km' : Kmem} {argv : List (List UInt8)} {ip : Inode}

theorem Kmem.Wrote.held {U : Use Nat} (wrote : km.Wrote km') (held : Held D R U km) : Held D R U km' := by
  rw [Kmem.Wrote] at wrote
  rw [wrote]
  exact held.of_mem _

section

variable (image : d.Image) {b : Bool}
include image

theorem PgDir.Image.noneOut (wf : d.Wf) : d.NoneOut := by
  intro v
  by_cases low : v < NUPAGES
  · rcases image v low with empty | ⟨f, fresh⟩
    · rw [empty]
    · rw [fresh]
      rfl
  · exact (wf.kernel v (by omega)).2

/-- Nobody else refers to a page that an entry of the image names; an empty entry names
page 0, which is not the allocator's. -/
theorem PgDir.Image.unshared (zero : ¬ D 0) (held : Held D R (S + d.use) km) {v : Nat}
    (low : v < NUPAGES) : total (R + S) (d.pte v).addr = 0 := by
  have bound : v < NVPAGES := by
    simp only [NUPAGES, NVPAGES] at *
    omega
  rcases image v low with empty | ⟨f, fresh⟩
  · have free : km.pcSh 0 = 0 := held.acct.inv.outside 0 zero
    have unused := held.acct.counted.unused free
    rw [empty]
    rw [← add_assoc, total_add] at unused
    show total (R + S) 0 = 0
    omega
  · have one : R + (S + d.use) = R + S + d.rest v + ref f true := by
      rw [PgDir.use_eq d bound, fresh, Pte.use_mapped (e := Pte.fresh f) rfl rfl]
      simp only [Pte.fresh]
      abel
    have alone := (held.acct.congr one).counted.exclusive
    rw [total_add] at alone
    rw [fresh]
    simp only [Pte.fresh]
    omega

/-- Writing to a page of the image. -/
theorem PgDir.Image.write (zero : ¬ D 0) (held : Held D R (S + d.use) km) {v : Nat}
    (low : v < NUPAGES) (bytes : Bytes) :
    Held D R (S + d.use) (km.copyPage (d.pte v).addr bytes) ∧
      Kept (R + S) km (km.copyPage (d.pte v).addr bytes) :=
  ⟨held.of_mem _, kept_write (image.unshared zero held low) bytes⟩

/-! ## Loading -/

theorem loadLoop_held {addr offset sz : Nat} (zero : ¬ D 0) (is : List Nat) :
    ∀ km, (∀ i ∈ is, addr + i < KERNBASE) → Held D R (S + d.use) km →
      loadLoop d addr ip offset sz is km = .ok (b, km') → Held D R (S + d.use) km' ∧ Kept (R + S) km km' := by
  induction is with
  | nil =>
    intro km _ held call
    cases call
    exact ⟨held, .refl _ _⟩
  | cons i is ih =>
    intro km pages held call
    unfold loadLoop at call
    split at call
    · cases call
    · rename_i e found
      have here := pages i (by simp)
      have plain : add32 addr i = addr + i := by
        simp only [add32, KERNBASE] at *
        omega
      obtain ⟨_, entry⟩ := walkpgdir_some.1 found
      have low : add32 addr i / PGSIZE < NUPAGES := by
        rw [plain]
        exact (user_page here).2
      simp only at call
      split at call
      · cases call
        exact ⟨held, .refl _ _⟩
      · rename_i r _
        obtain ⟨held1, kept1⟩ := image.write zero held low (ip.fill (add32 offset i) r (km.mem e.addr))
        rw [entry] at held1 kept1
        split at call
        · obtain ⟨held2, kept2⟩ := ih _ (fun j mem => pages j (by simp [mem])) held1 call
          exact ⟨held2, kept1.trans kept2⟩
        · cases call
          exact ⟨held1, kept1⟩

theorem loaduvm_held {addr offset sz : Nat} (zero : ¬ D 0) (fits : addr + sz ≤ KERNBASE) (held : Held D R (S + d.use) km)
    (call : loaduvm d addr ip offset sz km = .ok (b, km')) : Held D R (S + d.use) km' ∧ Kept (R + S) km km' := by
  unfold loaduvm at call
  split at call
  · cases call
  · refine loadLoop_held image zero _ km (fun i mem => ?_) held call
    obtain ⟨_, _, below⟩ := pageRange_aligned _ (by decide) i mem
    omega

theorem copyoutLoop_held (wf : d.Wf) (zero : ¬ D 0) (fuel : Nat) :
    ∀ va buf km, Held D R (S + d.use) km → copyoutLoop d fuel va buf km = .ok (b, km') →
      Held D R (S + d.use) km' ∧ Kept (R + S) km km' := by
  induction fuel with
  | zero =>
    intro va buf km held call
    cases buf with
    | nil =>
      cases call
      exact ⟨held, .refl _ _⟩
    | cons x xs => cases call
  | succ fuel ih =>
    intro va buf km held call
    cases buf with
    | nil =>
      cases call
      exact ⟨held, .refl _ _⟩
    | cons x xs =>
      unfold copyoutLoop at call
      simp only at call
      split at call
      · cases call
      · rename_i e found
        obtain ⟨_, entry⟩ := walkpgdir_some.1 found
        split at call
        · cases call
          exact ⟨held, .refl _ _⟩
        · split at call
          · cases call
            exact ⟨held, .refl _ _⟩
          · rename_i isUser
            have low : PGROUNDDOWN va / PGSIZE < NUPAGES := by
              by_contra high
              have := (wf.kernel _ (by omega : NUPAGES ≤ PGROUNDDOWN va / PGSIZE)).1
              rw [entry] at this
              simp [this] at isUser
            obtain ⟨held1, kept1⟩ := image.write zero held low _
            rw [entry] at held1 kept1
            obtain ⟨held2, kept2⟩ := ih _ _ _ held1 call
            exact ⟨held2, kept1.trans kept2⟩

theorem copyout_held {va : Nat} {buf : List UInt8} (wf : d.Wf) (zero : ¬ D 0) (held : Held D R (S + d.use) km)
    (call : copyout d va buf km = .ok (b, km')) : Held D R (S + d.use) km' ∧ Kept (R + S) km km' :=
  copyoutLoop_held image wf zero _ va buf km held call

theorem pushArgs_held {r : Option (Nat × List Nat)} (wf : d.Wf) (zero : ¬ D 0)
    (ss : List (List UInt8)) : ∀ sp ptrs km, Held D R (S + d.use) km → pushArgs d ss sp ptrs km = .ok (r, km') →
      Held D R (S + d.use) km' ∧ Kept (R + S) km km' := by
  induction ss with
  | nil =>
    intro sp ptrs km held call
    cases call
    exact ⟨held, .refl _ _⟩
  | cons s ss ih =>
    intro sp ptrs km held call
    unfold pushArgs at call
    split at call
    · cases call
      exact ⟨held, .refl _ _⟩
    · obtain ⟨⟨ok, km1⟩, copy, rest⟩ := bind_ok.1 call
      obtain ⟨held1, kept1⟩ := copyout_held image wf zero held copy
      cases ok with
      | false =>
        cases rest
        exact ⟨held1, kept1⟩
      | true =>
        obtain ⟨held2, kept2⟩ := ih _ _ km1 held1 rest
        exact ⟨held2, kept1.trans kept2⟩

theorem pushStack_held {r : Option Nat} (wf : d.Wf) (zero : ¬ D 0) (held : Held D R (S + d.use) km)
    (call : pushStack d argv km = .ok (r, km')) : Held D R (S + d.use) km' ∧ Kept (R + S) km km' := by
  obtain ⟨⟨args, km1⟩, push, rest⟩ := bind_ok.1 call
  obtain ⟨held1, kept1⟩ := pushArgs_held image wf zero argv _ _ km held push
  cases args with
  | none =>
    cases rest
    exact ⟨held1, kept1⟩
  | some args =>
    obtain ⟨⟨ok, km2⟩, copy, rest⟩ := bind_ok.1 rest
    obtain ⟨held2, kept2⟩ := copyout_held image wf zero held1 copy
    cases rest
    exact ⟨held2, kept1.trans kept2⟩

end

/-! ## Building the image -/

section Build

variable {c c' : Ctx}

/-- The references of `exec` while it builds an image. -/
theorem ImageBuilt.held {p : Proc} {r : Option (Nat × Nat)} (zero : ¬ D 0) (built : ImageBuilt ip argv c r c')
    (imaging : Imaging p PGSIZE c.cleared) (held : Held D R (c.use .img) c.km) :
    Held D R (c'.use .img) c'.km ∧ Kept R c.km c'.km := by
  refine (built.rule (X := fun c1 => Held D R (c1.use .img) c1.km ∧ Kept R c.km c1.km) (fun image x _ grow => ?_)
    (fun image x fits run => ?_) id (fun image x run => ?_) imaging ⟨held, .refl _ _⟩).2.1
  · obtain ⟨held', kept'⟩ := allocuvm_held zero x.1 image.growing grow
    exact ⟨held', x.2.trans kept'⟩
  · obtain ⟨held', kept'⟩ := loaduvm_held image.image zero fits x.1 run
    exact ⟨held', x.2.trans kept'.part⟩
  · obtain ⟨held', kept'⟩ := pushStack_held image.image image.growing.wf zero x.1 run
    exact ⟨held', x.2.trans kept'.part⟩

/-- **`exec`**, whether it commits or fails: the process holds what is counted for it,
and a committed image has no paged-out page. -/
theorem exec_held {ip : Option Inode} {path : String} {created : Nat → Inode} {r : Int} (linked : c.km.Linked)
    (held : Held D R c.cur.res c.km) (good : c.cur.Good) (call : exec ip path argv created c = .ok (r, c')) :
    Faulted D R c c' ∧ (r = 0 → c'.cur.pgdir.NoneOut) := by
  have zero := linked.zero held.acct.inv
  cases exec_ok call with
  | refused => exact ⟨⟨held, .refl _ _, good, rfl⟩, by rintro ⟨⟩⟩
  | noTable setup =>
    obtain ⟨kept1, none1, _⟩ := setupkvm_held linked held setup
    exact ⟨⟨none1 rfl, kept1.part, good, rfl⟩, by rintro ⟨⟩⟩
  | @failed ip d km1 km' c2 setup built freed =>
    obtain ⟨kept1, _, some1⟩ := setupkvm_held linked held setup
    have start := Imaging.start good.table linked setup
    obtain ⟨⟨s, imaging⟩, _⟩ := built.imaging start
    obtain ⟨held2, kept2⟩ := built.held (c := { c with km := km1, img := d }) zero start (some1 d rfl)
    obtain ⟨km3, free, held3, kept3⟩ := freevm_held zero held2 imaging.growing.wf
    cases free.symm.trans freed
    exact ⟨⟨held3, (kept1.part.trans kept2).trans kept3.part, imaging.growing.good, imaging.same.fields.1⟩, by rintro ⟨⟩⟩
  | @committed ip d km1 km' c2 sz sp setup built freed =>
    obtain ⟨kept1, _, some1⟩ := setupkvm_held linked held setup
    have start := Imaging.start good.table linked setup
    obtain ⟨⟨s, imaging⟩, _⟩ := built.imaging start
    obtain ⟨held2, kept2⟩ := built.held (c := { c with km := km1, img := d }) zero start (some1 d rfl)
    have swapped : Held D R (c2.cur.own + c2.img.use + c2.cur.pgdir.use) c2.km :=
      held2.congr (by simp only [Ctx.use, Ctx.others, Ctx.table, Proc.res]; abel)
    obtain ⟨km3, free, held3, kept3⟩ := freevm_held zero swapped imaging.growing.good.table
    cases free.symm.trans freed
    exact ⟨⟨held3, (kept1.part.trans kept2).trans kept3.part, ⟨imaging.growing.wf, imaging.growing.good.queue⟩,
      imaging.same.fields.1⟩, fun _ => imaging.image.noneOut imaging.growing.wf⟩

end Build

end Xv6
