import Xv6.Proc.Kernel
import Xv6.Vm.FaultSound

/-!
# What `sbrk` does

The cases of `growproc` and of `sys_sbrk`, and what every one of them keeps: heap and stack
stay apart, and growth that starts above page 0 leaves page 0 alone.
-/

namespace Xv6
open Fallible

variable {kend kdata lo : Nat} {c c' : Ctx} {n r : Int}

/-- The process with another size. -/
def Ctx.resize (c : Ctx) (sz : Nat) : Ctx := { c with cur := { c.cur with sz := sz } }

/-- The cases of `growproc`. -/
inductive Resized (n : Int) (c : Ctx) : Bool → Ctx → Prop where
  | refused : c.cur.stackSpace < addInt32 c.cur.sz n → Resized n c false c
  | noGrowth {c1 : Ctx} : addInt32 c.cur.sz n ≤ c.cur.stackSpace → 0 < n →
      allocuvm .cur c.cur.sz (addInt32 c.cur.sz n) c = .ok (0, c1) → Resized n c false c1
  | grown {sz : Nat} {c1 : Ctx} : addInt32 c.cur.sz n ≤ c.cur.stackSpace → 0 < n →
      allocuvm .cur c.cur.sz (addInt32 c.cur.sz n) c = .ok (sz, c1) → sz ≠ 0 → Resized n c true (c1.resize sz)
  | emptied {c1 : Ctx} : addInt32 c.cur.sz n ≤ c.cur.stackSpace → n < 0 →
      c.dealloc .cur c.cur.sz (addInt32 c.cur.sz n) = .ok (0, c1) → Resized n c false c1
  | shrunk {sz : Nat} {c1 : Ctx} : addInt32 c.cur.sz n ≤ c.cur.stackSpace → n < 0 →
      c.dealloc .cur c.cur.sz (addInt32 c.cur.sz n) = .ok (sz, c1) → sz ≠ 0 → Resized n c true (c1.resize sz)
  | same : addInt32 c.cur.sz n ≤ c.cur.stackSpace → n = 0 → Resized n c true c

theorem growproc_ok {ok : Bool} (call : growproc n c = .ok (ok, c')) : Resized n c ok c' := by
  unfold growproc at call
  simp only at call
  split at call
  · rename_i high
    cases call
    exact .refused high
  · rename_i fits
    split at call
    · rename_i pos
      obtain ⟨⟨sz, c1⟩, alloc, rest⟩ := bind_ok.1 call
      simp only at rest
      split at rest
      · rename_i zero
        cases rest
        exact .noGrowth (by omega) pos (zero ▸ alloc)
      · rename_i success
        cases rest
        exact .grown (by omega) pos alloc success
    · split at call
      · rename_i neg
        obtain ⟨⟨sz, c1⟩, dealloc, rest⟩ := bind_ok.1 call
        simp only at rest
        split at rest
        · rename_i zero
          cases rest
          exact .emptied (by omega) neg (zero ▸ dealloc)
        · rename_i success
          cases rest
          exact .shrunk (by omega) neg dealloc success
      · cases call
        exact .same (by omega) (by omega)

/-- The cases of `sys_sbrk`. -/
theorem sysSbrk_ok (call : sysSbrk n c = .ok (r, c')) :
    ∃ ok c1, Resized n c ok c1 ∧
      (((ok = false ∨ c1.cur.stackSpace < addInt32 c1.cur.sz n) ∧ r = -1 ∧ c' = c1) ∨
        (ok = true ∧ addInt32 c1.cur.sz n ≤ c1.cur.stackSpace ∧ r = c.cur.sz ∧
          c' = c1.resize (addInt32 c1.cur.sz n))) := by
  obtain ⟨⟨ok, c1⟩, grow, rest⟩ := bind_ok.1 call
  refine ⟨ok, c1, growproc_ok grow, ?_⟩
  cases ok with
  | false =>
    cases rest
    exact .inl ⟨.inl rfl, rfl, rfl⟩
  | true =>
    simp only [Bool.not_true, Bool.false_eq_true, if_false] at rest
    split at rest
    · rename_i high
      cases rest
      exact .inl ⟨.inr high, rfl, rfl⟩
    · rename_i fits
      cases rest
      exact .inr ⟨rfl, by omega, rfl, rfl⟩

theorem Proc.Layout.resize {p : Proc} (layout : p.Layout) {sz : Nat} (fits : sz + p.stacksize ≤ KERNBASE) :
    ({ p with sz := sz } : Proc).Layout :=
  ⟨layout.stack, layout.room, fits⟩

/-- `growproc` keeps heap and stack apart. -/
theorem Resized.layout {ok : Bool} (resized : Resized n c ok c') (layout : c.cur.Layout) : c'.cur.Layout := by
  have space := stackSpace_le layout
  have heap := layout.heap
  cases resized with
  | refused => exact layout
  | noGrowth _ _ alloc => exact (allocuvm_same alloc).1.layout layout
  | @grown sz c1 fits _ alloc success =>
    have same := (allocuvm_same alloc).1
    have stack : c1.cur.stacksize = c.cur.stacksize := by rw [same]
    obtain ⟨_, size⟩ := allocuvm_size alloc success
    exact (same.layout layout).resize (by rw [stack]; omega)
  | emptied _ _ dealloc =>
    obtain ⟨t, rfl, _⟩ := Ctx.dealloc_cur dealloc
    exact layout.same rfl rfl
  | @shrunk sz c1 fits _ dealloc =>
    obtain ⟨t, rfl, size, _⟩ := Ctx.dealloc_cur dealloc
    have smaller : sz + c.cur.stacksize ≤ KERNBASE := by
      rw [size]
      split <;> omega
    exact ⟨layout.stack, layout.room, smaller⟩
  | same => exact layout

theorem sysSbrk_layout (layout : c.cur.Layout) (call : sysSbrk n c = .ok (r, c')) : c'.cur.Layout := by
  obtain ⟨ok, c1, resized, ⟨_, _, rfl⟩ | ⟨_, fits, _, rfl⟩⟩ := sysSbrk_ok call
  · exact resized.layout layout
  · have layout1 := resized.layout layout
    have space := stackSpace_le layout1
    exact layout1.resize (by omega)

/-- `sys_sbrk` moves the break once more than `growproc`. -/
theorem sysSbrk_again {n : Int} {s s' : Nat} {c1 : Ctx} (grown : growproc n c = .ok (true, c1.resize s))
    (again : addInt32 s n = s') (fits : s' ≤ c1.cur.stackSpace) : sysSbrk n c = .ok (c.cur.sz, c1.resize s') := by
  subst again
  have small : ¬ (c1.resize s).cur.stackSpace < addInt32 (c1.resize s).cur.sz n := Nat.not_lt.2 fits
  unfold sysSbrk
  rw [grown, ok_bind]
  simp only [Bool.not_true, Bool.false_eq_true, if_false, if_neg small]
  rfl

/-- **A growth by `m` bytes** for which `allocuvm` has memory: the break moves by `2 * m`. -/
theorem sysSbrk_grows {m : Nat} {c1 : Ctx} (layout : c.cur.Layout) (pos : 0 < m)
    (fits : c.cur.sz + 2 * m ≤ c.cur.stackSpace)
    (alloc : allocuvm .cur c.cur.sz (c.cur.sz + m) c = .ok (c.cur.sz + m, c1)) :
    sysSbrk m c = .ok (c.cur.sz, c1.resize (c.cur.sz + 2 * m)) := by
  have space := stackSpace_le layout
  have same := (allocuvm_same alloc).1
  have space1 : c1.cur.stackSpace = c.cur.stackSpace := by
    rw [same]
    rfl
  have first : addInt32 c.cur.sz m = c.cur.sz + m := by
    simp only [addInt32, PGSIZE, KERNBASE] at *
    omega
  have second : addInt32 (c.cur.sz + m) m = c.cur.sz + 2 * m := by
    simp only [addInt32, PGSIZE, KERNBASE] at *
    omega
  have grown : growproc m c = .ok (true, c1.resize (c.cur.sz + m)) := by
    unfold growproc
    simp only [first]
    rw [if_neg (by omega), if_pos (by omega), alloc, ok_bind]
    simp only
    rw [if_neg (by omega)]
    rfl
  exact sysSbrk_again grown second (by rw [space1]; exact fits)

/-- **A heap that shrinks within a page** by `m` bytes: the break moves by `2 * m`. -/
theorem sysSbrk_shrinks {m : Nat} (layout : c.cur.Layout) (pos : 0 < m) (within : 2 * m ≤ c.cur.sz)
    (fits : c.cur.sz ≤ c.cur.stackSpace) (quiet : c.cur.sz ≤ PGROUNDUP (c.cur.sz - m)) :
    sysSbrk (-m) c = .ok (c.cur.sz, c.resize (c.cur.sz - 2 * m)) := by
  have space := stackSpace_le layout
  have first : addInt32 c.cur.sz (-m) = c.cur.sz - m := by
    simp only [addInt32, PGSIZE, KERNBASE] at *
    omega
  have second : addInt32 (c.cur.sz - m) (-m) = c.cur.sz - 2 * m := by
    simp only [addInt32, PGSIZE, KERNBASE] at *
    omega
  have nothing : c.dealloc .cur c.cur.sz (c.cur.sz - m) = .ok (c.cur.sz - m, c) := by
    unfold Ctx.dealloc deallocuvm
    rw [if_neg (by omega), Nat.sub_eq_zero_of_le quiet]
    unfold deallocLoop
    rw [if_pos quiet]
    rfl
  have shrunk : growproc (-m) c = .ok (true, c.resize (c.cur.sz - m)) := by
    unfold growproc
    simp only [first]
    rw [if_neg (by omega), if_neg (by omega), if_pos (by omega), nothing, ok_bind]
    simp only
    rw [if_neg (by omega)]
    rfl
  exact sysSbrk_again shrunk second (by omega)

/-- `growproc` keeps a process sane; it must not grow from page 0 when page 0 is to stay
unmapped. -/
theorem Resized.sane {ok : Bool} (resized : Resized n c ok c') (sane : c.Sane kend kdata lo)
    (above : 0 < n → lo * PGSIZE ≤ PGROUNDUP c.cur.sz) : Ctx.After kend kdata lo c c' := by
  have layout := resized.layout sane.layout
  have grows : 0 < n → ∀ {sz newsz : Nat} {c1 : Ctx}, allocuvm .cur c.cur.sz newsz c = .ok (sz, c1) →
      c1.km.Sound kend kdata ∧ c1.cur.pgdir.Sound kend lo ∧ UserQueue c1.cur.mq ∧ c.cur.Kin c1.cur :=
    fun pos {_ _ _} alloc => by
      obtain ⟨memory, own, _⟩ := allocuvm_sound sane.memory sane.growing sane.table sane.table (above pos)
        (fun _ => rfl) alloc
      obtain ⟨growing, _⟩ := allocuvm_grew sane.growing alloc
      obtain ⟨same, chain⟩ := allocuvm_same alloc
      exact ⟨memory, own, growing.good.queue, same.kin chain⟩
  cases resized with
  | refused => exact ⟨sane, .refl _⟩
  | noGrowth _ pos alloc =>
    obtain ⟨memory, own, queue, kin⟩ := grows pos alloc
    exact ⟨⟨memory, own, queue, layout⟩, kin⟩
  | grown _ pos alloc =>
    obtain ⟨memory, own, queue, kin⟩ := grows pos alloc
    exact ⟨⟨memory, own, queue, layout⟩, kin.state, kin.chain⟩
  | emptied _ _ dealloc =>
    obtain ⟨t, rfl, _⟩ := Ctx.dealloc_cur dealloc
    exact ⟨⟨sane.memory, sane.table, sane.queue, layout⟩, rfl, rfl⟩
  | shrunk _ _ dealloc =>
    obtain ⟨t, rfl, _⟩ := Ctx.dealloc_cur dealloc
    exact ⟨⟨sane.memory, sane.table, sane.queue, layout⟩, rfl, rfl⟩
  | same => exact ⟨sane, .refl _⟩

/-- **`sys_sbrk`** keeps a process sane. -/
theorem sysSbrk_sane (sane : c.Sane kend kdata lo) (above : 0 < n → lo * PGSIZE ≤ PGROUNDUP c.cur.sz)
    (call : sysSbrk n c = .ok (r, c')) : Ctx.After kend kdata lo c c' := by
  have layout := sysSbrk_layout sane.layout call
  obtain ⟨ok, c1, resized, ⟨_, _, rfl⟩ | ⟨_, _, _, rfl⟩⟩ := sysSbrk_ok call
  · exact resized.sane sane above
  · obtain ⟨sane1, kin⟩ := resized.sane sane above
    exact ⟨⟨sane1.memory, sane1.table, sane1.queue, layout⟩, kin.state, kin.chain⟩

end Xv6
