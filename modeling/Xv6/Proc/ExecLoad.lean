import Xv6.Proc.ExecHeld

/-!
# What the program loader stores

`exec` reads each segment of the program into the pages that it has just mapped. While the
image is built, every page of it shows the bytes of the file that have been loaded there,
and zeros where nothing has been loaded.
-/

namespace Xv6
open RefCount Fallible Function List

/-! ## The bytes of a program -/

/-- The `len` bytes of the file at `off` over what `b` has at `vaddr`. -/
def Inode.overlay (ip : Inode) (vaddr off len : Nat) (b : Nat → Option UInt8) (va : Nat) : Option UInt8 :=
  if vaddr ≤ va ∧ va < vaddr + len then some (ip.data (off + (va - vaddr))) else b va

/-- The byte that the segments of `n` program headers at `off` put at a virtual address, over what `b` has there. -/
def Inode.segments (ip : Inode) : Nat → Nat → (Nat → Option UInt8) → Nat → Option UInt8
  | 0, _, b => b
  | n + 1, off, b =>
    ip.segments n (add32 off PROGHDR) <|
      if ip.word off 4 ≠ ELF_PROG_LOAD then b
      else ip.overlay (ip.word (off + 8) 4) (ip.word (off + 4) 4) (ip.word (off + 16) 4) b

/-- Below `top`, the pages of a table show `b`, and zeros where `b` has nothing. -/
def PgDir.Shows (d : PgDir) (km : Kmem) (top : Nat) (b : Nat → Option UInt8) : Prop :=
  ∀ v, v < NUPAGES → (d.pte v).p = true → ∀ o, o < PGSIZE → v * PGSIZE + o < top →
    km.mem (d.pte v).addr o = (b (v * PGSIZE + o)).getD 0

section Pages

variable {D : Nat → Prop} {R S : Use Nat} {d : PgDir} {km km' : Kmem} {b b' : Nat → Option UInt8} {v w top : Nat}

/-- A page that a table maps is one that it refers to. -/
theorem PgDir.Wf.refers (wf : d.Wf) (low : v < NUPAGES) (present : (d.pte v).p = true) : 0 < total d.use (d.pte v).addr := by
  have bound : v < NVPAGES := by
    simp only [NUPAGES, NVPAGES] at *
    omega
  rw [PgDir.use_eq d bound, Pte.use_mapped present (wf.user v low present)]
  simp

/-- Two pages of a table whose pages are referred to once are different frames. -/
theorem Held.apart (held : Held D R (S + d.use) km) (wf : d.Wf) (lowV : v < NUPAGES) (lowW : w < NUPAGES) (ne : w ≠ v)
    (presentV : (d.pte v).p = true) (presentW : (d.pte w).p = true) : (d.pte w).addr ≠ (d.pte v).addr := by
  intro same
  have boundV : v < NVPAGES := by
    simp only [NUPAGES, NVPAGES] at *
    omega
  have once := held.once (d.pte v).addr
  rw [PgDir.use_eq d boundV, Pte.use_mapped presentV (wf.user v lowV presentV)] at once
  have other : 0 < total (d.rest v) (d.pte v).addr := by
    have mem : w ∈ (Finset.range NVPAGES).erase v := by
      refine Finset.mem_erase.2 ⟨ne, Finset.mem_range.2 ?_⟩
      simp only [NUPAGES, NVPAGES] at *
      omega
    have part := Finset.single_le_sum (f := fun x => total (d.pte x).use (d.pte v).addr) (fun _ _ => Nat.zero_le _) mem
    have one : total (d.pte w).use (d.pte v).addr = 1 := by
      rw [Pte.use_mapped presentW (wf.user w lowW presentW), same, total_ref_self]
    rw [PgDir.rest, total_add, total_sum]
    simp only [one] at part
    omega
  simp only [total_add, total_ref_self] at once
  omega

namespace PgDir.Shows

theorem kept (shows : d.Shows km top b) (wf : d.Wf) (kept : Kept (R + d.use) km km') : d.Shows km' top b := by
  intro v low present o inside below
  rw [kept.mem _ (by rw [total_add]; have := wf.refers low present; omega)]
  exact shows v low present o inside below

theorem mono (shows : d.Shows km top b) {top' : Nat} (le : top' ≤ top) : d.Shows km top' b :=
  fun v low present o inside below => shows v low present o inside (by omega)

/-- Writing one page of the table. -/
theorem write (shows : d.Shows km top b) (held : Held D R (S + d.use) km) (wf : d.Wf) (low : v < NUPAGES)
    (present : (d.pte v).p = true) {bytes : Bytes}
    (here : ∀ o, o < PGSIZE → v * PGSIZE + o < top → bytes o = (b' (v * PGSIZE + o)).getD 0)
    (same : ∀ w o, w ≠ v → o < PGSIZE → b' (w * PGSIZE + o) = b (w * PGSIZE + o)) :
    d.Shows (km.copyPage (d.pte v).addr bytes) top b' := by
  intro w lowW presentW o inside below
  by_cases is : w = v
  · subst is
    show update km.mem (d.pte w).addr bytes (d.pte w).addr o = _
    rw [update_self]
    exact here o inside below
  · show update km.mem (d.pte v).addr bytes (d.pte w).addr o = _
    rw [update_of_ne (held.apart wf low lowW is present presentW), same w o is inside]
    exact shows w lowW presentW o inside below

end PgDir.Shows

end Pages

section Overlay

variable (ip : Inode) {b : Nat → Option UInt8} {addr offset sz i : Nat}

/-- Loading the next page of a segment changes that page only. -/
theorem Inode.overlay_page {o : Nat} (more : i < sz) (inPage : o < PGSIZE) :
    ip.overlay addr offset (min (i + PGSIZE) sz) b (addr + i + o) =
      if o < min (sz - i) PGSIZE then some (ip.data (offset + i + o))
      else ip.overlay addr offset (min i sz) b (addr + i + o) := by
  simp only [Inode.overlay]
  by_cases loaded : o < min (sz - i) PGSIZE
  · rw [if_pos loaded, if_pos (by omega)]
    congr 2
    omega
  · rw [if_neg loaded, if_neg (by omega), if_neg (by omega)]

theorem Inode.overlay_other {va : Nat} (outside : ¬ (addr + i ≤ va ∧ va < addr + i + PGSIZE)) :
    ip.overlay addr offset (min (i + PGSIZE) sz) b va = ip.overlay addr offset (min i sz) b va := by
  simp only [Inode.overlay]
  by_cases before : addr ≤ va ∧ va < addr + min i sz
  · rw [if_pos before, if_pos (by omega)]
  · rw [if_neg before, if_neg (by omega)]

end Overlay

/-! ## Mapping new pages -/

/-- The image that is being built: its pages are those of `P`, and they show `b`. -/
structure Loading (D : Nat → Prop) (R : Use Nat) (P : Nat → Prop) (b : Nat → Option UInt8) (c : Ctx) : Prop where
  held : Held D R (c.use .img) c.km
  growing : c.Growing .img
  image : c.img.Image
  pages : ∀ v, v < NUPAGES → ((c.img.pte v).p = true ↔ P v)
  shown : c.img.Shows c.km KERNBASE b
  bytes : ∀ va, b va ≠ none → va < KERNBASE ∧ P (va / PGSIZE)

namespace Loading

variable {D : Nat → Prop} {R : Use Nat} {P Q : Nat → Prop} {b : Nat → Option UInt8} {c c' : Ctx} {oldsz newsz r : Nat}

section

variable (loading : Loading D R P b c)
include loading

theorem congr (same : ∀ v, v < NUPAGES → (P v ↔ Q v)) : Loading D R Q b c where
  held := loading.held
  growing := loading.growing
  image := loading.image
  pages v low := (loading.pages v low).trans (same v low)
  shown := loading.shown
  bytes va some_ := by
    obtain ⟨low, page⟩ := loading.bytes va some_
    exact ⟨low, (same _ (user_page low).2).1 page⟩

theorem flag (x : Bool) : Loading D R P b (c.flag x) :=
  ⟨loading.held, ⟨⟨loading.growing.good.table, loading.growing.good.queue⟩, loading.growing.wf⟩, loading.image,
    loading.pages, loading.shown, loading.bytes⟩

/-- One iteration of the loop of `allocuvm`: the new page is all zeros. -/
theorem page {a : Nat} {fresh fresh' : Bool} {p : Proc} {km : Kmem}
    (aligned : a % PGSIZE = 0) (low : PGROUNDUP oldsz ≤ a) (high : a < newsz) (top : newsz ≤ KERNBASE)
    (room : makeRoom a fresh c.cur c.km = .ok (fresh', p, km))
    (grow : growPage .img oldsz newsz a { c with cur := p, km := km } = .ok (true, c')) :
    Loading D R (fun v => P v ∨ v = a / PGSIZE) b c' := by
  have user : a < KERNBASE := by omega
  obtain ⟨growing1, growing2, _⟩ := loading.growing.body aligned low high top room grow
  obtain ⟨held1, kept1⟩ := makeRoom_held (S := c.img.use) (loading.held.congr (add_comm _ _)) loading.growing.good room
  obtain ⟨f, km1, d, got, walk, absent, eq⟩ := growPage_ok aligned user grow
  obtain ⟨held2, _, kept2, ext⟩ := map_fresh_held (S := p.res) (held1.congr (add_comm _ _)) loading.growing.wf user got walk absent
  obtain ⟨_, same, _⟩ := walkpgdirAlloc_ext loading.growing.wf walk
  have isImg : c'.img = d.set a (Pte.fresh f) := by
    rw [eq]
    rfl
  have entry : ∀ v, c'.img.pte v = if v = a / PGSIZE then Pte.fresh f else c.img.pte v := by
    intro v
    rw [isImg, PgDir.set_pte, ext.pte]
  have missing : ¬ P (a / PGSIZE) := by
    intro page
    rw [ext.pte] at absent
    cases absent.symm.trans ((loading.pages _ (user_page user).2).2 page)
  have old : c.img.Shows c'.km KERNBASE b := (loading.shown.kept loading.growing.wf kept1).kept loading.growing.wf kept2
  have zeros : c'.km.mem f = fun _ => 0 := by
    rw [same.mem]
    exact update_self ..
  refine ⟨?_, growing2, ?_, ?_, ?_, ?_⟩
  · rw [eq]
    exact held2
  · intro v lowV
    rw [entry]
    split
    · exact .inr ⟨f, rfl⟩
    · exact loading.image v lowV
  · intro v lowV
    rw [entry]
    split
    · rename_i is
      simp [Pte.fresh, is]
    · rename_i not
      rw [loading.pages v lowV]
      simp [not]
  · intro v lowV present o inside below
    rw [entry] at present ⊢
    split
    · rename_i is
      have nothing : b (v * PGSIZE + o) = none := by
        by_contra some_
        obtain ⟨_, page⟩ := loading.bytes _ some_
        apply missing
        rw [← is]
        convert page using 1
        simp only [PGSIZE] at *
        omega
      rw [nothing]
      show c'.km.mem f o = 0
      rw [zeros]
    · rename_i not
      rw [if_neg not] at present
      exact old v lowV present o inside below
  · intro va some_
    obtain ⟨lowVa, page⟩ := loading.bytes va some_
    exact ⟨lowVa, .inl page⟩

/-- **`allocuvm` on the image** adds the pages between the sizes. -/
theorem alloc (call : allocuvm .img oldsz newsz c = .ok (r, c')) (success : r ≠ 0) :
    Loading D R (fun v => P v ∨ PGROUNDUP oldsz ≤ v * PGSIZE ∧ v * PGSIZE < newsz) b c' := by
  -- the pages `done` of the range have been mapped
  obtain ⟨_, _, loaded, all⟩ := allocuvm_rule (I := fun ok as c1 => ok = true → ∃ done,
      pageRange (PGROUNDUP oldsz) newsz = done ++ as ∧ Loading D R (fun v => P v ∨ ∃ a ∈ done, v = a / PGSIZE) b c1)
    (fun _ => ⟨[], rfl, loading.congr fun v _ => by simp⟩)
    (fun {a as _ _ p km ok c1 c2} aligned low high top inv room page ok => by
      obtain ⟨done, parts, loading1⟩ := inv rfl
      subst ok
      refine ⟨done ++ [a], by simp [parts], (loading1.page aligned low high top room page).congr fun v _ => ?_⟩
      simp [or_and_right, exists_or, or_assoc]) call
  obtain ⟨ok, rfl⟩ := all success
  obtain ⟨done, parts, loading'⟩ := loaded ok
  rw [append_nil] at parts
  refine loading'.congr fun v _ => or_congr_right ?_
  rw [← parts]
  constructor
  · rintro ⟨a, mem, rfl⟩
    obtain ⟨aligned, low, high⟩ := pageRange_aligned newsz (PGROUNDUP_mod oldsz) a mem
    simp only [PGSIZE] at *
    omega
  · rintro ⟨low, high⟩
    refine ⟨v * PGSIZE, mem_pageRange.2 ⟨v - PGROUNDUP oldsz / PGSIZE, ?_, high⟩, ?_⟩ <;>
      simp only [PGROUNDUP, PGSIZE] at * <;> omega

/-- The size of the image bounds the number of its pages, and there are only so many frames. -/
theorem small {sz : Nat}
    (full : ∀ v, 1 ≤ v → v * PGSIZE < sz → P v) : sz ≤ 57346 * PGSIZE := by
  by_contra large
  have user : ∀ v ∈ List.range' 1 57345, v < NUPAGES ∧ (c.img.pte v).p = true := by
    intro v mem
    obtain ⟨low, high⟩ := mem_range'_1.1 mem
    have bound : v < NUPAGES := by
      simp only [NUPAGES]
      omega
    refine ⟨bound, (loading.pages v bound).2 (full v low ?_)⟩
    simp only [PGSIZE] at *
    omega
  have distinct : ((List.range' 1 57345).map fun v => (c.img.pte v).addr).Nodup := by
    refine Nodup.map_on ?_ nodup_range'
    intro v memV w memW same
    by_contra ne
    exact loading.held.apart loading.growing.wf (user w memW).1 (user v memV).1 ne (user w memW).2 (user v memV).2 same
  have few := length_le_phystop distinct ?_
  · simp at few
  · intro f mem
    obtain ⟨v, memV, rfl⟩ := mem_map.1 mem
    obtain ⟨low, present⟩ := user v memV
    have used := loading.growing.wf.refers low present
    have inv := loading.held.acct.inv
    refine (inv.range _ ?_).2
    by_contra outside
    have unused := loading.held.acct.counted.unused (inv.outside _ outside)
    simp only [Ctx.use, Ctx.table, total_add] at unused used
    omega

end

end Loading

/-! ## Loading a segment -/

theorem pageRange_nil {lo hi : Nat} (empty : hi ≤ lo) : pageRange lo hi = [] := by
  have none_ : (hi - lo + PGSIZE - 1) / PGSIZE = 0 := by
    simp only [PGSIZE]
    omega
  simp [pageRange, none_]

theorem pageRange_cons {lo hi : Nat} (more : lo < hi) : pageRange lo hi = lo :: pageRange (lo + PGSIZE) hi := by
  have count : (hi - lo + PGSIZE - 1) / PGSIZE = (hi - (lo + PGSIZE) + PGSIZE - 1) / PGSIZE + 1 := by
    simp only [PGSIZE]
    omega
  simp only [pageRange, count, range_succ_eq_map, map_cons, map_map]
  refine congrArg₂ _ (by simp) (map_congr_left fun k _ => ?_)
  simp only [Function.comp, PGSIZE]
  omega

/-- A `readi` that `loaduvm` makes: `n` bytes of the file at `off` go to the start of page `frame`, for the page of the
virtual address `va`. -/
structure Load where
  va : Nat
  frame : Nat
  off : Nat
  n : Nat

/-- The page that a `readi` stores to is the one that user code sees at the address. -/
def Load.Inside (d : PgDir) (l : Load) : Prop :=
  0 < l.n → ∃ e, walkpgdir l.va d = some e ∧ e.p = true ∧ e.u = true ∧ e.addr = l.frame

def Load.store (ip : Inode) (km : Kmem) (l : Load) : Kmem :=
  km.copyPage l.frame (ip.fill l.off l.n (km.mem l.frame))

/-- What the loop of `loaduvm` stores, in order. -/
def loads (d : PgDir) (addr : Nat) (ip : Inode) (offset sz : Nat) : List Nat → List Load
  | [] => []
  | i :: is =>
    match walkpgdir (add32 addr i) d with
    | none => []
    | some e =>
      match readi ip (add32 offset i) (min (sz - i) PGSIZE) with
      | none => []
      | some r =>
        ⟨add32 addr i, e.addr, add32 offset i, r⟩ ::
          if r = min (sz - i) PGSIZE then loads d addr ip offset sz is else []

section Load

variable {d : PgDir} {km km' : Kmem} {addr offset sz : Nat} {ip : Inode}

theorem readi_some {off n r : Nat} (read : readi ip off n = some r) : off ≤ ip.size ∧ off + n < 2 ^ 32 ∧ r = min n (ip.size - off) := by
  unfold readi at read
  split at read
  · cases read
  · rename_i fits
    cases read
    refine ⟨?_, ?_, rfl⟩ <;> omega

end Load

namespace Loading

variable {D : Nat → Prop} {R : Use Nat} {P : Nat → Prop} {b b' : Nat → Option UInt8} {c : Ctx} {km km' : Kmem} {ip : Inode}
  {addr offset sz : Nat}

/-- Writing one page of the image. -/
theorem store {v : Nat} {bytes : Bytes} (loading : Loading D R P b c) (low : v < NUPAGES) (page : P v)
    (here : ∀ o, o < PGSIZE → bytes o = (b' (v * PGSIZE + o)).getD 0)
    (same : ∀ w o, w ≠ v → o < PGSIZE → b' (w * PGSIZE + o) = b (w * PGSIZE + o)) :
    Loading D R P b' { c with km := c.km.copyPage (c.img.pte v).addr bytes } where
  held := loading.held.of_mem _
  growing := ⟨loading.growing.good, loading.growing.wf⟩
  image := loading.image
  pages := loading.pages
  shown := loading.shown.write loading.held loading.growing.wf low ((loading.pages v low).2 page)
    (fun o inside _ => here o inside) same
  bytes va some_ := by
    have split : va / PGSIZE * PGSIZE + va % PGSIZE = va := Nat.div_add_mod' va PGSIZE
    by_cases is : va / PGSIZE = v
    · refine ⟨?_, is ▸ page⟩
      simp only [NUPAGES, PGSIZE, KERNBASE] at *
      omega
    · apply loading.bytes
      rw [← split, ← same _ _ is (Nat.mod_lt _ (by decide)), split]
      exact some_

/-- The loop of `loaduvm` from the offset `i` on. -/
theorem load_loop (aligned : addr % PGSIZE = 0) (fits : addr + sz ≤ KERNBASE)
    (inside : ∀ x, x < sz → P ((addr + x) / PGSIZE)) (n : Nat) :
    ∀ (i : Nat) (km : Kmem), i % PGSIZE = 0 → sz ≤ i + n * PGSIZE → (i < sz → offset + i < 2 ^ 32) →
      Loading D R P (ip.overlay addr offset (min i sz) b) { c with km := km } →
      loadLoop c.img addr ip offset sz (pageRange i sz) km = .ok (true, km') →
      Loading D R P (ip.overlay addr offset sz b) { c with km := km' } := by
  induction n with
  | zero =>
    intro i km _ done _ loading call
    have empty : sz ≤ i := by omega
    rw [pageRange_nil empty] at call
    cases call
    rwa [Nat.min_eq_right empty] at loading
  | succ n ih =>
    intro i km alignedI enough small loading call
    by_cases done : sz ≤ i
    · rw [pageRange_nil done] at call
      cases call
      rwa [Nat.min_eq_right done] at loading
    · rw [pageRange_cons (by omega), loadLoop] at call
      have plain : add32 addr i = addr + i := by
        simp only [add32, KERNBASE] at *
        omega
      have plainOff : add32 offset i = offset + i := Nat.mod_eq_of_lt (small (by omega))
      rw [plain, plainOff] at call
      cases walk : walkpgdir (addr + i) c.img with
      | none =>
        rw [walk] at call
        cases call
      | some e =>
        obtain ⟨_, rfl⟩ := walkpgdir_some.1 walk
        rw [walk] at call
        cases read : readi ip (offset + i) (min (sz - i) PGSIZE) with
        | none =>
          simp only [read] at call
          cases call
        | some r =>
          simp only [read] at call
          by_cases whole : r = min (sz - i) PGSIZE
          · rw [if_pos whole] at call
            obtain ⟨_, noWrap, _⟩ := readi_some read
            refine ih (i + PGSIZE) _ ?_ ?_ ?_ ?_ call
            · simp only [PGSIZE] at *
              omega
            · rw [Nat.succ_mul] at enough
              omega
            · intro more
              have full : min (sz - i) PGSIZE = PGSIZE := Nat.min_eq_right (by omega)
              rw [full] at noWrap
              omega
            · have low := (user_page (show addr + i < KERNBASE by omega)).2
              refine loading.store low (inside i (by omega)) (fun o inPage => ?_) (fun w o ne inPage => ?_)
              · have start : (addr + i) / PGSIZE * PGSIZE = addr + i := by
                  simp only [PGSIZE] at *
                  omega
                have before := loading.shown _ low ((loading.pages _ low).2 (inside i (by omega))) o inPage (by
                  simp only [PGSIZE, KERNBASE] at *
                  omega)
                rw [start] at before ⊢
                rw [ip.overlay_page (by omega) inPage, Inode.fill, ← whole]
                split
                · rfl
                · exact before
              · refine ip.overlay_other (fun inChunk => ne ?_)
                simp only [PGSIZE] at *
                omega
          · rw [if_neg whole] at call
            cases call

/-- **`loaduvm` on the image**, when the segment lies in its pages. -/
theorem load (loading : Loading D R P b c) (fits : addr + sz ≤ KERNBASE) (small : offset < 2 ^ 32)
    (inside : ∀ x, x < sz → P ((addr + x) / PGSIZE)) (call : loaduvm c.img addr ip offset sz c.km = .ok (true, km)) :
    Loading D R P (ip.overlay addr offset sz b) { c with km := km } := by
  unfold loaduvm at call
  split at call
  · cases call
  · rename_i aligned
    have start : ip.overlay addr offset (min 0 sz) b = b := by
      funext va
      simp only [Inode.overlay, Nat.zero_min]
      rw [if_neg (by omega)]
    refine load_loop (c := c) (not_not.1 aligned) fits inside sz 0 c.km rfl ?_ (fun _ => small) ?_ call
    · simp only [PGSIZE]
      omega
    · rw [start]
      exact loading

end Loading

end Xv6
