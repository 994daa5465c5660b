import Xv6.Vm.FaultSound
import Xv6.Fs.SwapSlots
import Xv6.Proc.Kernel

/-!
# Eviction and the swap files (`vm.c`, `fs.c`)

`fifo_write` looks at the result of `vpwrite` for 0 only, which `filewrite` never returns
for a page. A page that the file refuses is freed like one that was stored. The check of
`vpread` and `vpwrite` lets the file number `MAX_VPFILES` pass: the slots 64 to 79, and
the end of four full files in the copy loop of `fork`, are read from behind the array.
-/

namespace Xv6

open Fallible Function List

/-! ## The victim -/

section Victim

variable {p p' : Proc} {km km' : Kmem} {l : Option Nat}

/-- `fifo_write` never returns a null pointer. -/
theorem fifoWrite_some (call : fifoWrite p km = .ok (l, p', km')) : ∃ last, l = some last := by
  obtain ⟨⟨last, mq⟩, taken, rest1⟩ := bind_ok.1 call
  obtain ⟨⟨j, t, km1⟩, slot, rest2⟩ := bind_ok.1 rest1
  obtain ⟨bytes, read, rest3⟩ := bind_ok.1 rest2
  obtain ⟨⟨r, files⟩, written, rest4⟩ := bind_ok.1 rest3
  have nonzero : r ≠ 0 := by
    obtain ⟨_, _, _, ⟨_, rfl, _⟩ | ⟨_, rfl, _⟩⟩ := vpwrite_slot written
    · decide
    · decide
  simp only [if_neg nonzero] at rest4
  split at rest4
  · cases rest4
  · split at rest4
    · cases rest4
    · obtain ⟨km2, freed, rest5⟩ := bind_ok.1 rest4
      cases rest5
      exact ⟨last, rfl⟩

/-- `fifo_write` returns when it finds a victim, a slot and the slot's file. -/
theorem fifoWrite_returns {last j : Nat} {mq : MemQueue} {t : SlotTable} {km1 : Kmem} {e : Pte} {ip : Inode}
    (taken : takeLast "Only 0 or 1 page in memory." "[Error] last null!" p.mq = .ok (last, mq))
    (slot : takeSlot p.vtab km = .ok (j, t, km1)) (found : walkpgdir (mq.entries last).vaddr p.pgdir = some e)
    (present : e.p = true) (bound : slotFile j < MAX_VPFILES) (isFile : p.vpfile (slotFile j) = some ip)
    (freed : kfree (P2V (e.addr * PGSIZE)) km1 = .ok km') :
    ∃ r files, vpwrite p.vpfile (km1.mem e.addr) (j * PGSIZE) PGSIZE = .ok (r, files) ∧
      fifoWrite p km = .ok (some last, { p with
        mq := mq
        vtab := t.set j (mq.entries last).vaddr
        vpfile := files
        pgdir := p.pgdir.set (mq.entries last).vaddr Pte.out }, km') := by
  have read : userPage (mq.entries last).vaddr p.pgdir km1 = .ok (km1.mem e.addr) := by
    simp only [userPage, found, present]
    rfl
  have wrote : ∃ x, vpwrite p.vpfile (km1.mem e.addr) (j * PGSIZE) PGSIZE = .ok x :=
    ⟨_, bind_ok.2 ⟨_, vpfileAt_eq.2 ⟨rfl, bound, isFile⟩, rfl⟩⟩
  obtain ⟨⟨r, files⟩, written⟩ := wrote
  have nonzero : r ≠ 0 := by
    obtain ⟨_, _, _, ⟨_, rfl, _⟩ | ⟨_, rfl, _⟩⟩ := vpwrite_slot written
    · decide
    · decide
  have nonempty : e ≠ {} := by
    intro empty
    rw [empty] at present
    cases present
  refine ⟨r, files, written, bind_ok.2 ⟨_, taken, bind_ok.2 ⟨_, slot, bind_ok.2 ⟨_, read, bind_ok.2 ⟨_, written, ?_⟩⟩⟩⟩⟩
  simp only [if_neg nonzero, found, if_neg nonempty]
  exact bind_ok.2 ⟨_, freed, rfl⟩

/-- **The victim's contents.** Whenever `fifo_write` returns it has freed the victim's frame
and marked its entry. The page is in its slot, and a failed write has had no effect, exactly
when the slot does not start behind the end of its file. -/
theorem fifo_write_saves (call : fifoWrite p km = .ok (l, p', km')) :
    ∃ last mq j t km1 e ip r files,
      takeLast "Only 0 or 1 page in memory." "[Error] last null!" p.mq = .ok (last, mq) ∧
      takeSlot p.vtab km = .ok (j, t, km1) ∧ walkpgdir (mq.entries last).vaddr p.pgdir = some e ∧ e.p = true ∧
      p.vpfile (slotFile j) = some ip ∧ vpwrite p.vpfile (km1.mem e.addr) (j * PGSIZE) PGSIZE = .ok (r, files) ∧
      p'.pgdir = p.pgdir.set (mq.entries last).vaddr Pte.out ∧ kfree (P2V (e.addr * PGSIZE)) km1 = .ok km' ∧
      (Stored p'.vpfile j (km1.mem e.addr) ∧
          (r ≠ PGSIZE → p'.pgdir = p.pgdir ∧ km' = km1 ∧ p'.vtab.vaddr j = SLOT_USABLE) ↔
        slotOffset j ≤ ip.size) := by
  obtain ⟨last, rfl⟩ := fifoWrite_some call
  obtain ⟨mq, j, t, km1, e, r, files, taken, slot, found, present, written, nonzero, freed, rfl⟩ := fifoWrite_ok call
  obtain ⟨ip, isFile, _, outcome⟩ := vpwrite_slot written
  refine ⟨last, mq, j, t, km1, e, ip, r, files, taken, slot, found, present, isFile, written, rfl, freed, ?_⟩
  rcases outcome with ⟨inside, whole, stored⟩ | ⟨behind, refused, same⟩
  · exact iff_of_true ⟨stored, fun failed => absurd whole failed⟩ inside
  · apply iff_of_false
    · rintro ⟨⟨ip', isFile', size, _⟩, _⟩
      -- nothing was written, so the slot still starts behind the end of the file
      rw [same, isFile] at isFile'
      cases isFile'
      omega
    · omega

/-- A process with the pages 1 and 2 resident, whose first `used` slots are taken. -/
def twoResident (used size : Nat) : Proc where
  pgdir := {
    frame := 0x200
    pde := fun d => if d = 0 then some 0x201 else none
    pte := fun v => if v = 1 then Pte.fresh 0x300 else if v = 2 then Pte.fresh 0x301 else {} }
  mq := {
    pages := [0x202]
    entries := fun i =>
      if i = 0 then { vaddr := 0x1000, next := some 1 } else if i = 1 then { vaddr := 0x2000, prev := some 0 } else {}
    head := some 0
    tail := some 1
    num := 2 }
  vtab := { pages := [0x203], vaddr := fun j => if j < used then 0x5000 else SLOT_USABLE }
  vpfile := fun _ => some { size := size }

/-- Memory with one free page. -/
def onePageFree : Kmem where
  kend := 0
  kdata := 0
  freelist := [0x400]
  fpgn := 1
  pcSh := fun f => if f = 0x400 then 0 else 1
  mem := fun f _ => if f = 0x301 then 7 else 0

theorem twoResident_victim (used size : Nat) : walkpgdir 0x2000 (twoResident used size).pgdir = some (Pte.fresh 0x301) := by
  have table : PDX 0x2000 = 0 := by decide
  have page : 0x2000 / PGSIZE = 2 := by decide
  simp [walkpgdir, twoResident, table, page]

theorem twoResident_last (used size : Nat) : ∃ mq,
    takeLast "Only 0 or 1 page in memory." "[Error] last null!" (twoResident used size).mq = .ok (1, mq) ∧
      (mq.entries 1).vaddr = 0x2000 := ⟨_, rfl, rfl⟩

theorem onePageFree_kfree : ∃ km', kfree (P2V (0x301 * PGSIZE)) onePageFree = .ok km' ∧ 0x301 ∈ km'.freelist := by
  have page : V2P (P2V (0x301 * PGSIZE)) / PGSIZE = 0x301 := by decide
  have guard : ¬ (P2V (0x301 * PGSIZE) % PGSIZE ≠ 0 ∨ P2V (0x301 * PGSIZE) < onePageFree.kend + KERNBASE ∨
      PHYSTOP ≤ V2P (P2V (0x301 * PGSIZE))) := by decide
  refine ⟨(onePageFree.uncount 0x301).push 0x301, ?_, mem_cons_self⟩
  simp only [kfree, page, if_neg guard]
  exact if_pos rfl

/-- The eviction of page 2 to slot `j`, the first that is not taken. -/
theorem twoResident_evicts {j : Nat} (usable : (twoResident j 0).vtab.find SLOT_USABLE = some j)
    (bound : slotFile j < MAX_VPFILES) :
    ∃ p' km' r, fifoWrite (twoResident j 0) onePageFree = .ok (some 1, p', km') ∧ p'.pgdir.pte 2 = Pte.out ∧
      0x301 ∈ km'.freelist ∧ p'.vtab.vaddr j = 0x2000 ∧
      vpwrite (twoResident j 0).vpfile (onePageFree.mem 0x301) (j * PGSIZE) PGSIZE = .ok (r, p'.vpfile) := by
  obtain ⟨mq, taken, vaddr⟩ := twoResident_last j 0
  have slot : takeSlot (twoResident j 0).vtab onePageFree = .ok (j, (twoResident j 0).vtab, onePageFree) := by
    simp only [takeSlot, usable]
  obtain ⟨km', freed, free⟩ := onePageFree_kfree
  obtain ⟨r, files, written, call⟩ := fifoWrite_returns (e := Pte.fresh 0x301) taken slot
    (by rw [vaddr]; exact twoResident_victim j 0) rfl bound rfl freed
  have page : 0x2000 / PGSIZE = 2 := by decide
  refine ⟨_, km', r, call, ?_, free, ?_, written⟩
  · simp only [PgDir.set, vaddr, page, update_self]
  · simp only [SlotTable.set, vaddr, update_self]

/-- The first page that a process evicts. -/
theorem fifo_write_saves_first : ∃ p' km' last mq e,
    fifoWrite (twoResident 0 0) onePageFree = .ok (some 1, p', km') ∧
    takeLast "Only 0 or 1 page in memory." "[Error] last null!" (twoResident 0 0).mq = .ok (last, mq) ∧
    walkpgdir (mq.entries last).vaddr (twoResident 0 0).pgdir = some e ∧
    Stored p'.vpfile 0 (onePageFree.mem e.addr) := by
  have usable : (twoResident 0 0).vtab.find SLOT_USABLE = some 0 := rfl
  obtain ⟨p', km', _, call, _⟩ := twoResident_evicts usable (by decide)
  obtain ⟨last, mq, j, t, km1, e, ip, r, files, taken, slot, found, _, isFile, _, _, _, saves⟩ := fifo_write_saves call
  simp only [takeSlot, usable] at slot
  cases slot
  exact ⟨p', km', last, mq, e, call, taken, found, (saves.2 (Nat.zero_le _)).1⟩

/-- The slot 0 is taken and the file is empty: the page for slot 1 is refused. Its frame is
on the free list all the same, and its bytes are not in the file. -/
theorem fifo_write_loses : ∃ p' km', fifoWrite (twoResident 1 0) onePageFree = .ok (some 1, p', km') ∧
    p'.pgdir.pte 2 = Pte.out ∧ 0x301 ∈ km'.freelist ∧ p'.vtab.vaddr 1 = 0x2000 ∧
    ¬ Stored p'.vpfile 1 (onePageFree.mem 0x301) := by
  have usable : (twoResident 1 0).vtab.find SLOT_USABLE = some 1 := rfl
  obtain ⟨p', km', r, call, out, free, record, written⟩ := twoResident_evicts usable (by decide)
  refine ⟨p', km', call, out, free, record, ?_⟩
  rintro ⟨ip, isFile, size, -⟩
  obtain ⟨ip', isFile', _, ⟨inside, _⟩ | ⟨_, _, same⟩⟩ := vpwrite_slot written
  · cases isFile'
    exact absurd inside (by decide)
  · rw [same] at isFile
    cases isFile
    exact absurd size (by decide)

end Victim

/-! ## File numbers -/

section Bounds

variable {p : Proc} {km : Kmem} {files : VpFiles} {offset : Nat} {buf : Bytes}

/-- The array `vpfile` is indexed past its end for one file number. -/
theorem vpfileAt_outOfBounds : vpfileAt files offset = .error .outOfBounds ↔ offset / VPFILE_SIZE = MAX_VPFILES := by
  unfold vpfileAt
  simp only
  split
  · simp only [Except.error.injEq, reduceCtorEq, false_iff]
    omega
  · split
    · rename_i here
      exact iff_of_true rfl here
    · rename_i notHere
      split
      · simp only [Except.error.injEq, reduceCtorEq, false_iff]
        exact notHere
      · simp only [reduceCtorEq, false_iff]
        exact notHere

theorem vpread_outOfBounds {size : Nat} :
    vpread files buf offset size = .error .outOfBounds ↔ offset / VPFILE_SIZE = MAX_VPFILES := by
  rw [vpread, bind_error, vpfileAt_outOfBounds]
  constructor
  · rintro (here | ⟨⟨k, ip⟩, _, rest⟩)
    · exact here
    · simp only at rest
      split at rest
      · cases rest
      · cases rest
  · exact .inl

theorem vpwrite_outOfBounds {size : Nat} :
    vpwrite files buf offset size = .error .outOfBounds ↔ offset / VPFILE_SIZE = MAX_VPFILES := by
  rw [vpwrite, bind_error, vpfileAt_outOfBounds]
  constructor
  · rintro (here | ⟨_, _, rest⟩)
    · exact here
    · cases rest
  · exact .inl

/-- The stop is not an index past the end of an array. -/
def Stop.InBounds (s : Stop) : Prop := s ≠ .outOfBounds

theorem panic_inBounds (msg : String) : (Stop.panic msg).InBounds := by rintro ⟨⟩

theorem takeLast_inBounds (few null : String) (q : MemQueue) : StopsIn Stop.InBounds (takeLast few null q) := by
  unfold takeLast
  split
  · exact .error (panic_inBounds _)
  · split
    · exact .error (panic_inBounds _)
    · split
      · exact .error (panic_inBounds _)
      · split
        · exact .error (panic_inBounds _)
        · exact .ok _

theorem takeSlot_inBounds (t : SlotTable) (km : Kmem) : StopsIn Stop.InBounds (takeSlot t km) := by
  unfold takeSlot
  split
  · exact .ok _
  · split
    · exact .error (by rintro ⟨⟩)
    · split
      · exact .ok _
      · exact .error (panic_inBounds _)

theorem userPage_inBounds (va : Nat) (d : PgDir) (km : Kmem) : StopsIn Stop.InBounds (userPage va d km) := by
  unfold userPage
  split
  · exact .error (by rintro ⟨⟩)
  · split
    · exact .ok _
    · exact .error (by rintro ⟨⟩)

theorem kfree_inBounds (v : Nat) (km : Kmem) : StopsIn Stop.InBounds (kfree v km) := by
  unfold kfree
  split
  · exact .error (panic_inBounds _)
  · simp only
    split
    · exact .ok _
    · exact .ok _

/-- Slot `j` is the one that `fifo_write` writes the victim to. -/
def WritesSlot (p : Proc) (km : Kmem) (j : Nat) : Prop :=
  ∃ last mq t km1 bytes, takeLast "Only 0 or 1 page in memory." "[Error] last null!" p.mq = .ok (last, mq) ∧
    takeSlot p.vtab km = .ok (j, t, km1) ∧ userPage (mq.entries last).vaddr p.pgdir km1 = .ok bytes

theorem fifoWrite_outOfBounds : fifoWrite p km = .error .outOfBounds ↔ ∃ j, WritesSlot p km j ∧ slotFile j = MAX_VPFILES := by
  constructor
  · intro stops
    rcases bind_error.1 stops with stop | ⟨⟨last, mq⟩, taken, rest1⟩
    · exact absurd rfl (takeLast_inBounds _ _ _ _ stop)
    rcases bind_error.1 rest1 with stop | ⟨⟨j, t, km1⟩, slot, rest2⟩
    · exact absurd rfl (takeSlot_inBounds _ _ _ stop)
    rcases bind_error.1 rest2 with stop | ⟨bytes, read, rest3⟩
    · exact absurd rfl (userPage_inBounds _ _ _ _ stop)
    refine ⟨j, ⟨last, mq, t, km1, bytes, taken, slot, read⟩, ?_⟩
    rcases bind_error.1 rest3 with stop | ⟨⟨r, files⟩, written, rest4⟩
    · exact vpwrite_outOfBounds.1 stop
    simp only at rest4
    split at rest4
    · cases rest4
    · split at rest4
      · cases rest4
      · split at rest4
        · cases rest4
        · rcases bind_error.1 rest4 with stop | ⟨_, _, rest5⟩
          · exact absurd rfl (kfree_inBounds _ _ _ stop)
          · cases rest5
  · rintro ⟨j, ⟨last, mq, t, km1, bytes, taken, slot, read⟩, past⟩
    exact bind_error.2 (.inr ⟨_, taken, bind_error.2 (.inr ⟨_, slot, bind_error.2 (.inr ⟨_, read,
      bind_error.2 (.inl (vpwrite_outOfBounds.2 past))⟩)⟩)⟩)

/-- Slot `j` is the one that `fifo_replace` exchanges with the victim. -/
def SwapsSlot (addr : Nat) (p : Proc) (j : Nat) : Prop :=
  ∃ last mq e e', takeLast "[ERROR] Only 0 or 1 pages in memory." "[ERROR] last null!" p.mq = .ok (last, mq) ∧
    walkpgdir (mq.entries last).vaddr p.pgdir = some e ∧ e ≠ {} ∧ p.vtab.find addr = some j ∧
    walkpgdir addr p.pgdir = some e' ∧ e' ≠ {}

theorem quarter_file {j q : Nat} (inside : q < 4) : (j * PGSIZE + REPLACE_BUF_SIZE * q) / VPFILE_SIZE = slotFile j :=
  (slot_byte (by simp only [REPLACE_BUF_SIZE, PGSIZE]; omega)).1

theorem swapLoop_outOfBounds {f j : Nat} (qs : List Nat) : ∀ (files : VpFiles) (km : Kmem), (∀ q ∈ qs, q < 4) →
    swapLoop f (j * PGSIZE) qs files km = .error .outOfBounds → slotFile j = MAX_VPFILES := by
  induction qs with
  | nil => intro files km _ stops; cases stops
  | cons q qs ih =>
    intro files km quarters stops
    have file := quarter_file (j := j) (quarters q mem_cons_self)
    rcases bind_error.1 stops with stop | ⟨_, _, rest⟩
    · rw [← file]
      exact vpread_outOfBounds.1 stop
    rcases bind_error.1 rest with stop | ⟨_, _, rest⟩
    · rw [← file]
      exact vpwrite_outOfBounds.1 stop
    exact ih _ _ (fun q mem => quarters q (mem_cons_of_mem _ mem)) rest

theorem fifoReplace_outOfBounds {addr : Nat} :
    fifoReplace addr p km = .error .outOfBounds ↔ ∃ j, SwapsSlot addr p j ∧ slotFile j = MAX_VPFILES := by
  constructor
  · intro stops
    rcases bind_error.1 stops with stop | ⟨⟨last, mq⟩, taken, rest⟩
    · exact absurd rfl (takeLast_inBounds _ _ _ _ stop)
    simp only at rest
    split at rest
    · cases rest
    · rename_i e victim
      split at rest
      · cases rest
      · rename_i nonempty
        split at rest
        · cases rest
        · rename_i j slot
          split at rest
          · cases rest
          · rename_i e' found
            split at rest
            · cases rest
            · rename_i nonempty'
              refine ⟨j, ⟨last, mq, e, e', taken, victim, nonempty, slot, found, nonempty'⟩, ?_⟩
              rcases bind_error.1 rest with stop | ⟨_, _, rest⟩
              · exact swapLoop_outOfBounds _ _ _ (fun q mem => mem_range.1 mem) stop
              · cases rest
  · rintro ⟨j, ⟨last, mq, e, e', taken, victim, nonempty, slot, found, nonempty'⟩, past⟩
    refine bind_error.2 (.inr ⟨_, taken, ?_⟩)
    simp only [victim, slot, found, if_neg nonempty, if_neg nonempty']
    -- the first quarter is read already from behind the array
    have file : (j * PGSIZE + REPLACE_BUF_SIZE * 0) / VPFILE_SIZE = MAX_VPFILES :=
      (quarter_file (by decide)).trans past
    exact bind_error.2 (.inl (bind_error.2 (.inl (vpread_outOfBounds.2 file))))

/-! ### The copy loop of `fork` -/

/-- `vpread` of half a page: where the file ends decides how many bytes. -/
theorem vpread_half {buf' : Bytes} {r : Int} (call : vpread files buf offset (PGSIZE / 2) = .ok (r, buf')) :
    ∃ ip, files (offset / VPFILE_SIZE) = some ip ∧ offset / VPFILE_SIZE < MAX_VPFILES ∧
      (ip.size < offset % VPFILE_SIZE ∧ r = -1 ∨
        offset % VPFILE_SIZE ≤ ip.size ∧ r = min (PGSIZE / 2) (ip.size - offset % VPFILE_SIZE)) := by
  obtain ⟨⟨k, ip⟩, found, rest⟩ := bind_ok.1 call
  obtain ⟨rfl, bound, isFile⟩ := vpfileAt_eq.1 found
  refine ⟨ip, isFile, bound, ?_⟩
  have small : offset % VPFILE_SIZE + PGSIZE / 2 < 2 ^ 32 := by
    simp only [VPFILE_SIZE, PGSIZE]
    omega
  simp only [readi] at rest
  split at rest
  · rename_i none
    cases rest
    split at none
    · exact .inl ⟨by omega, rfl⟩
    · cases none
  · rename_i n some_
    cases rest
    split at some_
    · cases some_
    · cases some_
      exact .inr ⟨by omega, rfl⟩

/-- File `k` holds all the bytes that its slots can hold. -/
def FullFile (files : VpFiles) (k : Nat) : Prop := ∃ ip, files k = some ip ∧ VPFILE_SIZE ≤ ip.size

/-- The loop gets behind the last file only over full files. -/
theorem copyVpfiles_full {src : VpFiles} (fuel : Nat) : ∀ (offset : Nat) (buf : Bytes) (dst : VpFiles),
    copyVpfiles src fuel offset buf dst = .error .outOfBounds →
    ∀ k, offset / VPFILE_SIZE ≤ k → k < MAX_VPFILES → FullFile src k := by
  induction fuel with
  | zero => intro offset buf dst stops; cases stops
  | succ fuel ih =>
    intro offset buf dst stops k low high
    rcases bind_error.1 stops with stop | ⟨⟨r, buf'⟩, read, rest⟩
    · have past := vpread_outOfBounds.1 stop
      omega
    obtain ⟨ip, isFile, bound, size⟩ := vpread_half read
    simp only at rest
    split at rest
    · cases rest
    · rename_i nonzero
      split at rest
      · cases rest
      · rename_i nonneg
        rcases bind_error.1 rest with stop | ⟨⟨r', dst'⟩, _, rest⟩
        · have past := vpwrite_outOfBounds.1 stop
          omega
        simp only at rest
        split at rest
        · cases rest
        · have next := ih _ _ _ rest k
          have taken : r.toNat ≤ PGSIZE / 2 ∧ offset % VPFILE_SIZE + r.toNat ≤ ip.size := by omega
          -- the next piece is in the same file, or this file ends at its last slot or later
          by_cases same : (offset + r.toNat) / VPFILE_SIZE = offset / VPFILE_SIZE
          · exact next (by omega) high
          · by_cases here : k = offset / VPFILE_SIZE
            · refine ⟨ip, here ▸ isFile, ?_⟩
              simp only [VPFILE_SIZE] at *
              omega
            · refine next ?_ high
              simp only [VPFILE_SIZE, PGSIZE] at *
              omega

/-- One piece is copied. -/
theorem copyVpfiles_step {src dst dst' : VpFiles} {fuel n : Nat} {buf' : Bytes} (pos : 0 < n)
    (read : vpread src buf offset (PGSIZE / 2) = .ok ((n : Int), buf'))
    (write : vpwrite dst buf' offset n = .ok ((n : Int), dst')) :
    copyVpfiles src (fuel + 1) offset buf dst = copyVpfiles src fuel (offset + n) buf' dst' := by
  have nonzero : ¬ (n : Int) = 0 := by omega
  have nonneg : ¬ (n : Int) < 0 := by omega
  have stored : ¬ (n : Int) = -1 := by omega
  rw [copyVpfiles, read, ok_bind]
  simp only [if_neg nonzero, if_neg nonneg, Int.toNat_natCast]
  rw [write, ok_bind]
  simp only [if_neg stored]

/-- Over full files the loop does get behind the last one: every piece is copied, since the
copies grow from their start. -/
theorem copyVpfiles_past {src : VpFiles} (full : ∀ k < MAX_VPFILES, FullFile src k) (fuel : Nat) :
    ∀ (m : Nat) (buf : Bytes) (dst : VpFiles), m ≤ 128 → 128 - m < fuel → (∀ k < MAX_VPFILES, dst k ≠ none) →
      (∀ ip, dst (m * 2048 / VPFILE_SIZE) = some ip → m * 2048 % VPFILE_SIZE ≤ ip.size) →
      copyVpfiles src fuel (m * 2048) buf dst = .error .outOfBounds := by
  induction fuel with
  | zero => intro m buf dst _ enough; omega
  | succ fuel ih =>
    intro m buf dst below enough present grown
    by_cases last : m = 128
    · subst last
      exact bind_error.2 (.inl (vpread_outOfBounds.2 (by decide)))
    have bound : m * 2048 / VPFILE_SIZE < MAX_VPFILES := by
      simp only [VPFILE_SIZE, MAX_VPFILES]
      omega
    obtain ⟨ip, isFile, size⟩ := full _ bound
    obtain ⟨ip', isFile'⟩ := Option.ne_none_iff_exists'.1 (present _ bound)
    have offset : m * 2048 % VPFILE_SIZE + 2048 ≤ VPFILE_SIZE := by
      simp only [VPFILE_SIZE]
      omega
    have got : readi ip (m * 2048 % VPFILE_SIZE) (PGSIZE / 2) = some 2048 := by
      have small : m * 2048 % VPFILE_SIZE + PGSIZE / 2 < 2 ^ 32 := by
        simp only [VPFILE_SIZE, PGSIZE]
        omega
      have half : PGSIZE / 2 = 2048 := by decide
      rw [readi, if_neg (by omega), half, Nat.min_eq_left (by omega)]
    have read := vpread_some buf bound isFile got
    generalize ip.fill (m * 2048 % VPFILE_SIZE) 2048 buf = buf' at read
    have write := vpwrite_over buf' (n := 2048) bound isFile' (grown ip' isFile') (Nat.le_trans offset (by decide))
    have next : m * 2048 + 2048 = (m + 1) * 2048 := by omega
    rw [copyVpfiles_step (by decide) read write, next]
    apply ih (m + 1) _ _ (by omega) (by omega)
    · intro k low
      by_cases here : k = m * 2048 / VPFILE_SIZE
      · rw [here, update_self]
        exact Option.some_ne_none _
      · rw [update_of_ne here]
        exact present k low
    · intro ip'' isNext
      by_cases same : (m + 1) * 2048 / VPFILE_SIZE = m * 2048 / VPFILE_SIZE
      · rw [same, update_self] at isNext
        cases isNext
        simp only [Inode.over, VPFILE_SIZE] at *
        omega
      · have start : (m + 1) * 2048 % VPFILE_SIZE = 0 := by
          simp only [VPFILE_SIZE] at *
          omega
        rw [start]
        exact Nat.zero_le _

theorem forkFiles_outOfBounds {created : Nat → Inode} {parent : Proc} :
    forkFiles created parent files = .error .outOfBounds ↔
      ¬ parent.exempt ∧ ∀ k < MAX_VPFILES, FullFile parent.vpfile k := by
  rw [forkFiles]
  split
  · rename_i exempt
    exact iff_of_false (by rintro ⟨⟩) fun both => both.1 exempt
  · rename_i copied
    constructor
    · intro stops
      exact ⟨copied, fun k high => copyVpfiles_full _ _ _ _ stops k (Nat.zero_le _) high⟩
    · rintro ⟨-, full⟩
      have loop := copyVpfiles_past full (MAX_VPFILES * VPFILE_SIZE + 1) 0 (fun _ => 0) (vpalloc created files)
        (by decide) (by decide) (fun k high => by simp [vpalloc, high]) (fun ip _ => Nat.zero_le _)
      rw [Nat.zero_mul] at loop
      exact loop

/-- The file numbers past the array are those of 16 slots. -/
theorem past_iff {P : Nat → Prop} : (¬ ∃ j, P j ∧ slotFile j = MAX_VPFILES) ↔ ∀ j, P j → j < 64 ∨ 80 ≤ j := by
  rw [not_exists]
  refine forall_congr' fun j => not_and.trans (imp_congr_right fun _ => ?_)
  simp only [slotFile, PGSIZE, VPFILE_SIZE, MAX_VPFILES]
  omega

/-- **Swap offsets.** Slots are disjoint, and each lies in one file. The array of files is
indexed inside its bounds (or the kernel panics) exactly when the slot is not one of 64 to
79, and in `fork` exactly when not all four files are full. -/
theorem swap_offsets (i j addr : Nat) (p : Proc) (km : Kmem) (created : Nat → Inode) (files : VpFiles) :
    ((∀ o < PGSIZE, (j * PGSIZE + o) / VPFILE_SIZE = slotFile j ∧ (j * PGSIZE + o) % VPFILE_SIZE = slotOffset j + o) ∧
      slotOffset j + PGSIZE ≤ VPFILE_SIZE ∧ VPFILE_SIZE ≤ MAXFILE_BYTES) ∧
    (i ≠ j → slotFile i ≠ slotFile j ∨ slotOffset i + PGSIZE ≤ slotOffset j ∨ slotOffset j + PGSIZE ≤ slotOffset i) ∧
    (fifoWrite p km ≠ .error .outOfBounds ↔ ∀ j, WritesSlot p km j → j < 64 ∨ 80 ≤ j) ∧
    (fifoReplace addr p km ≠ .error .outOfBounds ↔ ∀ j, SwapsSlot addr p j → j < 64 ∨ 80 ≤ j) ∧
    (forkFiles created p files ≠ .error .outOfBounds ↔
      p.exempt ∨ ∃ k < MAX_VPFILES, ∀ ip, p.vpfile k = some ip → ip.size < VPFILE_SIZE) := by
  refine ⟨⟨fun o inside => slot_byte inside, slotOffset_fits j, by decide⟩, ?_, ?_, ?_, ?_⟩
  · intro differ
    simp only [slotFile, slotOffset, PGSIZE, VPFILE_SIZE]
    omega
  · rw [Ne, fifoWrite_outOfBounds, past_iff]
  · rw [Ne, fifoReplace_outOfBounds, past_iff]
  · rw [Ne, forkFiles_outOfBounds, not_and_or, not_not]
    apply or_congr Iff.rfl
    simp only [FullFile, not_forall, not_exists, not_and, Nat.not_le, exists_prop]

/-- The 65th page that a process evicts: its first table page is full. -/
theorem swap_offset_past : fifoWrite (twoResident 64 65536) onePageFree = .error .outOfBounds := by
  rw [fifoWrite_outOfBounds]
  obtain ⟨mq, taken, vaddr⟩ := twoResident_last 64 65536
  have full : (twoResident 64 65536).vtab.find SLOT_USABLE = none := by decide
  have slot : ∃ t km1, takeSlot (twoResident 64 65536).vtab onePageFree = .ok (64, t, km1) := by
    unfold takeSlot
    rw [full]
    exact ⟨_, _, rfl⟩
  obtain ⟨t, km1, slot⟩ := slot
  refine ⟨64, ⟨1, mq, t, km1, km1.mem 0x301, taken, slot, ?_⟩, by decide⟩
  simp only [userPage, vaddr, twoResident_victim]
  rfl

end Bounds

end Xv6
