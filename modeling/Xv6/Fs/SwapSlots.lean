import Xv6.Fs.SwapFile

/-!
# Slots of the swap files

Slot `j` is the page of bytes at the offset `j * PGSIZE` of the swap files. Sixteen slots
lie in each file. `filewrite` stores a page in three transactions; it refuses the page
when the offset is behind the end of the file, and stores all of it otherwise.
-/

namespace Xv6

open Fallible Function

variable {ip : Inode} {files : VpFiles} {src : Bytes} {off n : Nat}

/-! ## Writing a file -/

/-- The file with the bytes from `lo` to `hi` taken from `src`, which starts at `off`. -/
def Inode.over (ip : Inode) (src : Bytes) (off lo hi : Nat) : Inode where
  size := max ip.size hi
  data := fun o => if lo ≤ o ∧ o < hi then src (o - off) else ip.data o

theorem Inode.over_over {a b c : Nat} (ab : a ≤ b) (bc : b ≤ c) :
    (ip.over src off a b).over src off b c = ip.over src off a c := by
  have size : max (max ip.size b) c = max ip.size c := by omega
  have data : ∀ o, (if b ≤ o ∧ o < c then src (o - off) else if a ≤ o ∧ o < b then src (o - off) else ip.data o) =
      if a ≤ o ∧ o < c then src (o - off) else ip.data o := by
    intro o
    by_cases upper : b ≤ o ∧ o < c
    · rw [if_pos upper, if_pos (by omega)]
    · rw [if_neg upper]
      by_cases lower : a ≤ o ∧ o < b
      · rw [if_pos lower, if_pos (by omega)]
      · rw [if_neg lower, if_neg (by omega)]
  simp only [Inode.over, size, data]

theorem Inode.over_empty {a : Nat} (inside : a ≤ ip.size) : ip.over src off a a = ip := by
  have data : ∀ o, (if a ≤ o ∧ o < a then src (o - off) else ip.data o) = ip.data o := by
    intro o
    rw [if_neg (by omega)]
  simp only [Inode.over, data, Nat.max_eq_left inside]

/-- A write that starts inside the file, or at its end, and ends inside the largest file. -/
theorem writei_over {i : Nat} (pos : 0 < n) (inside : off + i ≤ ip.size) (fits : off + i + n ≤ MAXFILE_BYTES) :
    writei ip (fun o => src (i + o)) (off + i) n = some (ip.over src off (off + i) (off + i + n)) := by
  have small : off + i + n < 2 ^ 32 := Nat.lt_of_le_of_lt fits (by decide)
  rw [writei, if_neg (by omega), if_neg (by omega)]
  have size : (if 0 < n ∧ ip.size < off + i + n then off + i + n else ip.size) = max ip.size (off + i + n) := by
    split
    · omega
    · omega
  have data : ∀ o, (if off + i ≤ o ∧ o < off + i + n then src (i + (o - (off + i))) else ip.data o) =
      if off + i ≤ o ∧ o < off + i + n then src (o - off) else ip.data o := by
    intro o
    split
    · rename_i inside
      rw [show i + (o - (off + i)) = o - off by omega]
    · rfl
  simp only [Inode.over, size, data]

/-- The loop of `filewrite` stores what is left to store, chunk by chunk. -/
theorem filewriteLoop_over (fits : off + n ≤ MAXFILE_BYTES) (fuel : Nat) :
    ∀ (i : Nat) (ip : Inode), i ≤ n → n - i < fuel → off + i ≤ ip.size →
      filewriteLoop src n fuel i (off + i) ip = ((n : Int), ip.over src off (off + i) (off + n)) := by
  induction fuel with
  | zero => exact fun i ip _ enough _ => absurd enough (Nat.not_lt_zero _)
  | succ fuel ih =>
    intro i ip below enough inside
    rw [filewriteLoop]
    by_cases more : i < n
    · have pos : 0 < min (n - i) WRITE_CHUNK := Nat.lt_min.2 ⟨by omega, by decide⟩
      have chunk : min (n - i) WRITE_CHUNK ≤ n - i := Nat.min_le_left _ _
      rw [if_pos more]
      simp only [writei_over pos inside (show off + i + min (n - i) WRITE_CHUNK ≤ MAXFILE_BYTES by omega)]
      generalize min (n - i) WRITE_CHUNK = m at pos chunk
      have next := ih (i + m) (ip.over src off (off + i) (off + i + m)) (by omega) (by omega)
        (by simp only [Inode.over]; omega)
      rw [Nat.add_assoc] at next ⊢
      rw [next, Inode.over_over (by omega) (by omega)]
    · have done : i = n := by omega
      rw [if_neg more, done, Inode.over_empty (by omega)]

/-- `filewrite` at an offset inside the file or at its end. -/
theorem filewrite_over (src : Bytes) (inside : off ≤ ip.size) (fits : off + n ≤ MAXFILE_BYTES) :
    filewrite ip src off n = ((n : Int), ip.over src off off (off + n)) :=
  filewriteLoop_over fits (n + 1) 0 ip (Nat.zero_le n) (by omega) inside

/-- `filewrite` behind the end of the file. -/
theorem filewrite_refused (pos : 0 < n) (behind : ip.size < off) : filewrite ip src off n = (-1, ip) := by
  rw [filewrite, filewriteLoop, if_pos pos]
  have none : writei ip (fun o => src (0 + o)) off (min (n - 0) WRITE_CHUNK) = none := by
    rw [writei, if_pos (.inl behind)]
  simp only [none]

/-! ## Slots -/

/-- The file that holds slot `j`. -/
def slotFile (j : Nat) : Nat := j * PGSIZE / VPFILE_SIZE

/-- Where slot `j` starts in its file. -/
def slotOffset (j : Nat) : Nat := j * PGSIZE % VPFILE_SIZE

theorem slotOffset_fits (j : Nat) : slotOffset j + PGSIZE ≤ VPFILE_SIZE := by
  simp only [slotOffset, PGSIZE, VPFILE_SIZE]
  omega

/-- Every byte of a slot is in the slot's file, at its place. -/
theorem slot_byte {j o : Nat} (inside : o < PGSIZE) :
    (j * PGSIZE + o) / VPFILE_SIZE = slotFile j ∧ (j * PGSIZE + o) % VPFILE_SIZE = slotOffset j + o := by
  simp only [slotFile, slotOffset, PGSIZE, VPFILE_SIZE] at *
  omega

/-- All bytes of a page are in the files, in slot `j`. -/
def Stored (files : VpFiles) (j : Nat) (bytes : Bytes) : Prop :=
  ∃ ip, files (slotFile j) = some ip ∧ slotOffset j + PGSIZE ≤ ip.size ∧
    ∀ o < PGSIZE, ip.data (slotOffset j + o) = bytes o

theorem vpfileAt_eq {offset k : Nat} :
    vpfileAt files offset = .ok (k, ip) ↔ k = offset / VPFILE_SIZE ∧ k < MAX_VPFILES ∧ files k = some ip := by
  unfold vpfileAt
  simp only
  split
  · simp only [reduceCtorEq, false_iff]
    omega
  · split
    · simp only [reduceCtorEq, false_iff]
      omega
    · split
      · rename_i missing
        simp only [reduceCtorEq, false_iff]
        rintro ⟨rfl, -, found⟩
        rw [missing] at found
        cases found
      · rename_i ip' found
        constructor
        · intro same
          cases same
          exact ⟨rfl, by omega, found⟩
        · rintro ⟨rfl, -, found'⟩
          rw [found] at found'
          cases found'
          rfl

/-- `vpread` from a file that has `r` of the bytes. -/
theorem vpread_some (buf : Bytes) {offset size r : Nat} (bound : offset / VPFILE_SIZE < MAX_VPFILES)
    (isFile : files (offset / VPFILE_SIZE) = some ip) (got : readi ip (offset % VPFILE_SIZE) size = some r) :
    vpread files buf offset size = .ok ((r : Int), ip.fill (offset % VPFILE_SIZE) r buf) := by
  refine bind_ok.2 ⟨_, vpfileAt_eq.2 ⟨rfl, bound, isFile⟩, ?_⟩
  simp only [got]
  rfl

/-- `vpwrite` inside a file or at its end. -/
theorem vpwrite_over (buf : Bytes) {offset : Nat} (bound : offset / VPFILE_SIZE < MAX_VPFILES)
    (isFile : files (offset / VPFILE_SIZE) = some ip) (inside : offset % VPFILE_SIZE ≤ ip.size)
    (fits : offset % VPFILE_SIZE + n ≤ MAXFILE_BYTES) :
    vpwrite files buf offset n = .ok ((n : Int), update files (offset / VPFILE_SIZE)
      (some (ip.over buf (offset % VPFILE_SIZE) (offset % VPFILE_SIZE) (offset % VPFILE_SIZE + n)))) := by
  refine bind_ok.2 ⟨_, vpfileAt_eq.2 ⟨rfl, bound, isFile⟩, ?_⟩
  simp only [filewrite_over buf inside fits]
  rfl

/-- A page is written to its slot, or refused. -/
theorem vpwrite_slot {files' : VpFiles} {bytes : Bytes} {j : Nat} {r : Int}
    (call : vpwrite files bytes (j * PGSIZE) PGSIZE = .ok (r, files')) :
    ∃ ip, files (slotFile j) = some ip ∧ slotFile j < MAX_VPFILES ∧
      (slotOffset j ≤ ip.size ∧ r = PGSIZE ∧ Stored files' j bytes ∨ ip.size < slotOffset j ∧ r = -1 ∧ files' = files) := by
  obtain ⟨⟨k, ip⟩, found, rest⟩ := bind_ok.1 call
  obtain ⟨rfl, bound, isFile⟩ := vpfileAt_eq.1 found
  refine ⟨ip, isFile, bound, ?_⟩
  have fits := slotOffset_fits j
  simp only [pure, Except.pure, Except.ok.injEq, Prod.mk.injEq] at rest
  obtain ⟨result, after⟩ := rest
  rcases Nat.lt_or_ge ip.size (slotOffset j) with behind | inside
  · right
    have refused : filewrite ip bytes (j * PGSIZE % VPFILE_SIZE) PGSIZE = (-1, ip) := filewrite_refused (by decide) behind
    rw [refused] at result after
    refine ⟨behind, result.symm, ?_⟩
    rw [← after]
    funext k
    by_cases here : k = j * PGSIZE / VPFILE_SIZE
    · rw [here, update_self]
      exact isFile.symm
    · rw [update_of_ne here]
  · left
    have stored := filewrite_over bytes (n := PGSIZE) inside (Nat.le_trans fits (by decide))
    simp only [slotOffset] at stored
    rw [stored] at result after
    refine ⟨inside, result.symm, _, by rw [← after]; exact update_self _ _ _, ?_, ?_⟩
    · simp only [Inode.over, slotOffset]
      omega
    · intro o below
      simp only [Inode.over, slotOffset]
      rw [if_pos (by omega), Nat.add_sub_cancel_left]

end Xv6
