import Xv6.Fs.Sound
import Xv6.Lib.CString

/-!
# Directories (`fs.c`)

A directory is a file of 16-byte entries, an inode number and a name of at most `DIRSIZ`
bytes; inode number 0 marks an entry that is not used. `dirlookup` and `dirlink` go
through the entries with `readi`. On a sound image they do what `lookup` and
`freeEntry` say about the contents of the file.
-/

namespace Xv6.Fs

open Fallible Words Tables CString BlockMap Function

def DIRSIZ : Nat := 14

/-- `sizeof(struct dirent)`. -/
def DIRENT_SIZE : Nat := 16

/-- `de.name`. -/
def direntName (de : Bytes) : Bytes := fun j => de (2 + j)

/-- `namecmp(s, t)`. -/
def namecmp (s t : Bytes) : Int := strncmp s t DIRSIZ

/-- The loop over the entries of a directory that `dirlookup` and `dirlink` share: it ends
with `true` at the first entry that satisfies `stop`. -/
def dirscan (devsw : Devsw) (msg : String) (stop : Bytes → Bool) : Nat → Dev → Inode → Bytes → Nat →
    Res (Bool × Nat × Bytes × Inode × Dev)
  | 0, _, _, _, _ => .error .diverges
  | fuel + 1, dv, dp, de, off =>
    if off < dp.size then do
      let (r, de, dp, dv) ← readi devsw dv dp de off DIRENT_SIZE
      if r ≠ DIRENT_SIZE then .error (.panic msg)
      else if stop de then pure (true, off, de, dp, dv)
      else dirscan devsw msg stop fuel dv dp de (off + DIRENT_SIZE)
    else pure (false, off, de, dp, dv)

/-- `dirlookup(dp, name, &off)`: the cache entry that `iget` returns, and `off`. -/
def dirlookup (devsw : Devsw) (fs : FileSys) (k : Nat) (name : Bytes) : Res (Option (Nat × Nat) × FileSys) :=
  let dp := fs.icache k
  if dp.type ≠ T_DIR then .error (.panic "dirlookup not DIR")
  else do
    let (found, off, de, dp, dv) ← dirscan devsw "dirlookup read"
      (fun de => getHalf de 0 != 0 && namecmp name (direntName de) == 0) (dp.size / DIRENT_SIZE + 2) fs.dv dp (fun _ => 0) 0
    let fs := { dv := dv, icache := Function.update fs.icache k dp }
    if found then do
      let (m, fs) ← iget fs (getHalf de 0)
      pure (some (m, off), fs)
    else pure (none, fs)

/-- The entry `dirlink` writes: `strncpy(de.name, name, DIRSIZ); de.inum = inum`. -/
def setDirent (de name : Bytes) (inum : Nat) : Bytes :=
  putHalf (blit de 2 (strncpy (direntName de) name DIRSIZ) DIRSIZ) 0 inum

/-- `dirlink(dp, name, inum)`. -/
def dirlink (devsw : Devsw) (fs : FileSys) (k : Nat) (name : Bytes) (inum : Nat) : Res (Int × FileSys) := do
  let (r, fs) ← dirlookup devsw fs k name
  match r with
  | some (m, _) =>
    let fs ← iput fs m
    pure (-1, fs)
  | none =>
    let dp := fs.icache k
    let (_, off, de, dp, dv) ← dirscan devsw "dirlink read" (fun de => getHalf de 0 == 0) (dp.size / DIRENT_SIZE + 2)
      fs.dv dp (fun _ => 0) 0
    let (r, dp, dv) ← writei devsw dv dp (setDirent de name inum) off DIRENT_SIZE
    if r ≠ DIRENT_SIZE then .error (.panic "dirlink")
    else pure (0, { dv := dv, icache := Function.update fs.icache k dp })

/-- The write of `kunlink` that removes the entry at `off`. -/
def zeroDirent (devsw : Devsw) (fs : FileSys) (k off : Nat) : Res FileSys := do
  let (r, dp, dv) ← writei devsw fs.dv (fs.icache k) (fun _ => 0) off DIRENT_SIZE
  if r ≠ DIRENT_SIZE then .error (.panic "unlink: writei")
  else pure { dv := dv, icache := Function.update fs.icache k dp }

/-! ## The entries of a file -/

/-- The number of entries. -/
def entries (f : Xv6.Inode) : Nat := f.size / DIRENT_SIZE

/-- The bytes of entry `e`. -/
def dirent (f : Xv6.Inode) (e : Nat) : Bytes := fun o => f.data (DIRENT_SIZE * e + o)

def entryInum (f : Xv6.Inode) (e : Nat) : Nat := getHalf (dirent f e) 0

def entryName (f : Xv6.Inode) (e : Nat) : List UInt8 := text (direntName (dirent f e)) DIRSIZ

/-- The first used entry with the name. -/
def lookup (f : Xv6.Inode) (name : List UInt8) : Option Nat :=
  first (fun e => entryInum f e != 0 && entryName f e == name) (entries f)

/-- The entry `dirlink` uses: the first that is free, or a new one at the end. -/
def freeEntry (f : Xv6.Inode) : Nat := (first (fun e => entryInum f e == 0) (entries f)).getD (entries f)

variable {f f' : Xv6.Inode} {e m : Nat} {src : Bytes}

section

variable (done : Xv6.writei f src (DIRENT_SIZE * m) DIRENT_SIZE = some f')
include done

/-- Writing a whole entry of a directory file. -/
theorem dirent_write {o : Nat} (inside : o < DIRENT_SIZE) :
    dirent f' e o = if e = m then src o else dirent f e o := by
  obtain ⟨_, _, _, bytes⟩ := writei_some done
  rw [dirent, bytes]
  by_cases here : e = m
  · rw [here, if_pos (by omega), if_pos rfl, Nat.add_sub_cancel_left]
  · rw [if_neg here, if_neg]
    · rfl
    · simp only [DIRENT_SIZE] at *
      omega

theorem entryInum_write :
    entryInum f' e = if e = m then getHalf src 0 else entryInum f e := by
  by_cases here : e = m
  · rw [if_pos here]
    apply getHalf_congr
    intro o _ high
    rw [dirent_write done (by simp only [DIRENT_SIZE]; omega), if_pos here]
  · rw [if_neg here]
    apply getHalf_congr
    intro o _ high
    rw [dirent_write done (by simp only [DIRENT_SIZE]; omega), if_neg here]

end

theorem entries_write (whole : f.size % DIRENT_SIZE = 0) (done : Xv6.writei f src (DIRENT_SIZE * m) DIRENT_SIZE = some f') :
    f'.size % DIRENT_SIZE = 0 ∧ entries f' = max (entries f) (m + 1) := by
  obtain ⟨_, _, size, _⟩ := writei_some done
  simp only [entries, DIRENT_SIZE] at *
  omega

theorem setDirent_inum (de name : Bytes) (inum : Nat) : getHalf (setDirent de name inum) 0 = inum % 2 ^ 16 := by
  rw [setDirent, getHalf_putHalf]

/-- What was in the buffer before does not matter. -/
theorem setDirent_byte (de de' name : Bytes) (inum : Nat) {o : Nat} (inside : o < DIRENT_SIZE) :
    setDirent de name inum o = setDirent de' name inum o := by
  have limit : DIRENT_SIZE = 2 + DIRSIZ := rfl
  simp only [setDirent, putHalf]
  split
  · rfl
  · rw [blit, blit, if_pos (by omega), if_pos (by omega)]
    exact strncpyFrom_inside (Nat.zero_le _) (by omega)

/-! ## The functions on a sound image -/

variable {sb : Superblock} {dv : Dev} {img : Image} {ip : Inode}

section Scan

variable (shows_ : Shows sb dv img) (owned : Owned sb img (img.table ip)) (inside : ip.inum < sb.ninodes) (live : ip.type ≠ 0)
  (mapped : Mapped img.data ip.toDinode ip.size) (file : ip.type ≠ T_DEV)

include shows_ owned inside live mapped file

/-- An entry is read whole. -/
theorem readi_dirent (devsw : Devsw) (de : Bytes) (within : DIRENT_SIZE * e + DIRENT_SIZE ≤ ip.size) :
    ∃ de', readi devsw dv ip de (DIRENT_SIZE * e) DIRENT_SIZE = .ok ((DIRENT_SIZE : Int), de', ip, dv) ∧
      ∀ o < DIRENT_SIZE, de' o = dirent (contents img.data ip.toDinode) e o := by
  have limit := mapped.size_le
  simp only [MAXFILE, BSIZE] at limit
  have word : DIRENT_SIZE * e < 2 ^ 32 := by omega
  have wordN : DIRENT_SIZE < 2 ^ 32 := by decide
  have count : Xv6.readi (contents img.data ip.toDinode) (DIRENT_SIZE * e) DIRENT_SIZE = some DIRENT_SIZE := by
    rw [Xv6.readi, if_neg]
    · simp only [contents]
      congr 1
      omega
    · simp only [contents]
      omega
  refine ⟨(contents img.data ip.toDinode).fill (DIRENT_SIZE * e) DIRENT_SIZE de, ?_, ?_⟩
  · rw [readi_eq devsw shows_ owned inside live mapped file de word wordN, count]
  · intro o below
    exact if_pos below

/-- The loop finds the first entry that satisfies `stop`. -/
theorem dirscan_cases (devsw : Devsw) (msg : String) {stop : Bytes → Bool}
    (reads : ∀ d d' : Bytes, (∀ o < DIRENT_SIZE, d o = d' o) → stop d = stop d') (whole : ip.size % DIRENT_SIZE = 0)
    {fuel : Nat} (de : Bytes) (le : e ≤ ip.size / DIRENT_SIZE) (enough : ip.size / DIRENT_SIZE - e < fuel) :
    (∃ m de', firstFrom (fun e => stop (dirent (contents img.data ip.toDinode) e)) (ip.size / DIRENT_SIZE - e) e = some m ∧
      dirscan devsw msg stop fuel dv ip de (DIRENT_SIZE * e) = .ok (true, DIRENT_SIZE * m, de', ip, dv) ∧
      ∀ o < DIRENT_SIZE, de' o = dirent (contents img.data ip.toDinode) m o) ∨
    firstFrom (fun e => stop (dirent (contents img.data ip.toDinode) e)) (ip.size / DIRENT_SIZE - e) e = none ∧
      ∃ de', dirscan devsw msg stop fuel dv ip de (DIRENT_SIZE * e) =
        .ok (false, DIRENT_SIZE * (ip.size / DIRENT_SIZE), de', ip, dv) := by
  have isSize : DIRENT_SIZE * (ip.size / DIRENT_SIZE) = ip.size := by
    have := Nat.div_add_mod ip.size DIRENT_SIZE
    omega
  induction fuel generalizing de e with
  | zero => omega
  | succ fuel ih =>
    rw [dirscan]
    by_cases more : e < ip.size / DIRENT_SIZE
    · have within : DIRENT_SIZE * e + DIRENT_SIZE ≤ ip.size := by
        rw [← isSize, ← Nat.mul_succ]
        exact Nat.mul_le_mul_left _ more
      obtain ⟨de', isOk, bytes⟩ := readi_dirent shows_ owned inside live mapped file devsw de within
      have here : stop de' = stop (dirent (contents img.data ip.toDinode) e) := reads _ _ bytes
      rw [if_pos (by simp only [DIRENT_SIZE] at *; omega), isOk, ok_bind,
        show ip.size / DIRENT_SIZE - e = ip.size / DIRENT_SIZE - (e + 1) + 1 by omega, firstFrom]
      simp only [ne_eq, not_true_eq_false, if_false, here]
      by_cases stops : stop (dirent (contents img.data ip.toDinode) e) = true
      · left
        rw [if_pos stops, if_pos stops]
        exact ⟨e, de', rfl, rfl, bytes⟩
      · rw [if_neg stops, if_neg stops]
        exact ih de' more (by omega)
    · have last : e = ip.size / DIRENT_SIZE := by omega
      right
      rw [if_neg (by rw [last, isSize]; omega), last, Nat.sub_self]
      exact ⟨rfl, de, rfl⟩

end Scan

theorem T_DIR_file {d : Dinode} (isDir : d.type = T_DIR) : d.type ≠ T_DEV := by
  rw [isDir]
  decide

/-- The test of `dirlookup` on an entry. -/
theorem dirlookup_test (f : Xv6.Inode) (name : Bytes) (e : Nat) :
    (getHalf (dirent f e) 0 != 0 && namecmp name (direntName (dirent f e)) == 0) =
      (entryInum f e != 0 && entryName f e == text name DIRSIZ) := by
  have names : (namecmp name (direntName (dirent f e)) == 0) = (entryName f e == text name DIRSIZ) := by
    rw [Bool.eq_iff_iff, beq_iff_eq, beq_iff_eq, namecmp, strncmp_eq_zero]
    exact eq_comm
  rw [names]
  rfl

section Functions

variable {fs : FileSys} {k : Nat} (devsw : Devsw) (use : InUse sb fs.dv img (fs.icache k)) (isDir : (fs.icache k).type = T_DIR)
  (whole : (fs.icache k).size % DIRENT_SIZE = 0)

include use isDir whole

/-- A scan of the whole directory stops at the first entry that satisfies `stop`. -/
theorem dirscan_first (msg : String) {stop : Bytes → Bool}
    (reads : ∀ d d' : Bytes, (∀ o < DIRENT_SIZE, d o = d' o) → stop d = stop d') :
    let f := img.file (fs.icache k).inum
    let found := first (fun e => stop (dirent f e)) (entries f)
    ∃ de, dirscan devsw msg stop ((fs.icache k).size / DIRENT_SIZE + 2) fs.dv (fs.icache k) (fun _ => 0) 0 =
        .ok (found.isSome, DIRENT_SIZE * found.getD (entries f), de, fs.icache k, fs.dv) ∧
      ∀ m, found = some m → ∀ o < DIRENT_SIZE, de o = dirent f m o := by
  intro f found
  have isFirst : found = firstFrom (fun e => stop (dirent (contents img.data (fs.icache k).toDinode) e))
      ((fs.icache k).size / DIRENT_SIZE - 0) 0 := by
    rw [use.file_eq, ← use.size_eq]
    rfl
  rcases dirscan_cases use.disk use.owned use.inside use.live use.mapped (T_DIR_file isDir) devsw msg reads whole
    (fun _ => 0) (Nat.zero_le _) (Nat.lt_of_le_of_lt (Nat.sub_le _ 0) (Nat.lt_add_of_pos_right (show 0 < 2 by decide))) with
    ⟨m, de, here, isOk, bytes⟩ | ⟨missing, de, isOk⟩
  · rw [isFirst, here]
    refine ⟨de, isOk, ?_⟩
    rintro _ ⟨⟩
    rw [use.file_eq] at bytes
    exact bytes
  · rw [isFirst, missing, Option.getD_none, entries, use.size_eq]
    exact ⟨de, isOk, by rintro _ ⟨⟩⟩

/-- `dirlookup` finds the first used entry with the name and changes nothing itself. -/
theorem dirlookup_eq (name : Bytes) :
    dirlookup devsw fs k name = match lookup (img.file (fs.icache k).inum) (text name DIRSIZ) with
      | none => .ok (none, fs)
      | some e => iget fs (entryInum (img.file (fs.icache k).inum) e) >>= fun (m, fs) => .ok (some (m, DIRENT_SIZE * e), fs) := by
  have same : ({ dv := fs.dv, icache := update fs.icache k (fs.icache k) } : FileSys) = fs := by
    rw [update_eq_self]
  have reads : ∀ d d' : Bytes, (∀ o < DIRENT_SIZE, d o = d' o) →
      (getHalf d 0 != 0 && namecmp name (direntName d) == 0) = (getHalf d' 0 != 0 && namecmp name (direntName d') == 0) := by
    intro d d' agree
    have inum : getHalf d 0 = getHalf d' 0 := getHalf_congr fun o _ high => agree o (by simp only [DIRENT_SIZE]; omega)
    have names : text (direntName d) DIRSIZ = text (direntName d') DIRSIZ :=
      text_congr fun j below => agree _ (by simp only [DIRENT_SIZE, DIRSIZ] at *; omega)
    have cmp : (namecmp name (direntName d) == 0) = (namecmp name (direntName d') == 0) := by
      rw [Bool.eq_iff_iff, beq_iff_eq, beq_iff_eq, namecmp, namecmp, strncmp_eq_zero, strncmp_eq_zero, names]
    rw [inum, cmp]
  rw [dirlookup, if_neg (fun not => not isDir)]
  obtain ⟨de, isOk, bytes⟩ := dirscan_first devsw use isDir whole "dirlookup read" reads
  simp only [dirlookup_test] at isOk bytes
  rw [← lookup] at isOk bytes
  rw [isOk, ok_bind]
  cases found : lookup (img.file (fs.icache k).inum) (text name DIRSIZ) with
  | none =>
    simp only [same]
    rfl
  | some m =>
    have inum : getHalf de 0 = entryInum (img.file (fs.icache k).inum) m :=
      getHalf_congr fun o _ high => bytes m found o (by simp only [DIRENT_SIZE]; omega)
    simp only [same, inum]
    rfl

/-- `dirlink` of a name that is present drops the reference again. -/
theorem dirlink_found {name : Bytes} {inum e : Nat} (found : lookup (img.file (fs.icache k).inum) (text name DIRSIZ) = some e) :
    dirlink devsw fs k name inum =
      (iget fs (entryInum (img.file (fs.icache k).inum) e) >>= fun (m, fs) => iput fs m >>= fun fs => .ok (-1, fs)) := by
  rw [dirlink, dirlookup_eq devsw use isDir whole, found]
  cases got : iget fs (entryInum (img.file (fs.icache k).inum) e) with
  | error stop =>
    simp only [got]
    rfl
  | ok r =>
    simp only [got]
    rfl

/-- `dirlink` of a new name writes one entry. -/
theorem dirlink_missing {name : Bytes} {inum : Nat} (missing : lookup (img.file (fs.icache k).inum) (text name DIRSIZ) = none) :
    ∃ de, dirlink devsw fs k name inum =
      (writei devsw fs.dv (fs.icache k) (setDirent de name inum) (DIRENT_SIZE * freeEntry (img.file (fs.icache k).inum)) DIRENT_SIZE >>=
        fun (r, dp, dv) => if r ≠ DIRENT_SIZE then .error (.panic "dirlink")
          else .ok (0, { dv := dv, icache := update fs.icache k dp }) : Res (Int × FileSys)) := by
  have reads : ∀ d d' : Bytes, (∀ o < DIRENT_SIZE, d o = d' o) → (getHalf d 0 == 0) = (getHalf d' 0 == 0) := by
    intro d d' agree
    have inum : getHalf d 0 = getHalf d' 0 := getHalf_congr fun o _ high => agree o (by simp only [DIRENT_SIZE]; omega)
    rw [inum]
  rw [dirlink, dirlookup_eq devsw use isDir whole, missing]
  simp only [ok_bind]
  obtain ⟨de, isOk, _⟩ := dirscan_first devsw use isDir whole "dirlink read" reads
  refine ⟨de, ?_⟩
  rw [isOk]
  rfl

end Functions

end Xv6.Fs
