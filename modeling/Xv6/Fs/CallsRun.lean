import Xv6.Fs.CallsSound

/-!
# Runs of the file system

A call either frees an inode, or keeps all inodes and edits the contents of one file. So
the invariant holds in every state that is reached, and the contents of a file that is
not freed are what its edits made of it, whatever happens to other files meanwhile.
-/

namespace Xv6.Fs

open Fallible Words Tables CString BlockMap Runs List

variable {devsw : Devsw} {sb : Superblock} {fs₀ fs fs' : FileSys} {ev : Event} {history : List Event} {k i : Nat}

/-- What an `iput` does that frees inode `i`. -/
structure Frees (sb : Superblock) (fs : FileSys) (i : Nat) (fs' : FileSys) : Prop where
  valid : Valid sb fs'
  gone : (fs'.dv.image.inode i).type = 0
  others : ∀ j < sb.ninodes, j ≠ i → (fs.dv.image.inode j).type ≠ 0 →
    (fs'.dv.image.inode j).type = (fs.dv.image.inode j).type ∧ fs'.dv.image.file j = fs.dv.image.file j

/-- What one call does. -/
theorem FsStep.cases (valid : Valid sb fs) (step : FsStep devsw ev fs fs') :
    ev.freed = false ∧ Moves sb fs ev.inum ev.call.edit fs' ∨ ev.freed = true ∧ Frees sb fs ev.inum fs' := by
  obtain ⟨call, inum, reply, freed⟩ := ev
  obtain ⟨allowed, isInum, isFreed, exec⟩ := step
  dsimp only at allowed isInum isFreed exec ⊢
  rw [isFreed, isInum]
  cases call with
  | root =>
    rw [Call.exec, bind_ok] at exec
    obtain ⟨⟨m, fs1⟩, got, same⟩ := exec
    cases same
    exact Or.inl ⟨rfl, (iget_got valid (by decide) valid.disk.wf.root got).moves valid _⟩
  | ialloc type =>
    rw [Call.exec, bind_ok] at exec
    obtain ⟨⟨m, fs1⟩, got, same⟩ := exec
    cases same
    exact Or.inl ⟨rfl, ialloc_moves valid allowed got _⟩
  | idup m =>
    cases exec
    exact Or.inl ⟨rfl, idup_moves valid allowed _⟩
  | ilock m =>
    rw [Call.exec, bind_ok] at exec
    obtain ⟨fs1, locks, same⟩ := exec
    cases same
    exact Or.inl ⟨rfl, ilock_moves valid locks _⟩
  | iunlock m =>
    rw [Call.exec, bind_ok] at exec
    obtain ⟨fs1, unlocks, same⟩ := exec
    cases same
    exact Or.inl ⟨rfl, iunlock_moves valid unlocks _⟩
  | iput m =>
    rw [Call.exec, bind_ok] at exec
    obtain ⟨fs1, put, same⟩ := exec
    cases same
    cases frees : (Call.iput m).frees fs with
    | false => exact Or.inl ⟨rfl, iput_kept_moves valid allowed frees put _⟩
    | true =>
      obtain ⟨fs2, put', valid', gone, others⟩ := iput_freed valid allowed (iput_unlocked put) frees
      rw [put] at put'
      cases put'
      exact Or.inr ⟨rfl, valid', gone, others⟩
  | setLinks m major minor nlink =>
    obtain ⟨isLocked, shortMajor, shortMinor, shortNlink⟩ := allowed
    cases exec
    exact Or.inl ⟨rfl, setLinks_moves valid isLocked shortMajor shortMinor shortNlink rfl _⟩
  | readi m dst off n =>
    obtain ⟨isLocked, word, wordN⟩ := allowed
    rw [Call.exec, bind_ok] at exec
    obtain ⟨⟨r, dst', ip', dv'⟩, read, same⟩ := exec
    cases same
    obtain ⟨_, _, isOk⟩ := (valid.locked isLocked).readi_same devsw dst word wordN
    rw [isOk] at read
    cases read
    rw [put_same]
    exact Or.inl ⟨rfl, .refl valid fun _ => rfl⟩
  | writei m src off n =>
    obtain ⟨isLocked, notDir, word, wordN⟩ := allowed
    rw [Call.exec, bind_ok] at exec
    obtain ⟨⟨r, ip', dv'⟩, wrote, same⟩ := exec
    cases same
    exact Or.inl ⟨rfl, writei_moves valid isLocked notDir word wordN wrote⟩
  | dirlookup m name =>
    rw [Call.exec, bind_ok] at exec
    obtain ⟨⟨r, fs1⟩, looked, same⟩ := exec
    cases same
    exact Or.inl ⟨rfl, dirlookup_moves valid allowed looked _⟩
  | dirlink m name inum =>
    obtain ⟨isLocked, n, ref, isRef⟩ := allowed
    rw [Call.exec, bind_ok] at exec
    obtain ⟨⟨r, fs1⟩, links, same⟩ := exec
    cases same
    have small : inum < sb.ninodes := by
      rw [isRef]
      exact (valid.cache.inside n ref).2.2
    exact Or.inl ⟨rfl, (dirlink_moves valid isLocked small links).1⟩
  | unlink m name => exact Or.inl ⟨rfl, (unlink_moves valid allowed exec).1⟩

/-- The invariant holds after each call. -/
theorem FsStep.valid (before : Valid sb fs) (step : FsStep devsw ev fs fs') : Valid sb fs' := by
  obtain ⟨_, moves⟩ | ⟨_, frees⟩ := step.cases before
  · exact moves.valid
  · exact frees.valid

theorem Valid.run (start : Valid sb fs₀) (run : Trace (FsStep devsw) fs₀ history fs) : Valid sb fs :=
  run.invariant (fun _ _ _ before step => FsStep.valid before step) start

/-! ## A small disk

A disk of eight blocks with the root directory and a file of three bytes, both open and
locked, as a concrete state for the results on runs. -/

def smallSb : Superblock where
  size := 8
  nblocks := 4
  ninodes := 8
  nlog := 0
  logstart := 2
  inodestart := 2
  bmapstart := 3

/-- An inode whose only block is `b`. -/
def oneBlock (type size b : Nat) : Dinode where
  type := type
  nlink := 1
  size := size
  addrs := fun k => if k = 0 then b else 0

/-- The root directory has its entries in block 4, the file is in block 5. -/
def smallDev : Dev where
  sb := smallSb
  disk := fun b =>
    if b = 1 then putWords (fun _ => 0) 0 (fun i => [8, 4, 8, 0, 2, 2, 3].getD i 0) 7
    else if b = 2 then putDinode (putDinode (fun _ => 0) 64 (oneBlock T_DIR 32 4)) 128 (oneBlock T_FILE 3 5)
    else if b = 3 then fun o => if o = 0 then 63 else 0
    else if b = 4 then fun o => if o = 0 ∨ o = 16 then 1 else if o = 2 ∨ o = 18 ∨ o = 19 then 46 else 0
    else fun _ => 0

def smallFs : FileSys where
  dv := smallDev
  icache := fun k =>
    if k = 0 then { oneBlock T_DIR 32 4 with inum := 1, ref := 1, locked := true, valid := true }
    else if k = 1 then { oneBlock T_FILE 3 5 with inum := 2, ref := 1, locked := true, valid := true }
    else {}

theorem oneBlock_wf {type size b : Nat} (shortType : type < 2 ^ 16) (wordSize : size < 2 ^ 32) (wordB : b < 2 ^ 32) :
    (oneBlock type size b).Wf where
  type := shortType
  major := show 0 < 2 ^ 16 by decide
  minor := show 0 < 2 ^ 16 by decide
  nlink := show 1 < 2 ^ 16 by decide
  size := wordSize
  addrs := by
    intro i
    show (if i = 0 then b else 0) < 2 ^ 32
    split
    · exact wordB
    · decide
  length := by
    intro i beyond
    exact if_neg (by omega)

theorem slot_oneBlock (data : Nat → Block) (type size b k : Nat) :
    slot data (oneBlock type size b) k = if k = 0 then b else 0 := by
  by_cases direct : k ≤ NDIRECT
  · exact slot_direct direct
  · rw [if_neg (by omega)]
    exact slot_beyond (by omega) (Or.inl rfl)

theorem smallDev_root : smallDev.dinode 1 = oneBlock T_DIR 32 4 := by
  show getDinode (putDinode (putDinode (fun _ => 0) 64 (oneBlock T_DIR 32 4)) 128 (oneBlock T_FILE 3 5)) 64 = _
  rw [getDinode_putDinode_apart (by decide), getDinode_putDinode (oneBlock_wf (by decide) (by decide) (by decide))]

theorem smallDev_file : smallDev.dinode 2 = oneBlock T_FILE 3 5 :=
  getDinode_putDinode (oneBlock_wf (by decide) (by decide) (by decide))

theorem smallDev_free : ∀ i < 8, i ≠ 1 → i ≠ 2 → (smallDev.dinode i).type = 0 := by decide

theorem smallDev_slots (x : Nat × Nat) : slots smallSb smallDev.image.data smallDev.image.inode x =
    if x = (1, 0) then 4 else if x = (2, 0) then 5 else 0 := by
  obtain ⟨i, k⟩ := x
  show slots smallSb smallDev.bread smallDev.dinode (i, k) = _
  by_cases isRoot : i = 1
  · subst isRoot
    rw [slots_live (by decide) (by rw [smallDev_root]; decide), smallDev_root, slot_oneBlock]
    simp
  · by_cases isFile : i = 2
    · subst isFile
      rw [slots_live (by decide) (by rw [smallDev_file]; decide), smallDev_file, slot_oneBlock]
      simp
    · rw [if_neg (by simp [isRoot]), if_neg (by simp [isFile])]
      by_cases inside : i < 8
      · exact slots_free (smallDev_free i inside isRoot isFile)
      · exact if_neg fun both => inside both.1

theorem smallDev_sound : Sound smallSb smallDev.image where
  owned := by
    refine ⟨by decide, ?_, ?_, ?_⟩
    · intro x
      rw [smallDev_slots]
      split
      · exact fun _ => by decide
      · split
        · exact fun _ => by decide
        · exact fun not => absurd rfl not
    · intro x y
      rw [smallDev_slots, smallDev_slots]
      split
      · split
        · simp_all
        · split
          · omega
          · omega
      · split
        · split
          · omega
          · split
            · simp_all
            · omega
        · exact fun not => absurd rfl not
    · have bits : ∀ b < 8, smallDev.used b = true ↔ b < 6 := by decide
      intro b inside
      rw [show smallDev.image.used b = smallDev.used b from rfl, bits b inside]
      constructor
      · intro below
        by_cases low : b < smallSb.nmeta
        · exact Or.inl low
        · right
          have cases : b = 4 ∨ b = 5 := by
            have : smallSb.nmeta = 4 := rfl
            omega
          obtain rfl | rfl := cases
          · exact ⟨(1, 0), by rw [smallDev_slots]; rfl⟩
          · exact ⟨(2, 0), by rw [smallDev_slots]; rfl⟩
      · rintro (low | ⟨x, isB⟩)
        · have : smallSb.nmeta = 4 := rfl
          omega
        · rw [smallDev_slots] at isB
          split at isB
          · omega
          · split at isB
            · omega
            · omega
  mapped := by
    intro i inside live bn below
    have one : bn = 0 ∧ (i = 1 ∨ i = 2) := by
      by_cases isRoot : i = 1
      · rw [isRoot, show (smallDev.image.inode 1).size = 32 by rw [show smallDev.image.inode 1 = _ from smallDev_root]; rfl] at below
        simp only [BSIZE] at below
        omega
      · by_cases isFile : i = 2
        · rw [isFile, show (smallDev.image.inode 2).size = 3 by rw [show smallDev.image.inode 2 = _ from smallDev_file]; rfl] at below
          simp only [BSIZE] at below
          omega
        · exact absurd (smallDev_free i inside isRoot isFile) live
    obtain ⟨rfl, rfl | rfl⟩ := one
    · rw [show smallDev.image.inode 1 = _ from smallDev_root, slot_oneBlock]
      decide
    · rw [show smallDev.image.inode 2 = _ from smallDev_file, slot_oneBlock]
      decide

theorem smallFs_rest {k : Nat} (notRoot : k ≠ 0) (notFile : k ≠ 1) : smallFs.icache k = {} :=
  (if_neg notRoot).trans (if_neg notFile)

theorem smallFs_valid : Valid smallSb smallFs where
  disk := by
    apply Shows.self
    · exact ⟨by decide, by decide, by decide, by decide, by decide, by decide, by decide, by decide⟩
    · rfl
    · decide
  sound := smallDev_sound
  dirs := by
    intro i inside isDir
    have isRoot : i = 1 := by
      have all : ∀ i < 8, (smallDev.dinode i).type = T_DIR → i = 1 := by decide
      exact all i inside isDir
    subst isRoot
    refine ⟨by decide, ?_⟩
    have all : ∀ e < 2, entryInum (smallDev.image.file 1) e < 8 := by decide
    exact all
  cache := by
    have used : ∀ k, 0 < (smallFs.icache k).ref → k = 0 ∨ k = 1 := by
      intro k ref
      by_contra other
      push Not at other
      rw [smallFs_rest other.1 other.2] at ref
      exact absurd ref (by decide)
    refine ⟨?_, ?_, ?_, ?_⟩
    · intro k m refK refM same
      obtain rfl | rfl := used k refK
      · obtain rfl | rfl := used m refM
        · rfl
        · exact absurd same (by decide)
      · obtain rfl | rfl := used m refM
        · exact absurd same (by decide)
        · rfl
    · intro k ref
      obtain rfl | rfl := used k ref
      · decide
      · decide
    · intro k ref _
      obtain rfl | rfl := used k ref
      · exact ⟨smallDev_root, by decide⟩
      · exact ⟨smallDev_file, by decide⟩
    · intro k isLocked
      by_cases isFirst : k = 0
      · subst isFirst
        decide
      · by_cases isSecond : k = 1
        · subst isSecond
          decide
        · rw [smallFs_rest isFirst isSecond] at isLocked
          exact absurd isLocked (by decide)

/-- No device drivers. -/
def noDevsw : Devsw where
  read := fun _ => none
  write := fun _ => none

/-- Entry `k` of the small disk is unlocked. -/
def smallUnlock (k : Nat) : FileSys := smallFs.put k { smallFs.icache k with locked := false }

def smallEvent (k inum : Nat) : Event where
  call := .iunlock k
  inum := inum
  reply := .done
  freed := false

/-- The directory is unlocked, the file is still locked. -/
theorem smallRun_root : Trace (FsStep noDevsw) smallFs [smallEvent 0 1] (smallUnlock 0) :=
  .snoc .nil ⟨trivial, rfl, rfl, rfl⟩

/-- No block is freed that is free. -/
def KeepsBitmap {α : Type} : Res α → Prop := StopsIn (· ≠ .panic "freeing free block")

theorem iget_keepsBitmap (fs : FileSys) (inum : Nat) : KeepsBitmap (iget fs inum) := by
  rw [iget]
  split
  · exact .ok _
  · split
    · exact .error (by decide)
    · exact .ok _

section Locked

variable (valid : Valid sb fs) (isLocked : (fs.icache k).locked = true)
include valid isLocked

theorem readi_keepsBitmap {off n : Nat} (dst : Bytes) (word : off < 2 ^ 32) (wordN : n < 2 ^ 32) :
    KeepsBitmap (readi devsw fs.dv (fs.icache k) dst off n) := by
  obtain ⟨_, _, isOk⟩ := (valid.locked isLocked).readi_same devsw dst word wordN
  rw [isOk]
  exact .ok _

theorem writei_keepsBitmap {off n : Nat} (src : Bytes) (word : off < 2 ^ 32) (wordN : n < 2 ^ 32) :
    KeepsBitmap (writei devsw fs.dv (fs.icache k) src off n) := by
  obtain ⟨_, same, _⟩ | ⟨_, _, _, _, wrote, _⟩ | full := (valid.locked isLocked).writei_outcome devsw src word wordN
  · rw [same]
    exact .ok _
  · rw [wrote]
    exact .ok _
  · rw [full]
    exact .error (by decide)

theorem dirlookup_keepsBitmap (name : Bytes) : KeepsBitmap (dirlookup devsw fs k name) := by
  by_cases isDir : (fs.icache k).type = T_DIR
  · rw [dirlookup_eq devsw (valid.locked isLocked) isDir (dir_whole valid isLocked isDir)]
    split
    · exact .ok _
    · exact (iget_keepsBitmap _ _).bind fun _ _ => .ok _
  · rw [dirlookup, if_pos isDir]
    exact .error (by decide)

end Locked

/-- An `iput` frees only blocks that are in use. -/
theorem iput_keepsBitmap (valid : Valid sb fs) (ref : 0 < (fs.icache k).ref) : KeepsBitmap (iput fs k) := by
  cases isLocked : (fs.icache k).locked with
  | true =>
    rw [iput_waits isLocked]
    exact .error (by decide)
  | false =>
    cases frees : (Call.iput k).frees fs with
    | false =>
      rw [iput_kept isLocked frees]
      exact .ok _
    | true =>
      obtain ⟨fs', put, _⟩ := iput_freed valid ref isLocked frees
      rw [put]
      exact .ok _

theorem dirlink_keepsBitmap (valid : Valid sb fs) (isLocked : (fs.icache k).locked = true) (name : Bytes) (inum : Nat) :
    KeepsBitmap (dirlink devsw fs k name inum) := by
  by_cases isDir : (fs.icache k).type = T_DIR
  · have use := valid.locked isLocked
    have whole := dir_whole valid isLocked isDir
    cases found : lookup (fs.dv.image.file (fs.icache k).inum) (text name DIRSIZ) with
    | some e =>
      obtain ⟨inside, used, _⟩ := lookup_some found
      rw [dirlink_found devsw use isDir whole found]
      apply (iget_keepsBitmap _ _).bind
      rintro ⟨m, fs1⟩ got
      have held := iget_got valid (Nat.pos_of_ne_zero used) ((valid.dirFile use isDir).inums e inside) got
      exact (iput_keepsBitmap held.valid held.ref).bind fun _ _ => .ok _
    | none =>
      obtain ⟨de, isWrite⟩ := dirlink_missing devsw use isDir whole found
      rw [isWrite]
      apply (writei_keepsBitmap valid isLocked _ (use.entry_lt (freeEntry_le _)) (by decide)).bind
      intro r _
      dsimp only
      split
      · exact .error (by decide)
      · exact .ok _
  · rw [dirlink, dirlookup, if_pos isDir]
    exact .error (by decide)

theorem unlink_keepsBitmap (valid : Valid sb fs) (isLocked : (fs.icache k).locked = true) (name : Bytes) :
    KeepsBitmap ((Call.unlink k name).exec devsw fs) := by
  rw [Call.exec]
  apply (dirlookup_keepsBitmap valid isLocked name).bind
  rintro ⟨r, fs1⟩ looked
  obtain ⟨_, ⟨_, rfl, _⟩ | ⟨e, m, found, rfl, _, got⟩⟩ := dirlookup_cases valid isLocked looked
  · exact .ok _
  · dsimp only
    obtain ⟨n, _, entry⟩ := got.used k (valid.cache.locked k isLocked).1
    have still : (fs1.icache k).locked = true := by
      rw [entry]
      exact isLocked
    have offset := (valid.locked isLocked).entry_lt (Nat.le_of_lt (lookup_some found).1)
    refine StopsIn.bind ?_ fun _ _ => .ok _
    rw [zeroDirent]
    apply (writei_keepsBitmap got.valid still _ offset (by decide)).bind
    intro r _
    dsimp only
    split
    · exact .error (by decide)
    · exact .ok _

/-- No call that the system calls make frees a free block. -/
theorem Call.exec_keepsBitmap (valid : Valid sb fs) {call : Call} (allowed : call.Allowed fs) : KeepsBitmap (call.exec devsw fs) := by
  cases call with
  | root => exact (iget_keepsBitmap _ _).bind fun _ _ => .ok _
  | ialloc type =>
    refine StopsIn.bind ?_ fun _ _ => .ok _
    rw [Fs.ialloc]
    split
    · exact .error (by decide)
    · exact iget_keepsBitmap _ _
  | idup m => exact .ok _
  | ilock m =>
    refine StopsIn.bind ?_ fun _ _ => .ok _
    rw [Fs.ilock]
    split
    · exact .error (by decide)
    · apply StopsIn.bind
      · rw [acquiresleep]
        split
        · exact .error (by decide)
        · exact .ok _
      · intro ip _
        dsimp only
        split
        · split
          · exact .error (by decide)
          · exact .ok _
        · exact .ok _
  | iunlock m =>
    refine StopsIn.bind ?_ fun _ _ => .ok _
    rw [Fs.iunlock]
    split
    · exact .error (by decide)
    · exact .ok _
  | iput m => exact (iput_keepsBitmap valid allowed).bind fun _ _ => .ok _
  | setLinks m major minor nlink => exact .ok _
  | readi m dst off n =>
    obtain ⟨isLocked, word, wordN⟩ := allowed
    exact (readi_keepsBitmap valid isLocked dst word wordN).bind fun _ _ => .ok _
  | writei m src off n =>
    obtain ⟨isLocked, _, word, wordN⟩ := allowed
    exact (writei_keepsBitmap valid isLocked src word wordN).bind fun _ _ => .ok _
  | dirlookup m name => exact (dirlookup_keepsBitmap valid allowed name).bind fun _ _ => .ok _
  | dirlink m name inum => exact (dirlink_keepsBitmap valid allowed.1 name inum).bind fun _ _ => .ok _
  | unlink m name => exact unlink_keepsBitmap valid allowed name

/-- In every state that is reached from a valid one, no block is lost or used twice: the
block numbers in the inodes and indirect blocks are distinct blocks of the data area, the
bitmap marks these and the metadata blocks, no block below the size of a file is missing,
the cached block numbers are those on the disk, and no call frees a free block. -/
theorem blocks_used_once (start : Valid sb fs₀) (run : Trace (FsStep devsw) fs₀ history fs) :
    (∀ x y, slots sb fs.dv.image.data fs.dv.image.inode x ≠ 0 →
      slots sb fs.dv.image.data fs.dv.image.inode x = slots sb fs.dv.image.data fs.dv.image.inode y → x = y) ∧
    (∀ x, slots sb fs.dv.image.data fs.dv.image.inode x ≠ 0 →
      sb.nmeta ≤ slots sb fs.dv.image.data fs.dv.image.inode x ∧ slots sb fs.dv.image.data fs.dv.image.inode x < sb.size) ∧
    (∀ b < sb.size, fs.dv.used b = true ↔ b < sb.nmeta ∨ ∃ x, slots sb fs.dv.image.data fs.dv.image.inode x = b) ∧
    (∀ i < sb.ninodes, (fs.dv.dinode i).type ≠ 0 → ∀ bn, bn * BSIZE < (fs.dv.dinode i).size →
      slots sb fs.dv.image.data fs.dv.image.inode (i, key bn) ≠ 0) ∧
    (∀ k, 0 < (fs.icache k).ref → (fs.icache k).valid = true →
      (fs.dv.dinode (fs.icache k).inum).addrs = (fs.icache k).addrs) ∧
    ∀ call : Call, call.Allowed fs → call.exec devsw fs ≠ .error (.panic "freeing free block") := by
  have valid := start.run run
  have owned := valid.sound.owned
  refine ⟨owned.inj, owned.area, owned.marked, ?_, ?_, ?_⟩
  · intro i inside live bn below
    change (fs.dv.image.inode i).type ≠ 0 at live
    rw [slots_live inside live]
    exact valid.sound.mapped i inside live bn below
  · intro k ref isValid
    have agree := (valid.cache.agree k ref isValid).1
    exact congrArg Dinode.addrs agree
  · intro call allowed stops
    exact Call.exec_keepsBitmap valid allowed _ stops rfl

theorem blocks_used_once_small :
    (smallUnlock 0).dv.used 5 = true ↔
      5 < smallSb.nmeta ∨ ∃ x, slots smallSb (smallUnlock 0).dv.image.data (smallUnlock 0).dv.image.inode x = 5 :=
  (blocks_used_once smallFs_valid smallRun_root).2.2.1 5 (by decide)

/-! ## Files -/

/-- What the calls of a history make of the contents of file `i`. -/
def edits (i : Nat) (history : List Event) (f : Xv6.Inode) : Xv6.Inode :=
  history.foldl (fun f ev => if ev.inum = i then ev.call.edit f else f) f

section Files

variable (start : Valid sb fs₀) (run : Trace (FsStep devsw) fs₀ history fs) (inside : i < sb.ninodes)
  (live : (fs₀.dv.image.inode i).type ≠ 0) (file : (fs₀.dv.image.inode i).type ≠ T_DEV)
  (kept : ∀ ev ∈ history, ev.freed = true → ev.inum ≠ i)
include start run inside live file kept

/-- A file that is not freed is what its own edits make of it. -/
theorem file_run :
    (fs.dv.image.inode i).type = (fs₀.dv.image.inode i).type ∧ fs.dv.image.file i = edits i history (fs₀.dv.image.file i) := by
  -- the claim for each part of the history, together with the invariant
  have all : Valid sb fs ∧ ((∀ ev ∈ history, ev.freed = true → ev.inum ≠ i) →
      (fs.dv.image.inode i).type = (fs₀.dv.image.inode i).type ∧
        fs.dv.image.file i = edits i history (fs₀.dv.image.file i)) := by
    refine Trace.history (I := fun ms s => Valid sb s ∧ ((∀ ev ∈ ms, ev.freed = true → ev.inum ≠ i) →
      (s.dv.image.inode i).type = (fs₀.dv.image.inode i).type ∧ s.dv.image.file i = edits i ms (fs₀.dv.image.file i)))
      ?_ run ⟨start, fun _ => ⟨rfl, rfl⟩⟩
    rintro ms ev s s' ⟨valid, before⟩ step
    refine ⟨step.valid valid, ?_⟩
    intro keeps
    obtain ⟨type, contents⟩ := before fun ev earlier => keeps ev (mem_append_left _ earlier)
    have liveS : (s.dv.image.inode i).type ≠ 0 := by
      rw [type]
      exact live
    rw [edits, foldl_append, foldl_cons, foldl_nil, ← edits, ← contents]
    obtain ⟨_, moves⟩ | ⟨isFreed, frees⟩ := step.cases valid
    · refine ⟨(moves.types i inside liveS).trans type, ?_⟩
      rw [moves.files i inside liveS]
      by_cases here : ev.inum = i
      · rw [if_pos ⟨here.symm, by rw [type]; exact file⟩, if_pos here]
      · rw [if_neg fun both => here both.1.symm, if_neg here]
    · have other : ev.inum ≠ i := keeps ev (by simp) isFreed
      obtain ⟨sameType, sameFile⟩ := frees.others i inside other.symm liveS
      rw [sameType, sameFile, if_neg other]
      exact ⟨type, rfl⟩
  exact all.2 kept

/-- A file that is not a device is a byte string: `readi` reads the bytes that the calls
so far have left, `writei` overwrites the bytes of its range in this file only, and both
refuse a request exactly when it is out of range and then change nothing. -/
theorem file_is_bytes (isLocked : (fs.icache k).locked = true) (isFile : (fs.icache k).inum = i) :
    (∀ (dst : Bytes) (off n : Nat), off < 2 ^ 32 → n < 2 ^ 32 →
      let f := edits i history (fs₀.dv.image.file i)
      (f.size < off ∨ 2 ^ 32 ≤ off + n → readi devsw fs.dv (fs.icache k) dst off n = .ok (-1, dst, fs.icache k, fs.dv)) ∧
      (¬ (f.size < off ∨ 2 ^ 32 ≤ off + n) → ∃ dst' : Bytes,
        readi devsw fs.dv (fs.icache k) dst off n = .ok ((min n (f.size - off) : Nat), dst', fs.icache k, fs.dv) ∧
        ∀ o, dst' o = if o < min n (f.size - off) then f.data (off + o) else dst o)) ∧
    (∀ (src : Bytes) (off n : Nat), off < 2 ^ 32 → n < 2 ^ 32 →
      let f := edits i history (fs₀.dv.image.file i)
      let bad := f.size < off ∨ 2 ^ 32 ≤ off + n ∨ MAXFILE * BSIZE < off + n
      (bad → writei devsw fs.dv (fs.icache k) src off n = .ok (-1, fs.icache k, fs.dv)) ∧
      (¬ bad → need fs.dv.image.data (fs.icache k).toDinode off n ≤ free sb.size fs.dv.image.used →
        ∃ ip' dv', writei devsw fs.dv (fs.icache k) src off n = .ok ((n : Int), ip', dv') ∧
          (dv'.image.file i).size = max f.size (off + n) ∧
          (∀ o, (dv'.image.file i).data o = if off ≤ o ∧ o < off + n then src (o - off) else f.data o) ∧
          ∀ j < sb.ninodes, j ≠ i → (fs.dv.image.inode j).type ≠ 0 → dv'.image.file j = fs.dv.image.file j)) := by
  obtain ⟨type, contents⟩ := file_run start run inside live file kept
  have valid := start.run run
  have use := valid.locked isLocked
  have device : (fs.icache k).type ≠ T_DEV := by
    rw [← use.cached, isFile, type]
    exact file
  have size := use.size_eq
  rw [isFile] at size
  rw [← contents]
  constructor
  · intro dst off n word wordN
    have read := use.readi_eq devsw device dst word wordN
    rw [isFile] at read
    constructor
    · intro bad
      rw [Xv6.readi, if_pos bad] at read
      exact read
    · intro good
      rw [Xv6.readi, if_neg good] at read
      exact ⟨_, read, fun _ => rfl⟩
  · intro src off n word wordN
    constructor
    · intro bad
      rw [size] at bad
      exact writei_refused devsw fs.dv src device word wordN bad
    · intro good room
      rw [size] at good
      obtain ⟨ip', dv', img', wrote, disk, write⟩ | ⟨_, short⟩ := use.writei_cases devsw src device
        (show off ≤ _ by omega) (show off + n ≤ _ by omega)
      · refine ⟨ip', dv', wrote, ?_⟩
        have done := write.file
        rw [isFile] at done
        obtain ⟨_, _, newSize, newData⟩ := writei_some done
        have liveImg : (img'.inode i).type ≠ 0 := by
          rw [← isFile, write.cached, write.rest]
          exact use.live
        rw [write.sound.file_image disk inside liveImg]
        refine ⟨newSize, newData, ?_⟩
        intro j insideJ other liveJ
        rw [← isFile] at other
        rw [← write.others.file j insideJ other liveJ]
        apply write.sound.file_image disk insideJ
        rw [write.others.inode j other]
        exact liveJ
      · omega

end Files

theorem file_is_bytes_small :
    writei noDevsw (smallUnlock 0).dv ((smallUnlock 0).icache 1) (fun _ => 7) 4 1 =
      .ok (-1, (smallUnlock 0).icache 1, (smallUnlock 0).dv) :=
  ((file_is_bytes smallFs_valid smallRun_root (show 2 < 8 by decide) (by decide) (by decide) (by decide) (k := 1) (by decide)
    (by decide)).2 (fun _ => 7) 4 1 (by decide) (by decide)).1 (by decide)

end Xv6.Fs
