import Xv6.Fs.Trunc
import Xv6.Fs.Dir
import Xv6.Lib.Runs

/-!
# The file system as a system

The system calls reach the disk through the functions of `fs.c`. `Call` lists these with
the conditions under which the callers use them: an inode is read or written by the holder
of its lock, references are dropped by those who have one, directories are written by
`dirlink` and by the removal of an entry only, and the inode numbers put into a directory
come from referenced inodes. Several processes may be inside the file system; a step is
one call, and a call that waits for a lock is no step yet.
-/

namespace Xv6.Fs

open Fallible Words Tables CString BlockMap Function

/-- A call of a function of `fs.c`; `k` is the cache entry of the `struct inode *`. -/
inductive Call where
  /-- `iget(ROOTDEV, ROOTINO)` of `namex`. -/
  | root
  | ialloc (type : Nat)
  | idup (k : Nat)
  | ilock (k : Nat)
  | iunlock (k : Nat)
  | iput (k : Nat)
  /-- The fields are set and `iupdate(ip)` is called, as in `create`, `sys_link` and
  `kunlink`. -/
  | setLinks (k major minor nlink : Nat)
  | readi (k : Nat) (dst : Bytes) (off n : Nat)
  | writei (k : Nat) (src : Bytes) (off n : Nat)
  | dirlookup (k : Nat) (name : Bytes)
  | dirlink (k : Nat) (name : Bytes) (inum : Nat)
  /-- `dirlookup` of a name that is there, and the write of `kunlink` at its offset. -/
  | unlink (k : Nat) (name : Bytes)

/-- What a call returns. -/
inductive Reply where
  | done
  | entry (k : Nat)
  | count (r : Int)
  | bytes (r : Int) (dst : Bytes)
  | found (at_ : Option (Nat × Nat))

namespace Call

/-- The cache entry a call works on. -/
def slot : Call → Nat
  | root => 0
  | ialloc _ => 0
  | idup k => k
  | ilock k => k
  | iunlock k => k
  | iput k => k
  | setLinks k _ _ _ => k
  | readi k _ _ _ => k
  | writei k _ _ _ => k
  | dirlookup k _ => k
  | dirlink k _ _ => k
  | unlink k _ => k

/-- When the callers make the call. -/
def Allowed (fs : FileSys) : Call → Prop
  | root => True
  | ialloc type => type = T_DIR ∨ type = T_FILE ∨ type = T_DEV
  | idup k => 0 < (fs.icache k).ref
  | ilock _ => True
  | iunlock _ => True
  | iput k => 0 < (fs.icache k).ref
  | setLinks k major minor nlink => (fs.icache k).locked = true ∧ major < 2 ^ 16 ∧ minor < 2 ^ 16 ∧ nlink < 2 ^ 16
  | readi k _ off n => (fs.icache k).locked = true ∧ off < 2 ^ 32 ∧ n < 2 ^ 32
  | writei k _ off n => (fs.icache k).locked = true ∧ (fs.icache k).type ≠ T_DIR ∧ off < 2 ^ 32 ∧ n < 2 ^ 32
  | dirlookup k _ => (fs.icache k).locked = true
  | dirlink k _ inum => (fs.icache k).locked = true ∧ ∃ m, 0 < (fs.icache m).ref ∧ inum = (fs.icache m).inum
  | unlink k _ => (fs.icache k).locked = true

/-- The call itself. -/
def exec (devsw : Devsw) (fs : FileSys) : Call → Res (Reply × FileSys)
  | root => do
    let (k, fs) ← iget fs ROOTINO
    pure (.entry k, fs)
  | ialloc type => do
    let (k, fs) ← Fs.ialloc fs type
    pure (.entry k, fs)
  | idup k => pure (.entry k, Fs.idup fs k)
  | ilock k => do
    let fs ← Fs.ilock fs k
    pure (.done, fs)
  | iunlock k => do
    let fs ← Fs.iunlock fs k
    pure (.done, fs)
  | iput k => do
    let fs ← Fs.iput fs k
    pure (.done, fs)
  | setLinks k major minor nlink =>
    let ip := { fs.icache k with major := major, minor := minor, nlink := nlink }
    pure (.done, { dv := iupdate fs.dv ip, icache := Function.update fs.icache k ip })
  | readi k dst off n => do
    let (r, dst, ip, dv) ← Fs.readi devsw fs.dv (fs.icache k) dst off n
    pure (.bytes r dst, { dv := dv, icache := Function.update fs.icache k ip })
  | writei k src off n => do
    let (r, ip, dv) ← Fs.writei devsw fs.dv (fs.icache k) src off n
    pure (.count r, { dv := dv, icache := Function.update fs.icache k ip })
  | dirlookup k name => do
    let (r, fs) ← Fs.dirlookup devsw fs k name
    pure (.found r, fs)
  | dirlink k name inum => do
    let (r, fs) ← Fs.dirlink devsw fs k name inum
    pure (.count r, fs)
  | unlink k name => do
    let (r, fs) ← Fs.dirlookup devsw fs k name
    match r with
    | none => pure (.found none, fs)
    | some (m, off) => do
      let fs ← zeroDirent devsw fs k off
      pure (.found (some (m, off)), fs)

/-- What a call makes of the file it works on. -/
def edit : Call → Xv6.Inode → Xv6.Inode
  | writei _ src off n, f => (Xv6.writei f src off n).getD f
  | dirlink _ name inum, f =>
    if lookup f (text name DIRSIZ) = none then
      (Xv6.writei f (setDirent (fun _ => 0) name inum) (DIRENT_SIZE * freeEntry f) DIRENT_SIZE).getD f
    else f
  | unlink _ name, f =>
    match lookup f (text name DIRSIZ) with
    | none => f
    | some e => (Xv6.writei f (fun _ => 0) (DIRENT_SIZE * e) DIRENT_SIZE).getD f
  | _, f => f

/-- The call is an `iput` that frees the inode. -/
def frees (fs : FileSys) : Call → Bool
  | iput k => (fs.icache k).valid && (fs.icache k).nlink == 0 && (fs.icache k).ref == 1
  | _ => false

end Call

/-- A call with the inode it works on, what it returned and whether it freed the inode. -/
structure Event where
  call : Call
  inum : Nat
  reply : Reply
  freed : Bool

/-- One step of the file system. -/
structure FsStep (devsw : Devsw) (ev : Event) (fs fs' : FileSys) : Prop where
  allowed : ev.call.Allowed fs
  inum : ev.inum = (fs.icache ev.call.slot).inum
  freed : ev.freed = ev.call.frees fs
  exec : ev.call.exec devsw fs = .ok (ev.reply, fs')

/-! ## The state of the cache -/

/-- Each inode is cached once, and a valid copy agrees with the disk. -/
structure Cached (sb : Superblock) (img : Image) (icache : Nat → Inode) : Prop where
  distinct : ∀ k m, 0 < (icache k).ref → 0 < (icache m).ref → (icache k).inum = (icache m).inum → k = m
  inside : ∀ k, 0 < (icache k).ref → k < NINODE ∧ 0 < (icache k).inum ∧ (icache k).inum < sb.ninodes
  agree : ∀ k, 0 < (icache k).ref → (icache k).valid = true →
    img.inode (icache k).inum = (icache k).toDinode ∧ (icache k).type ≠ 0
  locked : ∀ k, (icache k).locked = true → 0 < (icache k).ref ∧ (icache k).valid = true

/-- A directory is a whole number of entries, and they name inodes. -/
structure DirFile (sb : Superblock) (f : Xv6.Inode) : Prop where
  whole : f.size % DIRENT_SIZE = 0
  inums : ∀ e < entries f, entryInum f e < sb.ninodes

/-- The invariant of the file system. -/
structure Valid (sb : Superblock) (fs : FileSys) : Prop where
  disk : Shows sb fs.dv fs.dv.image
  sound : Sound sb fs.dv.image
  dirs : ∀ i < sb.ninodes, (fs.dv.image.inode i).type = T_DIR → DirFile sb (fs.dv.image.file i)
  cache : Cached sb fs.dv.image fs.icache

variable {sb : Superblock} {fs fs' : FileSys} {img img' : Image} {icache : Nat → Inode} {dv : Dev} {k : Nat} {ip : Inode}

/-- One entry of the cache is replaced. -/
theorem Cached.update (cache : Cached sb img icache)
    (bounds : 0 < ip.ref → k < NINODE ∧ 0 < ip.inum ∧ ip.inum < sb.ninodes)
    (only : 0 < ip.ref → ∀ m, m ≠ k → 0 < (icache m).ref → (icache m).inum ≠ ip.inum)
    (agree : 0 < ip.ref → ip.valid = true → img'.inode ip.inum = ip.toDinode ∧ ip.type ≠ 0)
    (locked : ip.locked = true → 0 < ip.ref ∧ ip.valid = true)
    (others : ∀ m, m ≠ k → 0 < (icache m).ref → (icache m).valid = true →
      img'.inode (icache m).inum = img.inode (icache m).inum) :
    Cached sb img' (update icache k ip) := by
  refine ⟨?_, ?_, ?_, ?_⟩
  · intro j m refJ refM same
    by_cases atJ : j = k
    · by_cases atM : m = k
      · rw [atJ, atM]
      · rw [atJ, update_self] at refJ same
        rw [update_of_ne atM] at refM same
        exact absurd same.symm (only refJ m atM refM)
    · rw [update_of_ne atJ] at refJ same
      by_cases atM : m = k
      · rw [atM, update_self] at refM same
        exact absurd same (only refM j atJ refJ)
      · rw [update_of_ne atM] at refM same
        exact cache.distinct j m refJ refM same
  · intro m ref
    by_cases here : m = k
    · rw [here, update_self] at ref ⊢
      exact bounds ref
    · rw [update_of_ne here] at ref ⊢
      exact cache.inside m ref
  · intro m ref valid
    by_cases here : m = k
    · rw [here, update_self] at ref valid ⊢
      exact agree ref valid
    · rw [update_of_ne here] at ref valid ⊢
      rw [others m here ref valid]
      exact cache.agree m ref valid
  · intro m isLocked
    by_cases here : m = k
    · rw [here, update_self] at isLocked ⊢
      exact locked isLocked
    · rw [update_of_ne here] at isLocked ⊢
      exact cache.locked m isLocked

/-- An entry that is in use keeps its inode number. -/
theorem Cached.update_used (cache : Cached sb img icache) (used : 0 < (icache k).ref) (inum : ip.inum = (icache k).inum)
    (agree : 0 < ip.ref → ip.valid = true → img'.inode ip.inum = ip.toDinode ∧ ip.type ≠ 0)
    (locked : ip.locked = true → 0 < ip.ref ∧ ip.valid = true)
    (others : ∀ i, i ≠ ip.inum → img'.inode i = img.inode i) :
    Cached sb img' (Function.update icache k ip) := by
  have only : ∀ m, m ≠ k → 0 < (icache m).ref → (icache m).inum ≠ ip.inum := by
    intro m other ref same
    rw [inum] at same
    exact other (cache.distinct m k ref used same)
  apply cache.update
  · intro _
    rw [inum]
    exact cache.inside k used
  · exact fun _ => only
  · exact agree
  · exact locked
  · intro m other ref _
    exact others _ (only m other ref)

/-- What was shown of an image holds of the disk that shows it. -/
theorem Valid.of_image (disk : Shows sb dv img) (sound : Sound sb img)
    (dirs : ∀ i < sb.ninodes, (img.inode i).type = T_DIR → DirFile sb (img.file i)) (cache : Cached sb img icache) :
    Valid sb { dv := dv, icache := icache } where
  disk := disk.image
  sound := sound.image disk
  dirs := by
    intro i inside isDir
    have same : dv.image.inode i = img.inode i := disk.inode i inside
    rw [same] at isDir
    rw [sound.file_image disk inside (by rw [isDir]; decide)]
    exact dirs i inside isDir
  cache := by
    refine ⟨cache.distinct, cache.inside, ?_, cache.locked⟩
    intro k ref valid
    have same : dv.image.inode (icache k).inum = img.inode (icache k).inum := disk.inode _ (cache.inside k ref).2.2
    rw [same]
    exact cache.agree k ref valid

/-- A valid entry may be used. -/
theorem Valid.inUse (valid : Valid sb fs) (ref : 0 < (fs.icache k).ref) (isValid : (fs.icache k).valid = true) :
    InUse sb fs.dv fs.dv.image (fs.icache k) where
  disk := valid.disk
  sound := valid.sound
  cached := (valid.cache.agree k ref isValid).1
  inside := (valid.cache.inside k ref).2.2
  live := (valid.cache.agree k ref isValid).2

theorem Valid.locked (valid : Valid sb fs) (isLocked : (fs.icache k).locked = true) : InUse sb fs.dv fs.dv.image (fs.icache k) :=
  valid.inUse (valid.cache.locked k isLocked).1 (valid.cache.locked k isLocked).2

theorem Valid.dirFile (valid : Valid sb fs) (use : InUse sb fs.dv fs.dv.image (fs.icache k)) (isDir : (fs.icache k).type = T_DIR) :
    DirFile sb (fs.dv.image.file (fs.icache k).inum) :=
  valid.dirs _ use.inside (by rw [use.cached]; exact isDir)

end Xv6.Fs
