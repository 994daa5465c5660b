import Xv6.Fs.Log
import Xv6.Lib.Bits

/-!
# The on-disk format (`fs.h`)

The disk is an array of blocks: boot block, superblock, log, inode blocks, bitmap and
data blocks. Numbers are little-endian; the fields of `struct dinode` of type `short` are
kept as the 16-bit words that are stored. What `bread` returns is the current contents of
the block, whether it is in the buffer cache, in the log or at home (`Log`); a
`log_write` replaces it.

`Shows sb dv img` is the structured view of a disk: which bits of the bitmap are set, the
inodes and the data blocks. The lemmas at the end say that a write to one of these three
areas changes the view in this place only.
-/

namespace Xv6.Fs

open Words Bits Function

def NDIRECT : Nat := 12

/-- `BSIZE / sizeof(uint)`. -/
def NINDIRECT : Nat := 128

/-- Blocks of the largest file. -/
def MAXFILE : Nat := 140

/-- `sizeof(struct dinode)`. -/
def DINODE_SIZE : Nat := 64

/-- Inodes per block. -/
def IPB : Nat := 8

/-- Bitmap bits per block. -/
def BPB : Nat := 4096

def ROOTINO : Nat := 1

def T_DIR : Nat := 1

def T_FILE : Nat := 2

def T_DEV : Nat := 3

/-- `struct superblock`. -/
structure Superblock where
  size : Nat
  nblocks : Nat
  ninodes : Nat
  nlog : Nat
  logstart : Nat
  inodestart : Nat
  bmapstart : Nat
  deriving DecidableEq, Repr

/-- The copy `readsb` makes of block 1. -/
def getSuperblock (b : Block) : Superblock where
  size := getWord b 0
  nblocks := getWord b 4
  ninodes := getWord b 8
  nlog := getWord b 12
  logstart := getWord b 16
  inodestart := getWord b 20
  bmapstart := getWord b 24

/-- `struct dinode`; `addrs` has `NDIRECT + 1` entries. -/
@[ext] structure Dinode where
  type : Nat := 0
  major : Nat := 0
  minor : Nat := 0
  nlink : Nat := 0
  size : Nat := 0
  addrs : Nat → Nat := fun _ => 0

/-- The fields are in the range of their types. -/
structure Dinode.Wf (d : Dinode) : Prop where
  type : d.type < 2 ^ 16
  major : d.major < 2 ^ 16
  minor : d.minor < 2 ^ 16
  nlink : d.nlink < 2 ^ 16
  size : d.size < 2 ^ 32
  addrs : ∀ i, d.addrs i < 2 ^ 32
  length : ∀ i, NDIRECT < i → d.addrs i = 0

/-- The inode stored at offset `off` of a block. -/
def getDinode (b : Block) (off : Nat) : Dinode where
  type := getHalf b off
  major := getHalf b (off + 2)
  minor := getHalf b (off + 4)
  nlink := getHalf b (off + 6)
  size := getWord b (off + 8)
  addrs := fun i => if i ≤ NDIRECT then getWord b (off + 12 + 4 * i) else 0

/-- The block with an inode stored at offset `off`. -/
def putDinode (b : Block) (off : Nat) (d : Dinode) : Block :=
  let b := putHalf b off d.type
  let b := putHalf b (off + 2) d.major
  let b := putHalf b (off + 4) d.minor
  let b := putHalf b (off + 6) d.nlink
  let b := putWord b (off + 8) d.size
  putWords b (off + 12) d.addrs (NDIRECT + 1)

/-- Block containing inode `i`. -/
def IBLOCK (i : Nat) (sb : Superblock) : Nat := i / IPB + sb.inodestart

/-- Block of the free map containing the bit for block `b`. -/
def BBLOCK (b : Nat) (sb : Superblock) : Nat := b / BPB + sb.bmapstart

/-- Offset of inode `i` in its block. -/
def inodeOff (i : Nat) : Nat := i % IPB * DINODE_SIZE

/-- The disk and the kernel's copy of the superblock. -/
structure Dev where
  sb : Superblock
  disk : Nat → Block

def Dev.bread (dv : Dev) (b : Nat) : Block := dv.disk b

/-- `log_write` of the buffer of block `b`, whose data is now `data`. -/
def Dev.logWrite (dv : Dev) (b : Nat) (data : Block) : Dev := { dv with disk := Function.update dv.disk b data }

/-- `readsb(dev, &sb)`. -/
def Dev.readsb (dv : Dev) : Superblock := getSuperblock (dv.bread 1)

/-- The bit of block `b` in the bitmap. -/
def Dev.used (dv : Dev) (b : Nat) : Bool := getBit (dv.bread (BBLOCK b dv.sb)) (b % BPB)

/-- Inode `i` as it is on the disk. -/
def Dev.dinode (dv : Dev) (i : Nat) : Dinode := getDinode (dv.bread (IBLOCK i dv.sb)) (inodeOff i)

/-! ## Reading back an inode -/

section Codec

variable {b c : Block} {off off' : Nat} {d : Dinode}

/-- An inode depends on its 64 bytes only. -/
theorem getDinode_congr (same : ∀ o, off ≤ o → o < off + DINODE_SIZE → b o = c o) : getDinode b off = getDinode c off := by
  simp only [DINODE_SIZE] at same
  apply Dinode.ext
  · exact getHalf_congr fun o low high => same o low (by omega)
  · exact getHalf_congr fun o low high => same o (by omega) (by omega)
  · exact getHalf_congr fun o low high => same o (by omega) (by omega)
  · exact getHalf_congr fun o low high => same o (by omega) (by omega)
  · exact getWord_congr fun o low high => same o (by omega) (by omega)
  · funext i
    show (if i ≤ NDIRECT then _ else _) = if i ≤ NDIRECT then _ else _
    split
    · rename_i inside
      simp only [NDIRECT] at inside
      exact getWord_congr fun o low high => same o (by omega) (by omega)
    · rfl

theorem getDinode_wf (b : Block) (off : Nat) : (getDinode b off).Wf where
  type := getHalf_lt ..
  major := getHalf_lt ..
  minor := getHalf_lt ..
  nlink := getHalf_lt ..
  size := getWord_lt ..
  addrs := by
    intro i
    simp only [getDinode]
    split
    · exact getWord_lt ..
    · decide
  length := by
    intro i beyond
    simp only [getDinode]
    rw [if_neg (by omega)]

theorem putDinode_outside {o : Nat} (outside : o < off ∨ off + DINODE_SIZE ≤ o) : putDinode b off d o = b o := by
  simp only [DINODE_SIZE] at outside
  simp only [putDinode]
  rw [putWords_outside (by simp only [NDIRECT]; omega), putWord_outside (by omega), putHalf_outside (by omega),
    putHalf_outside (by omega), putHalf_outside (by omega), putHalf_outside (by omega)]

theorem getDinode_putDinode (wf : d.Wf) : getDinode (putDinode b off d) off = d := by
  -- each field is read where it was stored, and the later stores are outside it
  apply Dinode.ext
  · show getHalf (putDinode b off d) off = d.type
    rw [← Nat.mod_eq_of_lt wf.type, ← getHalf_putHalf b off d.type]
    apply getHalf_congr
    intro o low high
    simp only [putDinode]
    rw [putWords_outside (by omega), putWord_outside (by omega), putHalf_outside (by omega), putHalf_outside (by omega),
      putHalf_outside (by omega)]
  · show getHalf (putDinode b off d) (off + 2) = d.major
    rw [← Nat.mod_eq_of_lt wf.major, ← getHalf_putHalf (putHalf b off d.type) (off + 2) d.major]
    apply getHalf_congr
    intro o low high
    simp only [putDinode]
    rw [putWords_outside (by omega), putWord_outside (by omega), putHalf_outside (by omega), putHalf_outside (by omega)]
  · show getHalf (putDinode b off d) (off + 4) = d.minor
    rw [← Nat.mod_eq_of_lt wf.minor,
      ← getHalf_putHalf (putHalf (putHalf b off d.type) (off + 2) d.major) (off + 4) d.minor]
    apply getHalf_congr
    intro o low high
    simp only [putDinode]
    rw [putWords_outside (by omega), putWord_outside (by omega), putHalf_outside (by omega)]
  · show getHalf (putDinode b off d) (off + 6) = d.nlink
    rw [← Nat.mod_eq_of_lt wf.nlink,
      ← getHalf_putHalf (putHalf (putHalf (putHalf b off d.type) (off + 2) d.major) (off + 4) d.minor) (off + 6) d.nlink]
    apply getHalf_congr
    intro o low high
    simp only [putDinode]
    rw [putWords_outside (by omega), putWord_outside (by omega)]
  · show getWord (putDinode b off d) (off + 8) = d.size
    rw [← Nat.mod_eq_of_lt wf.size, ← getWord_putWord
      (putHalf (putHalf (putHalf (putHalf b off d.type) (off + 2) d.major) (off + 4) d.minor) (off + 6) d.nlink) (off + 8) d.size]
    apply getWord_congr
    intro o low high
    simp only [putDinode]
    rw [putWords_outside (by omega)]
  · funext i
    show (if i ≤ NDIRECT then _ else _) = d.addrs i
    split
    · rename_i inside
      simp only [putDinode]
      rw [getWord_putWords (by omega), Nat.mod_eq_of_lt (wf.addrs i)]
    · rename_i beyond
      rw [wf.length i (by omega)]

theorem getDinode_putDinode_apart (apart : off' + DINODE_SIZE ≤ off ∨ off + DINODE_SIZE ≤ off') :
    getDinode (putDinode b off d) off' = getDinode b off' :=
  getDinode_congr fun _ _ _ => putDinode_outside (by omega)

/-- The bytes of an inode are cleared and its type is set, as `ialloc` does. -/
theorem getDinode_cleared (b : Block) (off : Nat) {type : Nat} (short : type < 2 ^ 16) :
    getDinode (putHalf (blit b off (fun _ => 0) DINODE_SIZE) off type) off = { type := type } := by
  generalize isNew : putHalf (blit b off (fun _ => 0) DINODE_SIZE) off type = c
  have blank : ∀ o, off + 2 ≤ o → o < off + DINODE_SIZE → c o = 0 := by
    intro o low high
    rw [← isNew, putHalf_outside (by omega), blit, if_pos (by omega)]
  simp only [DINODE_SIZE] at blank
  have half : ∀ o, off + 2 ≤ o → o + 2 ≤ off + 64 → getHalf c o = 0 := by
    intro o low high
    rw [getHalf, blank o (by omega) (by omega), blank (o + 1) (by omega) (by omega)]
    rfl
  have word : ∀ o, off + 2 ≤ o → o + 4 ≤ off + 64 → getWord c o = 0 := by
    intro o low high
    rw [getWord, blank o (by omega) (by omega), blank (o + 1) (by omega) (by omega), blank (o + 2) (by omega) (by omega),
      blank (o + 3) (by omega) (by omega)]
    rfl
  apply Dinode.ext
  · show getHalf c off = type
    rw [← isNew, getHalf_putHalf, Nat.mod_eq_of_lt short]
  · exact half _ (by omega) (by omega)
  · exact half _ (by omega) (by omega)
  · exact half _ (by omega) (by omega)
  · exact word _ (by omega) (by omega)
  · funext i
    show (if i ≤ NDIRECT then _ else 0) = 0
    split
    · rename_i direct
      simp only [NDIRECT] at direct
      exact word _ (by omega) (by omega)
    · rfl

end Codec

/-! ## The areas of the disk -/

namespace Superblock

/-- The blocks before the data area. -/
def nmeta (sb : Superblock) : Nat := sb.size - sb.nblocks

/-- The areas are in order and large enough for what they hold. -/
structure Wf (sb : Superblock) : Prop where
  log : 1 < sb.inodestart
  inodes : sb.inodestart ≤ sb.bmapstart
  inodesFit : sb.ninodes ≤ (sb.bmapstart - sb.inodestart) * IPB
  bitmap : sb.bmapstart ≤ sb.nmeta
  bitmapFit : sb.size ≤ (sb.nmeta - sb.bmapstart) * BPB
  size : sb.size < 2 ^ 31
  root : ROOTINO < sb.ninodes
  inums : sb.ninodes ≤ 2 ^ 16

variable {sb : Superblock} {i b c : Nat}

theorem Wf.iblock (wf : sb.Wf) (inside : i < sb.ninodes) : 1 < IBLOCK i sb ∧ IBLOCK i sb < sb.bmapstart := by
  have := wf.log
  have := wf.inodes
  have := wf.inodesFit
  simp only [IBLOCK, IPB] at *
  omega

theorem Wf.bblock (wf : sb.Wf) (inside : b < sb.size) : sb.bmapstart ≤ BBLOCK b sb ∧ BBLOCK b sb < sb.nmeta := by
  have := wf.bitmap
  have := wf.bitmapFit
  simp only [BBLOCK, BPB] at *
  omega

theorem Wf.nmeta_pos (wf : sb.Wf) : 1 < sb.nmeta := by
  have := wf.log
  have := wf.inodes
  have := wf.bitmap
  omega

end Superblock

/-- What a disk holds, by area. -/
structure Image where
  used : Nat → Bool
  inode : Nat → Dinode
  data : Nat → Block

/-- The disk read with the kernel's functions. -/
def Dev.image (dv : Dev) : Image where
  used := dv.used
  inode := dv.dinode
  data := dv.bread

/-- The disk has the layout `sb` and holds `img`. -/
structure Shows (sb : Superblock) (dv : Dev) (img : Image) : Prop where
  wf : sb.Wf
  copy : dv.sb = sb
  superblock : dv.readsb = sb
  used : ∀ b < sb.size, dv.used b = img.used b
  inode : ∀ i < sb.ninodes, dv.dinode i = img.inode i
  data : ∀ b, sb.nmeta ≤ b → dv.bread b = img.data b

namespace Shows

variable {sb : Superblock} {dv : Dev} {img : Image}

theorem self (wf : sb.Wf) (copy : dv.sb = sb) (superblock : dv.readsb = sb) : Shows sb dv dv.image where
  wf := wf
  copy := copy
  superblock := superblock
  used := fun _ _ => rfl
  inode := fun _ _ => rfl
  data := fun _ _ => rfl

/-- A data block is replaced. -/
theorem writeData (shows_ : Shows sb dv img) {b : Nat} (isData : sb.nmeta ≤ b) (x : Block) :
    Shows sb (dv.logWrite b x) { img with data := update img.data b x } where
  wf := shows_.wf
  copy := shows_.copy
  superblock := by
    have := shows_.wf.nmeta_pos
    refine Eq.trans (congrArg getSuperblock ?_) shows_.superblock
    exact update_of_ne (by omega) ..
  used := by
    intro c inside
    have := (shows_.wf.bblock inside).2
    rw [← shows_.used c inside]
    refine congrArg (getBit · _) (update_of_ne ?_ ..)
    show BBLOCK c dv.sb ≠ b
    rw [shows_.copy]
    omega
  inode := by
    intro i inside
    have := (shows_.wf.iblock inside).2
    have := shows_.wf.bitmap
    rw [← shows_.inode i inside]
    refine congrArg (getDinode · _) (update_of_ne ?_ ..)
    show IBLOCK i dv.sb ≠ b
    rw [shows_.copy]
    omega
  data := by
    intro c above
    show update dv.disk b x c = update img.data b x c
    by_cases same : c = b
    · rw [same, update_self, update_self]
    · rw [update_of_ne same, update_of_ne same]
      exact shows_.data c above

/-- A block of the bitmap is replaced by one that differs in the bit of block `b`. -/
theorem writeBit (shows_ : Shows sb dv img) {b : Nat} (inside : b < sb.size) {x : Block} {v : Bool}
    (bits : ∀ j, getBit x j = if j = b % BPB then v else getBit (dv.bread (BBLOCK b sb)) j) :
    Shows sb (dv.logWrite (BBLOCK b sb) x) { img with used := update img.used b v } where
  wf := shows_.wf
  copy := shows_.copy
  superblock := by
    have := (shows_.wf.bblock inside).1
    have := shows_.wf.log
    have := shows_.wf.inodes
    refine Eq.trans (congrArg getSuperblock ?_) shows_.superblock
    exact update_of_ne (by omega) ..
  used := by
    intro c below
    show getBit (update dv.disk (BBLOCK b sb) x (BBLOCK c dv.sb)) (c % BPB) = update img.used b v c
    have old := shows_.used c below
    rw [Dev.used, shows_.copy] at old
    rw [shows_.copy]
    by_cases block : BBLOCK c sb = BBLOCK b sb
    · rw [block, update_self, bits]
      by_cases same : c = b
      · rw [same, if_pos rfl, update_self]
      · have other : c % BPB ≠ b % BPB := by
          simp only [BBLOCK, BPB] at *
          omega
        rw [if_neg other, update_of_ne same, ← old, ← block]
    · have other : c ≠ b := fun same => block (by rw [same])
      rw [update_of_ne block, update_of_ne other]
      exact old
  inode := by
    intro i below
    have := (shows_.wf.iblock below).2
    have := (shows_.wf.bblock inside).1
    rw [← shows_.inode i below]
    refine congrArg (getDinode · _) (update_of_ne ?_ ..)
    show IBLOCK i dv.sb ≠ BBLOCK b sb
    rw [shows_.copy]
    omega
  data := by
    intro c above
    have := (shows_.wf.bblock inside).2
    rw [← shows_.data c above]
    exact update_of_ne (by omega) ..

/-- The 64 bytes of one inode are replaced. -/
theorem writeInode (shows_ : Shows sb dv img) {i : Nat} (inside : i < sb.ninodes) {x : Block} {d : Dinode}
    (here : getDinode x (inodeOff i) = d)
    (others : ∀ o, o < inodeOff i ∨ inodeOff i + DINODE_SIZE ≤ o → x o = dv.bread (IBLOCK i sb) o) :
    Shows sb (dv.logWrite (IBLOCK i sb) x) { img with inode := update img.inode i d } where
  wf := shows_.wf
  copy := shows_.copy
  superblock := by
    have := (shows_.wf.iblock inside).1
    refine Eq.trans (congrArg getSuperblock ?_) shows_.superblock
    exact update_of_ne (by omega) ..
  used := by
    intro c below
    have := (shows_.wf.iblock inside).2
    have := (shows_.wf.bblock below).1
    rw [← shows_.used c below]
    refine congrArg (getBit · _) (update_of_ne ?_ ..)
    show BBLOCK c dv.sb ≠ IBLOCK i sb
    rw [shows_.copy]
    omega
  inode := by
    intro j below
    show getDinode (update dv.disk (IBLOCK i sb) x (IBLOCK j dv.sb)) (inodeOff j) = update img.inode i d j
    have old := shows_.inode j below
    rw [Dev.dinode, shows_.copy] at old
    rw [shows_.copy]
    by_cases block : IBLOCK j sb = IBLOCK i sb
    · rw [block, update_self]
      by_cases same : j = i
      · rw [same, update_self, here]
      · rw [update_of_ne same, ← old, block]
        apply getDinode_congr
        intro o low high
        apply others
        simp only [IBLOCK, inodeOff, IPB, DINODE_SIZE] at *
        omega
    · have other : j ≠ i := fun same => block (by rw [same])
      rw [update_of_ne block, update_of_ne other]
      exact old
  data := by
    intro c above
    have := (shows_.wf.iblock inside).2
    have := shows_.wf.bitmap
    rw [← shows_.data c above]
    exact update_of_ne (by omega) ..

end Shows

end Xv6.Fs
