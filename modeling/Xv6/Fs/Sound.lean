import Xv6.Fs.Content

/-!
# Sound images

An image is sound when its blocks are owned as `Owned` says and every allocated inode has
a block for each index below its size. A call of `writei` on a cached inode that agrees
with the disk leaves a sound image and a cached inode that agrees with it again: the
inode is written back only when the file grows, but it is also changed only then.
-/

namespace Xv6.Fs

open Fallible Words BlockMap

structure Sound (sb : Superblock) (img : Image) : Prop where
  owned : Owned sb img img.inode
  mapped : ∀ i < sb.ninodes, (img.inode i).type ≠ 0 → Mapped img.data (img.inode i) (img.inode i).size

/-- The contents of file `i`. -/
def Image.file (img : Image) (i : Nat) : Xv6.Inode := contents img.data (img.inode i)

/-- `img'` has the inodes and files of `img`, except those of inode `i`. -/
structure Elsewhere (sb : Superblock) (img : Image) (i : Nat) (img' : Image) : Prop where
  inode : ∀ j, j ≠ i → img'.inode j = img.inode j
  file : ∀ j < sb.ninodes, j ≠ i → (img.inode j).type ≠ 0 → img'.file j = img.file j

/-- `writei(ip, src, off, n)` wrote its bytes. -/
structure FileWrite (sb : Superblock) (img : Image) (ip : Inode) (src : Bytes) (off n : Nat) (ip' : Inode) (img' : Image) :
    Prop where
  sound : Sound sb img'
  cached : img'.inode ip.inum = ip'.toDinode
  rest : ip' = { ip with size := ip'.size, addrs := ip'.addrs }
  file : Xv6.writei (img.file ip.inum) src off n = some (img'.file ip.inum)
  others : Elsewhere sb img ip.inum img'

variable {sb : Superblock} {dv : Dev} {img img' : Image} {ip ip' : Inode} {src : Bytes} {off n : Nat}

theorem table_cached (cached : img.inode ip.inum = ip.toDinode) : img.table ip = img.inode := by
  rw [Image.table, ← cached, Function.update_eq_self]

/-- The slots depend on the types and the pointers only. -/
theorem slots_pointers {data : Nat → Block} {T T' : Nat → Dinode}
    (same : ∀ i, (T' i).type = (T i).type ∧ (T' i).addrs = (T i).addrs) : slots sb data T' = slots sb data T := by
  funext x
  simp only [slots, slot, (same x.1).1, (same x.1).2]

/-- The inode with its size set. -/
def Inode.resize (ip : Inode) (size : Nat) : Inode := { ip with size := size }

@[simp] theorem Inode.resize_size (ip : Inode) (size : Nat) : (ip.resize size).size = size := rfl

theorem slots_resize (img : Image) (data : Nat → Block) (ip : Inode) (size : Nat) :
    slots sb data (img.table (ip.resize size)) = slots sb data (img.table ip) := by
  apply slots_pointers
  intro i
  by_cases own : i = ip.inum
  · rw [own, table_self img ip]
    have new := table_self img (ip.resize size)
    rw [show (ip.resize size).inum = ip.inum from rfl] at new
    rw [new]
    exact ⟨rfl, rfl⟩
  · rw [table_of_ne img own, table_of_ne img (show i ≠ (ip.resize size).inum from own)]
    exact ⟨rfl, rfl⟩

theorem iupdate_shows (shows_ : Shows sb dv img) (inside : ip.inum < sb.ninodes) (wf : ip.toDinode.Wf) :
    Shows sb (iupdate dv ip) { img with inode := img.table ip } := by
  rw [iupdate, shows_.copy]
  exact shows_.writeInode inside (getDinode_putDinode wf) fun _ outside => putDinode_outside outside

theorem Shows.inode_wf (shows_ : Shows sb dv img) {i : Nat} (inside : i < sb.ninodes) : (img.inode i).Wf := by
  rw [← shows_.inode i inside]
  exact getDinode_wf ..

/-- The pointers of an allocated inode are block numbers. -/
theorem Owned.addrs_lt (owned : Owned sb img (img.table ip)) (wf : sb.Wf) (inside : ip.inum < sb.ninodes) (live : ip.type ≠ 0)
    {k : Nat} (direct : k ≤ NDIRECT) : ip.addrs k < 2 ^ 32 := by
  have own := slots_self img img.data inside live k
  rw [slot_direct direct] at own
  rw [← own]
  by_cases zero : slots sb img.data (img.table ip) (ip.inum, k) = 0
  · rw [zero]
    decide
  · have := (owned.area _ zero).2
    have := wf.size
    omega

/-! ## The disk itself

What was proved about an image that the disk shows holds of the image that is read from
the disk. -/

section Disk

variable (shows_ : Shows sb dv img) (sound : Sound sb img)

include shows_

theorem Shows.image : Shows sb dv dv.image := .self shows_.wf shows_.copy shows_.superblock

include sound

theorem Sound.slot_image {i : Nat} (inside : i < sb.ninodes) (live : (img.inode i).type ≠ 0) (k : Nat) :
    slot dv.image.data (dv.image.inode i) k = slot img.data (img.inode i) k := by
  have same : dv.image.inode i = img.inode i := shows_.inode i inside
  rw [same]
  apply slot_congr
  intro pointer
  have own : slots sb img.data img.inode (i, NDIRECT) = (img.inode i).addrs NDIRECT := by
    rw [slots_live inside live, slot_direct (Nat.le_refl _)]
  apply shows_.data
  rw [← own]
  exact (sound.owned.area _ (by rw [own]; exact pointer)).1

theorem Sound.slots_image : slots sb dv.image.data dv.image.inode = slots sb img.data img.inode := by
  funext x
  obtain ⟨i, k⟩ := x
  by_cases inside : i < sb.ninodes
  · have same : dv.image.inode i = img.inode i := shows_.inode i inside
    by_cases free : (img.inode i).type = 0
    · rw [slots_free free, slots_free (by rw [same]; exact free)]
    · rw [slots_live inside free, slots_live inside (by rw [same]; exact free), sound.slot_image shows_ inside free]
  · rw [slots, slots, if_neg (fun live => inside live.1), if_neg (fun live => inside live.1)]

theorem Sound.image : Sound sb dv.image where
  owned := sound.owned.congr (congrFun (sound.slots_image shows_)) shows_.used
  mapped := by
    intro i inside live bn below
    have same : dv.image.inode i = img.inode i := shows_.inode i inside
    rw [same] at live below
    rw [sound.slot_image shows_ inside live]
    exact sound.mapped i inside live bn below

theorem Sound.file_image {i : Nat} (inside : i < sb.ninodes) (live : (img.inode i).type ≠ 0) : dv.image.file i = img.file i := by
  have same : dv.image.inode i = img.inode i := shows_.inode i inside
  simp only [Image.file, contents, same]
  congr 1
  funext o
  by_cases within : o < (img.inode i).size
  · have mapped := (sound.mapped i inside live).of_lt within
    have onDisk := sound.slot_image shows_ inside live (key (o / BSIZE))
    rw [same] at onDisk
    have isData : sb.nmeta ≤ slot img.data (img.inode i) (key (o / BSIZE)) := by
      rw [← slots_live inside live]
      exact (sound.owned.area _ (by rw [slots_live inside live]; exact mapped)).1
    rw [if_pos within, if_pos within, fileByte, fileByte, onDisk]
    exact congrFun (shows_.data _ isData) _
  · rw [if_neg within, if_neg within]

end Disk

/-! ## Writing -/

section Write

variable (shows_ : Shows sb dv img) (sound : Sound sb img) (cached : img.inode ip.inum = ip.toDinode)
  (inside : ip.inum < sb.ninodes) (live : ip.type ≠ 0)

include sound cached inside live

theorem cached_mapped : Mapped img.data ip.toDinode ip.size := by
  have := sound.mapped ip.inum inside (by rw [cached]; exact live)
  rwa [cached] at this

omit inside live in
theorem cached_owned : Owned sb img (img.table ip) := by
  rw [table_cached cached]
  exact sound.owned

omit cached inside live in
/-- The files of other inodes keep their blocks and contents. -/
theorem Written.others_file {len : Nat} (written : Written sb img ip src off len ip' img') {j : Nat} (insideJ : j < sb.ninodes)
    (other : j ≠ ip.inum) (liveJ : (img.inode j).type ≠ 0) :
    Mapped img'.data (img.inode j) (img.inode j).size ∧ contents img'.data (img.inode j) = contents img.data (img.inode j) := by
  have mappedJ := sound.mapped j insideJ liveJ
  have own : ∀ k, slots sb img.data (img.table ip) (j, k) = slot img.data (img.inode j) k := by
    intro k
    rw [slots_live insideJ (by rw [table_of_ne img other]; exact liveJ), table_of_ne img other]
  have other' : j ≠ ip'.inum := by rw [written.inum]; exact other
  have own' : ∀ k, slots sb img'.data (img'.table ip') (j, k) = slot img'.data (img.inode j) k := by
    intro k
    rw [slots_live insideJ (by rw [table_of_ne img' other', written.inode]; exact liveJ), table_of_ne img' other', written.inode]
  have kept : ∀ k, slot img.data (img.inode j) k ≠ 0 → slot img'.data (img.inode j) k = slot img.data (img.inode j) k := by
    intro k some_
    rw [← own', written.keeps (j, k) (by rw [own]; exact some_), own]
  constructor
  · intro bn below
    rw [kept _ (mappedJ bn below)]
    exact mappedJ bn below
  · simp only [contents]
    congr 1
    funext o
    by_cases within : o < (img.inode j).size
    · have some_ := mappedJ.of_lt within
      have data := written.others (j, key (o / BSIZE)) (key_ne _) other (by rw [own]; exact some_)
      rw [own] at data
      rw [if_pos within, if_pos within, fileByte, fileByte, kept _ some_, data]
    · rw [if_neg within, if_neg within]

/-- The loop has run and the size is set: the disk has the new inode. -/
theorem Written.fileWrite (written : Written sb img ip src off n ip' img') (fits : off ≤ ip.size) (room : off + n ≤ MAXFILE * BSIZE)
    (word : off + n < 2 ^ 32) {size : Nat} (isSize : size = if 0 < n ∧ ip.size < off + n then off + n else ip.size) {img'' : Image}
    (isImg : img'' = { img' with inode := img'.table (ip'.resize size) }) :
    FileWrite sb img ip src off n (ip'.resize size) img'' := by
  have mapped := cached_mapped sound cached inside live
  have isTable : img''.inode = img'.table (ip'.resize size) := by rw [isImg]
  have isData : img''.data = img'.data := by rw [isImg]
  have here : img''.inode ip.inum = (ip'.resize size).toDinode := by
    rw [isTable, ← written.inum]
    exact table_self img' (ip'.resize size)
  have elsewhere : ∀ j, j ≠ ip.inum → img''.inode j = img.inode j := by
    intro j other
    rw [isTable, ← written.inode]
    apply table_of_ne img'
    show j ≠ ip'.inum
    rw [written.inum]
    exact other
  have sameSlot : ∀ k, slot img'.data (ip'.resize size).toDinode k = slot img'.data ip'.toDinode k := fun _ => rfl
  have mapped' := written.mapped inside live mapped
  have total : Mapped img'.data (ip'.resize size).toDinode size := by
    intro bn below
    rw [sameSlot]
    by_cases old : bn * BSIZE < ip.size
    · exact mapped' bn old
    · -- the block starts in the part that was written
      have grew : size = off + n := by
        rw [isSize] at below ⊢
        split at below
        · rename_i grows
          rw [if_pos grows]
        · omega
      have new := (written.new (bn * BSIZE) (by omega) (by omega)).1
      rwa [Nat.mul_div_cancel _ (by decide)] at new
  refine ⟨⟨?_, ?_⟩, here, ?_, ?_, ⟨elsewhere, ?_⟩⟩
  · rw [isImg]
    exact Owns.congr written.owned (fun x => congrFun (slots_resize img' img'.data ip' size) x) (fun _ _ => rfl)
  · intro j insideJ liveJ
    by_cases at_ : j = ip.inum
    · rw [at_, here, isData]
      exact total
    · rw [elsewhere j at_, isData]
      rw [elsewhere j at_] at liveJ
      exact (written.others_file sound insideJ at_ liveJ).1
  · rw [written.rest]
    rfl
  · have good : ¬ ((img.file ip.inum).size < off ∨ 2 ^ 32 ≤ off + n) := by
      simp only [Image.file, contents, cached]
      omega
    have short : ¬ MAXFILE_BYTES < off + n := by
      simp only [MAXFILE, BSIZE, MAXFILE_BYTES] at *
      omega
    rw [Xv6.writei, if_neg good, if_neg short]
    simp only [Image.file, contents, here, cached, isData, Inode.resize_size]
    congr 2
    · exact isSize.symm
    · funext o
      by_cases range : off ≤ o ∧ o < off + n
      · have below : o < size := by
          rw [isSize]
          split
          · omega
          · omega
        rw [if_pos range, if_pos below]
        exact (written.new o range.1 range.2).2.symm
      · rw [if_neg range]
        by_cases within : o < ip.size
        · have below : o < size := by
            rw [isSize]
            split
            · omega
            · omega
          rw [if_pos within, if_pos below]
          exact (written.old o (mapped.of_lt within) range).symm
        · have beyond : ¬ o < size := by
            rw [isSize]
            split
            · omega
            · omega
          rw [if_neg within, if_neg beyond]
  · intro j insideJ other liveJ
    simp only [Image.file, elsewhere j other, isData]
    exact (written.others_file sound insideJ other liveJ).2

omit sound cached inside live in
/-- When `writei` refuses a request it changes nothing. -/
theorem writei_refused (devsw : Devsw) (dv : Dev) (src : Bytes) (file : ip.type ≠ T_DEV) (word : off < 2 ^ 32) (wordN : n < 2 ^ 32)
    (bad : ip.size < off ∨ 2 ^ 32 ≤ off + n ∨ MAXFILE * BSIZE < off + n) : writei devsw dv ip src off n = .ok (-1, ip, dv) := by
  rw [writei, if_neg file]
  by_cases first : ip.size < off ∨ add32 off n < off
  · rw [if_pos first]
    rfl
  · have sum : add32 off n = off + n ∧ off + n < 2 ^ 32 := by
      simp only [add32] at first ⊢
      omega
    rw [if_neg first, if_pos (by omega)]
    rfl

end Write

/-- A cached inode that is allocated and agrees with the disk, whose image is sound. -/
structure InUse (sb : Superblock) (dv : Dev) (img : Image) (ip : Inode) : Prop where
  disk : Shows sb dv img
  sound : Sound sb img
  cached : img.inode ip.inum = ip.toDinode
  inside : ip.inum < sb.ninodes
  live : ip.type ≠ 0

namespace InUse

variable (use : InUse sb dv img ip)

include use

theorem mapped : Mapped img.data ip.toDinode ip.size := cached_mapped use.sound use.cached use.inside use.live

theorem owned : Owned sb img (img.table ip) := cached_owned use.sound use.cached

theorem file_eq : contents img.data ip.toDinode = img.file ip.inum := by
  rw [Image.file, use.cached]

theorem size_eq : (img.file ip.inum).size = ip.size := by
  rw [← use.file_eq]
  rfl

theorem size_lt : (img.file ip.inum).size < 2 ^ 32 := (use.disk.inode_wf use.inside).size

/-- `readi` reads the byte string of the file. -/
theorem readi_eq (devsw : Devsw) (file : ip.type ≠ T_DEV) (dst : Bytes) (word : off < 2 ^ 32) (wordN : n < 2 ^ 32) :
    readi devsw dv ip dst off n = match Xv6.readi (img.file ip.inum) off n with
      | none => .ok (-1, dst, ip, dv)
      | some r => .ok (r, (img.file ip.inum).fill off r dst, ip, dv) := by
  have read := Fs.readi_eq devsw use.disk use.owned use.inside use.live use.mapped file dst word wordN
  rw [use.file_eq] at read
  refine read.trans ?_
  cases Xv6.readi (img.file ip.inum) off n with
  | none => rfl
  | some r => rfl

/-- `writei` writes it, unless it refuses or the disk has fewer free blocks than that takes. -/
theorem writei_cases (devsw : Devsw) (src : Bytes) (file : ip.type ≠ T_DEV) (fits : off ≤ ip.size)
    (room : off + n ≤ MAXFILE * BSIZE) :
    (∃ ip' dv' img', writei devsw dv ip src off n = .ok ((n : Int), ip', dv') ∧ Shows sb dv' img' ∧
      FileWrite sb img ip src off n ip' img') ∨
    writei devsw dv ip src off n = .error (.panic "balloc: out of blocks") ∧
      free sb.size img.used < need img.data ip.toDinode off n := by
  have owned := use.owned
  have mapped := use.mapped
  obtain ⟨shows_, sound, cached, inside, live⟩ := use
  have small : off + n < 2 ^ 32 := by
    simp only [MAXFILE, BSIZE] at room
    omega
  have sum : add32 off n = off + n := Nat.mod_eq_of_lt small
  rw [writei, if_neg file, sum, if_neg (by omega), if_neg (by omega)]
  rcases writeiLoop_cases src shows_ owned inside live mapped (Nat.lt_succ_self (n - 0)) room with
    ⟨ip1, dv1, img1, isOk, shows1, written⟩ | ⟨isError, short⟩
  · left
    simp only [Nat.zero_add, Nat.sub_zero] at written isOk
    have inside1 : ip1.inum < sb.ninodes := by rw [written.inum]; exact inside
    have live1 : ip1.type ≠ 0 := by rw [written.type]; exact live
    rw [isOk, ok_bind]
    show ∃ ip' dv' img', (if 0 < n ∧ ip1.size < off + n then _ else _) = _ ∧ _
    by_cases grows : 0 < n ∧ ip1.size < off + n
    · -- the size changes and the inode goes to the disk
      have grows' : 0 < n ∧ ip.size < off + n := by rw [← written.size]; exact grows
      have wf : (ip1.resize (off + n)).toDinode.Wf := by
        have old := shows_.inode_wf inside
        rw [cached] at old
        have same : (ip1.resize (off + n)).toDinode = { ip.toDinode with size := off + n, addrs := ip1.addrs } := by
          rw [written.rest]
          rfl
        rw [same]
        refine ⟨old.type, old.major, old.minor, old.nlink, small, ?_, ?_⟩
        · intro k
          show ip1.addrs k < 2 ^ 32
          by_cases direct : k ≤ NDIRECT
          · exact written.owned.addrs_lt shows_.wf inside1 live1 direct
          · rw [written.beyond k (by omega)]
            exact old.addrs k
        · intro k beyond
          show ip1.addrs k = 0
          rw [written.beyond k beyond]
          exact old.length k beyond
      have done := written.fileWrite sound cached inside live fits room small (if_pos grows').symm rfl
      rw [if_pos grows]
      exact ⟨_, _, _, rfl, iupdate_shows shows1 inside1 wf, done⟩
    · -- nothing was allocated, so the copies still agree
      have grows' : ¬ (0 < n ∧ ip.size < off + n) := by rw [← written.size]; exact grows
      have same : ip1 = ip := by
        rcases written.grown with eq | more
        · exact eq
        · omega
      have agree : img1.inode ip1.inum = (ip1.resize ip.size).toDinode := by
        rw [written.inode, same]
        exact cached
      have noWrite : ({ img1 with inode := img1.table (ip1.resize ip.size) } : Image) = img1 := by
        rw [table_cached agree]
      have done := written.fileWrite sound cached inside live fits room small (if_neg grows').symm rfl
      rw [noWrite, same] at done
      rw [if_neg grows, same]
      exact ⟨_, _, _, rfl, shows1, done⟩
  · right
    rw [Nat.sub_zero] at isError
    rw [isError]
    exact ⟨rfl, short⟩

end InUse

end Xv6.Fs
