import Xv6.Fs.Calls

/-!
# Every call keeps the invariant

For each call: the state afterwards is valid, and every file other than the one the call
works on is unchanged. `Moves sb fs i g fs'` says that file `i` was edited by `g`; most
calls edit nothing. An `iput` may free its inode.
-/

namespace Xv6.Fs

open Fallible Words Tables CString BlockMap Function

/-- The state is valid afterwards and the file of inode `i`, unless that is a device, was
edited by `g`. -/
structure Moves (sb : Superblock) (fs : FileSys) (i : Nat) (g : Xv6.Inode → Xv6.Inode) (fs' : FileSys) : Prop where
  valid : Valid sb fs'
  types : ∀ j < sb.ninodes, (fs.dv.image.inode j).type ≠ 0 → (fs'.dv.image.inode j).type = (fs.dv.image.inode j).type
  files : ∀ j < sb.ninodes, (fs.dv.image.inode j).type ≠ 0 → fs'.dv.image.file j =
    if j = i ∧ (fs.dv.image.inode j).type ≠ T_DEV then g (fs.dv.image.file j) else fs.dv.image.file j

variable {sb : Superblock} {fs fs' : FileSys} {img' : Image} {icache : Nat → Inode} {dv : Dev} {k i : Nat} {ip : Inode}
  {g : Xv6.Inode → Xv6.Inode} {devsw : Devsw} {name : Bytes} {inum : Nat} {src : Bytes} {off n : Nat} {ip' : Inode}

/-- The same for an image that the new disk shows. -/
theorem Moves.of_image (disk : Shows sb dv img') (sound : Sound sb img')
    (dirs : ∀ i < sb.ninodes, (img'.inode i).type = T_DIR → DirFile sb (img'.file i)) (cache : Cached sb img' icache)
    (types : ∀ j < sb.ninodes, (fs.dv.image.inode j).type ≠ 0 → (img'.inode j).type = (fs.dv.image.inode j).type)
    (files : ∀ j < sb.ninodes, (fs.dv.image.inode j).type ≠ 0 → img'.file j =
      if j = i ∧ (fs.dv.image.inode j).type ≠ T_DEV then g (fs.dv.image.file j) else fs.dv.image.file j) :
    Moves sb fs i g { dv := dv, icache := icache } where
  valid := .of_image disk sound dirs cache
  types := by
    intro j inside live
    have same : dv.image.inode j = img'.inode j := disk.inode j inside
    show (dv.image.inode j).type = _
    rw [same]
    exact types j inside live
  files := by
    intro j inside live
    show dv.image.file j = _
    rw [sound.file_image disk inside (by rw [types j inside live]; exact live)]
    exact files j inside live

/-- The disk did not change. -/
theorem Moves.of_cache (valid : Valid sb fs) (cache : Cached sb fs.dv.image icache)
    (nothing : (fs.dv.image.inode i).type ≠ T_DEV → g (fs.dv.image.file i) = fs.dv.image.file i) :
    Moves sb fs i g { dv := fs.dv, icache := icache } := by
  refine .of_image valid.disk valid.sound valid.dirs cache (fun _ _ _ => rfl) ?_
  intro j _ _
  split
  · rename_i here
    obtain ⟨rfl, file⟩ := here
    exact (nothing file).symm
  · rfl

/-- One step after another that edits nothing. -/
theorem Moves.after (first : Moves sb fs i id fs') {fs'' : FileSys} (second : Moves sb fs' i g fs'') : Moves sb fs i g fs'' where
  valid := second.valid
  types := by
    intro j inside live
    have eq := first.types j inside live
    rw [second.types j inside (by rw [eq]; exact live), eq]
  files := by
    intro j inside live
    have eq := first.types j inside live
    have same : fs'.dv.image.file j = fs.dv.image.file j := by
      rw [first.files j inside live, id_eq, ite_self]
    rw [second.files j inside (by rw [eq]; exact live), eq, same]

/-! ## The cache -/

section

variable (valid : Valid sb fs)
include valid

/-- `iget` finds the entry of the inode, or takes an unused one. -/
theorem iget_cases (isOk : iget fs inum = .ok (k, fs')) :
    0 < (fs.icache k).ref ∧ (fs.icache k).inum = inum ∧ fs' = fs.put k { fs.icache k with ref := (fs.icache k).ref + 1 } ∨
      k < NINODE ∧ (fs.icache k).ref = 0 ∧ (∀ m, 0 < (fs.icache m).ref → (fs.icache m).inum ≠ inum) ∧
        fs' = fs.put k { fs.icache k with inum := inum, ref := 1, valid := false } := by
  rw [iget] at isOk
  split at isOk
  · rename_i m found
    cases isOk
    obtain ⟨_, test, _⟩ := first_some found
    simp only [Bool.and_eq_true, decide_eq_true_eq, beq_iff_eq] at test
    exact .inl ⟨test.1, test.2, rfl⟩
  · rename_i notCached
    split at isOk
    · cases isOk
    · rename_i m found
      cases isOk
      obtain ⟨inside, test, _⟩ := first_some found
      refine .inr ⟨inside, by simpa using test, ?_, rfl⟩
      intro m ref same
      have := first_none notCached m (valid.cache.inside m ref).1
      simp [ref, same] at this

/-- What `iget` leaves. -/
structure Got (sb : Superblock) (fs : FileSys) (inum k : Nat) (fs' : FileSys) : Prop where
  valid : Valid sb fs'
  dv : fs'.dv = fs.dv
  inum : (fs'.icache k).inum = inum
  ref : 0 < (fs'.icache k).ref
  /-- An entry in use may get one more reference. -/
  used : ∀ m, 0 < (fs.icache m).ref → ∃ r, 0 < r ∧ fs'.icache m = { fs.icache m with ref := r }

theorem Got.moves (got : Got sb fs inum k fs') (i : Nat) : Moves sb fs i id fs' := by
  have cache : Cached sb fs.dv.image fs'.icache := by
    rw [← got.dv]
    exact got.valid.cache
  have moves := Moves.of_cache (i := i) (g := id) valid cache fun _ => rfl
  rwa [← got.dv] at moves

theorem iget_got (pos : 0 < inum) (inside : inum < sb.ninodes) (isOk : iget fs inum = .ok (k, fs')) : Got sb fs inum k fs' := by
  rcases iget_cases valid isOk with ⟨ref, same, rfl⟩ | ⟨below, zero, fresh, rfl⟩
  · have cache : Cached sb fs.dv.image (update fs.icache k { fs.icache k with ref := (fs.icache k).ref + 1 }) := by
      refine valid.cache.update_used ref rfl ?_ ?_ ?_
      · exact fun _ isValid => valid.cache.agree k ref isValid
      · intro isLocked
        exact ⟨by show 0 < (fs.icache k).ref + 1; omega, (valid.cache.locked k isLocked).2⟩
      · exact fun _ _ => rfl
    have here := fs.put_self k { fs.icache k with ref := (fs.icache k).ref + 1 }
    refine ⟨.of_image valid.disk valid.sound valid.dirs cache, rfl, by rw [here]; exact same, by rw [here]; show 0 < (fs.icache k).ref + 1; omega, ?_⟩
    intro m refM
    by_cases at_ : m = k
    · subst at_
      exact ⟨(fs.icache m).ref + 1, by omega, here⟩
    · exact ⟨(fs.icache m).ref, refM, update_of_ne at_ ..⟩
  · have cache : Cached sb fs.dv.image
        (update fs.icache k { fs.icache k with inum := inum, ref := 1, valid := false }) := by
      apply valid.cache.update
      · exact fun _ => ⟨below, pos, inside⟩
      · exact fun _ m _ ref => fresh m ref
      · intro _ isValid
        cases isValid
      · intro isLocked
        have := (valid.cache.locked k isLocked).1
        omega
      · exact fun _ _ _ _ => rfl
    have here := fs.put_self k { fs.icache k with inum := inum, ref := 1, valid := false }
    refine ⟨.of_image valid.disk valid.sound valid.dirs cache, rfl, by rw [here], by rw [here]; exact Int.one_pos, ?_⟩
    intro m refM
    have other : m ≠ k := by
      intro at_
      rw [at_, zero] at refM
      exact absurd refM (by decide)
    exact ⟨(fs.icache m).ref, refM, update_of_ne other ..⟩

/-- The entry of an inode that is in use changes, the disk does not. -/
theorem Moves.touch (ref : 0 < (fs.icache k).ref) (inum : ip.inum = (fs.icache k).inum)
    (agree : 0 < ip.ref → ip.valid = true → fs.dv.image.inode ip.inum = ip.toDinode ∧ ip.type ≠ 0)
    (locked : ip.locked = true → 0 < ip.ref ∧ ip.valid = true) (i : Nat) : Moves sb fs i id (fs.put k ip) :=
  .of_cache valid (valid.cache.update_used ref inum agree locked fun _ _ => rfl) fun _ => rfl

theorem idup_moves (ref : 0 < (fs.icache k).ref) (i : Nat) : Moves sb fs i id (idup fs k) := by
  refine .touch valid ref ?_ ?_ ?_ i
  · rfl
  · exact fun _ isValid => valid.cache.agree k ref isValid
  intro isLocked
  exact ⟨by show 0 < (fs.icache k).ref + 1; omega, (valid.cache.locked k isLocked).2⟩

/-- `ilock` reads the inode if the copy is not valid. -/
theorem ilock_moves (isOk : ilock fs k = .ok fs') (i : Nat) : Moves sb fs i id fs' := by
  rw [ilock] at isOk
  split at isOk
  · cases isOk
  · rename_i notFree
    have ref : 0 < (fs.icache k).ref := by omega
    have inside := (valid.cache.inside k ref).2.2
    rw [acquiresleep] at isOk
    split at isOk
    · cases isOk
    · rw [ok_bind] at isOk
      split at isOk
      · dsimp only at isOk
        split at isOk
        · cases isOk
        · rename_i live
          cases isOk
          refine .touch valid ref ?_ ?_ ?_ i
          · rfl
          · exact fun _ _ => ⟨rfl, live⟩
          · exact fun _ => ⟨ref, rfl⟩
      · rename_i notInvalid
        cases isOk
        have isValid : (fs.icache k).valid = true := by simpa using notInvalid
        refine .touch valid ref ?_ ?_ ?_ i
        · rfl
        · exact fun _ _ => valid.cache.agree k ref isValid
        · exact fun _ => ⟨ref, isValid⟩

theorem iunlock_moves (isOk : iunlock fs k = .ok fs') (i : Nat) : Moves sb fs i id fs' := by
  rw [iunlock] at isOk
  split at isOk
  · cases isOk
  · rename_i held
    cases isOk
    have ref : 0 < (fs.icache k).ref := by omega
    refine .touch valid ref ?_ ?_ ?_ i
    · rfl
    · exact fun _ isValid => valid.cache.agree k ref isValid
    intro isLocked
    cases isLocked

end

/-! ## Inodes -/

/-- The image with inode `i` newly allocated. -/
def Image.alloc (img : Image) (i type : Nat) : Image := { img with inode := Function.update img.inode i { type := type } }

theorem Image.alloc_self (img : Image) (i type : Nat) : (img.alloc i type).inode i = { type := type } := update_self ..

theorem Image.alloc_of_ne (img : Image) {i j : Nat} (type : Nat) (other : j ≠ i) : (img.alloc i type).inode j = img.inode j :=
  update_of_ne other ..

/-- An inode without blocks takes none. -/
theorem Sound.alloc {img : Image} {type : Nat} (sound : Sound sb img) (free : (img.inode i).type = 0) : Sound sb (img.alloc i type) where
  owned := by
    refine Owns.congr sound.owned (fun x => ?_) (fun b _ => rfl)
    obtain ⟨j, m⟩ := x
    by_cases here : j = i
    · rw [here, slots_free free]
      show (if _ then slot img.data ((img.alloc i type).inode i) m else 0) = 0
      rw [Image.alloc_self]
      have none_ : slot img.data { type := type } m = 0 := by
        by_cases direct : m ≤ NDIRECT
        · exact slot_direct direct
        · exact slot_beyond (by omega) (.inl rfl)
      rw [none_, ite_self]
    · simp only [slots, img.alloc_of_ne type here]
      rfl
  mapped := by
    intro j inside live
    by_cases here : j = i
    · rw [here, Image.alloc_self]
      intro bn below
      exact absurd below (Nat.not_lt_zero _)
    · rw [img.alloc_of_ne type here] at live ⊢
      exact sound.mapped j inside live

/-- `ialloc` takes an inode that is free on the disk. -/
theorem ialloc_moves {type : Nat} (valid : Valid sb fs) (kind : type = T_DIR ∨ type = T_FILE ∨ type = T_DEV)
    (isOk : ialloc fs type = .ok (k, fs')) (i : Nat) : Moves sb fs i id fs' := by
  rw [ialloc, valid.disk.copy] at isOk
  split at isOk
  · cases isOk
  · rename_i inum found
    obtain ⟨low, high, test, _⟩ := firstFrom_some found
    have inside : inum < sb.ninodes := by omega
    have free : (fs.dv.image.inode inum).type = 0 := beq_iff_eq.1 test
    have short : type < 2 ^ 16 := by
      rcases kind with rfl | rfl | rfl
      · decide
      · decide
      · decide
    have disk : Shows sb _ (fs.dv.image.alloc inum type) :=
      valid.disk.writeInode inside (getDinode_cleared (fs.dv.bread (IBLOCK inum sb)) (inodeOff inum) short) (by
        intro o outside
        rw [putHalf_outside (by simp only [DINODE_SIZE] at outside; omega), blit_outside outside])
    have old : ∀ {j}, j ≠ inum → (fs.dv.image.alloc inum type).inode j = fs.dv.image.inode j :=
      fun other => Image.alloc_of_ne _ type other
    have dirs : ∀ j < sb.ninodes, ((fs.dv.image.alloc inum type).inode j).type = T_DIR →
        DirFile sb ((fs.dv.image.alloc inum type).file j) := by
      intro j insideJ isDir
      by_cases here : j = inum
      · rw [here, Image.file, Image.alloc_self]
        refine ⟨rfl, ?_⟩
        intro e below
        simp [entries, contents] at below
      · rw [old here] at isDir
        rw [Image.file, old here]
        exact valid.dirs j insideJ isDir
    have cache : Cached sb (fs.dv.image.alloc inum type) fs.icache := by
      refine ⟨valid.cache.distinct, valid.cache.inside, ?_, valid.cache.locked⟩
      intro m ref isValid
      have agree := valid.cache.agree m ref isValid
      have other : (fs.icache m).inum ≠ inum := by
        intro same
        apply agree.2
        rw [← agree.1, same]
        exact free
      rw [old other]
      exact agree
    have live : ∀ j, (fs.dv.image.inode j).type ≠ 0 → j ≠ inum := by
      intro j some_ same
      rw [same] at some_
      exact some_ free
    have moves := Moves.of_image (i := i) (g := id) disk (valid.sound.alloc free) dirs cache (by
      intro j _ some_
      rw [old (live j some_)]) (by
      intro j _ some_
      rw [id_eq, ite_self, Image.file, old (live j some_)]
      rfl)
    exact moves.after ((iget_got moves.valid (by omega) inside isOk).moves moves.valid i)

/-- Fields other than the type, the size and the pointers are set and written back. -/
theorem setLinks_moves {major minor nlink : Nat} (valid : Valid sb fs) (isLocked : (fs.icache k).locked = true)
    (shortMajor : major < 2 ^ 16) (shortMinor : minor < 2 ^ 16) (shortNlink : nlink < 2 ^ 16)
    (isIp : ip = { fs.icache k with major := major, minor := minor, nlink := nlink }) (i : Nat) :
    Moves sb fs i id { dv := iupdate fs.dv ip, icache := update fs.icache k ip } := by
  have use := valid.locked isLocked
  have ref := (valid.cache.locked k isLocked).1
  have inum : ip.inum = (fs.icache k).inum := by rw [isIp]
  have type : ip.type = (fs.icache k).type := by rw [isIp]
  have size : ip.size = (fs.icache k).size := by rw [isIp]
  have addrs : ip.addrs = (fs.icache k).addrs := by rw [isIp]
  have inside : ip.inum < sb.ninodes := by rw [inum]; exact use.inside
  have wf : ip.toDinode.Wf := by
    have old := use.disk.inode_wf use.inside
    rw [use.cached] at old
    rw [isIp]
    exact ⟨old.type, shortMajor, shortMinor, shortNlink, old.size, old.addrs, old.length⟩
  -- every inode has the type, the size and the pointers it had
  have same : ∀ j, (fs.dv.image.table ip j).type = (fs.dv.image.inode j).type ∧
      (fs.dv.image.table ip j).size = (fs.dv.image.inode j).size ∧
      (fs.dv.image.table ip j).addrs = (fs.dv.image.inode j).addrs := by
    intro j
    by_cases here : j = ip.inum
    · rw [here, table_self, type, size, addrs, inum, use.cached]
      exact ⟨rfl, rfl, rfl⟩
    · rw [table_of_ne _ here]
      exact ⟨rfl, rfl, rfl⟩
  have file : ∀ j, ({ fs.dv.image with inode := fs.dv.image.table ip } : Image).file j = fs.dv.image.file j := by
    intro j
    obtain ⟨_, sizeJ, addrsJ⟩ := same j
    simp only [Image.file, contents, fileByte, slot, sizeJ, addrsJ]
  refine .of_image (iupdate_shows valid.disk inside wf) ⟨?_, ?_⟩ ?_ ?_ ?_ ?_
  · refine Owns.congr valid.sound.owned (fun x => ?_) (fun _ _ => rfl)
    exact congrFun (slots_pointers fun j => ⟨(same j).1, (same j).2.2⟩) x
  · intro j insideJ live bn below
    obtain ⟨typeJ, sizeJ, addrsJ⟩ := same j
    have := valid.sound.mapped j insideJ (by rw [← typeJ]; exact live) bn (by rw [← sizeJ]; exact below)
    simp only [slot, addrsJ]
    exact this
  · intro j insideJ isDir
    rw [file]
    exact valid.dirs j insideJ (by rw [← (same j).1]; exact isDir)
  · refine valid.cache.update_used ref inum ?_ ?_ ?_
    · intro _ _
      exact ⟨table_self _ ip, by rw [type]; exact use.live⟩
    · intro _
      rw [isIp]
      exact valid.cache.locked k isLocked
    · exact fun j other => table_of_ne _ other
  · exact fun j _ _ => (same j).1
  · intro j _ _
    rw [id_eq, ite_self, file]

/-! ## Files and directories -/

/-- A write to the file of a locked inode. -/
theorem FileWrite.moves (valid : Valid sb fs) (isLocked : (fs.icache k).locked = true) (disk : Shows sb dv img')
    (write : FileWrite sb fs.dv.image (fs.icache k) src off n ip' img') (file : (fs.icache k).type ≠ T_DEV)
    (dir : (fs.icache k).type = T_DIR → DirFile sb (img'.file (fs.icache k).inum))
    (edit : g (fs.dv.image.file (fs.icache k).inum) = img'.file (fs.icache k).inum) :
    Moves sb fs (fs.icache k).inum g { dv := dv, icache := update fs.icache k ip' } := by
  have use := valid.locked isLocked
  have ref := (valid.cache.locked k isLocked).1
  have inum : ip'.inum = (fs.icache k).inum := by rw [write.rest]
  have type : (img'.inode (fs.icache k).inum).type = (fs.dv.image.inode (fs.icache k).inum).type := by
    rw [write.cached, write.rest, use.cached]
  refine .of_image disk write.sound ?_ ?_ ?_ ?_
  · intro j inside isDir
    by_cases here : j = (fs.icache k).inum
    · rw [here, type, use.cached] at isDir
      rw [here]
      exact dir isDir
    · rw [write.others.inode j here] at isDir
      rw [write.others.file j inside here (by rw [isDir]; decide)]
      exact valid.dirs j inside isDir
  · refine valid.cache.update_used ref inum ?_ ?_ ?_
    · intro _ _
      rw [inum, write.cached]
      refine ⟨rfl, ?_⟩
      rw [write.rest]
      exact use.live
    · intro _
      rw [write.rest]
      exact valid.cache.locked k isLocked
    · intro j other
      rw [inum] at other
      exact write.others.inode j other
  · intro j inside _
    by_cases here : j = (fs.icache k).inum
    · rw [here, type]
    · rw [write.others.inode j here]
  · intro j inside live
    by_cases here : j = (fs.icache k).inum
    · subst here
      rw [if_pos ⟨rfl, by rw [use.cached]; exact file⟩, edit]
    · rw [if_neg (fun both => here both.1)]
      exact write.others.file j inside here live

/-- The cache entry is put back as it was. -/
theorem put_same (fs : FileSys) (k : Nat) : ({ dv := fs.dv, icache := update fs.icache k (fs.icache k) } : FileSys) = fs := by
  rw [update_eq_self]

theorem Moves.refl (valid : Valid sb fs) (nothing : (fs.dv.image.inode i).type ≠ T_DEV →
    g (fs.dv.image.file i) = fs.dv.image.file i) : Moves sb fs i g fs :=
  .of_cache valid valid.cache nothing

/-- `readi` returns and changes nothing, on a device or on a file. -/
theorem InUse.readi_same (use : InUse sb fs.dv fs.dv.image (fs.icache k)) (devsw : Devsw) (dst : Bytes) (word : off < 2 ^ 32)
    (wordN : n < 2 ^ 32) : ∃ r dst', readi devsw fs.dv (fs.icache k) dst off n = .ok (r, dst', fs.icache k, fs.dv) := by
  by_cases device : (fs.icache k).type = T_DEV
  · rw [readi, if_pos device]
    split
    · exact ⟨_, _, rfl⟩
    · split
      · exact ⟨_, _, rfl⟩
      · exact ⟨_, _, rfl⟩
  · rw [use.readi_eq devsw device dst word wordN]
    split
    · exact ⟨_, _, rfl⟩
    · exact ⟨_, _, rfl⟩

/-- `writei` of a device and a refused one change nothing; any other writes the file or finds no block. -/
theorem InUse.writei_outcome (use : InUse sb fs.dv fs.dv.image (fs.icache k)) (devsw : Devsw) (src : Bytes)
    (word : off < 2 ^ 32) (wordN : n < 2 ^ 32) :
    (∃ r, writei devsw fs.dv (fs.icache k) src off n = .ok (r, fs.icache k, fs.dv) ∧ ((fs.icache k).type ≠ T_DEV →
      r = -1 ∧ Xv6.writei (fs.dv.image.file (fs.icache k).inum) src off n = none)) ∨
    ((fs.icache k).type ≠ T_DEV ∧ ∃ ip' dv' img', writei devsw fs.dv (fs.icache k) src off n = .ok ((n : Int), ip', dv') ∧
      Shows sb dv' img' ∧ FileWrite sb fs.dv.image (fs.icache k) src off n ip' img') ∨
    writei devsw fs.dv (fs.icache k) src off n = .error (.panic "balloc: out of blocks") := by
  by_cases device : (fs.icache k).type = T_DEV
  · left
    rw [writei, if_pos device]
    split
    · exact ⟨_, rfl, fun file => absurd device file⟩
    · split
      · exact ⟨_, rfl, fun file => absurd device file⟩
      · exact ⟨_, rfl, fun file => absurd device file⟩
  · by_cases bad : (fs.icache k).size < off ∨ 2 ^ 32 ≤ off + n ∨ MAXFILE * BSIZE < off + n
    · refine .inl ⟨-1, writei_refused devsw fs.dv src device word wordN bad, fun _ => ⟨rfl, ?_⟩⟩
      rw [← use.size_eq] at bad
      exact writei_none.2 bad
    · obtain wrote | full := use.writei_cases devsw src device (by omega) (show off + n ≤ MAXFILE * BSIZE by omega)
      · exact .inr (.inl ⟨device, wrote⟩)
      · exact .inr (.inr full.1)

theorem writei_moves {r : Int} (valid : Valid sb fs) (isLocked : (fs.icache k).locked = true)
    (notDir : (fs.icache k).type ≠ T_DIR) (word : off < 2 ^ 32) (wordN : n < 2 ^ 32)
    (isOk : writei devsw fs.dv (fs.icache k) src off n = .ok (r, ip', dv)) :
    Moves sb fs (fs.icache k).inum (Call.writei k src off n).edit { dv := dv, icache := update fs.icache k ip' } := by
  have use := valid.locked isLocked
  obtain ⟨_, same, refused⟩ | ⟨file, ip1, dv1, img1, wrote, disk, write⟩ | full := use.writei_outcome devsw src word wordN
  · rw [same] at isOk
    cases isOk
    rw [put_same]
    apply Moves.refl valid
    rw [use.cached]
    intro file
    rw [Call.edit, (refused file).2, Option.getD_none]
  · rw [wrote] at isOk
    cases isOk
    apply write.moves valid isLocked disk file (fun isDir => absurd isDir notDir)
    rw [Call.edit, write.file, Option.getD_some]
  · rw [full] at isOk
    cases isOk

theorem dir_whole (valid : Valid sb fs) (isLocked : (fs.icache k).locked = true) (isDir : (fs.icache k).type = T_DIR) :
    (fs.icache k).size % DIRENT_SIZE = 0 := by
  rw [← (valid.locked isLocked).size_eq]
  exact (valid.dirFile (valid.locked isLocked) isDir).whole

theorem InUse.entry_lt (use : InUse sb fs.dv fs.dv.image (fs.icache k)) {e : Nat}
    (le : e ≤ entries (fs.dv.image.file (fs.icache k).inum)) : DIRENT_SIZE * e < 2 ^ 32 := by
  have size := use.size_lt
  have fits := Nat.mul_le_of_le_div _ _ _ le
  rw [Nat.mul_comm]
  omega

/-- What a lookup finds is a used entry with the name. -/
theorem lookup_some {f : Xv6.Inode} {name : List UInt8} {e : Nat} (found : lookup f name = some e) :
    e < entries f ∧ entryInum f e ≠ 0 ∧ entryName f e = name := by
  obtain ⟨inside, test, _⟩ := first_some found
  simp only [Bool.and_eq_true, bne_iff_ne, beq_iff_eq] at test
  exact ⟨inside, test⟩

section

variable (valid : Valid sb fs) (isLocked : (fs.icache k).locked = true) {r : Option (Nat × Nat)}
include valid isLocked

/-- `dirlookup` of a locked directory: there is no such name, or its inode is referenced. -/
theorem dirlookup_cases (isOk : dirlookup devsw fs k name = .ok (r, fs')) :
    (fs.icache k).type = T_DIR ∧
    (lookup (fs.dv.image.file (fs.icache k).inum) (text name DIRSIZ) = none ∧ r = none ∧ fs' = fs ∨
      ∃ e m, lookup (fs.dv.image.file (fs.icache k).inum) (text name DIRSIZ) = some e ∧ r = some (m, DIRENT_SIZE * e) ∧
        iget fs (entryInum (fs.dv.image.file (fs.icache k).inum) e) = .ok (m, fs') ∧
        Got sb fs (entryInum (fs.dv.image.file (fs.icache k).inum) e) m fs') := by
  have use := valid.locked isLocked
  have isDir : (fs.icache k).type = T_DIR := by
    by_contra not
    rw [dirlookup, if_pos not] at isOk
    cases isOk
  refine ⟨isDir, ?_⟩
  rw [dirlookup_eq devsw use isDir (dir_whole valid isLocked isDir)] at isOk
  cases found : lookup (fs.dv.image.file (fs.icache k).inum) (text name DIRSIZ) with
  | none =>
    rw [found] at isOk
    cases isOk
    exact .inl ⟨rfl, rfl, rfl⟩
  | some e =>
    right
    rw [found] at isOk
    simp only at isOk
    rw [bind_ok] at isOk
    obtain ⟨⟨m, fs1⟩, got, same⟩ := isOk
    cases same
    obtain ⟨inside, used, _⟩ := lookup_some found
    exact ⟨e, m, rfl, rfl, got, iget_got valid (Nat.pos_of_ne_zero used) ((valid.dirFile use isDir).inums e inside) got⟩

theorem dirlookup_moves (isOk : dirlookup devsw fs k name = .ok (r, fs')) (i : Nat) : Moves sb fs i id fs' := by
  obtain ⟨_, ⟨_, _, rfl⟩ | ⟨e, m, _, _, _, got⟩⟩ := dirlookup_cases valid isLocked isOk
  · exact .refl valid fun _ => rfl
  · exact got.moves valid i

/-- A 16-byte write to a locked directory at a multiple of 16 that is at most its size. -/
theorem dirent_moves {m : Nat} {r : Int} (isDir : (fs.icache k).type = T_DIR)
    (le : m ≤ entries (fs.dv.image.file (fs.icache k).inum)) (inum : getHalf src 0 < sb.ninodes)
    (isOk : writei devsw fs.dv (fs.icache k) src (DIRENT_SIZE * m) DIRENT_SIZE = .ok (r, ip', dv)) (done : r = DIRENT_SIZE) :
    ∃ f, Xv6.writei (fs.dv.image.file (fs.icache k).inum) src (DIRENT_SIZE * m) DIRENT_SIZE = some f ∧
      (g (fs.dv.image.file (fs.icache k).inum) = f →
        Moves sb fs (fs.icache k).inum g { dv := dv, icache := update fs.icache k ip' }) := by
  have use := valid.locked isLocked
  have dir := valid.dirFile use isDir
  have file := T_DIR_file isDir
  obtain ⟨_, same, refused⟩ | ⟨_, ip1, dv1, img1, wrote, disk, write⟩ | full :=
    use.writei_outcome devsw src (use.entry_lt le) (show DIRENT_SIZE < 2 ^ 32 by decide)
  · rw [same, (refused file).1] at isOk
    cases isOk
    exact absurd done (by decide)
  · rw [wrote] at isOk
    cases isOk
    refine ⟨_, write.file, ?_⟩
    apply write.moves valid isLocked disk file
    intro _
    obtain ⟨whole, count⟩ := entries_write dir.whole write.file
    refine ⟨whole, ?_⟩
    intro e below
    rw [entryInum_write write.file]
    split
    · exact inum
    · rename_i other
      exact dir.inums e (by omega)
  · rw [full] at isOk
    cases isOk

end

theorem freeEntry_le (f : Xv6.Inode) : freeEntry f ≤ entries f := by
  rw [freeEntry]
  cases found : first (fun e => entryInum f e == 0) (entries f) with
  | none => exact Nat.le_refl _
  | some e => exact Nat.le_of_lt (first_some found).1

/-! ## Dropping a reference -/

/-- What `iput` tests. -/
theorem frees_iff : (Call.iput k).frees fs = true ↔
    (fs.icache k).valid = true ∧ (fs.icache k).nlink = 0 ∧ (fs.icache k).ref = 1 := by
  simp [Call.frees, and_assoc]

/-- An `iput` that does not free the inode only drops the reference. -/
theorem iput_kept (free : (fs.icache k).locked = false) (kept : (Call.iput k).frees fs = false) :
    iput fs k = .ok (fs.put k { fs.icache k with ref := (fs.icache k).ref - 1 }) := by
  have keeps : ¬ ((fs.icache k).valid = true ∧ (fs.icache k).nlink = 0 ∧ (fs.icache k).ref = 1) := by
    rw [← frees_iff, kept]
    decide
  rw [iput, acquiresleep, free]
  simp only [Bool.false_eq_true, if_false, ok_bind]
  rw [if_neg keeps, FileSys.put, ← free]
  rfl

/-- A lock that is held is waited for. -/
theorem iput_waits (held : (fs.icache k).locked = true) : iput fs k = .error .diverges := by
  rw [iput, acquiresleep, held]
  rfl

theorem iput_unlocked (isOk : iput fs k = .ok fs') : (fs.icache k).locked = false := by
  cases held : (fs.icache k).locked with
  | false => rfl
  | true =>
    rw [iput_waits held] at isOk
    cases isOk

theorem iput_kept_moves (valid : Valid sb fs) (ref : 0 < (fs.icache k).ref) (kept : (Call.iput k).frees fs = false)
    (isOk : iput fs k = .ok fs') (i : Nat) : Moves sb fs i id fs' := by
  have unlocked := iput_unlocked isOk
  rw [iput_kept unlocked kept] at isOk
  cases isOk
  refine .touch valid ref ?_ ?_ ?_ i
  · rfl
  · exact fun _ isValid => valid.cache.agree k ref isValid
  intro isLocked
  rw [show (fs.icache k).locked = true from isLocked] at unlocked
  cases unlocked

/-- A reference that `iget` just returned is not the last one of a valid inode. -/
theorem iget_not_frees {m : Nat} (valid : Valid sb fs) (got : iget fs inum = .ok (m, fs')) :
    (Call.iput m).frees fs' = false := by
  rw [Bool.eq_false_iff, ne_eq, frees_iff]
  rcases iget_cases valid got with ⟨ref, _, rfl⟩ | ⟨_, _, _, rfl⟩
  · rintro ⟨_, _, one⟩
    rw [FileSys.put_self] at one
    have more : (fs.icache m).ref + 1 = 1 := one
    omega
  · rintro ⟨isValid, _, _⟩
    rw [FileSys.put_self] at isValid
    cases isValid

/-- The image with inode `i` free. -/
def Image.free (img : Image) (ip : Inode) (used : Nat → Bool) : Image :=
  { img with used := used, inode := img.table ip.freed }

theorem Image.free_self (img : Image) (ip : Inode) (used : Nat → Bool) : ((img.free ip used).inode ip.inum).type = 0 :=
  congrArg Dinode.type (table_self img ip.freed)

theorem Image.free_of_ne (img : Image) {ip : Inode} (used : Nat → Bool) {j : Nat} (other : j ≠ ip.inum) :
    (img.free ip used).inode j = img.inode j := table_of_ne img (show j ≠ ip.freed.inum from other)

/-- The blocks of the inode have been given back. -/
theorem Sound.free {img : Image} {used : Nat → Bool} (sound : Sound sb img)
    (owned : Owned sb { img with used := used } (img.table ip.emptied)) : Sound sb (img.free ip used) where
  owned := by
    refine Owns.congr owned (fun x => ?_) (fun _ _ => rfl)
    obtain ⟨j, m⟩ := x
    by_cases here : j = ip.inum
    · subst here
      rw [slots_free (img.free_self ip used)]
      show 0 = if _ then slot img.data (img.table ip.emptied ip.emptied.inum) m else 0
      rw [table_self, slot_emptied, ite_self]
    · simp only [slots, table_of_ne img (show j ≠ ip.emptied.inum from here), img.free_of_ne used here]
      rfl
  mapped := by
    intro j inside live
    have other : j ≠ ip.inum := by
      rintro rfl
      exact live (img.free_self ip used)
    rw [img.free_of_ne used other] at live ⊢
    exact sound.mapped j inside live

/-- The last reference to an inode without links: the inode and its blocks are freed. -/
theorem iput_freed (valid : Valid sb fs) (ref : 0 < (fs.icache k).ref) (unlocked : (fs.icache k).locked = false)
    (frees : (Call.iput k).frees fs = true) :
    ∃ fs', iput fs k = .ok fs' ∧ Valid sb fs' ∧ (fs'.dv.image.inode (fs.icache k).inum).type = 0 ∧
      ∀ j < sb.ninodes, j ≠ (fs.icache k).inum → (fs.dv.image.inode j).type ≠ 0 →
        (fs'.dv.image.inode j).type = (fs.dv.image.inode j).type ∧ fs'.dv.image.file j = fs.dv.image.file j := by
  rw [frees_iff] at frees
  obtain ⟨isValid, noLinks, one⟩ := frees
  have use := valid.inUse ref isValid
  have wf := use.disk.inode_wf use.inside
  rw [use.cached] at wf
  generalize isIp : ({ fs.icache k with locked := true } : Inode) = ip
  have inum : ip.inum = (fs.icache k).inum := by rw [← isIp]
  have dinode : ip.toDinode = (fs.icache k).toDinode := by rw [← isIp]
  have cached : fs.dv.image.inode ip.inum = ip.toDinode := by rw [inum, dinode]; exact use.cached
  have inside : ip.inum < sb.ninodes := by rw [inum]; exact use.inside
  have live : ip.type ≠ 0 := by
    rw [show ip.type = (fs.icache k).type from congrArg Dinode.type dinode]
    exact use.live
  rw [← dinode] at wf
  obtain ⟨dv1, used1, isOk, disk1, owned1⟩ := itrunc_ok valid.disk (cached_owned valid.sound cached) inside live wf
  have wf2 : ip.freed.toDinode.Wf :=
    ⟨by show 0 < 2 ^ 16; decide, wf.major, wf.minor, wf.nlink, by show 0 < 2 ^ 32; decide,
      fun _ => by show 0 < 2 ^ 32; decide, fun _ _ => rfl⟩
  -- the inode is written twice; the second write is what remains
  have twice : (update (update fs.dv.image.inode ip.inum ip.emptied.toDinode) ip.inum ip.freed.toDinode) =
      (fs.dv.image.free ip used1).inode := update_idem ..
  have disk2 : Shows sb (iupdate dv1 ip.freed) (fs.dv.image.free ip used1) := by
    have written := iupdate_shows disk1 (show ip.freed.inum < sb.ninodes from inside) wf2
    refine ⟨written.wf, written.copy, written.superblock, written.used, ?_, written.data⟩
    intro j insideJ
    rw [← twice]
    exact written.inode j insideJ
  have sound := valid.sound.free owned1
  have others : ∀ j, j ≠ ip.inum → (fs.dv.image.free ip used1).inode j = fs.dv.image.inode j :=
    fun j other => fs.dv.image.free_of_ne used1 other
  have zero := fs.dv.image.free_self ip used1
  have file : ∀ j, j ≠ ip.inum → (fs.dv.image.free ip used1).file j = fs.dv.image.file j := by
    intro j other
    rw [Image.file, others j other]
    rfl
  have cache : Cached sb (fs.dv.image.free ip used1)
      (update fs.icache k { ip.freed with valid := false, locked := false, ref := ip.ref - 1 }) := by
    refine valid.cache.update_used ref inum ?_ ?_ ?_
    · intro more
      have gone : ip.ref - 1 = 0 := by
        rw [← isIp]
        show (fs.icache k).ref - 1 = 0
        omega
      have more' : 0 < ip.ref - 1 := more
      omega
    · intro isLocked
      cases isLocked
    · exact others
  refine ⟨_, ?_, .of_image disk2 sound ?_ cache, ?_, ?_⟩
  · rw [iput, acquiresleep, unlocked]
    simp only [Bool.false_eq_true, if_false, ok_bind, isIp]
    rw [if_pos (by rw [← isIp]; exact ⟨isValid, noLinks, one⟩), isOk]
    rfl
  · intro j insideJ isDir
    have other : j ≠ ip.inum := by
      rintro rfl
      rw [zero] at isDir
      cases isDir
    rw [others j other] at isDir
    rw [file j other]
    exact valid.dirs j insideJ isDir
  · rw [← inum]
    show ((iupdate dv1 ip.freed).dinode ip.inum).type = 0
    rw [disk2.inode ip.inum inside]
    exact zero
  · intro j insideJ other liveJ
    rw [← inum] at other
    have isType : ((fs.dv.image.free ip used1).inode j).type = (fs.dv.image.inode j).type := by rw [others j other]
    constructor
    · show ((iupdate dv1 ip.freed).dinode j).type = _
      rw [disk2.inode j insideJ]
      exact isType
    · exact Eq.trans (sound.file_image disk2 insideJ (by rw [isType]; exact liveJ)) (file j other)

/-! ## Changing a directory -/

/-- `dirlink` drops the reference to a name that is there, or writes an entry. -/
theorem dirlink_moves {r : Int} (valid : Valid sb fs) (isLocked : (fs.icache k).locked = true) (small : inum < sb.ninodes)
    (isOk : dirlink devsw fs k name inum = .ok (r, fs')) :
    let f := fs.dv.image.file (fs.icache k).inum
    Moves sb fs (fs.icache k).inum (Call.dirlink k name inum).edit fs' ∧ (lookup f (text name DIRSIZ) = none →
      ∃ f', Xv6.writei f (setDirent (fun _ => 0) name inum) (DIRENT_SIZE * freeEntry f) DIRENT_SIZE = some f') := by
  intro f
  have use := valid.locked isLocked
  have isDir : (fs.icache k).type = T_DIR := by
    by_contra not
    rw [dirlink, dirlookup, if_pos not] at isOk
    cases isOk
  have whole := dir_whole valid isLocked isDir
  cases found : lookup f (text name DIRSIZ) with
  | some e =>
    have nothing : (Call.dirlink k name inum).edit f = f := by
      rw [Call.edit, found, if_neg (by simp)]
    rw [dirlink_found devsw use isDir whole found, bind_ok] at isOk
    obtain ⟨⟨m, fs1⟩, got, isOk⟩ := isOk
    dsimp only at isOk
    rw [bind_ok] at isOk
    obtain ⟨fs2, put, same⟩ := isOk
    cases same
    obtain ⟨inside, used, _⟩ := lookup_some found
    have first := iget_got valid (Nat.pos_of_ne_zero used) ((valid.dirFile use isDir).inums e inside) got
    have second := iput_kept_moves first.valid first.ref (iget_not_frees valid got) put (fs.icache k).inum
    have both := (first.moves valid (fs.icache k).inum).after second
    refine ⟨⟨both.valid, both.types, ?_⟩, by rintro ⟨⟩⟩
    intro j insideJ live
    rw [both.files j insideJ live, id_eq, ite_self]
    split
    · rename_i here
      rw [here.1, nothing]
    · rfl
  | none =>
    obtain ⟨de, isWrite⟩ := dirlink_missing devsw use isDir whole found
    rw [isWrite, bind_ok] at isOk
    obtain ⟨⟨r1, dp, dv1⟩, wrote, isOk⟩ := isOk
    dsimp only at isOk
    split at isOk
    · cases isOk
    · rename_i all
      cases isOk
      have small' : getHalf (setDirent de name inum) 0 < sb.ninodes := by
        rw [setDirent_inum, Nat.mod_eq_of_lt (Nat.lt_of_lt_of_le small valid.disk.wf.inums)]
        exact small
      obtain ⟨f', done, moves⟩ := dirent_moves valid isLocked isDir (freeEntry_le _) small' wrote (by simpa using all)
      rw [writei_congr fun o inside => setDirent_byte de (fun _ => 0) name inum inside] at done
      refine ⟨moves ?_, fun _ => ⟨f', done⟩⟩
      rw [Call.edit, if_pos found, done, Option.getD_some]

/-- The entry found is cleared. -/
theorem unlink_moves {reply : Reply} (valid : Valid sb fs) (isLocked : (fs.icache k).locked = true)
    (isOk : (Call.unlink k name).exec devsw fs = .ok (reply, fs')) :
    let f := fs.dv.image.file (fs.icache k).inum
    Moves sb fs (fs.icache k).inum (Call.unlink k name).edit fs' ∧ ∀ e, lookup f (text name DIRSIZ) = some e →
      ∃ f', Xv6.writei f (fun _ => 0) (DIRENT_SIZE * e) DIRENT_SIZE = some f' := by
  intro f
  rw [Call.exec, bind_ok] at isOk
  obtain ⟨⟨r, fs1⟩, looked, isOk⟩ := isOk
  dsimp only at isOk
  obtain ⟨isDir, ⟨missing, rfl, rfl⟩ | ⟨e, m, found, rfl, _, got⟩⟩ := dirlookup_cases valid isLocked looked
  · cases isOk
    refine ⟨.refl valid fun _ => ?_, fun e found => ?_⟩
    · rw [Call.edit, missing]
    · rw [missing] at found
      cases found
  · rw [bind_ok] at isOk
    obtain ⟨fs2, zeroed, same⟩ := isOk
    cases same
    rw [zeroDirent, bind_ok] at zeroed
    obtain ⟨⟨r1, dp, dv1⟩, wrote, zeroed⟩ := zeroed
    dsimp only at zeroed
    split at zeroed
    · cases zeroed
    · rename_i all
      cases zeroed
      -- the entry of the directory has at most got one more reference
      obtain ⟨n, _, entry⟩ := got.used k (valid.cache.locked k isLocked).1
      have inum : (fs1.icache k).inum = (fs.icache k).inum := by rw [entry]
      have file : fs1.dv.image.file (fs1.icache k).inum = f := by rw [got.dv, inum]
      obtain ⟨f', done, moves⟩ := dirent_moves (g := (Call.unlink k name).edit) (m := e) got.valid (by rw [entry]; exact isLocked)
        (by rw [entry]; exact isDir) (by rw [file]; exact Nat.le_of_lt (lookup_some found).1)
        (by rw [show getHalf (fun _ => 0) 0 = 0 from rfl]; have := valid.disk.wf.root; omega) wrote (by simpa using all)
      rw [file] at done moves
      rw [inum] at moves
      refine ⟨(got.moves valid _).after (moves ?_), fun e' found' => ?_⟩
      · rw [Call.edit, show lookup f (text name DIRSIZ) = some e from found]
        exact congrArg (Option.getD · f) done
      · rw [found] at found'
        cases found'
        exact ⟨f', done⟩

end Xv6.Fs
