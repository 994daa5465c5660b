import Xv6.Fs.CallsRun

/-!
# Directories are finite maps

A directory maps the first `DIRSIZ` bytes of a name, up to a NUL, to an inode number.
`dirlink` adds a name that is not there and the zeroing write of `kunlink` removes one;
removed entries are used again, in any order. `dirlink` of a name that is there drops the
reference that `dirlookup` gave it, and `iput` takes the lock of that inode. An entry that
names the directory itself is locked by the caller, who then waits for its own lock.
-/

namespace Xv6.Fs

open Fallible Words Tables CString BlockMap Runs Function List

variable {inum : Nat}

/-- No two used entries have names that `namecmp` takes for equal. -/
def NamesDistinct (f : Xv6.Inode) : Prop :=
  ∀ a < entries f, ∀ b < entries f, entryInum f a ≠ 0 → entryInum f b ≠ 0 →
    namecmp (direntName (dirent f a)) (direntName (dirent f b)) = 0 → a = b

/-- Entry `e` is in use and has this name. -/
def Names (f : Xv6.Inode) (e : Nat) (name : List UInt8) : Prop := e < entries f ∧ entryInum f e ≠ 0 ∧ entryName f e = name

section Map

variable {f f' : Xv6.Inode} {name other : List UInt8} {e m : Nat}

theorem NamesDistinct.unique (distinct : NamesDistinct f) {a b : Nat} (first_ : Names f a name) (second : Names f b name) : a = b := by
  apply distinct a first_.1 b second.1 first_.2.1 second.2.1
  rw [namecmp, strncmp_eq_zero]
  exact first_.2.2.trans second.2.2.symm

end Map

/-! ## Writing one entry -/

section Write

variable {f f' : Xv6.Inode} {src : Bytes} {m : Nat}
  (whole : f.size % DIRENT_SIZE = 0) (le : m ≤ entries f) (done : Xv6.writei f src (DIRENT_SIZE * m) DIRENT_SIZE = some f')
include whole le done

end Write

variable {devsw : Devsw} {sb : Superblock} {fs₀ fs fs' : FileSys} {ev : Event} {history : List Event} {k i : Nat}

section Step

variable {f : Xv6.Inode} (whole : f.size % DIRENT_SIZE = 0) (distinct : NamesDistinct f)
include whole distinct

end Step

/-- The inode has a cache entry in use whose lock is held. -/
def Held (fs : FileSys) (inum : Nat) : Prop :=
  ∃ m, 0 < (fs.icache m).ref ∧ (fs.icache m).inum = inum ∧ (fs.icache m).locked = true

section Calls

variable (valid : Valid sb fs) (isLocked : (fs.icache k).locked = true) (isDir : (fs.icache k).type = T_DIR)
include valid isLocked isDir

end Calls

end Xv6.Fs
