import Xv6.Fs.Alloc

/-!
# Inodes (`fs.c`)

The inode cache, the mapping of file blocks to disk blocks, and reading and writing a
file. Functions that take a `struct inode *` take its contents here and return them
changed; those that look for a cache entry (`iget`) or lock one work on the whole cache
and name entries by their index. There is one device, and a lock says only that it is
held.
-/

namespace Xv6.Fs

open Fallible Words Tables

/-- Entries of the inode cache. -/
def NINODE : Nat := 50

/-- Entries of `devsw`. -/
def NDEV : Nat := 10

/-- `struct inode`, the in-memory copy of an inode. -/
structure Inode extends Dinode where
  inum : Nat := 0
  ref : Int := 0
  locked : Bool := false
  valid : Bool := false

/-- The driver table. The result of a driver is a return value and, for a read, the
buffer. -/
structure Devsw where
  read : Nat → Option (Bytes → Nat → Int × Bytes)
  write : Nat → Option (Bytes → Nat → Int)

/-- `if((addr = ip->addrs[k]) == 0) ip->addrs[k] = addr = balloc(ip->dev)`. -/
def ensureAddr (dv : Dev) (ip : Inode) (k : Nat) : Res (Inode × Dev) :=
  if ip.addrs k = 0 then do
    let (addr, dv) ← balloc dv
    pure ({ ip with addrs := Function.update ip.addrs k addr }, dv)
  else pure (ip, dv)

/-- Entry `bn` of the indirect block `addr`, allocating the block it names. -/
def ensureEntry (dv : Dev) (addr bn : Nat) : Res (Nat × Dev) :=
  let a := getWord (dv.bread addr) (4 * bn)
  if a = 0 then do
    let (a, dv) ← balloc dv
    pure (a, dv.logWrite addr (putWord (dv.bread addr) (4 * bn) a))
  else pure (a, dv)

/-- `bmap(ip, bn)`. -/
def bmap (dv : Dev) (ip : Inode) (bn : Nat) : Res (Nat × Inode × Dev) :=
  if bn < NDIRECT then do
    let (ip, dv) ← ensureAddr dv ip bn
    pure (ip.addrs bn, ip, dv)
  else
    let bn := bn - NDIRECT
    if bn < NINDIRECT then do
      let (ip, dv) ← ensureAddr dv ip NDIRECT
      let (addr, dv) ← ensureEntry dv (ip.addrs NDIRECT) bn
      pure (addr, ip, dv)
    else .error (.panic "bmap: out of range")

/-- `iupdate(ip)`. -/
def iupdate (dv : Dev) (ip : Inode) : Dev :=
  let blockno := IBLOCK ip.inum dv.sb
  dv.logWrite blockno (putDinode (dv.bread blockno) (inodeOff ip.inum) ip.toDinode)

/-- The first loop of `itrunc`. -/
def itruncDirect (dv : Dev) (ip : Inode) : Res (Inode × Dev) :=
  (List.range NDIRECT).foldlM (fun (ip, dv) i =>
    if ip.addrs i ≠ 0 then do
      let dv ← bfree dv (ip.addrs i)
      pure ({ ip with addrs := Function.update ip.addrs i 0 }, dv)
    else pure (ip, dv)) (ip, dv)

/-- The second loop of `itrunc`; `a` is the indirect block. -/
def itruncIndirect (dv : Dev) (a : Block) : Res Dev :=
  (List.range NINDIRECT).foldlM (fun dv j =>
    if getWord a (4 * j) ≠ 0 then bfree dv (getWord a (4 * j)) else pure dv) dv

/-- `itrunc(ip)`. -/
def itrunc (dv : Dev) (ip : Inode) : Res (Inode × Dev) := do
  let (ip, dv) ← itruncDirect dv ip
  let (ip, dv) ←
    if ip.addrs NDIRECT ≠ 0 then do
      let dv ← itruncIndirect dv (dv.bread (ip.addrs NDIRECT))
      let dv ← bfree dv (ip.addrs NDIRECT)
      pure ({ ip with addrs := Function.update ip.addrs NDIRECT 0 }, dv)
    else pure (ip, dv)
  let ip := { ip with size := 0 }
  pure (ip, iupdate dv ip)

/-- The loop of `readi`: `tot` of `n` bytes are copied, the next are at `off`. -/
def readiLoop (n : Nat) : Nat → Dev → Inode → Bytes → Nat → Nat → Res (Bytes × Inode × Dev)
  | 0, _, _, _, _, _ => .error .diverges
  | fuel + 1, dv, ip, dst, tot, off =>
    if tot < n then do
      let (addr, ip, dv) ← bmap dv ip (off / BSIZE)
      let m := min (n - tot) (BSIZE - off % BSIZE)
      readiLoop n fuel dv ip (blit dst tot (fun j => dv.bread addr (off % BSIZE + j)) m) (tot + m) (off + m)
    else pure (dst, ip, dv)

/-- `readi(ip, dst, off, n)`. A negative `short` is one of at least `2 ^ 15`. -/
def readi (devsw : Devsw) (dv : Dev) (ip : Inode) (dst : Bytes) (off n : Nat) : Res (Int × Bytes × Inode × Dev) :=
  if ip.type = T_DEV then
    if NDEV ≤ ip.major then pure (-1, dst, ip, dv)
    else match devsw.read ip.major with
      | none => pure (-1, dst, ip, dv)
      | some read => let (r, dst) := read dst n; pure (r, dst, ip, dv)
  else if ip.size < off ∨ add32 off n < off then pure (-1, dst, ip, dv)
  else do
    let n := if ip.size < add32 off n then ip.size - off else n
    let (dst, ip, dv) ← readiLoop n (n + 1) dv ip dst 0 off
    pure (n, dst, ip, dv)

/-- The loop of `writei`, with the value of `off` at its end. -/
def writeiLoop (src : Bytes) (n : Nat) : Nat → Dev → Inode → Nat → Nat → Res (Nat × Inode × Dev)
  | 0, _, _, _, _ => .error .diverges
  | fuel + 1, dv, ip, tot, off =>
    if tot < n then do
      let (addr, ip, dv) ← bmap dv ip (off / BSIZE)
      let m := min (n - tot) (BSIZE - off % BSIZE)
      let dv := dv.logWrite addr (blit (dv.bread addr) (off % BSIZE) (fun j => src (tot + j)) m)
      writeiLoop src n fuel dv ip (tot + m) (off + m)
    else pure (off, ip, dv)

/-- `writei(ip, src, off, n)`. The inode is written back only when the file grows. -/
def writei (devsw : Devsw) (dv : Dev) (ip : Inode) (src : Bytes) (off n : Nat) : Res (Int × Inode × Dev) :=
  if ip.type = T_DEV then
    if NDEV ≤ ip.major then pure (-1, ip, dv)
    else match devsw.write ip.major with
      | none => pure (-1, ip, dv)
      | some write => pure (write src n, ip, dv)
  else if ip.size < off ∨ add32 off n < off then pure (-1, ip, dv)
  else if MAXFILE * BSIZE < add32 off n then pure (-1, ip, dv)
  else do
    let (off, ip, dv) ← writeiLoop src n (n + 1) dv ip 0 off
    if 0 < n ∧ ip.size < off then
      let ip := { ip with size := off }
      pure (n, ip, iupdate dv ip)
    else pure (n, ip, dv)

/-! ## The inode cache -/

/-- The disk and the inode cache. -/
structure FileSys where
  dv : Dev
  icache : Nat → Inode

def FileSys.put (fs : FileSys) (k : Nat) (ip : Inode) : FileSys := { fs with icache := Function.update fs.icache k ip }

@[simp] theorem FileSys.put_self (fs : FileSys) (k : Nat) (ip : Inode) : (fs.put k ip).icache k = ip := Function.update_self ..

/-- `iget(dev, inum)`: the index of the entry. -/
def iget (fs : FileSys) (inum : Nat) : Res (Nat × FileSys) :=
  match first (fun k => 0 < (fs.icache k).ref && (fs.icache k).inum == inum) NINODE with
  | some k => .ok (k, fs.put k { fs.icache k with ref := (fs.icache k).ref + 1 })
  | none =>
    match first (fun k => (fs.icache k).ref == 0) NINODE with
    | none => .error (.panic "iget: no inodes")
    | some k => .ok (k, fs.put k { fs.icache k with inum := inum, ref := 1, valid := false })

/-- `ialloc(dev, type)`. -/
def ialloc (fs : FileSys) (type : Nat) : Res (Nat × FileSys) :=
  match firstFrom (fun inum => (fs.dv.dinode inum).type == 0) (fs.dv.sb.ninodes - 1) 1 with
  | none => .error (.panic "ialloc: no inodes")
  | some inum =>
    let blockno := IBLOCK inum fs.dv.sb
    let cleared := blit (fs.dv.bread blockno) (inodeOff inum) (fun _ => 0) DINODE_SIZE
    iget { fs with dv := fs.dv.logWrite blockno (putHalf cleared (inodeOff inum) type) } inum

/-- `idup(ip)`. -/
def idup (fs : FileSys) (k : Nat) : FileSys := fs.put k { fs.icache k with ref := (fs.icache k).ref + 1 }

/-- `acquiresleep(&ip->lock)`, which waits while the lock is held. -/
def acquiresleep (ip : Inode) : Res Inode := if ip.locked then .error .diverges else .ok { ip with locked := true }

/-- `ilock(ip)`. -/
def ilock (fs : FileSys) (k : Nat) : Res FileSys :=
  if (fs.icache k).ref < 1 then .error (.panic "ilock")
  else do
    let ip ← acquiresleep (fs.icache k)
    if ip.valid = false then
      let ip := { ip with toDinode := fs.dv.dinode ip.inum, valid := true }
      if ip.type = 0 then .error (.panic "ilock: no type")
      else pure (fs.put k ip)
    else pure (fs.put k ip)

/-- `iunlock(ip)`. -/
def iunlock (fs : FileSys) (k : Nat) : Res FileSys :=
  if (fs.icache k).locked = false ∨ (fs.icache k).ref < 1 then .error (.panic "iunlock")
  else .ok (fs.put k { fs.icache k with locked := false })

/-- `iput(ip)`. -/
def iput (fs : FileSys) (k : Nat) : Res FileSys := do
  let ip ← acquiresleep (fs.icache k)
  let (ip, dv) ←
    if ip.valid = true ∧ ip.nlink = 0 ∧ ip.ref = 1 then do
      let (ip, dv) ← itrunc fs.dv ip
      let ip := { ip with type := 0 }
      pure ({ ip with valid := false }, iupdate dv ip)
    else pure (ip, fs.dv)
  pure { dv := dv, icache := Function.update fs.icache k { ip with locked := false, ref := ip.ref - 1 } }

end Xv6.Fs
