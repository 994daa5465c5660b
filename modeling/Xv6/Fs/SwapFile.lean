import Xv6.Param
import Xv6.Lib.Fallible

/-!
# Files and the swap files (`fs.c`, `file.c`)

A regular file is its size and its bytes; the blocks behind it and the log are left to
the file system, and disk space does not run out. `vpread` and `vpwrite` address the
four swap files of a process as one range of `MAX_VPFILES * VPFILE_SIZE` bytes. The
offset of the open file is set by each call, so it is not kept.
-/

namespace Xv6

/-- The contents of a buffer or of a page. -/
abbrev Bytes := Nat → UInt8

/-- The part of a regular file's inode that `readi` and `writei` use. -/
structure Inode where
  size : Nat := 0
  data : Bytes := fun _ => 0

/-- `readi(ip, dst, off, n)`: how many bytes are copied, or `none` for -1. -/
def readi (ip : Inode) (off n : Nat) : Option Nat :=
  if ip.size < off ∨ 2 ^ 32 ≤ off + n then none else some (min n (ip.size - off))

/-- A buffer after `readi` has copied `n` bytes at `off` to its start. -/
def Inode.fill (ip : Inode) (off n : Nat) (dst : Bytes) : Bytes := fun o =>
  if o < n then ip.data (off + o) else dst o

/-- `writei(ip, src, off, n)`: the file with all `n` bytes written, or `none` for -1. -/
def writei (ip : Inode) (src : Bytes) (off n : Nat) : Option Inode :=
  if ip.size < off ∨ 2 ^ 32 ≤ off + n then none
  else if MAXFILE_BYTES < off + n then none
  else some {
    size := if 0 < n ∧ ip.size < off + n then off + n else ip.size
    data := fun o => if off ≤ o ∧ o < off + n then src (o - off) else ip.data o }

/-- Bytes `filewrite` hands to one transaction: `((MAXOPBLOCKS-1-1-2) / 2) * 512`. -/
def WRITE_CHUNK : Nat := 1536

/-- The loop of `filewrite`: `i` of `n` bytes are written, the next go to `off`. A failed
`writei` keeps what the earlier chunks wrote. -/
def filewriteLoop (src : Bytes) (n : Nat) : Nat → Nat → Nat → Inode → Int × Inode
  | 0, _, _, ip => (-1, ip)
  | fuel + 1, i, off, ip =>
    if i < n then
      let n1 := min (n - i) WRITE_CHUNK
      match writei ip (fun o => src (i + o)) off n1 with
      | none => (-1, ip)
      | some ip => filewriteLoop src n fuel (i + n1) (off + n1) ip
    else (n, ip)

/-- `filewrite(f, addr, n)` on a regular file at offset `off`. -/
def filewrite (ip : Inode) (src : Bytes) (off n : Nat) : Int × Inode :=
  filewriteLoop src n (n + 1) 0 off ip

/-- `pr->vpfile`: `none` is a null pointer. -/
abbrev VpFiles := Nat → Option Inode

/-- The start of `vpread` and `vpwrite`: the file that holds `offset`. The check lets
`fileno = MAX_VPFILES` pass, which is past the end of the array. -/
def vpfileAt (files : VpFiles) (offset : Nat) : Res (Nat × Inode) :=
  let fileno := offset / VPFILE_SIZE
  if MAX_VPFILES < fileno then .error (.panic "offset too big!")
  else if fileno = MAX_VPFILES then .error .outOfBounds
  else match files fileno with
    | none => .error .nullDeref
    | some ip => .ok (fileno, ip)

/-- `vpread(pr, buf, offset, size)`: the result and the buffer. -/
def vpread (files : VpFiles) (buf : Bytes) (offset size : Nat) : Res (Int × Bytes) := do
  let (_, ip) ← vpfileAt files offset
  match readi ip (offset % VPFILE_SIZE) size with
  | none => pure (-1, buf)
  | some r => pure (r, ip.fill (offset % VPFILE_SIZE) r buf)

/-- `vpwrite(pr, buf, offset, size)`: the result and the files. -/
def vpwrite (files : VpFiles) (buf : Bytes) (offset size : Nat) : Res (Int × VpFiles) := do
  let (fileno, ip) ← vpfileAt files offset
  let (r, ip) := filewrite ip buf (offset % VPFILE_SIZE) size
  pure (r, Function.update files fileno (some ip))

/-- The loop of `fork` that copies the swap files in pieces of `PGSIZE / 2` bytes. -/
def copyVpfiles (src : VpFiles) : Nat → Nat → Bytes → VpFiles → Res VpFiles
  | 0, _, _, _ => .error .diverges
  | fuel + 1, offset, buf, dst => do
    let (nread, buf) ← vpread src buf offset (PGSIZE / 2)
    if nread = 0 then pure dst
    else if nread < 0 then
      -- `filewrite` returns -1 at once for a negative count
      .error (.panic "[ERROR] Copying vpfile in fork().")
    else do
      let (r, dst) ← vpwrite dst buf offset nread.toNat
      if r = -1 then .error (.panic "[ERROR] Copying vpfile in fork().")
      else copyVpfiles src fuel (offset + nread.toNat) buf dst

/-- `vpalloc(p)`: `created` are the files that `create` returns. -/
def vpalloc (created : Nat → Inode) (files : VpFiles) : VpFiles := fun j =>
  if j < MAX_VPFILES then some (created j) else files j

end Xv6
