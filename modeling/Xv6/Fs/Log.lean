import Xv6.Fs.SwapFile
import Xv6.Lib.Words
import Xv6.Lib.DiskWrites

/-!
# The log (`log.c`)

A redo log of whole blocks. The buffer cache is kept as far as the log sees it: what
`bread` returns is the contents of a dirty buffer, and the disk's otherwise. Each
`bwrite` is one atomic block write; `Bio.writes` keeps them in order. A `bread` that
finds no free buffer panics; for the disk this is a crash between two writes.
-/

namespace Xv6

open Fallible Words DiskWrites

/-- Bytes of a disk block. -/
def BSIZE : Nat := 512

/-- Most data blocks of a transaction. -/
def LOGSIZE : Nat := 30

/-- The contents of a disk block; offsets from `BSIZE` on mean nothing. -/
abbrev Block := Bytes

/-- `struct logheader`. -/
structure LogHeader where
  n : Int := 0
  block : Nat → Nat := fun _ => 0

/-- `struct log`, without its lock and device. -/
structure Log where
  start : Nat
  size : Nat
  outstanding : Int := 0
  committing : Bool := false
  lh : LogHeader := {}

/-- The disk, the contents of the dirty buffers, and the block writes so far. -/
structure Bio where
  disk : Nat → Block
  dirty : Nat → Option Block := fun _ => none
  writes : List (Nat × Block) := []

/-- The data of the buffer `bread(dev, b)` returns. -/
def Bio.bread (m : Bio) (b : Nat) : Block := (m.dirty b).getD (m.disk b)

/-- `bwrite` of the buffer of block `b`, whose data is now `data`. -/
def Bio.bwrite (m : Bio) (b : Nat) (data : Block) : Bio where
  disk := Function.update m.disk b data
  dirty := Function.update m.dirty b none
  writes := m.writes ++ [(b, data)]

/-- The values a loop `for (i = 0; i < n; i++)` over an `int` takes. -/
def upto (n : Int) : List Nat := List.range n.toNat

/-- `install_trans`. -/
def installTrans (log : Log) (m : Bio) : Bio :=
  (upto log.lh.n).foldl (fun m tail =>
    let lbuf := m.bread (log.start + tail + 1)
    m.bwrite (log.lh.block tail) lbuf) m

/-- `hb->n` and `hb->block[i]` of a header block. -/
def headN (buf : Block) : Int := toInt32 (getWord buf 0)

def headBlock (buf : Block) (i : Nat) : Nat := getWord buf (4 + 4 * i)

/-- `read_head`. A count above `LOGSIZE` makes the loop run past `log.lh.block`. -/
def readHead (log : Log) (m : Bio) : Res Log :=
  let buf := m.bread log.start
  if LOGSIZE < headN buf then .error .outOfBounds
  else .ok { log with
    lh.n := headN buf
    lh.block := fun i => if (i : Int) < headN buf then headBlock buf i else log.lh.block i }

/-- What `write_head` makes of the header block. -/
def headOf (lh : LogHeader) (hb : Block) : Block :=
  (upto lh.n).foldl (fun hb i => putWord hb (4 + 4 * i) (lh.block i)) (putWord hb 0 (ofInt32 lh.n))

/-- `write_head`. -/
def writeHead (log : Log) (m : Bio) : Bio :=
  m.bwrite log.start (headOf log.lh (m.bread log.start))

/-- `log.lh.n = 0`. -/
def Log.clear (log : Log) : Log := { log with lh.n := 0 }

/-- `recover_from_log`. -/
def recoverFromLog (log : Log) (m : Bio) : Res (Log × Bio) := do
  let log ← readHead log m
  let m := installTrans log m
  let log := log.clear
  pure (log, writeHead log m)

/-- `initlog(dev)` with the `logstart` and `nlog` of the superblock. -/
def initlog (logstart nlog : Nat) (m : Bio) : Res (Log × Bio) :=
  if BSIZE ≤ 4 + 4 * LOGSIZE then .error (.panic "initlog: too big logheader")
  else recoverFromLog { start := logstart, size := nlog } m

/-- `write_log`. -/
def writeLog (log : Log) (m : Bio) : Bio :=
  (upto log.lh.n).foldl (fun m tail =>
    let data := m.bread (log.lh.block tail)
    m.bwrite (log.start + tail + 1) data) m

/-- `commit`. -/
def commit (log : Log) (m : Bio) : Log × Bio :=
  if 0 < log.lh.n then
    let m := writeLog log m
    let m := writeHead log m
    let m := installTrans log m
    let log := log.clear
    (log, writeHead log m)
  else (log, m)

/-- The index at which the loop of `log_write` stops. -/
def LogHeader.find (lh : LogHeader) (blockno : Nat) : Nat :=
  ((upto lh.n).find? fun i => lh.block i = blockno).getD lh.n.toNat

/-- `log_write(b)` for the buffer of block `blockno` with the data `data`. -/
def logWrite (blockno : Nat) (data : Block) (log : Log) (m : Bio) : Res (Log × Bio) :=
  if LOGSIZE ≤ log.lh.n ∨ (log.size : Int) - 1 ≤ log.lh.n then .error (.panic "too big a transaction")
  else if log.outstanding < 1 then .error (.panic "log_write outside of trans")
  else
    let i := log.lh.find blockno
    .ok ({ log with
      lh.block := Function.update log.lh.block i blockno
      lh.n := if (i : Int) = log.lh.n then log.lh.n + 1 else log.lh.n },
      { m with dirty := Function.update m.dirty blockno (some data) })

end Xv6
