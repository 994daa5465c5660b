import Xv6.Lib.Circle
import Xv6.Lib.Runs
import Xv6.Lib.Tables

/-!
# The buffer cache (`bio.c`)

The buffers, the list that orders them by their last use, and the calls of `bread` that
have not given their buffer back. A process with several buffers has several such calls.
A step is what one call does between two points at which it takes or gives up `bcache.lock`
or the lock of a buffer, or waits for the disk; the calls interleave in any order.
-/

namespace Xv6.Bcache
open Circle Tables

/-- `MAXOPBLOCKS * 3`. -/
def NBUF : Nat := 30

/-- `dev` and `blockno`. -/
abbrev Key := Nat × Nat

/-- `struct buf` with the contents `α` of a block; `locked` is that of its sleeplock. -/
structure Buf (α : Type) where
  valid : Bool := false
  dirty : Bool := false
  key : Key := (0, 0)
  refcnt : Nat := 0
  locked : Bool := false
  data : α

/-- Where a call is. -/
inductive Phase where
  | none
  -- in `bget`, before `acquiresleep`
  | waiting (b : Nat)
  -- in `bread`, after `bget`
  | got (b : Nat)
  -- outside of the cache with the buffer locked
  | holding (b : Nat)
  -- in `bwrite`, until the disk is done
  | writing (b : Nat)
  -- in `brelse`, after `releasesleep`
  | releasing (b : Nat)
  deriving DecidableEq, Repr

/-- The buffer that a call refers to. -/
def Phase.buf : Phase → Option Nat
  | .none => Option.none
  | .waiting b => some b
  | .got b => some b
  | .holding b => some b
  | .writing b => some b
  | .releasing b => some b

/-- The buffer that a call has locked. -/
def Phase.locks : Phase → Option Nat
  | .got b => some b
  | .holding b => some b
  | .writing b => some b
  | _ => Option.none

structure Cache (α : Type) where
  buf : Nat → Buf α
  links : Links Nat

variable {α : Type}

/-- `binit()`. -/
def binit (zero : α) : Cache α where
  buf _ := { data := zero }
  links := (List.range NBUF).foldl Links.push ⟨fun _ => none, fun _ => none⟩

namespace Cache

def setBuf (c : Cache α) (b : Nat) (x : Buf α) : Cache α := { c with buf := Function.update c.buf b x }

/-- `bget(dev, blockno)` up to `acquiresleep`; `none` is the panic. -/
def bget (c : Cache α) (key : Key) : Option (Nat × Cache α) :=
  match seek c.links.next (fun b => (c.buf b).key = key) (NBUF + 1) (c.links.next none) with
  | some (some b) => some (b, c.setBuf b { c.buf b with refcnt := (c.buf b).refcnt + 1 })
  | some none =>
    match seek c.links.prev (fun b => (c.buf b).refcnt = 0 ∧ (c.buf b).dirty = false) (NBUF + 1) (c.links.prev none) with
    | some (some b) =>
      some (b, c.setBuf b { c.buf b with key := key, valid := false, dirty := false, refcnt := 1 })
    | _ => none
  | none => none

/-- `brelse(b)` after `releasesleep`. -/
def drop (c : Cache α) (b : Nat) : Cache α :=
  let c := c.setBuf b { c.buf b with refcnt := (c.buf b).refcnt - 1 }
  if (c.buf b).refcnt = 0 then { c with links := (c.links.unlink b).push b } else c

end Cache

structure Sys (α : Type) where
  cache : Cache α
  disk : Key → α
  call : Nat → Phase

def boot (zero : α) (disk : Key → α) : Sys α := ⟨binit zero, disk, fun _ => .none⟩

namespace Sys

def buf (s : Sys α) (b : Nat) : Buf α := s.cache.buf b

/-- A call goes on, with its buffer changed. -/
def put (s : Sys α) (h : Nat) (ph : Phase) (b : Nat) (x : Buf α) : Sys α :=
  { s with cache := s.cache.setBuf b x, call := Function.update s.call h ph }

end Sys

inductive Event (α : Type) where
  | bget (key : Key)
  | acquiresleep
  | read
  -- `bread` returns
  | bread (key : Key) (data : α)
  -- the holder stores into the block
  | store (key : Key) (data : α)
  | logWrite
  | bwrite
  | written
  | releasesleep
  | drop

/-- What the calls with numbers below `n` do. A holder that has changed its buffer calls `log_write` or `bwrite` before it
gives the buffer back. -/
inductive Step (n : Nat) : Event α → Sys α → Sys α → Prop where
  | bget {s : Sys α} {h b : Nat} {key : Key} {c : Cache α} : h < n → s.call h = .none → s.cache.bget key = some (b, c) →
      Step n (.bget key) s { s with cache := c, call := Function.update s.call h (.waiting b) }
  | acquiresleep {s : Sys α} {h b : Nat} : h < n → s.call h = .waiting b → (s.buf b).locked = false →
      Step n .acquiresleep s (s.put h (.got b) b { s.buf b with locked := true })
  -- `iderw` of a buffer that is not valid
  | read {s : Sys α} {h b : Nat} : h < n → s.call h = .got b → (s.buf b).valid = false →
      Step n .read s (s.put h (.got b) b { s.buf b with data := s.disk (s.buf b).key, valid := true })
  | bread {s : Sys α} {h b : Nat} : h < n → s.call h = .got b → (s.buf b).valid = true →
      Step n (.bread (s.buf b).key (s.buf b).data) s (s.put h (.holding b) b (s.buf b))
  | store {s : Sys α} {h b : Nat} {data : α} : h < n → s.call h = .holding b →
      Step n (.store (s.buf b).key data) s (s.put h (.holding b) b { s.buf b with data := data })
  | logWrite {s : Sys α} {h b : Nat} : h < n → s.call h = .holding b →
      Step n .logWrite s (s.put h (.holding b) b { s.buf b with dirty := true })
  | bwrite {s : Sys α} {h b : Nat} : h < n → s.call h = .holding b →
      Step n .bwrite s (s.put h (.writing b) b { s.buf b with dirty := true })
  | written {s : Sys α} {h b : Nat} : h < n → s.call h = .writing b →
      Step n .written s { s.put h (.holding b) b { s.buf b with dirty := false, valid := true } with
        disk := Function.update s.disk (s.buf b).key (s.buf b).data }
  | releasesleep {s : Sys α} {h b : Nat} : h < n → s.call h = .holding b →
      (s.buf b).dirty = true ∨ (s.buf b).data = s.disk (s.buf b).key →
      Step n .releasesleep s (s.put h (.releasing b) b { s.buf b with locked := false })
  | drop {s : Sys α} {h b : Nat} : h < n → s.call h = .releasing b →
      Step n .drop s { s with cache := s.cache.drop b, call := Function.update s.call h .none }

end Xv6.Bcache
