import Xv6Vsd.Lib.Prog
import Xv6Vsd.Disk.Layout

/-!
# The redo log (`log.c`)

One disk with its log. `cache` is what `bread` shows, `platter` what the disk itself holds;
`bwrite` makes the two agree on one block. Every step of `commit` and of `recoverFromLog` writes at
most one block, so that the places where the machine can crash are the places between steps.
-/

namespace Xv6Vsd

structure Log where
  start : Nat
  size : Nat
  outstanding : Int
  committing : Bool
  lh : List UInt32
  deriving DecidableEq

structure Disk where
  /-- `DRIVER_INUSE` -/
  present : Bool
  /-- `DISK_MOUNTED` -/
  mounted : Bool
  sb : Superblock
  log : Log
  /-- contents as the buffer cache shows them -/
  cache : Nat → Block
  /-- contents on the disk -/
  platter : Nat → Block
  /-- `B_BUSY`: some process holds the buffer -/
  busy : Nat → Bool

inductive LogEv where
  | tau
  | beginOp
  | endOp
  | logWrite (b : Nat)
  | bwrite (b : Nat)
  | append (b : Nat)
  | head (b : Nat)
  | install (b : Nat)
  deriving DecidableEq

namespace Disk

def bwrite (d : Disk) (b : Nat) (x : Block) : Disk :=
  { d with cache := Function.update d.cache b x, platter := Function.update d.platter b x }

def store (d : Disk) (b : Nat) (x : Block) : Disk := { d with cache := Function.update d.cache b x }

def setLh (d : Disk) (lh : List UInt32) : Disk := { d with log := { d.log with lh := lh } }

def home (d : Disk) (tail : Nat) : Nat := (d.log.lh.getD tail 0).toNat

def slot (d : Disk) (tail : Nat) : Nat := d.log.start + tail + 1

/-- `bread(a)`, `bread(b)`, `memmove(a->data, b->data)`, `bwrite(a)`, `brelse` both. Reading one
block twice sleeps on the own buffer. -/
def copyBlock (a b : Nat) (d : Disk) : Res Disk Unit :=
  if d.busy a || d.busy b || a == b then .block else .ok () (d.bwrite a (d.cache b))

/-! ## Opening and closing an operation -/

def beginOp (d : Disk) : Res Disk Unit :=
  if d.log.size = 0 then .ok () d
  else if d.log.committing then .block
  else if (d.log.lh.length : Int) + (d.log.outstanding + 1) * maxopblocks > logsize then .block
  else .ok () { d with log := { d.log with outstanding := d.log.outstanding + 1 } }

def endOpLocked (d : Disk) : Res Disk Bool :=
  if d.log.size = 0 then .ok false d
  else if d.log.committing then .panic "log->committing"
  else if d.log.outstanding - 1 = 0 then
    .ok true { d with log := { d.log with outstanding := d.log.outstanding - 1, committing := true } }
  else .ok false { d with log := { d.log with outstanding := d.log.outstanding - 1 } }

def endCommit (d : Disk) : Res Disk Unit := .ok () { d with log := { d.log with committing := false } }

/-! ## `log_write` -/

def logWriteCheck (d : Disk) : Res Disk Unit :=
  if d.log.lh.length ≥ logsize ∨ d.log.lh.length ≥ d.log.size - 1 then .panic "too big a transaction"
  else if d.log.outstanding < 1 then .panic "log_write outside of trans"
  else .ok () d

/-- The locked part of `log_write`: a block already named is absorbed. -/
def logAppend (d : Disk) (b : UInt32) : Disk := if b ∈ d.log.lh then d else d.setLh (d.log.lh ++ [b])

def logWrite (d : Disk) (b : UInt32) : Res Disk Unit :=
  if d.log.size = 0 then .ok () (d.bwrite b.toNat (d.cache b.toNat))
  else d.logWriteCheck.bind fun _ d => .ok () (d.logAppend b)

end Disk

namespace Log

open Prog

def lhN : Prog Disk LogEv Nat := act (fun _ => .tau) fun d => .ok d.log.lh.length d

def installTrans : Prog Disk LogEv Unit := do
  let n ← lhN
  loop n fun tail =>
    act (fun d => .install (d.home tail)) fun d => d.copyBlock (d.home tail) (d.slot tail)

def readHead : Prog Disk LogEv Unit := act (fun _ => .tau) fun d =>
    if d.busy d.log.start then .block else .ok () (d.setLh (d.cache d.log.start).header)

/-- Write in-memory log header to disk. This is the true point at which the current transaction
commits. -/
def writeHead : Prog Disk LogEv Unit := act (fun d => .head d.log.start) fun d =>
    if d.busy d.log.start then .block
    else .ok () (d.bwrite d.log.start ((d.cache d.log.start).setHeader d.log.lh))

def clearLh : Prog Disk LogEv Unit := act (fun _ => .tau) fun d => .ok () (d.setLh [])

def recoverFromLog : Prog Disk LogEv Unit := do
  readHead
  installTrans -- if committed, copy from log to disk
  clearLh
  writeHead -- clear the log

def writeLog : Prog Disk LogEv Unit := do
  let n ← lhN
  loop n fun tail =>
    act (fun d => .append (d.slot tail)) fun d => d.copyBlock (d.slot tail) (d.home tail)

def commit : Prog Disk LogEv Unit := do
  let n ← lhN
  if n > 0 then
    writeLog -- Write modified blocks from cache to log
    writeHead -- Write header to disk -- the real commit
    installTrans -- Now install writes to home locations
    clearLh
    writeHead -- Erase the transaction from the log

def beginOp : Prog Disk LogEv Unit := act (fun _ => .beginOp) Disk.beginOp

def endOp : Prog Disk LogEv Unit := do
  let doCommit ← act (fun _ => .endOp) Disk.endOpLocked
  if doCommit then
    -- call commit w/o holding locks, since not allowed to sleep with locks
    commit
    act (fun _ => .tau) Disk.endCommit

end Log

end Xv6Vsd
