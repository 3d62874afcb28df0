import Xv6Vsd.Log.Model

/-!
# The kernel's state and its atomic steps

The disks with their buffers, the inode cache, the file table and the processes. A cached inode is
named by its device and number: `iget` keeps at most one entry with references for each name. An
entry without references is free and does not exist here. The only mount is that of the root on
itself (`fsinit`), so `I_MOUNTPOINT` and `mountparent` lead from the root to the root. A section from
`bread` to `brelse` in which the holder does not sleep is one step.
-/

namespace Xv6Vsd

structure IRef where
  dev : Nat
  inum : Nat
  deriving DecidableEq, Repr

/-- `struct inode` with `ref > 0`. The `attrib` of the copy is never set. -/
structure Inode where
  /-- references besides one: `ref` is `more + 1` -/
  more : Nat
  busy : Bool
  valid : Bool
  mountroot : Bool
  din : Dinode

inductive FdType where
  | none
  | pipe
  | inode
  deriving DecidableEq

structure File where
  type : FdType
  ref : Int
  readable : Bool
  writable : Bool
  ip : IRef
  off : UInt32

structure Proc where
  uid : Int
  thread : Bool
  ofile : Nat → Option Nat
  cwd : Option IRef
  rootdir : Option IRef
  injail : Bool
  rdirpath : List UInt8
  errstr : String

/-- How a device driver other than that of the raw disks answers a request. -/
structure Answer where
  ret : Int
  data : List UInt8
  relock : Bool
  /-- `singleuser` afterwards; the driver of the system parameters sets it -/
  singleuser : Bool

structure Kernel where
  disk : Nat → Disk
  icache : IRef → Option Inode
  slots : Nat
  /-- what a free entry of the inode cache still holds -/
  stale : IRef → Dinode
  rootdir : IRef
  /-- `fileclose` leaves `FD_NONE` in the slots it frees: a free slot has no contents -/
  file : Nat → Option File
  proc : Nat → Proc
  singleuser : Bool
  answers : Nat → Answer
  asked : Nat

inductive Ev where
  | tau
  | disk (dev : Nat) (e : LogEv)
  | hole (dev : Nat)
  | free (r : IRef) (direct : Bool)
  deriving DecidableEq

abbrev K (α : Type) : Type 1 := Prog Kernel Ev α

namespace Kernel

def setDisk (s : Kernel) (dev : Nat) (d : Disk) : Kernel := { s with disk := Function.update s.disk dev d }

def setInode (s : Kernel) (r : IRef) (ip : Option Inode) : Kernel := { s with icache := Function.update s.icache r ip }

def setProc (s : Kernel) (p : Nat) (x : Proc) : Kernel := { s with proc := Function.update s.proc p x }

def setFile (s : Kernel) (f : Nat) (x : Option File) : Kernel := { s with file := Function.update s.file f x }

/-- A step on a mounted disk. `getsuperblock` and `getlog` of another one are null. -/
def onDisk {α : Type} (dev : Nat) (f : Disk → Res Disk α) (s : Kernel) : Res Kernel α :=
  if (s.disk dev).mounted then (f (s.disk dev)).bind fun a d => .ok a (s.setDisk dev d)
  else .panic "trap"

end Kernel

namespace Disk

variable {α : Type}

/-- `bread`: a buffer in use is waited for, a block the driver does not have is refused. -/
def bread (d : Disk) (b : Nat) : Res Disk Block :=
  if !d.present then .panic "trap"
  else if d.busy b then .block
  else if fssize ≤ b then .panic "incorrect blockno"
  else .ok (d.cache b) d

def put (d : Disk) (b : Nat) (a : α) : Option Block → Res Disk α
  | none => .ok a d
  | some x => ((d.store b x).logWrite (UInt32.ofNat b)).bind fun _ d => .ok a d

/-- `bread`, look at the data, perhaps change it and `log_write`, `brelse`. -/
def edit (d : Disk) (b : Nat) (g : Block → Option Block × α) : Res Disk α :=
  (d.bread b).bind fun x d => d.put b (g x).2 (g x).1

def editDirect (d : Disk) (b : Nat) (g : Block → Block) : Res Disk Unit :=
  (d.bread b).bind fun x d => .ok () (d.bwrite b (g x))

/-- `bread` by a process that goes on to sleep with the buffer in its hands. -/
def hold (d : Disk) (b : Nat) : Res Disk Block :=
  (d.bread b).bind fun x d => .ok x { d with busy := Function.update d.busy b true }

/-- Look at a buffer in one's hands, perhaps change it and `log_write`, `brelse`. -/
def release (d : Disk) (b : Nat) (g : Block → Option Block × α) : Res Disk α :=
  (d.put b (g (d.cache b)).2 (g (d.cache b)).1).bind fun a d =>
    .ok a { d with busy := Function.update d.busy b false }

end Disk

open Prog

section Steps

variable {α : Type}

def tau (f : Kernel → Res Kernel α) : K α := act (fun _ => .tau) f

def peek (f : Kernel → α) : K α := tau fun s => .ok (f s) s

def poke (f : Kernel → Kernel) : K Unit := tau fun s => .ok () (f s)

def panic (msg : String) : K α := tau fun _ => .panic msg

def trap : K α := panic "trap"

def onlyIf (c : Prop) [Decidable c] (p : K Unit) : K Unit := if c then p else pure ()

def ifSome (o : Option α) (p : α → K Unit) : K Unit := match o with
  | some a => p a
  | none => pure ()

def editEv (dev b : Nat) (g : Block → Option Block × α) (s : Kernel) : Ev :=
  if (g ((s.disk dev).cache b)).1.isSome then .disk dev (.logWrite b) else .tau

def edit (dev b : Nat) (g : Block → Option Block × α) : K α :=
  act (editEv dev b g) (Kernel.onDisk dev fun d => d.edit b g)

def editDirect (dev b : Nat) (g : Block → Block) : K Unit :=
  act (fun _ => .disk dev (.bwrite b)) (Kernel.onDisk dev fun d => d.editDirect b g)

def release (dev b : Nat) (g : Block → Option Block × α) : K α :=
  act (editEv dev b g) (Kernel.onDisk dev fun d => d.release b g)

def onLog (dev : Nat) (p : Prog Disk LogEv α) : K α :=
  p.zoom (Kernel.onDisk dev) fun lab s => .disk dev (lab (s.disk dev))

def beginOp (dev : Nat) : K Unit := onLog dev Log.beginOp

def endOp (dev : Nat) : K Unit := onLog dev Log.endOp

def getsuperblock (dev : Nat) : K Superblock := tau (Kernel.onDisk dev fun d => .ok d.sb d)

def inode (r : IRef) : K Inode := tau fun s =>
  match s.icache r with
  | some ip => .ok ip s
  | none => .panic "trap"

def modInode (r : IRef) (f : Inode → Inode) : K Unit := tau fun s =>
  match s.icache r with
  | some ip => .ok () (s.setInode r (some (f ip)))
  | none => .panic "trap"

def modDin (r : IRef) (f : Dinode → Dinode) : K Unit := modInode r fun ip => { ip with din := f ip.din }

def modProc (p : Nat) (f : Proc → Proc) : K Unit := poke fun s => s.setProc p (f (s.proc p))

def seterr (p : Nat) (msg : String) : K Unit := modProc p fun x => { x with errstr := msg }

end Steps

end Xv6Vsd
