import Xv6Vsd.Disk.Layout
import Xv6Vsd.Lib.Prog

/-!
# Processes that share the inode cache

The `NINODE` entries of `icache.inode` with the processes that call `iget`, `idup`, `ialloc`, `ilock`,
`iunlock` and `iput1`. A section under `icache.lock` is one step, and so is a section from `bread` to
`brelse`; between two steps of a call the other processes run. A process passes on only pointers it has
got and not given back, and unlocks what it has locked.
-/

namespace Xv6Vsd.Icache

open Function

abbrev Slot : Type := Fin ninode

structure Entry where
  dev : Nat
  inum : Nat
  ref : Int
  busy : Option Nat
  valid : Bool
  mountpoint : Option Slot
  din : Dinode

inductive Phase where
  | idle
  /-- `ialloc` comes to inode `inum` -/
  | scanning (dev : Nat) (type : Int16) (inum : Nat)
  /-- `ialloc` has marked the inode allocated on the disk, `iget` follows -/
  | marked (dev inum : Nat)
  | locking (e : Slot)
  | taken (e : Slot)
  /-- `ilock` has copied the disk inode, `I_VALID` follows -/
  | copied (e : Slot)
  /-- `iput1` has set `I_BUSY` on an inode without links and comes to `itrunc` -/
  | truncating (e : Slot)
  | clearing (e : Slot)
  | freeing (e : Slot)
  deriving DecidableEq

def Phase.slot : Phase → Option Slot
  | .idle | .scanning _ _ _ | .marked _ _ => none
  | .locking e | .taken e | .copied e | .truncating e | .clearing e | .freeing e => some e

def Phase.busySlot : Phase → Option Slot
  | .taken e | .copied e | .truncating e | .clearing e | .freeing e => some e
  | _ => none

structure Cache where
  entry : Slot → Entry
  /-- the disk inodes as the buffer cache shows them -/
  disk : Nat → Nat → Dinode
  ninodes : Nat → Nat
  phase : Nat → Phase
  /-- who has got a pointer to an entry; `none` are the mounts -/
  held : List (Option Nat × Slot)

inductive Ev where
  | tau
  | recycle (e : Slot)
  | free (e : Slot)
  | read (e : Slot)
  | locked (e : Slot)
  deriving DecidableEq

namespace Cache

def setEntry (c : Cache) (e : Slot) (x : Entry) : Cache := { c with entry := update c.entry e x }

def setPhase (c : Cache) (p : Nat) (ph : Phase) : Cache := { c with phase := update c.phase p ph }

def take (c : Cache) (who : Option Nat) (e : Slot) : Cache :=
  { c.setEntry e { c.entry e with ref := (c.entry e).ref + 1 } with held := (who, e) :: c.held }

def drop (c : Cache) (p : Nat) (e : Slot) : Cache :=
  { c.setEntry e { c.entry e with ref := (c.entry e).ref - 1 } with held := c.held.erase (some p, e) }

def setDisk (c : Cache) (dev inum : Nat) (d : Dinode) : Cache :=
  { c with disk := update c.disk dev (update (c.disk dev) inum d) }

def iupdate (c : Cache) (e : Slot) : Cache :=
  let x := c.entry e
  c.setDisk x.dev x.inum { x.din with attrib := (c.disk x.dev x.inum).attrib }

def cached (c : Cache) (dev inum : Nat) : Option Slot :=
  (List.finRange ninode).find? fun e => 0 < (c.entry e).ref ∧ (c.entry e).dev = dev ∧ (c.entry e).inum = inum

def empty (c : Cache) : Option Slot := (List.finRange ninode).find? fun e => (c.entry e).ref = 0

def iget (c : Cache) (p dev inum : Nat) : Res Cache Ev := match c.cached dev inum with
  | some e => .ok .tau (c.take (some p) ((c.entry e).mountpoint.getD e))
  | none =>
    match c.empty with
    | none => .panic "iget: no inodes"
    | some e => -- Recycle an inode cache entry.
      .ok (.recycle e) { c.setEntry e { c.entry e with
        dev := dev, inum := inum, ref := 1, busy := none, valid := false, mountpoint := none } with
        held := (some p, e) :: c.held }

def doomed (c : Cache) (e : Slot) : Bool := (c.entry e).ref = 1 ∧ (c.entry e).valid = true ∧ (c.entry e).din.nlink = 0

def go (c : Cache) (p : Nat) : Res Cache Ev := match c.phase p with
  | .idle => .block
  | .scanning dev type inum =>
    if inum < c.ninodes dev then
      if (c.disk dev inum).type = 0 then -- a free inode
        .ok .tau ((c.setDisk dev inum { Dinode.zero with type := type }).setPhase p (.marked dev inum))
      else .ok .tau (c.setPhase p (.scanning dev type (inum + 1)))
    else .ok .tau (c.setPhase p .idle)
  | .marked dev inum => (c.iget p dev inum).bind fun ev c => .ok ev (c.setPhase p .idle)
  | .locking e =>
    if (c.entry e).busy.isSome then .block
    else .ok .tau ((c.setEntry e { c.entry e with busy := some p }).setPhase p (.taken e))
  | .taken e =>
    if (c.entry e).valid then .ok (.locked e) (c.setPhase p .idle)
    else
      let x := c.entry e
      .ok (.read e) ((c.setEntry e { x with
        din := { c.disk x.dev x.inum with attrib := x.din.attrib } }).setPhase p (.copied e))
  | .copied e => .ok (.locked e) ((c.setEntry e { c.entry e with valid := true }).setPhase p .idle)
  | .truncating e =>
    let x := c.entry e
    .ok .tau (((c.setEntry e { x with din := { x.din with size := 0 } }).iupdate e).setPhase p (.clearing e))
  | .clearing e =>
    let x := c.entry e
    .ok .tau (((c.setEntry e { x with din := { x.din with type := 0 } }).iupdate e).setPhase p (.freeing e))
  | .freeing e =>
    .ok (.free e) (((c.setEntry e { c.entry e with
      busy := none, valid := false, mountpoint := none }).drop p e).setPhase p .idle)

end Cache

inductive Act where
  | go
  | iget (dev inum : Nat)
  | idup (e : Slot)
  | ialloc (dev : Nat) (type : Int16)
  | ilock (e : Slot)
  | iunlock (e : Slot)
  | iput1 (e : Slot)
  | edit (e : Slot) (din : Dinode)
  | iupdate (e : Slot)
  | iref (e : Slot)
  /-- the part of `imount0` that sets the flags, with both inodes locked -/
  | mount (mroot mpoint : Slot)

namespace Cache

/-- One step of process `p`. A step the rules on pointers do not allow is not taken. -/
def act (c : Cache) (p : Nat) : Act → Res Cache Ev
  | .go => c.go p
  | .iget dev inum => idle (c.iget p dev inum)
  | .idup e => holding e (.ok .tau (c.take (some p) e))
  | .ialloc dev type => idle (.ok .tau (c.setPhase p (.scanning dev type 1)))
  | .ilock e => holding e
    (if (c.entry e).ref < 1 then .ok .tau c -- "has negative refs or does not exist"
    else .ok .tau (c.setPhase p (.locking e)))
  | .iunlock e => owning e
    (if (c.entry e).ref < 1 then .ok .tau c else .ok .tau (c.setEntry e { c.entry e with busy := none }))
  | .iput1 e => holding e
    (if c.doomed e then
      if (c.entry e).busy.isSome then .panic "iput busy"
      else .ok .tau ((c.setEntry e { c.entry e with busy := some p }).setPhase p (.truncating e))
    else .ok .tau (c.drop p e))
  | .edit e din => owning e (.ok .tau (c.setEntry e { c.entry e with din := din }))
  | .iupdate e => owning e (.ok .tau (c.iupdate e))
  | .iref e => holding e (.ok .tau (c.take none e))
  | .mount mroot mpoint => owning mroot (owning mpoint
    (if (none, mroot) ∈ c.held then
      .ok .tau (c.setEntry mpoint { c.entry mpoint with mountpoint := some mroot })
    else .block))
where
  idle (r : Res Cache Ev) : Res Cache Ev := if c.phase p = .idle then r else .block
  holding (e : Slot) (r : Res Cache Ev) : Res Cache Ev := if (some p, e) ∈ c.held then idle r else .block
  owning (e : Slot) (r : Res Cache Ev) : Res Cache Ev := if (c.entry e).busy = some p then idle r else .block

structure Boot (c : Cache) : Prop where
  ref : ∀ e, (c.entry e).ref = 0
  valid : ∀ e, (c.entry e).valid = false
  mountpoint : ∀ e, (c.entry e).mountpoint = none
  phase : ∀ p, c.phase p = .idle
  held : c.held = []

end Cache

inductive Run (c0 : Cache) : List Ev → Cache → Prop
  | nil : Run c0 [] c0
  | step {tr : List Ev} {c c' : Cache} {ev : Ev} (p : Nat) (a : Act) (h : Run c0 tr c)
    (hs : c.act p a = .ok ev c') : Run c0 (ev :: tr) c'

def readSince (e : Slot) : List Ev → Bool
  | [] => false
  | .read e' :: tr => if e' = e then true else readSince e tr
  | .recycle e' :: tr => if e' = e then false else readSince e tr
  | .free e' :: tr => if e' = e then false else readSince e tr
  | _ :: tr => readSince e tr

end Xv6Vsd.Icache
