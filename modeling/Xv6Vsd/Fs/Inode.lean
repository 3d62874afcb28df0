import Xv6Vsd.Kernel.State

/-!
# Blocks and inodes (`fs.c`)

`dev` of an inode is part of its name.
-/

namespace Xv6Vsd

open Prog

/-! ## Blocks -/

def firstFree (x : Block) (m : Nat) : Option Nat := (List.range m).find? fun bi => !x.testBit bi

def bzero (dev b : Nat) : K Unit := edit dev b fun _ => (some Bytes.zero, ())

def ballocFrom (dev : Nat) (sb : Superblock) : (fuel b : Nat) → K (Option Nat)
  | 0, _ => pure none
  | fuel + 1, b =>
    if b < sb.size then do
      let found ← edit dev (sb.bblock b) fun x =>
        match firstFree x (min bpb (sb.size - b)) with
        | some bi => (some (x.setBit bi), some bi) -- Mark block in use.
        | none => (none, none)
      match found with
      | some bi => pure (some (b + bi))
      | none => ballocFrom dev sb fuel (b + bpb)
    else pure none

def balloc (dev : Nat) : K UInt32 := do
  let sb ← getsuperblock dev
  let found ← ballocFrom dev sb (sb.size / bpb + 1) 0
  match found with
  | some b =>
    bzero dev b
    pure (UInt32.ofNat b)
  | none => pure 0

def bfree (dev : Nat) (b : UInt32) : K Unit := do
  let sb ← getsuperblock dev
  edit dev (sb.bblock b.toNat) fun x => (some (x.clearBit (b.toNat % bpb)), ())

/-! ## Inodes -/

def iget (dev inum : Nat) : K IRef :=
  let r : IRef := ⟨dev, inum⟩
  tau fun s =>
    match s.icache r with
    | some ip => .ok r (s.setInode r (some { ip with more := ip.more + 1 }))
    | none =>
      if ninode ≤ s.slots then .panic "iget: no inodes"
      else .ok r { s.setInode r (some ⟨0, false, false, false, s.stale r⟩) with slots := s.slots + 1 }

def iallocFrom (dev : Nat) (sb : Superblock) (type : Int16) : (fuel inum : Nat) → K (Option IRef)
  | 0, _ => pure none
  | fuel + 1, inum =>
    if inum < sb.ninodes then do
      let free ← edit dev (sb.iblock inum) fun x =>
        if (x.dinode inum).type = 0 then -- a free inode
          (some (x.setDinode inum { Dinode.zero with type := type }), true)
        else (none, false)
      if free then some <$> iget dev inum
      else iallocFrom dev sb type fuel (inum + 1)
    else pure none

def ialloc (dev : Nat) (type : Int16) : K (Option IRef) := do
  let sb ← getsuperblock dev
  iallocFrom dev sb type sb.ninodes 1

/-- The disk inode `iupdate` leaves over `old`: everything but `attrib` is copied. -/
def Dinode.update (old ip : Dinode) : Dinode := { ip with attrib := old.attrib }

def iupdate1 (r : IRef) (direct : Bool) : K Unit := do
  let sb ← getsuperblock r.dev
  let ip ← inode r
  let copy : Block → Block := fun x => x.setDinode r.inum ((x.dinode r.inum).update ip.din)
  if direct then editDirect r.dev (sb.iblock r.inum) copy
  else edit r.dev (sb.iblock r.inum) fun x => (some (copy x), ())

def iupdate (r : IRef) : K Unit := iupdate1 r false

def iupdateDirect (r : IRef) : K Unit := iupdate1 r true

def idup (ip : Option IRef) : K (Option IRef) := do
  ifSome ip fun r => modInode r fun ip => { ip with more := ip.more + 1 }
  pure ip

def ilock (r : IRef) : K Unit := do
  let locked ← tau fun s =>
    match s.icache r with
    | none => .ok false s -- "negative refs or does not exist"
    | some ip => if ip.busy then .block else .ok true (s.setInode r (some { ip with busy := true }))
  onlyIf (locked = true) do
    let ip ← inode r
    onlyIf (ip.valid = false) do
      let sb ← getsuperblock r.dev
      let d ← edit r.dev (sb.iblock r.inum) fun x => (none, x.dinode r.inum)
      modInode r fun ip => { ip with din := ip.din.update d, valid := true }

def iunlock (r : IRef) : K Unit := poke fun s =>
  match s.icache r with
  | none => s
  | some ip => s.setInode r (some { ip with busy := false })

/-! ## The blocks of a file -/

def offset2real (off : Nat) : Nat × Nat := (off / nindirect, off % nindirect)

/-- The address of the `bn`-th block of inode `r`, or -1. If the second allocation fails the
indirect block stays in the hands of the process. -/
def bmapG (r : IRef) (bn : Nat) (create : Bool) : K UInt32 := do
  let (block, ptr) := offset2real bn
  if maxfile ≤ bn then panic "newbmap: block out of range"
  else
    let ip ← act (holeEv block) fun s =>
      match s.icache r with
      | some ip => .ok ip s
      | none => .panic "trap"
    if ip.din.addr block = 0 ∧ create then
      let newblock ← balloc r.dev
      if newblock = 0 then pure (-1)
      else
        modDin r fun d => d.setAddr block newblock
        bmapPtr ptr
    else if !create then pure (-1)
    else bmapPtr ptr
where
  holeEv (block : Nat) (s : Kernel) : Ev :=
    match s.icache r with
    | some ip => if ip.din.addr block = 0 ∧ create then .hole r.dev else .tau
    | none => .tau
  bmapPtr (ptr : Nat) : K UInt32 := do
    let (block, _) := offset2real bn
    let ip ← inode r
    let a := ip.din.addr block
    let idBlock ← act (fun s => if ((s.disk r.dev).cache a.toNat).u32 (4 * ptr) = 0 ∧ create
      then .hole r.dev else .tau) (Kernel.onDisk r.dev fun d => d.hold a.toNat)
    if idBlock.u32 (4 * ptr) = 0 ∧ create then
      let newblock ← balloc r.dev
      if newblock = 0 then pure (-1)
      else release r.dev a.toNat fun x =>
        (some (x.setU32 (4 * ptr) newblock), (x.setU32 (4 * ptr) newblock).u32 (4 * ptr))
    else if !create then pure (-1)
    else release r.dev a.toNat fun x => (none, x.u32 (4 * ptr))

def bmap (r : IRef) (bn : Nat) : K UInt32 := bmapG r bn true

def bfreeref (r : IRef) (addr : UInt32) : K Unit := do
  let (block, ptr) := offset2real addr.toNat
  let ip ← inode r
  onlyIf (ip.din.addr block ≠ 0) do
    edit r.dev (ip.din.addr block).toNat fun x => (some (x.setU32 (4 * ptr) 0), ())

def itrunc (r : IRef) : K Unit := do
  let ip ← inode r
  loop (ip.din.size.toNat / bsize) fun i => do
    let addr ← bmapG r i false
    onlyIf (addr ≠ -1) do
      bfree r.dev addr
      bfreeref r addr
  modDin r fun d => { d with size := 0 }
  iupdate r

def Kernel.drop (s : Kernel) (r : IRef) (ip : Inode) : Kernel :=
  if ip.more = 0 then { s.setInode r none with slots := s.slots - 1 }
  else s.setInode r (some { ip with more := ip.more - 1 })

def Inode.doomed (ip : Inode) : Bool := ip.more = 0 ∧ ip.valid ∧ ip.din.nlink = 0

def iput1 (r : IRef) (direct : Bool) : K Unit := do
  let free ← act freeEv fun s =>
    match s.icache r with
    | none => .panic "trap"
    | some ip =>
      if ip.doomed then
        if ip.busy then .panic "iput busy" else .ok true (s.setInode r (some { ip with busy := true }))
      else .ok false (s.drop r ip)
  onlyIf (free = true) do
    itrunc r
    modDin r fun d => { d with type := 0 }
    iupdate1 r direct
    tau fun s =>
      match s.icache r with
      | none => .panic "trap"
      | some ip => .ok () (s.drop r { ip with busy := false, valid := false, mountroot := false })
where
  freeEv (s : Kernel) : Ev :=
    match s.icache r with
    | some ip => if ip.doomed then .free r direct else .tau
    | none => .tau

def iput (r : IRef) : K Unit := iput1 r false

def iputDirect (r : IRef) : K Unit := iput1 r true

def iunlockput1 (r : IRef) (direct : Bool) : K Unit := do
  iunlock r
  iput1 r direct

def iunlockput (r : IRef) : K Unit := iunlockput1 r false

def iunlockputDirect (r : IRef) : K Unit := iunlockput1 r true

end Xv6Vsd
