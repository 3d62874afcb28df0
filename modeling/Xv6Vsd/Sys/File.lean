import Xv6Vsd.Fs.Path

/-!
# Open files (`file.c`)
-/

namespace Xv6Vsd

open Prog

/-! ## Permissions -/

inductive FileOp where
  | read
  | write
  | exec
  | open
  | unlink
  deriving DecidableEq

def permBit (perms : UInt8) (bit : Nat) : Bool := perms &&& UInt8.ofNat (2 ^ bit) != 0

/-- 0 stands for permission. The bits are `U_READ`, `U_WRITE`, `U_EXEC` from 0 on and `W_READ`,
`W_WRITE`, `W_EXEC` from 4 on. `OP_OPEN` and `OP_UNLINK` test whether the owner is not 0, not
whether the caller is the owner. -/
def checkinodeperm (s : Kernel) (p : Nat) (d : Dinode) (op : FileOp) : Int :=
  let uid := (s.proc p).uid
  let isowner := d.owner.toInt == uid
  let bit := permBit d.perms
  if uid = -1 ∧ s.singleuser then 0
  else if uid ≠ -1 ∧ s.singleuser then -1
  else
    let granted := match op with
      | .read => (isowner && bit 0) || bit 4
      | .write => (isowner && bit 1) || bit 5
      | .exec => (isowner && (bit 0 && bit 2)) || (bit 4 && bit 6)
      | .open => (d.owner != 0 && (bit 0 || bit 1)) || (bit 4 || bit 5)
      | .unlink => (d.owner != 0 && (bit 0 && bit 1)) || (bit 4 && bit 5)
    if granted then 0 else 1

/-! ## The file table -/

def filealloc : K (Option Nat) := tau fun s =>
  match (List.range nfile).find? fun f => (s.file f).isNone with
  | some f => .ok (some f) (s.setFile f (some ⟨.none, 1, false, false, ⟨0, 0⟩, 0⟩))
  | none => .ok none s

def filedup (f : Nat) : K Unit := tau fun s =>
  match s.file f with
  | some x => if x.ref < 1 then .panic "filedup" else .ok () (s.setFile f (some { x with ref := x.ref + 1 }))
  | none => .panic "filedup"

def fileclose (f : Nat) : K Unit := do
  let ff ← tau fun s =>
    match s.file f with
    | some x =>
      if x.ref < 1 then .panic "fileclose"
      else if 0 < x.ref - 1 then .ok none (s.setFile f (some { x with ref := x.ref - 1 }))
      else .ok (some x) (s.setFile f none)
    | none => .panic "fileclose"
  ifSome ff fun x => onlyIf (x.type = .inode) do
    beginOp x.ip.dev
    iput x.ip
    endOp x.ip.dev

def fileOf (f : Nat) : K File := tau fun s =>
  match s.file f with
  | some x => .ok x s
  | none => .panic "trap"

def modFile (f : Nat) (g : File → File) : K Unit := poke fun s => s.setFile f ((s.file f).map g)

/-- Read from file `f`. A pipe does not concern the file system: it answers `pipe`. -/
def fileread (p f : Nat) (n : UInt32) (pipe : Int) : K (Int × List UInt8) := do
  let x ← fileOf f
  if !x.readable then
    seterr p "file is unreadable"
    pure (-1, [])
  else match x.type with
    | .pipe => pure (pipe, [])
    | .inode => do
      ilock x.ip
      let x ← fileOf f
      let (r, xs) ← readi x.ip x.off n
      onlyIf (0 < r) do modFile f fun x => { x with off := x.off + UInt32.ofInt r }
      iunlock x.ip
      pure (r, xs)
    | .none => do
      seterr p "fd type is unknown"
      pure (-1, [])

/-- `max = ((LOGSIZE-1-1-2) / 2) * 512`, the most one transaction of `filewrite` writes. -/
abbrev filewriteMax : Nat := (logsize - 1 - 1 - 2) / 2 * 512

def filewriteChunk (f : Nat) (addr : Nat → UInt8) (n1 : Nat) : K Int := do
  let x ← fileOf f
  beginOp x.ip.dev
  ilock x.ip
  let x ← fileOf f
  let r ← writei x.ip addr x.off (UInt32.ofNat n1)
  onlyIf (0 < r) do modFile f fun x => { x with off := x.off + UInt32.ofInt r }
  iunlock x.ip
  endOp x.ip.dev
  pure r

def filewriteFrom (p f : Nat) (addr : Nat → UInt8) (n : Nat) : (fuel i : Nat) → K Int
  | 0, i => pure (if i = n then n else -1)
  | fuel + 1, i => do
    if i < n then
      let n1 := min (n - i) filewriteMax
      let r ← filewriteChunk f (fun j => addr (i + j)) n1
      if r = -2 then
        seterr p "filesystem full: bitmap full"
        pure (-1)
      else if r < 0 then pure (if i = n then n else -1)
      else if r ≠ n1 then
        seterr p "a short write to file occured"
        pure (-1)
      else filewriteFrom p f addr n fuel (i + r.toNat)
    else pure (if i = n then n else -1)

def filewrite (p f : Nat) (addr : Nat → UInt8) (n : Int) (pipe : Int) : K Int := do
  let x ← fileOf f
  if !x.writable then
    seterr p "file is unwriteable"
    pure (-1)
  else match x.type with
    | .pipe => pure pipe
    | .inode => if n < 0 then pure (-1) else filewriteFrom p f addr n.toNat (n.toNat / filewriteMax + 1) 0
    | .none => do
      seterr p "fd type is unknown"
      pure (-1)

def fileseek (p f : Nat) (n : UInt32) (dir : Int) : K Int := do
  let x ← fileOf f
  if !x.readable ∧ !x.writable then
    seterr p "file is unreadable"
    pure (-1)
  else match x.type with
    | .pipe => do
      seterr p "file is the wrong type"
      pure (-1)
    | .inode => do
      let ip ← inode x.ip
      let off := if dir = 0 then n else if dir = 1 then x.off + n
        else if dir = 2 then n + ip.din.size else x.off
      modFile f fun x => { x with off := off }
      pure off.toInt32.toInt
    | .none => do
      seterr p "fd type is unknown"
      pure (-1)

end Xv6Vsd
