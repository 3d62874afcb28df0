import Xv6Vsd.Fs.Path

/-!
# The image builder (`Tools/mkproto.c`)

`mkproto` builds a file system in a file, entry by entry. A step that makes the program exit with an
error ends in a panic here, and so does the use of an element outside of `addrs`.
-/

namespace Xv6Vsd.Mkproto

open Prog

structure Named where
  name : List UInt8
  ino : Nat
  deriving DecidableEq

structure Fs where
  label : List UInt8
  size : Nat
  freeinode : Nat
  bmap : Nat → Block
  sb : Superblock
  bootable : Bool
  bootinode : UInt16
  kerninode : UInt16
  dirs : List Named
  files : List Named
  image : Nat → Block
  length : Nat
  closed : Bool

abbrev M (α : Type) : Type 1 := Prog Fs Unit α

section

variable {α : Type}

def step (f : Fs → Res Fs α) : M α := act (fun _ => ()) f

def fs (f : Fs → α) : M α := step fun s => .ok (f s) s

def modify (f : Fs → Fs) : M Unit := step fun s => .ok () (f s)

def fail (msg : String) : M α := step fun _ => .panic msg

end

/-! ## Blocks and inodes -/

def seek (blk : Nat) : Nat := blk * bsize % 2 ^ 32 / bsize

def Fs.write (s : Fs) (blk : Nat) (x : Block) : Fs :=
  { s with image := Function.update s.image (seek blk) x, length := max s.length (seek blk + 1) }

def wsect (buf : Block) (blk : Nat) : M Unit := step fun s =>
  if s.closed then .panic "lseek" else .ok () (s.write blk buf)

def rsect (blk : Nat) : M Block := step fun s =>
  if s.closed then .panic "lseek"
  else if s.length ≤ seek blk then .panic "read"
  else .ok (s.image (seek blk)) s

def rinode (inum : Nat) : M Dinode := do
  let bn ← fs fun s => s.sb.iblock inum
  let buf ← rsect bn
  pure (buf.dinode inum)

def winode (inum : Nat) (d : Dinode) : M Unit := do
  let bn ← fs fun s => s.sb.iblock inum
  let buf ← rsect bn
  wsect (buf.setDinode inum d) bn

def ialloc (type : Int16) (owner : Int32) (perms : UInt16) : M Nat := do
  let inum ← fs (·.freeinode)
  modify fun s => { s with freeinode := s.freeinode + 1 }
  winode inum { Dinode.zero with type := type, nlink := 1, owner := owner.toInt16, perms := perms.toUInt8 }
  pure inum

def Fs.used (s : Fs) (i : Nat) : Bool := (s.bmap (i / bpb)).testBit (i % bpb)

def Fs.mark (s : Fs) (i : Nat) : Fs :=
  { s with bmap := Function.update s.bmap (i / bpb) ((s.bmap (i / bpb)).setBit (i % bpb)) }

def balloc : M Nat := step fun s =>
  match (List.range s.size).find? fun i => 1 ≤ i ∧ !s.used i with
  | some i => .ok i (s.mark i)
  | none => .panic "mkproto: unable to allocate block. filesystem full"

def fetchIndirect (din : Dinode) (block : Nat) : M Dinode :=
  if din.addr block = 0 then (fun b => din.setAddr block (UInt32.ofNat b)) <$> balloc else pure din

def fetchData (a ptr : Nat) : M Nat := do
  let indirect ← rsect a
  if indirect.u32 (4 * ptr) = 0 then do
    let b ← balloc
    wsect (indirect.setU32 (4 * ptr) (UInt32.ofNat b)) a
    pure ((indirect.setU32 (4 * ptr) (UInt32.ofNat b)).u32 (4 * ptr)).toNat
  else pure (indirect.u32 (4 * ptr)).toNat

/-- One turn of the loop of `iappend`: the `m` bytes of `src` go to `off`, which lies with them in one
block. -/
def appendPiece (din : Dinode) (off m : Nat) (src : Nat → UInt8) : M Dinode := do
  let (block, ptr) := offset2real (off / bsize)
  if ndirect ≤ block then fail "trap"
  else
    let din ← fetchIndirect din block
    let raddr ← fetchData (din.addr block).toNat ptr
    -- read and update the block
    let buf ← rsect raddr
    wsect (buf.blit (off % bsize) m src) raddr
    pure din

def appendPieces (p : Nat → UInt8) (start : Nat) : List (Nat × Nat) → Dinode → M Dinode
  | [], din => pure din
  | (off, m) :: ps, din => do
    let din ← appendPiece din off m fun i => p (off - start + i)
    appendPieces p start ps din

def iappend (ino : Nat) (data : List UInt8) : M Unit := do
  let din ← rinode ino
  let off := din.size.toNat
  let din ← appendPieces (fun i => data.getD i 0) off (pieces data.length off data.length) din
  -- update the inode
  winode ino { din with size := UInt32.ofNat (off + data.length) }

/-! ## File systems -/

def Fs.super (s : Fs) : Block := fun j =>
  let word (off v : Nat) : UInt8 := byteAt v (j.1 - off)
  if j.1 < 11 then s.label.getD j.1 0
  else if j.1 = 12 then (if s.bootable then 1 else 0)
  else if j.1 = 13 then 1 -- system
  else if j.1 < 16 then 0
  else if j.1 < 20 then word 16 s.sb.size
  else if j.1 < 24 then word 20 s.sb.nblocks
  else if j.1 < 28 then word 24 s.sb.ninodes
  else if j.1 < 32 then word 28 s.sb.nlog
  else if j.1 < 36 then word 32 s.sb.logstart
  else if j.1 < 40 then word 36 s.sb.inodestart
  else if j.1 < 44 then word 40 s.sb.bmapstart
  else if j.1 < 48 then word 44 s.bootinode.toNat
  else if j.1 < 52 then word 48 s.kerninode.toNat
  else 0

def syncTurns (bmapsz : Nat) : Nat := (bmapsz + (bsize - 1)) / bsize

def syncfs : M Unit := do
  let bmapsz ← fs fun s => s.size / (bsize * 8) + 1
  loop (syncTurns bmapsz) fun i => do
    let (bmap, bmapstart) ← fs fun s => (s.bmap i, s.sb.bmapstart)
    wsect bmap (bmapstart + i)
  let buf ← fs Fs.super
  wsect buf 1

def closefs : M Unit := modify fun s => { s with closed := true }

def layout (size nlog ninodes : Nat) : Superblock where
  size := size
  nblocks := size - (2 + nlog + (ninodes / ipb + 1) + (size / (bsize * 8) + 1))
  ninodes := ninodes
  nlog := nlog
  logstart := 2
  inodestart := 2 + nlog
  bmapstart := 2 + nlog + (ninodes / ipb + 1)

def Fs.new (label : List UInt8) (size nlog ninodes : Nat) : Fs where
  label := label
  size := size
  freeinode := 1
  bmap _ := Bytes.zero
  sb := layout size nlog ninodes
  bootable := false
  bootinode := 0
  kerninode := 0
  dirs := []
  files := []
  image _ := Bytes.zero
  length := 0
  closed := false

abbrev dirperms : UInt16 := 0x55

def appendEntry (dir : Nat) (name : List UInt8) (inum : Nat) : M Unit :=
  iappend dir ((List.range 16).map (Dirent.bytes name inum))

def ream : M Unit := do
  let (size, nmeta, label) ← fs fun s =>
    (s.size, s.sb.bmapstart + (s.size / (bsize * 8) + 1), s.label)
  if 10 < label.length then fail "label too long"
  else
    -- reserve used blocks
    loop nmeta fun i => modify (·.mark i)
    -- ream the filesystem
    loop size fun i => wsect Bytes.zero i
    let buf ← fs Fs.super
    wsect buf 1

def makeroot : M Unit := do
  let ino ← ialloc tDir (-1) dirperms
  appendEntry ino dot ino
  appendEntry ino dotdot ino
  modify fun s => { s with dirs := [⟨[slash], ino⟩] }
  syncfs

def makefs : M Unit := do
  ream
  makeroot

/-- `strcpy` into an entry does not stop at its end. -/
def strcpy (name : List UInt8) : M Unit := if dirsiz ≤ name.length then fail "trap" else pure ()

def makedir (name : List UInt8) (parent : Nat) (owner : Int32) (perms : UInt16) : M Unit := do
  let ino ← ialloc tDir owner perms
  -- add to parent
  strcpy name
  appendEntry parent name ino
  -- populate self
  appendEntry ino dot ino
  appendEntry ino dotdot parent
  modify fun s => { s with dirs := s.dirs ++ [⟨name, ino⟩] }

def chunks : (fuel : Nat) → List UInt8 → List (List UInt8)
  | 0, _ => []
  | fuel + 1, xs => if xs = [] then [] else xs.take bsize :: chunks fuel (xs.drop bsize)

def appendAll (ino : Nat) : List (List UInt8) → M Unit
  | [] => pure ()
  | xs :: rest => do
    iappend ino xs
    appendAll ino rest

def makefile (name : List UInt8) (home : Nat) (source : List UInt8) (owner : Int32) (perms : UInt16) : M Unit := do
  let ino ← ialloc tFile owner perms
  appendEntry home name ino
  appendAll ino (chunks source.length source)
  modify fun s => { s with files := s.files ++ [⟨name, ino⟩] }

def find (l : List Named) (name : List UInt8) : Option Nat := (l.find? (·.name = name)).map (·.ino)

/-! ## Entries -/

/-- An entry of a prototype after the file system was made. The contents of the source stand for its
name. -/
inductive Entry where
  | direct (name home : List UInt8) (owner : Int32) (perms : UInt16)
  | file (home name source : List UInt8) (owner : Int32) (perms : UInt16)
  | kernel (name : List UInt8)
  | boot (name : List UInt8)
  | sync

def doentry : Entry → M Unit
  | .direct name home owner perms => do
    match ← fs fun s => find s.dirs home with
    | some parent => makedir name parent owner perms
    | none => fail "directory not defined!"
  | .file home name source owner perms => do
    match ← fs fun s => find s.dirs home with
    | some dir => makefile name dir source owner perms
    | none => fail "directory not defined!"
  | .kernel name => do
    match ← fs fun s => find s.files name with
    | some ino => modify fun s => { s with kerninode := UInt16.ofNat ino }
    | none => fail "file not defined!"
  | .boot name => do
    match ← fs fun s => find s.files name with
    | some ino => modify fun s => { s with bootable := true, bootinode := UInt16.ofNat ino }
    | none => fail "file not defined!"
  | .sync => do
    syncfs
    closefs

def runentries : List Entry → M Unit
  | [] => pure ()
  | e :: rest => do
    doentry e
    runentries rest

def proto (es : List Entry) : M Unit := do
  makefs
  runentries es
  doentry .sync

end Xv6Vsd.Mkproto
