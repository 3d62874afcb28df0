import Mathlib.Data.Fintype.Basic
import Xv6Vsd.Lib.Bytes

/-! # The on-disk format -/

namespace Xv6Vsd

/-! ## `param.h` -/

abbrev ninode : Nat := 50
abbrev nofile : Nat := 16
abbrev nfile : Nat := 100
abbrev ndev : Nat := 256
abbrev maxopblocks : Nat := 10
abbrev logsize : Nat := maxopblocks * 3
abbrev fssize : Nat := 5000

/-! ## `fs.h` -/

abbrev rootino : Nat := 1
abbrev bsize : Nat := 512
abbrev ndirect : Nat := 12
abbrev nindirect : Nat := bsize / 4
abbrev maxfile : Nat := nindirect * 12
abbrev ipb : Nat := bsize / 64
abbrev bpb : Nat := bsize * 8
abbrev dirsiz : Nat := 14

abbrev Block : Type := Bytes 512

structure Superblock where
  size : Nat
  nblocks : Nat
  ninodes : Nat
  nlog : Nat
  logstart : Nat
  inodestart : Nat
  bmapstart : Nat
  deriving DecidableEq, Repr

def Superblock.iblock (sb : Superblock) (i : Nat) : Nat := i / ipb + sb.inodestart

def Superblock.bblock (sb : Superblock) (b : Nat) : Nat := b / bpb + sb.bmapstart

/-! ## `stat.h` -/

abbrev tDir : Int16 := 1
abbrev tFile : Int16 := 2
abbrev tDev : Int16 := 3

/-! ## The disk inode -/

/-- `struct dinode`. All twelve `addrs` are addresses of indirect blocks. -/
structure Dinode where
  type : Int16
  major : Int16
  minor : Int16
  owner : Int16
  perms : UInt8
  attrib : UInt8
  nlink : Int16
  size : UInt32
  addrs : Fin ndirect → UInt32
  deriving DecidableEq

namespace Dinode

def zero : Dinode := ⟨0, 0, 0, 0, 0, 0, 0, 0, fun _ => 0⟩

instance : Inhabited Dinode := ⟨zero⟩

/-- `addrs[k]`; an index outside the array is never used. -/
def addr (d : Dinode) (k : Nat) : UInt32 := if h : k < ndirect then d.addrs ⟨k, h⟩ else 0

def setAddr (d : Dinode) (k : Nat) (v : UInt32) : Dinode :=
  { d with addrs := fun j => if j.1 = k then v else d.addrs j }

def enc (d : Dinode) (i : Nat) : UInt8 :=
  if i < 2 then byteAt d.type.toUInt16.toNat i
  else if i < 4 then byteAt d.major.toUInt16.toNat (i - 2)
  else if i < 6 then byteAt d.minor.toUInt16.toNat (i - 4)
  else if i < 8 then byteAt d.owner.toUInt16.toNat (i - 6)
  else if i < 9 then d.perms
  else if i < 10 then d.attrib
  else if i < 12 then byteAt d.nlink.toUInt16.toNat (i - 10)
  else if i < 16 then byteAt d.size.toNat (i - 12)
  else byteAt (d.addr ((i - 16) / 4)).toNat ((i - 16) % 4)

def dec (f : Nat → UInt8) : Dinode where
  type := (word16 f).toInt16
  major := (word16 fun i => f (2 + i)).toInt16
  minor := (word16 fun i => f (4 + i)).toInt16
  owner := (word16 fun i => f (6 + i)).toInt16
  perms := f 8
  attrib := f 9
  nlink := (word16 fun i => f (10 + i)).toInt16
  size := word32 fun i => f (12 + i)
  addrs k := word32 fun i => f (16 + 4 * k.1 + i)

end Dinode

def Bytes.dinode (b : Block) (inum : Nat) : Dinode := .dec fun i => b.get (64 * (inum % ipb) + i)

def Bytes.setDinode (b : Block) (inum : Nat) (d : Dinode) : Block := b.blit (64 * (inum % ipb)) 64 d.enc

/-! ## The header of the log -/

def headerBytes (lh : List UInt32) (i : Nat) : UInt8 :=
  if i < 4 then byteAt lh.length i else byteAt (lh.getD ((i - 4) / 4) 0).toNat ((i - 4) % 4)

/-- `hb->n = n; hb->block[i] = block[i]` for `i < n`: the rest of the block stays as it was. -/
def Bytes.setHeader (b : Block) (lh : List UInt32) : Block := b.blit 0 (4 + 4 * lh.length) (headerBytes lh)

def Bytes.headerN (b : Block) : Int := (b.u32 0).toInt32.toInt

def Bytes.header (b : Block) : List UInt32 := (List.range b.headerN.toNat).map fun i => b.u32 (4 + 4 * i)

end Xv6Vsd
