import Xv6Vsd.Fs.Content

/-!
# Directories and path names (`fs.c`)

Names and paths are strings of bytes without their terminating NUL.
-/

namespace Xv6Vsd

open Prog

/-! ## Directories -/

def cstr (s : List UInt8) : List UInt8 := s.takeWhile (· ≠ 0)

def namecmp (s t : List UInt8) : Bool := cstr (s.take dirsiz) == cstr (t.take dirsiz)

def dot : List UInt8 := [46]
def dotdot : List UInt8 := [46, 46]

structure Dirent where
  inum : UInt16
  name : List UInt8
  deriving DecidableEq

def Dirent.dec (xs : List UInt8) : Dirent := ⟨word16 fun i => xs.getD i 0, xs.drop 2⟩

def Dirent.bytes (name : List UInt8) (inum : Nat) (i : Nat) : UInt8 :=
  if i < 2 then byteAt inum i else if i < 16 then (name.take dirsiz).getD (i - 2) 0 else 0

def readDirent (r : IRef) (off : Nat) (msg : String) : K Dirent := do
  let (n, xs) ← readi r (UInt32.ofNat off) 16
  if n ≠ 16 then panic msg else pure (.dec xs)

def dirlookupFrom (r : IRef) (name : List UInt8) : (fuel off : Nat) → K (Option (IRef × Nat))
  | 0, _ => pure none
  | fuel + 1, off => do
    let ip ← inode r
    if off < ip.din.size.toNat then
      let de ← readDirent r off "dirlink read"
      if de.inum = 0 ∨ !namecmp name de.name then dirlookupFrom r name fuel (off + 16)
      else
        -- entry matches path element
        let ip ← inode r
        let inum := if namecmp dotdot de.name ∧ ip.mountroot then r.inum else de.inum.toNat
        let next ← iget r.dev inum
        pure (some (next, off))
    else pure none

def dirlookup (r : IRef) (name : List UInt8) : K (Option (IRef × Nat)) := do
  let ip ← inode r
  if ip.din.type ≠ tDir then panic "dirlookup not DIR"
  else dirlookupFrom r name (ip.din.size.toNat / 16 + 1) 0

def emptyFrom (r : IRef) : (fuel off : Nat) → K Nat
  | 0, off => pure off
  | fuel + 1, off => do
    let ip ← inode r
    if off < ip.din.size.toNat then
      let de ← readDirent r off "dirlink read"
      if de.inum = 0 then pure off else emptyFrom r fuel (off + 16)
    else pure off

def dirlink (r : IRef) (name : List UInt8) (inum : Nat) : K Int := do
  -- Check that name is not present.
  match ← dirlookup r name with
  | some (ip, _) =>
    iput ip
    pure (-1)
  | none =>
    let ip ← inode r
    let off ← emptyFrom r (ip.din.size.toNat / 16 + 1) 0
    let n ← writei r (Dirent.bytes name inum) (UInt32.ofNat off) 16
    if n ≠ 16 then panic "dirlink" else pure 0

/-! ## Paths -/

abbrev slash : UInt8 := 47

/-- The next path element, cut to `DIRSIZ` bytes, and the path after it without leading slashes. -/
def skipelem (path : List UInt8) : Option (List UInt8 × List UInt8) := match path.dropWhile (· = slash) with
  | [] => none
  | s => some ((s.takeWhile (· ≠ slash)).take dirsiz, (s.dropWhile (· ≠ slash)).dropWhile (· = slash))

def elemsFrom : (fuel : Nat) → List UInt8 → List (List UInt8)
  | 0, _ => []
  | fuel + 1, path =>
    match skipelem path with
    | none => []
    | some (name, rest) => name :: elemsFrom fuel rest

def elems (path : List UInt8) : List (List UInt8) := elemsFrom path.length path

def walk (nameiparent direct : Bool) : List (List UInt8) → IRef → K (Option IRef × List UInt8)
  | [], r => do
    if nameiparent then
      iput1 r direct
      pure (none, [])
    else pure (some r, [])
  | name :: rest, r => do
    ilock r
    let ip ← inode r
    if ip.din.type ≠ tDir then
      iunlockput1 r direct
      pure (none, name)
    else if nameiparent ∧ rest = [] then
      -- Stop one level early.
      iunlock r
      pure (some r, name)
    else
      match ← dirlookup r name with
      | none =>
        iunlockput1 r direct
        pure (none, name)
      | some (next, _) =>
        iunlockput1 r direct
        walk nameiparent direct rest next

/-- Where a path starts: the root of the process or of the system, or the current directory. -/
def pathStart (s : Kernel) (p : Nat) (path : List UInt8) : Option IRef :=
  if path.head? = some slash then some ((s.proc p).rootdir.getD s.rootdir) else (s.proc p).cwd

/-- The inode for a path name; if `nameiparent`, that of the parent and the final path element. -/
def namex (p : Nat) (path : List UInt8) (nameiparent direct : Bool) : K (Option IRef × List UInt8) := do
  let start ← peek fun s => pathStart s p path
  match ← idup start with
  | some r => walk nameiparent direct (elems path) r
  | none => if elems path = [] ∧ !nameiparent then pure (none, []) else trap

def namei (p : Nat) (path : List UInt8) : K (Option IRef) := Prod.fst <$> namex p path false false

def nameiparent (p : Nat) (path : List UInt8) : K (Option IRef × List UInt8) := namex p path true false

def nameiDirect (p : Nat) (path : List UInt8) : K (Option IRef) := Prod.fst <$> namex p path false true

def nameiparentDirect (p : Nat) (path : List UInt8) : K (Option IRef × List UInt8) := namex p path true true

end Xv6Vsd
