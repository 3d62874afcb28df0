import Xv6Vsd.Fs.Inode

/-!
# Reading and writing the contents of an inode (`fs.c`, `bio.c`)

A request is cut into pieces that each lie in one block. The loops of `readi` and `writei` run over
the pieces, since nothing but the failure of an allocation ends them early.
-/

namespace Xv6Vsd

open Prog

/-! ## Devices -/

def hasDriver (major : Int16) : Bool := 1 ≤ major.toInt ∧ major.toInt ≤ 8

abbrev rawDisk : Int16 := 7

/-- A driver answers. The terminals release the inode while they wait for input. -/
def askDevice (r : IRef) : K Answer := do
  let a ← tau fun s =>
    let a := s.answers s.asked
    .ok a { s with asked := s.asked + 1, singleuser := a.singleuser }
  onlyIf (a.relock = true) do
    iunlock r
    ilock r
  pure a

def rawDev (d : Dinode) : Nat := d.minor.toInt32.toUInt32.toNat

def rawBlock (off : UInt32) : Nat := (off.toInt32.toInt.tdiv bsize % 2 ^ 32).toNat

def rawOff (off : UInt32) : Nat := (off.toInt32.toInt.tmod bsize % 2 ^ 32).toNat

def bdiskRead (d : Dinode) (off n : UInt32) : K (Int × List UInt8) :=
  if bsize < (rawOff off + n.toNat) % 2 ^ 32 then pure (-1, [])
  else tau fun s =>
    ((s.disk (rawDev d)).bread (rawBlock off)).bind fun x _ =>
      .ok (n.toInt32.toInt, (List.range n.toNat).map fun i => x.get (rawOff off + i)) s

def bdiskWrite (d : Dinode) (src : Nat → UInt8) (off n : UInt32) : K Int :=
  if bsize < (rawOff off + n.toNat) % 2 ^ 32 then pure (-1)
  else act (fun _ => .disk (rawDev d) (.bwrite (rawBlock off))) fun s =>
    ((s.disk (rawDev d)).editDirect (rawBlock off) fun x => x.blit (rawOff off) n.toNat src).bind
      fun _ d' => .ok n.toInt32.toInt (s.setDisk (rawDev d) d')

/-! ## Pieces -/

def pieces : (fuel off n : Nat) → List (Nat × Nat)
  | 0, _, _ => []
  | fuel + 1, off, n =>
    if n = 0 then []
    else
      let m := min n (bsize - off % bsize)
      (off, m) :: pieces fuel (off + m) (n - m)

def readPieces (r : IRef) : List (Nat × Nat) → K (List UInt8)
  | [] => pure []
  | (off, m) :: ps => do
    let addr ← bmap r (off / bsize)
    let xs ← edit r.dev addr.toNat fun x => (none, (List.range m).map fun i => x.get (off % bsize + i))
    let ys ← readPieces r ps
    pure (xs ++ ys)

def readi (r : IRef) (off n : UInt32) : K (Int × List UInt8) := do
  let ip ← inode r
  if ip.din.type = tDev then
    if !hasDriver ip.din.major then pure (-1, [])
    else if ip.din.major = rawDisk then bdiskRead ip.din off n
    else
      let a ← askDevice r
      pure (a.ret, a.data)
  else if ip.din.size < off ∨ off + n < off then pure (-1, [])
  else
    let n := if ip.din.size < off + n then ip.din.size - off else n
    let xs ← readPieces r (pieces n.toNat off.toNat n.toNat)
    pure (n.toInt32.toInt, xs)

/-- The loop of `writei`, for a request that started at `start`. The answer tells whether all pieces
were written, and how far `off` came. -/
def writePieces (r : IRef) (src : Nat → UInt8) (start : Nat) : List (Nat × Nat) → Nat → K (Bool × Nat)
  | [], off => pure (true, off)
  | (off, m) :: ps, _ => do
    let bnum ← bmap r (off / bsize)
    -- if bmap returns < 0 means something bad happened
    if bnum.toInt32 < 0 then pure (false, off)
    else
      edit r.dev bnum.toNat fun x => (some (x.blit (off % bsize) m fun i => src (off - start + i)), ())
      writePieces r src start ps (off + m)

def writei (r : IRef) (src : Nat → UInt8) (off n : UInt32) : K Int := do
  let ip ← inode r
  if ip.din.type = tDev then
    if !hasDriver ip.din.major then pure (-1)
    else if ip.din.major = rawDisk then bdiskWrite ip.din src off n
    else
      let a ← askDevice r
      pure a.ret
  else if ip.din.size < off ∨ off + n < off then pure (-1)
  else if maxfile * bsize < (off + n).toNat then pure (-1)
  else
    let (ok, off) ← writePieces r src off.toNat (pieces n.toNat off.toNat n.toNat) off.toNat
    let ip ← inode r
    onlyIf ((0 < n ∨ !ok) ∧ ip.din.size.toNat < off) do
      modDin r fun d => { d with size := UInt32.ofNat off }
      iupdate r
    pure (if ok then n.toInt32.toInt else -2)

end Xv6Vsd
