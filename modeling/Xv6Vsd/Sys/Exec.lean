import Xv6Vsd.Sys.Calls

/-!
# Programs and processes (`exec.c`, `proc.c`)

The memory of a process is not modelled. What its management answers during `exec` is given: every
theorem is about all such answers.
-/

namespace Xv6Vsd

open Prog

structure Vm where
  kvm : Bool
  /-- the answer of `allocuvm` for the `i`-th program header, from the size reached so far -/
  grow : Nat → UInt32 → UInt32
  mapped : UInt32 → Bool
  stack : Bool
  /-- contents of the local `elf` before it is read -/
  elf : Nat → UInt8

def shortRead (n : Int) (size : Nat) : Bool := 0 ≤ n ∧ n < size

def recU32 (x : Nat → UInt8) (off : Nat) : UInt32 := word32 fun i => x (off + i)

def overlay (xs : List UInt8) (old : Nat → UInt8) (i : Nat) : UInt8 := xs.getD i (old i)

def loaduvmFrom (vm : Vm) (ip : IRef) (addr off : UInt32) (sz : Nat) : (fuel i : Nat) → K Bool
  | 0, _ => pure true
  | fuel + 1, i =>
    if i < sz then
      if !vm.mapped (addr + UInt32.ofNat i) then panic "loaduvm: address should exist"
      else do
        let n := min (sz - i) 4096
        let (r, _) ← readi ip (off + UInt32.ofNat i) (UInt32.ofNat n)
        if r ≠ n then pure false else loaduvmFrom vm ip addr off sz fuel (i + 4096)
    else pure true

def loaduvm (vm : Vm) (ip : IRef) (addr off sz : UInt32) : K Bool :=
  if addr.toNat % 4096 ≠ 0 then panic "loaduvm: addr must be page aligned"
  else loaduvmFrom vm ip addr off sz.toNat (sz.toNat / 4096 + 1) 0

def loadHeaders (p : Nat) (vm : Vm) (ip : IRef) : (left i : Nat) → (off sz : UInt32) → K Bool
  | 0, _, _, _ => pure true
  | left + 1, i, off, sz => do
    let (n, xs) ← readi ip off 32
    let ph := overlay xs vm.elf
    if n ≠ 32 then
      seterr p "bad header read"
      pure false
    else if recU32 ph 0 ≠ 1 then loadHeaders p vm ip left (i + 1) (off + 32) sz
    else if recU32 ph 20 < recU32 ph 16 then
      seterr p "elf memsz < filesz"
      pure false
    else
      let sz := vm.grow i sz
      if sz = 0 then
        seterr p "allocuvm failed"
        pure false
      else
        let loaded ← loaduvm vm ip (recU32 ph 8) (recU32 ph 4) (recU32 ph 16)
        if !loaded then
          seterr p "loaduvm failed"
          pure false
        else loadHeaders p vm ip left (i + 1) (off + 32) sz

def loadImage (p : Nat) (vm : Vm) (ip : IRef) : K Bool := do
  let x ← inode ip
  let denied ← peek fun s => checkinodeperm s p x.din .exec
  let single ← peek fun s => s.singleuser
  if denied ≠ 0 ∧ !single then
    seterr p "not allowed"
    pure false
  else
    -- Check ELF header
    let (n, xs) ← readi ip 0 52
    let elf := overlay xs vm.elf
    if shortRead n 52 then pure false
    else if recU32 elf 0 ≠ 0x464C457F then
      seterr p "not an executable"
      pure false
    else if !vm.kvm then
      seterr p "setupkvm() failed"
      pure false
    else
      -- Load program into memory.
      loadHeaders p vm ip (word16 fun i => elf (44 + i)).toNat 0 (recU32 elf 28) 0

def exec (p : Nat) (path : Path) (vm : Vm) : K Int := do
  let x ← peek fun s => s.proc p
  if x.thread then
    seterr p "threads are unable to exec"
    pure (-1)
  else
    match ← nameiDirect p path with
    | none =>
      seterr p "cannot find file"
      pure (-1)
    | some ip =>
      beginOp ip.dev
      ilock ip
      let loaded ← loadImage p vm ip
      iunlockput ip
      endOp ip.dev
      pure (if loaded ∧ vm.stack then 0 else -1)

/-- The fields of the child that `fork` sets; `child` is the slot it found. `injail` and `rdirpath` are
what the last process in that slot has left there. -/
def fork (p child : Nat) : K Int := do
  let x ← peek fun s => s.proc p
  loop nofile fun fd =>
    ifSome (x.ofile fd) filedup
  let root ← idup x.rootdir
  let cwd ← idup x.cwd
  modProc child fun y => { y with
    uid := x.uid, thread := false, ofile := fun fd => (x.ofile fd).or (y.ofile fd),
    rootdir := root, cwd := cwd, errstr := "" }
  pure child

def exit (p : Nat) : K Unit := do
  loop nofile fun fd => do
    let f ← peek fun s => (s.proc p).ofile fd
    ifSome f fun f => do
      fileclose f
      modProc p fun x => { x with ofile := Function.update x.ofile fd none }
  match ← peek fun s => (s.proc p).cwd with
  | none => trap
  | some cwd =>
    beginOp cwd.dev
    iput cwd
    endOp cwd.dev
    modProc p fun x => { x with cwd := none }

end Xv6Vsd
