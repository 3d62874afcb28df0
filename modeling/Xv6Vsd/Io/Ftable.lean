import Mathlib.Data.Fintype.Prod
import Mathlib.Tactic.Ring
import Xv6Vsd.Kernel.State
import Xv6Vsd.Lib.Slots
import Xv6Vsd.Proc.Model

/-!
# The table of open files (`file.c`, `sysfile.c`, `pipe.c`, `proc.c`)

The entries of `ftable`, the descriptors of the processes that point to them, and the calls that open,
duplicate, inherit and close descriptors. `filealloc` takes an entry as it was left,
with the old type in it. A call is one step. An inode reference and a pipe are known by a number that is
never used again.
-/

namespace Xv6Vsd.Ftable

open Function

open Tasks (nproc)

abbrev Fd : Type := Fin nofile

abbrev Ptr : Type := Fin nfile

abbrev Ref : Type := Fin nproc

/-- `struct file`. The offset is left out. -/
structure File where
  ref : Int
  type : FdType
  readable : Bool
  writable : Bool
  pipe : Nat
  ip : Nat
  deriving DecidableEq

structure Pipe where
  readopen : Bool
  writeopen : Bool
  freed : Bool
  deriving DecidableEq

inductive Status where
  | unused
  | embryo
  | live
  | zombie
  deriving DecidableEq

/-- What is behind an open file: a reference to an inode, or an end of a pipe. -/
inductive Handle where
  | ip (n : Nat)
  | pipe (n : Nat) (writable : Bool)
  deriving DecidableEq

structure State where
  file : Ptr → File
  ofile : Ref × Fd → Option Ptr
  status : Ref → Status
  pipe : Nat → Pipe
  ips : Nat
  pipes : Nat
  released : List Handle

namespace State

def setFile (s : State) (f : Ptr) (x : File) : State := { s with file := update s.file f x }

def setSlot (s : State) (p : Ref) (fd : Fd) (f : Option Ptr) : State :=
  { s with ofile := update s.ofile (p, fd) f }

def setStatus (s : State) (p : Ref) (st : Status) : State := { s with status := update s.status p st }

/-! ## `file.c` and `pipe.c` -/

def filealloc (s : State) : Option (Ptr × State) :=
  ((List.finRange nfile).find? fun f => (s.file f).ref = 0).map fun f => (f, s.setFile f { s.file f with ref := 1 })

def filedup (s : State) (f : Ptr) : Except String State :=
  let x := s.file f
  if x.ref < 1 then .error "filedup" else .ok (s.setFile f { x with ref := x.ref + 1 })

def pipeclose (s : State) (n : Nat) (writable : Bool) : State :=
  let q := if writable then { s.pipe n with writeopen := false } else { s.pipe n with readopen := false }
  let q := if !q.readopen && !q.writeopen then { q with freed := true } else q
  { s with pipe := update s.pipe n q, released := s.released ++ [.pipe n writable] }

def iput (s : State) (n : Nat) : State := { s with released := s.released ++ [.ip n] }

def fileclose (s : State) (f : Ptr) : Except String State :=
  let x := s.file f
  if x.ref < 1 then .error "fileclose"
  else if 0 < x.ref - 1 then .ok (s.setFile f { x with ref := x.ref - 1 })
  else
    let s := s.setFile f { x with ref := 0, type := .none }
    .ok (match x.type with
      | .pipe => s.pipeclose x.pipe x.writable
      | .inode => s.iput x.ip
      | .none => s)

def newPipe (s : State) (f0 f1 : Ptr) : State :=
  let n := s.pipes
  let s := { s with pipe := update s.pipe n ⟨true, true, false⟩, pipes := n + 1 }
  let s := s.setFile f0 { s.file f0 with type := .pipe, readable := true, writable := false, pipe := n }
  s.setFile f1 { s.file f1 with type := .pipe, readable := false, writable := true, pipe := n }

def pipealloc (s : State) (mem : Bool) : Except String (Option (Ptr × Ptr) × State) :=
  match s.filealloc with
  | none => .ok (none, s)
  | some (f0, s) =>
    match s.filealloc with
    | none => do
      let s ← s.fileclose f0
      .ok (none, s)
    | some (f1, s) =>
      if mem then .ok (some (f0, f1), s.newPipe f0 f1)
      else do
        let s ← s.fileclose f0
        let s ← s.fileclose f1
        .ok (none, s)

/-! ## `sysfile.c` -/

def argfd (s : State) (p : Ref) (fd : Int) : Option (Fd × Ptr) :=
  if h : 0 ≤ fd ∧ fd < nofile then
    let fd : Fd := ⟨fd.toNat, by omega⟩
    (s.ofile (p, fd)).map fun f => (fd, f)
  else none

def fdalloc (s : State) (p : Ref) (f : Ptr) : Option (Fd × State) :=
  ((List.finRange nofile).find? fun fd => s.ofile (p, fd) = none).map fun fd => (fd, s.setSlot p fd (some f))

def sysDup (s : State) (p : Ref) (fd : Int) : Except String (Int × State) :=
  match s.argfd p fd with
  | none => .ok (-1, s)
  | some (_, f) =>
    match s.fdalloc p f with
    | none => .ok (-1, s)
    | some (fd, s) => do
      let s ← s.filedup f
      .ok (fd, s)

def sysClose (s : State) (p : Ref) (fd : Int) : Except String (Int × State) :=
  match s.argfd p fd with
  | none => .ok (-1, s)
  | some (fd, f) => do
    let s ← (s.setSlot p fd none).fileclose f
    .ok (0, s)

/-- The reference that `open` has got to an inode is given back with `iunlockput`. -/
def putNew (s : State) : State := { s with ips := s.ips + 1 }.iput s.ips

/-- `open`. `found` says whether `create` or `namei` gives an inode and `denied` whether a check of it fails;
`readable` and `writable` are what `canread` and `canwrite` answer. -/
def sysOpen (s : State) (p : Ref) (found denied readable writable : Bool) : Except String (Int × State) :=
  if !found then .ok (-1, s)
  else if denied then .ok (-1, s.putNew)
  else
    match s.filealloc with
    | none => .ok (-1, s.putNew)
    | some (f, s) =>
      match s.fdalloc p f with
      | none => do
        let s ← s.fileclose f
        .ok (-1, s.putNew)
      | some (fd, s) =>
        .ok (fd, { s with ips := s.ips + 1 }.setFile f
          { s.file f with type := .inode, ip := s.ips, readable := readable, writable := writable })

def sysPipe (s : State) (p : Ref) (mem : Bool) : Except String (Int × State) := do
  match ← s.pipealloc mem with
  | (none, s) => .ok (-1, s)
  | (some (rf, wf), s) =>
    match s.fdalloc p rf with
    | none => do
      let s ← s.fileclose rf
      let s ← s.fileclose wf
      .ok (-1, s)
    | some (fd0, s) =>
      match s.fdalloc p wf with
      | none => do
        let s ← (s.setSlot p fd0 none).fileclose rf
        let s ← s.fileclose wf
        .ok (-1, s)
      | some (_, s) => .ok (0, s)

/-! ## `proc.c` -/

def allocproc (s : State) (mem : Bool) : Option (Ref × State) :=
  match (List.finRange nproc).find? fun np => s.status np = .unused with
  | none => none
  | some np => if mem then some (np, s.setStatus np .embryo) else none

def inherit (p np : Ref) (s : State) (fd : Fd) : Except String State :=
  match s.ofile (p, fd) with
  | some f => do
    let s ← s.filedup f
    .ok (s.setSlot np fd (some f))
  | none => .ok s

def inheritAll (s : State) (p np : Ref) : Except String (Int × State) := do
  let s ← (List.finRange nofile).foldlM (inherit p np) s
  .ok (np, s.setStatus np .live)

/-- `fork`; `space` says whether `copyuvm` finds memory. The child's slot stands for its pid. -/
def fork (s : State) (p : Ref) (mem space : Bool) : Except String (Int × State) :=
  match s.allocproc mem with
  | none => .ok (-1, s)
  | some (np, s) => if space then s.inheritAll p np else .ok (-1, s.setStatus np .unused)

/-- `clone`; `room` says whether threads are allowed and the caller may have one more. -/
def clone (s : State) (p : Ref) (room mem : Bool) : Except String (Int × State) :=
  if !room then .ok (-1, s)
  else
    match s.allocproc mem with
    | none => .ok (-1, s)
    | some (np, s) => s.inheritAll p np

abbrev initproc : Ref := 0

def closeSlot (p : Ref) (s : State) (fd : Fd) : Except String State :=
  match s.ofile (p, fd) with
  | some f => do
    let s ← s.fileclose f
    .ok (s.setSlot p fd none)
  | none => .ok s

def exit (s : State) (p : Ref) : Except String (Int × State) :=
  if p = initproc then .error "init exiting"
  else do
    let s ← (List.finRange nofile).foldlM (closeSlot p) s
    .ok (0, s.setStatus p .zombie)

end State

inductive Call where
  | open (found denied readable writable : Bool)
  | pipe (mem : Bool)
  | dup (fd : Int)
  | close (fd : Int)
  | fork (mem space : Bool)
  | clone (room mem : Bool)
  | exec
  | exit

def State.call (s : State) (p : Ref) : Call → Except String (Int × State)
  | .open found denied readable writable => s.sysOpen p found denied readable writable
  | .pipe mem => s.sysPipe p mem
  | .dup fd => s.sysDup p fd
  | .close fd => s.sysClose p fd
  | .fork mem space => s.fork p mem space
  | .clone room mem => s.clone p room mem
  | .exec => .ok (0, s)
  | .exit => s.exit p

inductive Act where
  | call (p : Ref) (c : Call)
  | reap (p : Ref)

def State.act (s : State) : Act → Option State
  | .call p c =>
    if s.status p = .live then
      match s.call p c with
      | .ok (_, s) => some s
      | .error _ => none
    else none
  | .reap p => if s.status p = .zombie then some (s.setStatus p .unused) else none

def start : State where
  file _ := ⟨0, .none, false, false, 0, 0⟩
  ofile _ := none
  status p := if p = State.initproc then .live else .unused
  pipe _ := ⟨false, false, false⟩
  ips := 0
  pipes := 0
  released := []

end Xv6Vsd.Ftable
