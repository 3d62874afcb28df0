import Xv6Vsd.Lib.Ring
import Xv6Vsd.Log.Model

/-!
# Processes that share the buffer cache (`bio.c`, `ide.c`, `log.c`)

The `NBUF` buffers with their list, the queue of the disk driver, the logs of the disks and the processes that call
`bread`, `bwrite`, `brelse`, `log_write`, `begin_op` and `end_op`. What a process has still to do is a list of
instructions; a section under a lock is one instruction, and between two of them the other processes and the disk
run. The process whose `end_op` commits goes on with the instructions of `commit`. A process uses only buffers
from `bread` that it has not given to `brelse`.
-/

namespace Xv6Vsd.Bio

open Function

abbrev nbuf : Nat := maxopblocks * 3

abbrev Buf : Type := Fin nbuf

abbrev Node : Type := Option Buf

structure Key where
  dev : UInt32
  blockno : UInt32
  deriving DecidableEq

abbrev nodev : UInt32 := 0xFFFFFFFF

structure Buffer where
  key : Key
  busy : Bool
  valid : Bool
  dirty : Bool
  data : Block

/-- Who calls `bwrite`: a process, `write_log` or `write_head`, or `install_trans`. -/
inductive Writer where
  | process
  | log
  | install
  deriving DecidableEq

/-- The functions `commit` calls, and `commit` itself. A loop is at its test, for `tail`. -/
inductive Fn where
  | commit
  | writeLog (tail : Nat)
  | writeHead
  | installTrans (tail : Nat)
  deriving DecidableEq

/-- What a process does next. `i` stands for the `i`-th buffer it holds, the last one got being the
first. -/
inductive Instr where
  /-- `bget`, and `diskrw` if the buffer is not valid -/
  | bread (key : Key)
  | iderw (b : Buf)
  | await (b : Buf)
  | store (i : Nat) (x : Block)
  /-- the tests of `log_write` -/
  | logWrite (i : Nat)
  /-- the locked part of `log_write` -/
  | logAppend (i : Nat)
  | bwrite (i : Nat) (w : Writer)
  | brelse (i : Nat)
  | beginOp (dev : UInt32)
  /-- `end_op` up to the release of the lock -/
  | endOp (dev : UInt32)
  /-- go on with the body of `f`, for the disk `dev` -/
  | enter (f : Fn) (dev : UInt32)
  | copy (dst src : Nat)
  | header (dev : UInt32)
  | clear (dev : UInt32)
  | endCommit (dev : UInt32)

structure Proc where
  holds : List Buf
  code : List Instr
  asleep : Option Buf
  /-- the disk whose `begin_op` it has called without `end_op` -/
  op : Option UInt32
  /-- the blocks its operation has logged -/
  used : Finset UInt32

structure State where
  next : Node → Node
  prev : Node → Node
  buf : Buf → Buffer
  idequeue : List Buf
  disk : Key → Block
  log : UInt32 → Log
  proc : Nat → Proc
  /-- what was last given to a block, with `log_write` or `bwrite`; what `install_trans` writes is not given anew -/
  latest : Key → Block

namespace State

def modBuf (s : State) (b : Buf) (g : Buffer → Buffer) : State := { s with buf := update s.buf b (g (s.buf b)) }

def setProc (s : State) (p : Nat) (x : Proc) : State := { s with proc := update s.proc p x }

def modLog (s : State) (dev : UInt32) (g : Log → Log) : State :=
  { s with log := update s.log dev (g (s.log dev)) }

def goOn (s : State) (p : Nat) (code : List Instr) : State := s.setProc p { s.proc p with code := code }

def wakeup (s : State) (b : Buf) : State :=
  { s with proc := fun q => if (s.proc q).asleep = some b then { s.proc q with asleep := none } else s.proc q }

/-! ## The list of buffers -/

def forward (s : State) : List Buf := (follow s.next none nbuf none).reduceOption

def backward (s : State) : List Buf := (follow s.prev none nbuf none).reduceOption

def link (s : State) (b : Buf) : State :=
  let next := update s.next (some b) (s.next none) -- b->next = bcache.head.next
  let prev := update s.prev (some b) none -- b->prev = &bcache.head
  let prev := update prev (next none) (some b) -- bcache.head.next->prev = b
  let next := update next none (some b) -- bcache.head.next = b
  { s with next := next, prev := prev }

def unlink (s : State) (b : Buf) : State :=
  let prev := update s.prev (s.next (some b)) (s.prev (some b)) -- b->next->prev = b->prev
  let next := update s.next (prev (some b)) (s.next (some b)) -- b->prev->next = b->next
  { s with next := next, prev := prev }

/-! ## `bget` -/

inductive Scan where
  | hit (b : Buf)
  | wait (b : Buf)
  | recycle (b : Buf)
  | full

def scan (s : State) (key : Key) : Scan :=
  match s.forward.find? fun b => (s.buf b).key = key with
  | some b => if (s.buf b).busy then .wait b else .hit b
  | none =>
    match s.backward.find? fun b => !(s.buf b).busy && !(s.buf b).dirty with
    | some b => .recycle b
    | none => .full

def got (s : State) (p : Nat) (b : Buf) (rest : List Instr) : State :=
  let s := s.modBuf b fun x => { x with busy := true }
  let code := if (s.buf b).valid then rest else .iderw b :: rest
  s.setProc p { s.proc p with holds := b :: (s.proc p).holds, code := code }

def recycled (s : State) (p : Nat) (b : Buf) (key : Key) (rest : List Instr) : State :=
  (s.modBuf b fun y => { y with key := key, valid := false, dirty := false }).got p b rest

/-! ## `log_write`, `bwrite`, `brelse` -/

def appended (s : State) (p : Nat) (b : Buf) (rest : List Instr) : State :=
  let x := s.proc p
  let key := (s.buf b).key
  let s := s.modLog key.dev fun l => { l with lh := if key.blockno ∈ l.lh then l.lh else l.lh ++ [key.blockno] }
  let s := s.modBuf b fun y => { y with dirty := true }
  let s := { s with latest := update s.latest key (s.buf b).data }
  s.setProc p { x with code := rest, used := insert key.blockno x.used }

def written (s : State) (p : Nat) (b : Buf) (w : Writer) (rest : List Instr) : State :=
  let s := s.modBuf b fun y => { y with dirty := true }
  let s := if w = .install then s else { s with latest := update s.latest (s.buf b).key (s.buf b).data }
  s.goOn p (.iderw b :: rest)

def released (s : State) (p i : Nat) (b : Buf) (rest : List Instr) : State :=
  let x := s.proc p
  let s := ((s.unlink b).link b).modBuf b fun y => { y with busy := false }
  (s.setProc p { x with holds := x.holds.eraseIdx i, code := rest }).wakeup b

/-! ## `commit` -/

/-- The body of a function of `commit`; of a loop, one turn. -/
def body (s : State) (dev : UInt32) : Fn → List Instr
  | .commit =>
    if (s.log dev).lh.length > 0 then
      [.enter (.writeLog 0) dev, -- Write modified blocks from cache to log
        .enter .writeHead dev, -- Write header to disk -- the real commit
        .enter (.installTrans 0) dev, -- Now install writes to home locations
        .clear dev, .enter .writeHead dev] -- Erase the transaction from the log
    else []
  | .writeLog tail =>
    if tail < (s.log dev).lh.length then
      [.bread ⟨dev, UInt32.ofNat ((s.log dev).start + tail + 1)⟩, -- log block
        .bread ⟨dev, (s.log dev).lh.getD tail 0⟩, -- cache block
        .copy 1 0, .bwrite 1 .log, .brelse 0, .brelse 0, .enter (.writeLog (tail + 1)) dev]
    else []
  | .writeHead => [.bread ⟨dev, UInt32.ofNat (s.log dev).start⟩, .header dev, .bwrite 0 .log, .brelse 0]
  | .installTrans tail =>
    if tail < (s.log dev).lh.length then
      [.bread ⟨dev, UInt32.ofNat ((s.log dev).start + tail + 1)⟩, -- read log block
        .bread ⟨dev, (s.log dev).lh.getD tail 0⟩, -- read dst
        .copy 0 1, .bwrite 0 .install, .brelse 1, .brelse 0, .enter (.installTrans (tail + 1)) dev]
    else []

/-! ## Steps -/

def go (s : State) (p : Nat) : Res State Unit :=
  let x := s.proc p
  if x.asleep.isSome then .block
  else
    match x.code with
    | [] => .block
    | .bread key :: rest =>
      match s.scan key with
      | .hit b => .ok () (s.got p b rest)
      | .wait b => .ok () (s.setProc p { x with asleep := some b })
      | .recycle b => .ok () (s.recycled p b key rest)
      | .full => .panic "bget: no buffers"
    | .iderw b :: rest =>
      if !(s.buf b).busy then .panic "iderw: buf not busy"
      else if (s.buf b).valid && !(s.buf b).dirty then .panic "iderw: nothing to do"
      else .ok () { s.goOn p (.await b :: rest) with idequeue := s.idequeue ++ [b] }
    | .await b :: rest =>
      if (s.buf b).valid && !(s.buf b).dirty then .ok () (s.goOn p rest) else .block
    | .store i v :: rest =>
      match x.holds[i]? with
      | none => .block
      | some b => .ok () ((s.modBuf b fun y => { y with data := v }).goOn p rest)
    | .logWrite i :: rest =>
      match x.holds[i]? with
      | none => .block
      | some b =>
        let l := s.log (s.buf b).key.dev
        if l.size = 0 then .ok () (s.goOn p (.bwrite i .process :: rest))
        else if l.lh.length ≥ logsize ∨ l.lh.length ≥ l.size - 1 then .panic "too big a transaction"
        else if l.outstanding < 1 then .panic "log_write outside of trans"
        else .ok () (s.goOn p (.logAppend i :: rest))
    | .logAppend i :: rest =>
      match x.holds[i]? with
      | none => .block
      | some b =>
        .ok () (s.appended p b rest)
    | .bwrite i w :: rest =>
      match x.holds[i]? with
      | none => .block
      | some b =>
        if !(s.buf b).busy then .panic "bwrite"
        else .ok () (s.written p b w rest)
    | .brelse i :: rest =>
      match x.holds[i]? with
      | none => .block
      | some b =>
        if !(s.buf b).busy then .panic "brelse"
        else .ok () (s.released p i b rest)
    | .beginOp dev :: rest =>
      let l := s.log dev
      if l.size = 0 then .ok () (s.goOn p rest)
      else if l.committing then .block
      else if (l.lh.length : Int) + (l.outstanding + 1) * maxopblocks > logsize then .block
      else
        let s := s.modLog dev fun l => { l with outstanding := l.outstanding + 1 }
        .ok () (s.setProc p { x with code := rest, op := some dev, used := ∅ })
    | .endOp dev :: rest =>
      let l := s.log dev
      if l.size = 0 then .ok () (s.goOn p rest)
      else if l.committing then .panic "log->committing"
      else if l.outstanding - 1 = 0 then
        let s := s.modLog dev fun l => { l with outstanding := l.outstanding - 1, committing := true }
        .ok () (s.setProc p { x with code := .enter .commit dev :: .endCommit dev :: rest, op := none, used := ∅ })
      else
        let s := s.modLog dev fun l => { l with outstanding := l.outstanding - 1 }
        .ok () (s.setProc p { x with code := rest, op := none, used := ∅ })
    | .enter f dev :: rest => .ok () (s.goOn p (s.body dev f ++ rest))
    | .copy dst src :: rest =>
      match x.holds[dst]?, x.holds[src]? with
      | some b, some c => .ok () ((s.modBuf b fun y => { y with data := (s.buf c).data }).goOn p rest)
      | _, _ => .block
    | .header dev :: rest =>
      match x.holds[0]? with
      | none => .block
      | some b => .ok () ((s.modBuf b fun y => { y with data := y.data.setHeader (s.log dev).lh }).goOn p rest)
    | .clear dev :: rest => .ok () ((s.modLog dev fun l => { l with lh := [] }).goOn p rest)
    | .endCommit dev :: rest => .ok () ((s.modLog dev fun l => { l with committing := false }).goOn p rest)

def served (s : State) (b : Buf) (queue : List Buf) : State :=
  let key := (s.buf b).key
  let s :=
    if (s.buf b).dirty then { s with disk := update s.disk key (s.buf b).data }
    else s.modBuf b fun y => { y with data := s.disk key }
  let s := s.modBuf b fun y => { y with valid := true, dirty := false }
  { s with idequeue := queue }.wakeup b

def ideintr (s : State) : Res State Unit :=
  match s.idequeue with
  | [] => .block
  | b :: queue => .ok () (s.served b queue)

end State

inductive Call where
  | bread (key : Key)
  | logged (i : Nat) (x : Block)
  | direct (i : Nat) (x : Block)
  | brelse (i : Nat)
  | beginOp (dev : UInt32)
  | endOp (dev : UInt32)

def Call.code : Call → List Instr
  | .bread key => [.bread key]
  | .logged i x => [.store i x, .logWrite i]
  | .direct i x => [.store i x, .bwrite i .process]
  | .brelse i => [.brelse i]
  | .beginOp dev => [.beginOp dev]
  | .endOp dev => [.endOp dev]

inductive Act where
  | call (p : Nat) (c : Call)
  | go (p : Nat)
  | intr

def State.act (s : State) : Act → Res State Unit
  | .call p c =>
    match (s.proc p).code with
    | [] => .ok () (s.goOn p c.code)
    | _ :: _ => .block
  | .go p => s.go p
  | .intr => s.ideintr

def boot (disk : Key → Block) (log : UInt32 → Log) : State where
  next := id
  prev := id
  buf := fun _ => ⟨⟨nodev, 0⟩, false, false, false, .zero⟩
  idequeue := []
  disk := disk
  log := log
  proc := fun _ => ⟨[], [], none, none, ∅⟩
  latest := disk

def binit (disk : Key → Block) (log : UInt32 → Log) : State :=
  (List.finRange nbuf).foldl State.link (boot disk log)

inductive Reachable (ok : State → Act → Prop) (s0 : State) : State → Prop
  | start : Reachable ok s0 s0
  | step {s s' : State} {a : Act} (h : Reachable ok s0 s) (hok : ok s a) (ha : s.act a = .ok () s') :
    Reachable ok s0 s'

end Xv6Vsd.Bio
