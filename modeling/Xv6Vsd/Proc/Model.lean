import Mathlib.Data.UInt
import Xv6Vsd.Lib.Run

/-!
# The process table (`proc.c`)

The slots of `ptable`, what the functions of `proc.c` do to them, and the processes that call these functions. A section
under `ptable.lock` is one step; a function that does more than one such section, or writes to the table without the
lock, is in between at a `Pc`, and other processes and the schedulers of the other processors run there.
-/

namespace Xv6Vsd.Tasks

abbrev nproc : Nat := 64

abbrev threadmax : Nat := 32

abbrev waitrounds : Nat := 5

abbrev pgsize : UInt32 := 4096

abbrev Ref : Type := Fin nproc

instance : NeZero nproc := ⟨by decide⟩

inductive Procstate where
  | unused
  | embryo
  | sleeping
  | wait
  | msgwait
  | runnable
  | running
  | zombie
  | crashed
  deriving DecidableEq

inductive Proctype where
  | process
  | thread
  deriving DecidableEq

structure Proc where
  sz : UInt32
  /-- page directories are numbered in the order in which they are made -/
  pgdir : Option Nat
  state : Procstate
  type : Proctype
  waitrounds : Nat
  pid : UInt32
  uid : Int
  sid : Int
  parent : Option Ref
  chan : Nat
  killed : Bool
  crashed : Bool
  rdirpath : List UInt8
  injail : Bool
  ssp : UInt32
  threadi : UInt32
  threads : Fin threadmax → Option Ref
  head : Option Nat
  tail : Option Nat

inductive Pc where
  | user
  | forking (np : Ref)
  | cloning (np : Ref) (stack : UInt32)
  | adding (np : Ref)
  | waiting
  | exiting
  | stopping
  | joining
  /-- in `exit`, calling `wait1` without the lock -/
  | rejoining
  | leaving
  deriving DecidableEq

structure State where
  proc : Ref → Proc
  pc : Ref → Pc
  initproc : Ref
  nextpid : UInt32
  nextdir : Nat
  singleuser : Bool
  allowthreads : Bool
  useclone : Bool
  panicked : Bool
  /-- the processes that were made its children, by their numbers -/
  born : Ref → List UInt32
  told : Ref → List UInt32

namespace State

def mod (s : State) (p : Ref) (f : Proc → Proc) : State := { s with proc := Function.update s.proc p (f (s.proc p)) }

def goto (s : State) (c : Ref) (k : Pc) : State := { s with pc := Function.update s.pc c k }

def tell (s : State) (c : Ref) (pid : UInt32) : State := { s with told := Function.update s.told c (s.told c ++ [pid]) }

def first (f : Ref → Bool) : Option Ref := (List.finRange nproc).find? f

/-! ## New processes -/

def taken (s : State) (p : Ref) : State :=
  { s.mod p fun x => { x with state := .embryo, pid := s.nextpid, sid := -1, uid := -2 } with
    nextpid := s.nextpid + 1, born := Function.update s.born p [], told := Function.update s.told p [] }

def allocproc (s : State) : Option (Ref × State) :=
  (first fun p => (s.proc p).state = .unused).map fun p => (p, s.taken p)

def giveUp (s : State) (np : Ref) : State := s.mod np fun x => { x with state := .unused }

def forkProc (proc : Proc) (c : Ref) (dir : Nat) (np : Proc) : Proc := { np with
    pgdir := some dir, type := .process, uid := proc.uid, sid := proc.sid, sz := proc.sz, parent := some c, threadi :=
      0,
    state := .runnable }

def forkInto (s : State) (c np : Ref) : State := { s.mod np (forkProc (s.proc c) c s.nextdir) with
    nextdir := s.nextdir + 1, born := Function.update s.born c (s.born c ++ [(s.proc np).pid]) }

def leader (s : State) (c : Ref) : Option Ref := if (s.proc c).type = .process then some c else (s.proc c).parent

def cloneProc (proc : Proc) (parent : Option Ref) (stack : UInt32) (np : Proc) : Proc := { np with
    ssp := stack + pgsize, pgdir := proc.pgdir, sz := proc.sz, type := .thread, uid := proc.uid, sid := proc.sid,
    parent := parent, state := .runnable }

def cloneInto (s : State) (c np : Ref) (stack : UInt32) : State := s.mod np (cloneProc (s.proc c) (s.leader c) stack)

def addchild (s : State) (par child : Ref) : State :=
  match (List.finRange threadmax).find? fun i => (s.proc par).threads i = none with
  | some i =>
    s.mod par fun x => { x with threads := Function.update x.threads i (some child), threadi := x.threadi + 1 }
  | none => s

def removechild (s : State) (par child : Ref) : State :=
  match (List.finRange threadmax).find? fun i => (s.proc par).threads i = some child with
  | some i => s.mod par fun x => { x with threads := Function.update x.threads i none, threadi := x.threadi - 1 }
  | none => s

/-! ## `exit`, `wait` and `kill` -/

def wakeup1 (s : State) (chan : Nat) : State := { s with
    proc := fun p =>
      if (s.proc p).state = .sleeping ∧ (s.proc p).chan = chan then { s.proc p with state := .runnable }
      else s.proc p }

def chanOf (p : Option Ref) : Nat := p.elim 0 fun p => p.val + 1

def killThreads (s : State) (c : Ref) : State := { s with
    proc := fun p => if ∃ i, (s.proc c).threads i = some p then { s.proc p with killed := true } else s.proc p }

def abandon (s : State) (c : Ref) : State :=
  let s' := { s with
    proc := fun p => if (s.proc p).parent = some c then { s.proc p with parent := some s.initproc } else s.proc p,
    born := Function.update s.born s.initproc (s.born s.initproc ++ (((List.finRange nproc).filter fun p =>
      (s.proc p).parent = some c ∧ (s.proc p).type = .process).map fun p => (s.proc p).pid)) }
  if ∃ p, (s.proc p).parent = some c ∧ (s.proc p).state = .zombie then s'.wakeup1 (chanOf (some s.initproc)) else s'

def leave (s : State) (c : Ref) : State :=
  (((s.wakeup1 (chanOf (s.proc c).parent)).abandon c).mod c fun x => { x with state := .zombie }).goto c .user

inductive Scan where
  | reap (p : Ref)
  | crash (p : Ref)
  | childless
  | again
  deriving DecidableEq

def scan (s : State) (c : Ref) : Scan :=
  match first fun p => (s.proc p).parent = some c ∧ (s.proc p).state = .zombie ∧ (s.proc p).type = .process with
  | some p => if (s.proc p).crashed then .crash p else .reap p
  | none =>
    -- no point waiting if we don't have any children
    if (∀ p, (s.proc p).parent ≠ some c) ∨ (s.proc c).killed then .childless else .again

def clearProc (x : Proc) : Proc := { x with state := .unused, pid := 0, parent := none, killed := false }

/-- One turn of the loop of `wait1`, with where its caller goes on after it has returned the number of a child, or -1,
and where it waits. -/
def wait1 (s : State) (c : Ref) (found failed again : Pc) : State := match s.scan c with
  | .reap p => ((s.mod p clearProc).tell c (s.proc p).pid).goto c found
  | .crash p => ((s.mod p fun x => { x with state := .crashed }).tell c (s.proc p).pid).goto c found
  | .childless => s.goto c failed
  | .again => (s.mod c fun x => { x with state := .wait, waitrounds := Tasks.waitrounds }).goto c again

def checksysperms (s : State) (p0 p1 : Proc) : Bool :=
  s.singleuser || (p1.sid = -1 && p1.sid < p0.sid) || (p1.sid = p0.sid && (p1.uid = -1 || p1.uid = p0.uid))

def victim (s : State) (c : Ref) (pid : UInt32) : Option Ref :=
  first fun p => (s.proc p).pid = pid && s.checksysperms (s.proc p) (s.proc c)

def killProc (x : Proc) : Proc :=
  { x with killed := true, state := if x.state = .sleeping ∨ x.state = .msgwait then .runnable else x.state }

def kill (s : State) (c : Ref) (pid : UInt32) : Int × State := match s.victim c pid with
  | some p => (0, s.mod p killProc)
  | none => (-1, s)

def answer (s : State) (c : Ref) : Option (Option UInt32) := match s.scan c with
  | .reap p | .crash p => some (some (s.proc p).pid)
  | .childless => some none
  | .again => none

/-! ## Threads that the scheduler finds dead -/

def cull (s : State) (p : Ref) : State := match (s.proc p).parent with
  | some par => (s.removechild par p).mod p clearProc
  | none => { s with panicked := true }

end State

open State

/-! ## Runs -/

inductive Act where
  | run (p : Ref)
  | tick (p : Ref)
  | cull (p : Ref)
  | yield (c : Ref)
  | sleep (c : Ref) (chan : Nat)
  | wakeup (chan : Nat)
  | msgwait (c : Ref)
  | psendmsg (p : Ref)
  | fork (c : Ref)
  /-- the rest of `fork`; whether there is memory for the kernel stack and for the image -/
  | forked (c : Ref) (kstack copied : Bool)
  | clone (c : Ref) (stack : UInt32)
  /-- `clone` up to `addchild`; whether there is memory for the kernel stack -/
  | cloned (c : Ref) (kstack : Bool)
  | added (c : Ref)
  | kill (c : Ref) (pid : UInt32)
  | chuser (c : Ref) (uid : Int)
  | chsystem (c : Ref) (sid : Int)
  | disallow (c : Ref)
  | wait (c : Ref)
  | exit (c : Ref)
  | trap (c : Ref)
  | look (c : Ref)
  | stop (c : Ref)
  | join (c : Ref)
  | leave (c : Ref)

namespace State

def At (s : State) (c : Ref) (k : Pc) : Prop := (s.proc c).state = .running ∧ s.pc c = k

instance (s : State) (c : Ref) (k : Pc) : Decidable (s.At c k) := inferInstanceAs (Decidable (_ ∧ _))

def Eligible (s : State) (p : Ref) : Prop := (s.proc p).state = .runnable ∧ ¬((s.proc p).uid ≠ -1 ∧ s.singleuser = true)

instance (s : State) (p : Ref) : Decidable (s.Eligible p) := inferInstanceAs (Decidable (_ ∧ _))

def guarded (b : Prop) [Decidable b] (s : State) : Option State := if b then some s else none

def MayClone (s : State) (c : Ref) : Prop :=
  s.allowthreads = true ∧ s.useclone = true ∧ (s.proc c).threadi.toNat < threadmax

instance (s : State) (c : Ref) : Decidable (s.MayClone c) := inferInstanceAs (Decidable (_ ∧ _))

def act (s : State) (a : Act) : Option State :=
  if s.panicked then none
  else match a with
  | .run p => guarded (s.Eligible p) (s.mod p fun x => { x with state := .running })
  | .tick p =>
    guarded ((s.proc p).state = .wait) (s.mod p fun x =>
      if x.waitrounds > 0 then { x with waitrounds := x.waitrounds - 1 } else { x with state := .runnable })
  | .cull p => guarded ((s.proc p).type = .thread ∧ (s.proc p).state = .zombie) (s.cull p)
  | .yield c => guarded ((s.proc c).state = .running) (s.mod c fun x => { x with state := .runnable })
  | .sleep c chan =>
    guarded ((s.proc c).state = .running) (s.mod c fun x => { x with state := .sleeping, chan := chan })
  | .wakeup chan => some (s.wakeup1 chan)
  | .msgwait c => guarded ((s.proc c).state = .running) (s.mod c fun x => { x with state := .msgwait })
  | .psendmsg p => guarded ((s.proc p).state = .msgwait) (s.mod p fun x => { x with state := .runnable })
  | .fork c =>
    guarded (s.At c .user) (match s.allocproc with
      | some (np, s') => s'.goto c (.forking np)
      | none => s)
  | .forked c kstack copied =>
    match s.pc c with
    | .forking np =>
      guarded ((s.proc c).state = .running) ((if ¬kstack then s.giveUp np
        else if ¬copied then (s.mod np fun x => { x with pgdir := none }).giveUp np
        else s.forkInto c np).goto c .user)
    | _ => none
  | .clone c stack =>
    guarded (s.At c .user) (if s.MayClone c then
      match s.allocproc with
      | some (np, s') => s'.goto c (.cloning np stack)
      | none => s
    else s)
  | .cloned c kstack =>
    match s.pc c with
    | .cloning np stack =>
      guarded ((s.proc c).state = .running) (if ¬kstack then (s.giveUp np).goto c .user
        else (s.cloneInto c np stack).goto c (.adding np))
    | _ => none
  | .added c =>
    match s.pc c with
    | .adding np =>
      guarded ((s.proc c).state = .running) (match s.leader c with
        | some par => (s.addchild par np).goto c .user
        | none => { s with panicked := true })
    | _ => none
  | .kill c pid => guarded (s.At c .user) (s.kill c pid).2
  | .chuser c uid =>
    guarded (s.At c .user ∧ ¬s.singleuser ∧ (s.proc c).uid = -1 ∧ -1 ≤ uid) (s.mod c fun x => { x with uid := uid })
  | .chsystem c sid =>
    guarded (s.At c .user ∧ ¬s.singleuser ∧ (s.proc c).sid = -1 ∧ 0 ≤ sid)
      (s.mod c fun x => { x with uid := -1, sid := sid })
  | .disallow c =>
    guarded (s.At c .user ∧ (s.singleuser ∨ (s.proc c).uid = -1 ∧ (s.proc c).sid = -1))
      { s with singleuser := ¬s.singleuser }
  | .wait c => guarded (s.At c .user ∨ s.At c .waiting) (s.wait1 c .user .user .waiting)
  | .exit c => guarded (s.At c .user) (if c = s.initproc then { s with panicked := true } else s.goto c .exiting)
  | .trap c =>
    guarded (s.At c .user) (if c = s.initproc then { s with panicked := true }
      else (s.mod c fun x => { x with killed := true, crashed := true }).goto c .exiting)
  | .look c =>
    guarded (s.At c .exiting)
      (s.goto c (if (s.proc c).type = .process ∧ (s.proc c).threadi ≠ 0 then .stopping else .leaving))
  | .stop c =>
    guarded (s.At c .stopping) (if (s.proc c).threadi ≠ 0
      then (s.killThreads c).wait1 c .rejoining .leaving .joining
      else (s.killThreads c).goto c .leaving)
  | .join c =>
    if s.At c .joining then some (s.wait1 c .rejoining .leaving .joining)
    -- `release` and `sched` panic without the lock
    else guarded (s.At c .rejoining) { s.wait1 c .user .user .user with panicked := true }
  | .leave c => guarded (s.At c .leaving) (s.leave c)

def reaped (s : State) (c : Ref) : Option Nat := match s.scan c with
  | .reap p => (s.proc p).pgdir
  | _ => none

def freed (s : State) : Act → Option Nat
  | .wait c | .join c => s.reaped c
  | .stop c => if (s.proc c).threadi ≠ 0 then (s.killThreads c).reaped c else none
  | _ => none

end State

abbrev Reachable (ok : State → Act → Prop) (s0 : State) : State → Prop := Run State.act ok s0

/-! ## Boot -/

def Proc.zero : Proc where
  sz := 0
  pgdir := none
  state := .unused
  type := .process
  waitrounds := 0
  pid := 0
  uid := 0
  sid := 0
  parent := none
  chan := 0
  killed := false
  crashed := false
  rdirpath := []
  injail := false
  ssp := 0
  threadi := 0
  threads := fun _ => none
  head := none
  tail := none

def Proc.boot (pid : UInt32) (dir : Nat) : Proc :=
  { Proc.zero with sz := pgsize, pgdir := some dir, state := .runnable, pid := pid, uid := -1, sid := -1 }

def boot (allowthreads useclone singleuser : Bool) : State where
  proc p := if p = 0 then .boot 0 0 else if p = 1 then .boot 1 1 else .zero
  pc _ := .user
  initproc := 1
  nextpid := 2
  nextdir := 2
  singleuser := singleuser
  allowthreads := allowthreads
  useclone := useclone
  panicked := false
  born _ := []
  told _ := []

end Xv6Vsd.Tasks
