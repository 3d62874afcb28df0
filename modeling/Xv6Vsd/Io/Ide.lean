import Mathlib.Algebra.Group.Nat.Defs
import Xv6Vsd.Lib.Queue
import Xv6Vsd.Lib.Run

/-!
# The disk driver (`ide.c`)

The queue of requests, the processes in `iderw`, the interrupt handler, and the drives with their registers. A request
is known by its buffer. The two drives are the disks 0 and 1, in the
order in which `ideinit` registers them; a caller asks for a block below `FSSIZE`.
-/

namespace Xv6Vsd.Ide

open Function

abbrev FSSIZE : Nat := 5000

abbrev sectorPerBlock : Nat := 1

variable {β δ : Type}

structure Buf (δ : Type) where
  busy : Bool
  valid : Bool
  dirty : Bool
  dev : Nat
  blockno : Nat
  data : δ

def Buf.synced (b : Buf δ) : Bool := b.valid && !b.dirty

def Buf.block (b : Buf δ) : Nat × Nat := (b.dev, b.blockno)

def Buf.known (b : Buf δ) : Bool := b.dev < 2 && b.blockno < FSSIZE

/-! ## The drives -/

structure Regs where
  count : UInt8
  lba0 : UInt8
  lba1 : UInt8
  lba2 : UInt8
  drive : UInt8

/-- `disks[devid].driver_device`, of the disks that `ideinit` registers. -/
def realdisk (devid : Nat) : Nat := if devid = 1 then 1 else 0

def Buf.regs (b : Buf δ) : Regs :=
  let sector := b.blockno * sectorPerBlock
  { count := .ofNat sectorPerBlock
    lba0 := .ofNat (sector &&& 0xff)
    lba1 := .ofNat ((sector >>> 8) &&& 0xff)
    lba2 := .ofNat ((sector >>> 16) &&& 0xff)
    drive := .ofNat (0xe0 ||| ((realdisk b.dev &&& 1) <<< 4) ||| ((sector >>> 24) &&& 0x0f)) }

def Regs.block (r : Regs) : Nat × Nat :=
  (r.drive.toNat / 16 % 2,
    r.lba0.toNat + 2 ^ 8 * r.lba1.toNat + 2 ^ 16 * r.lba2.toNat + 2 ^ 24 * (r.drive.toNat % 16))

structure Task (δ : Type) where
  block : Nat × Nat
  write : Option δ

inductive Phase (δ : Type) where
  | idle
  | busy (t : Task δ)
  /-- the command has ended, with neither `IDE_DF` nor `IDE_ERR` if `ok` -/
  | done (t : Task δ) (ok : Bool)

structure Device (δ : Type) where
  media : Nat × Nat → δ
  phase : Phase δ
  port : δ
  irq : Bool

namespace Device

/-- The write of the command register, after `idewait(0)`, which does not return while a command goes on. -/
def start (d : Device δ) (r : Regs) (write : Option δ) : Option (Device δ) :=
  match d.phase with
  | .busy _ => none
  | _ => some { d with phase := .busy { block := r.block, write := write } }

def complete (d : Device δ) (ok : Bool) : Option (Device δ) :=
  match d.phase with
  | .busy t =>
    some
      { media := if ok then t.write.elim d.media (update d.media t.block) else d.media
        phase := .done t ok
        port := if ok then t.write.elim (d.media t.block) fun _ => d.port else d.port
        irq := true }
  | _ => none

def ready (d : Device δ) : Bool :=
  match d.phase with
  | .done _ ok => ok
  | _ => true

end Device

/-! ## The driver -/

inductive Rw (β : Type) where
  | out
  | acquire
  /-- `b->qnext = 0` -/
  | enter
  /-- `for(pp=&idequeue; *pp; pp=&(*pp)->qnext)`, with `pp` at `idequeue` or at the `qnext` of a buffer -/
  | walk (pp : Option β)
  | start
  /-- `while((b->flags & (B_VALID|B_DIRTY)) != B_VALID)` -/
  | test
  | asleep
  | reacquire
  | leave
  deriving DecidableEq

inductive Intr where
  | out
  | acquire
  | take
  | next
  | leave
  deriving DecidableEq

inductive Holder (β : Type) where
  | rw (b : β)
  | intr
  deriving DecidableEq

structure State (β δ : Type) where
  buf : β → Buf δ
  qnext : β → Option β
  idequeue : Option β
  lock : Option (Holder β)
  rw : β → Rw β
  intr : Intr
  dev : Device δ
  queued : List β
  started : List β
  completed : List β

inductive Act (β δ : Type) where
  | call (b : β) (x : Buf δ)
  | rw (b : β)
  | kill (b : β)
  | complete (ok : Bool)
  | interrupt
  | intr

namespace State

variable [DecidableEq β]

def goto (s : State β δ) (b : β) (w : Rw β) : State β δ := { s with rw := update s.rw b w }

def deref (s : State β δ) : Option β → Option β
  | none => s.idequeue
  | some x => s.qnext x

def setPtr (s : State β δ) (pp : Option β) (b : β) : State β δ :=
  { s with
    idequeue := if pp = none then some b else s.idequeue
    qnext := pp.elim s.qnext fun x => update s.qnext x (some b) }

def idestart (s : State β δ) (b : β) : Option (State β δ) :=
  let x := s.buf b
  (s.dev.start x.regs (if x.dirty then some x.data else none)).map fun d =>
    { s with dev := d, started := s.started ++ [b] }

def iderw (s : State β δ) (b : β) : Option (State β δ) :=
  match s.rw b with
  | .out | .asleep => none
  | .acquire => if s.lock = none then some { s.goto b .enter with lock := some (.rw b) } else none
  | .enter => some { s.goto b (.walk none) with qnext := update s.qnext b none }
  | .walk pp =>
    match s.deref pp with
    | some x => some (s.goto b (.walk (some x)))
    | none => some { (s.setPtr pp b).goto b .start with queued := s.queued ++ [b] }
  | .start =>
    if s.idequeue = some b then (s.idestart b).map fun s => s.goto b .test else some (s.goto b .test)
  | .test => if (s.buf b).synced then some (s.goto b .leave) else some { s.goto b .asleep with lock := none }
  | .reacquire => if s.lock = none then some { s.goto b .test with lock := some (.rw b) } else none
  | .leave => some { s.goto b .out with lock := none }

def wake (s : State β δ) (b : β) : State β δ := if s.rw b = .asleep then s.goto b .reacquire else s

def finish (s : State β δ) (b : β) : State β δ :=
  let x := s.buf b
  let data := if !x.dirty && s.dev.ready then s.dev.port else x.data
  ({ s with
    idequeue := s.qnext b
    buf := update s.buf b { x with data := data, valid := true, dirty := false }
    dev := { s.dev with phase := .idle }
    completed := s.completed ++ [b]
    intr := .next } : State β δ).wake b

def ideintr (s : State β δ) : Option (State β δ) :=
  match s.intr with
  | .out => none
  | .acquire => if s.lock = none then some { s with intr := .take, lock := some .intr } else none
  | .take =>
    match s.idequeue with
    | none => some { s with intr := .leave }
    | some b => some (s.finish b)
  | .next =>
    match s.idequeue with
    | none => some { s with intr := .leave }
    | some b => (s.idestart b).map fun s => { s with intr := .leave }
  | .leave => some { s with intr := .out, lock := none }

def act (s : State β δ) : Act β δ → Option (State β δ)
  | .call b x =>
    if s.rw b = .out ∧ x.busy ∧ !x.synced ∧ x.known then
      some { s.goto b .acquire with buf := update s.buf b x }
    else none
  | .rw b => s.iderw b
  | .kill b => some (s.wake b)
  | .complete ok => (s.dev.complete ok).map fun d => { s with dev := d }
  | .interrupt =>
    if s.dev.irq ∧ s.intr = .out then some { s with dev := { s.dev with irq := false }, intr := .acquire } else none
  | .intr => s.ideintr

end State

def start (buf : β → Buf δ) (media : Nat × Nat → δ) (port : δ) : State β δ where
  buf := buf
  qnext _ := none
  idequeue := none
  lock := none
  rw _ := .out
  intr := .out
  dev := { media := media, phase := .idle, port := port, irq := false }
  queued := []
  started := []
  completed := []

def Successful : State β δ → Act β δ → Prop
  | _, .complete ok => ok = true
  | _, _ => True

/-! ## What the driver is for -/

def Device.current (d : Device δ) : Option (Task δ) :=
  match d.phase with
  | .idle => none
  | .busy t | .done t _ => some t

def Buf.task (x : Buf δ) : Task δ := { block := x.block, write := if x.dirty then some x.data else none }

structure Serves (s : State β δ) (q : List β) : Prop where
  links : Links s.qnext s.idequeue q
  current : ∀ t, s.dev.current = some t → ∃ b, s.idequeue = some b ∧ t = (s.buf b).task
  queued : s.queued = s.completed ++ q
  started : s.started = s.completed ++ (if s.dev.current.isSome then q.take 1 else [])
  going : q ≠ [] → s.dev.current.isSome ∨ s.intr = .next ∨ ∃ b, s.rw b = .start ∧ q = [b]
  returns : ∀ b, s.rw b = .leave → (s.buf b).synced

structure Transfers (s s' : State β δ) : Prop where
  media : ∀ l, s'.dev.media l ≠ s.dev.media l →
    ∃ b, s.idequeue = some b ∧ (s.buf b).dirty ∧ l = (s.buf b).block ∧ s'.dev.media l = (s.buf b).data
  order : s'.completed ≠ s.completed → ∃ b, s.idequeue = some b ∧ s'.completed = s.completed ++ [b]
  write : ∀ b, s'.completed = s.completed ++ [b] → (s.buf b).dirty →
    (s'.buf b).data = (s.buf b).data ∧ s'.dev.media (s.buf b).block = (s.buf b).data
  read : ∀ b, s'.completed = s.completed ++ [b] → (s.buf b).dirty = false →
    (s'.buf b).data = s'.dev.media (s.buf b).block
  data : ∀ b, s.rw b ≠ .out → (s'.buf b).block = (s.buf b).block ∧
    (s'.completed ≠ s.completed ++ [b] → s'.buf b = s.buf b)

end Xv6Vsd.Ide
