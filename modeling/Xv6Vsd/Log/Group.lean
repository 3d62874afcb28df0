import Mathlib.Data.Finset.Card
import Xv6Vsd.Log.Model

/-!
# Processes that share a log

Each of any number of processes brackets its operations with `begin_op` and `end_op` and calls
`log_write` between the two; the process whose `end_op` finds nobody else inside runs `commit`, one
block write at a time. Sleeping in `begin_op` is a step that cannot be taken yet.
`log_write` makes its tests before it takes the lock, so other processes run between the tests and
the append. The locks on single buffers are left out: they only rule out runs.
-/

namespace Xv6Vsd

open Prog

namespace Log

inductive Phase : Type 1 where
  | outside
  | inside (used : Finset UInt32)
  | logging (used : Finset UInt32) (b : UInt32)
  | committing (rest : Prog Disk LogEv Unit)

namespace Phase

def InOp : Phase → Prop
  | .inside _ => True
  | .logging _ _ => True
  | _ => False

def used : Phase → Finset UInt32
  | .inside used => used
  | .logging used _ => used
  | _ => ∅

end Phase

structure Group : Type 1 where
  disk : Disk
  phase : Nat → Phase

def Group.to (g : Group) (p : Nat) (ph : Phase) (d : Disk) : Group := ⟨d, Function.update g.phase p ph⟩

/-- One step of process `p` and what it ends in. An operation only logs sets of blocks that `may`
allows. -/
inductive Step (may : Finset UInt32 → Prop) (g : Group) (p : Nat) : Res Group Unit → Prop
  | beginOp (hp : g.phase p = .outside) : Step may g p (g.disk.beginOp.bind fun _ d => .ok () (g.to p (.inside ∅) d))
  | logWrite {used b} (x : Block) (hp : g.phase p = .inside used)
    (hmay : may (insert b used)) (hsize : g.disk.log.size ≠ 0) :
    Step may g p ((g.disk.store b.toNat x).logWriteCheck.bind fun _ d => .ok () (g.to p (.logging used b) d))
  | logAppend {used b} (hp : g.phase p = .logging used b) :
    Step may g p (.ok () (g.to p (.inside (insert b used)) (g.disk.logAppend b)))
  /-- `log_write` without a log is `bwrite` -/
  | bwrite {used b} (x : Block) (hp : g.phase p = .inside used)
    (hmay : may (insert b used)) (hsize : g.disk.log.size = 0) :
    Step may g p (.ok () (g.to p (.inside (insert b used)) (g.disk.bwrite b.toNat x)))
  | endOp {used} (hp : g.phase p = .inside used) :
    Step may g p (g.disk.endOpLocked.bind fun doCommit d =>
      .ok () (g.to p (if doCommit then .committing commit else .outside) d))
  | commit {β : Type} {lab : Disk → LogEv} {f : Disk → Res Disk β} {k : β → Prog Disk LogEv Unit}
    (hp : g.phase p = .committing (.step lab f k)) :
    Step may g p ((f g.disk).bind fun b d => .ok () (g.to p (.committing (k b)) d))
  | release (hp : g.phase p = .committing (.ret ())) :
    Step may g p (g.disk.endCommit.bind fun _ d => .ok () (g.to p .outside d))

structure Fresh (d : Disk) : Prop where
  outstanding : d.log.outstanding = 0
  committing : d.log.committing = false
  lh : d.log.lh = []

def Group.start (d : Disk) : Group := ⟨d, fun _ => .outside⟩

inductive Reachable (may : Finset UInt32 → Prop) (d : Disk) : Group → Prop
  | start : Reachable may d (.start d)
  | step {g g' p} (h : Reachable may d g) (hs : Step may g p (.ok () g')) : Reachable may d g'

theorem Reachable.invariant {may : Finset UInt32 → Prop} {I : Group → Prop} {d : Disk}
    (h0 : I (.start d)) (hstep : ∀ g g' p, I g → Step may g p (.ok () g') → I g') {g : Group}
    (h : Reachable may d g) : I g := by
  induction h with
  | start => exact h0
  | step _ hs ih => exact hstep _ _ _ ih hs

end Log

end Xv6Vsd
