import Xv6Vsd.Fs.Path
import Xv6Vsd.Kernel.Lemmas.Steps

/-!
# Which steps the routines of the file system are made of

A property of single steps that holds of the kinds of step listed here holds of every step of every
routine.
-/

namespace Xv6Vsd

open Prog

abbrev StepProp : Type 1 := {δ : Type} → (Kernel → Ev) → (Kernel → Res Kernel δ) → Prop

structure Quiet (P : StepProp) : Prop where
  look {δ : Type} (lab : Kernel → Ev) (f : Kernel → Res Kernel δ) (h : ∀ s b s', f s = .ok b s' → s' = s) : P lab f
  edit {δ : Type} (dev b : Nat) (g : Block → Option Block × δ) :
    P (editEv dev b g) (Kernel.onDisk dev fun d => d.edit b g)
  editDirect (dev b : Nat) (g : Block → Block) :
    P (fun _ => .disk dev (.bwrite b)) (Kernel.onDisk dev fun d => d.editDirect b g)
  hold (lab : Kernel → Ev) (dev b : Nat) : P lab (Kernel.onDisk dev fun d => d.hold b)
  release {δ : Type} (dev b : Nat) (g : Block → Option Block × δ) :
    P (editEv dev b g) (Kernel.onDisk dev fun d => d.release b g)
  field (r : IRef) (g : Inode → Inode) (hg : ∀ ip, (g ip).busy = ip.busy) : Made P (modInode r g)
  iget (dev inum : Nat) : Made P (iget dev inum)

/-- The property holds of all steps but those that open or close an operation or touch a process. -/
structure Plain (P : StepProp) : Prop extends Quiet P where
  lock (r : IRef) : P (fun _ => .tau) fun s =>
    match s.icache r with
    | none => .ok false s
    | some ip => if ip.busy then .block else .ok true (s.setInode r (some { ip with busy := true }))
  unlock (r : IRef) : Made P (iunlock r)
  put (r : IRef) (direct : Bool) : P (iput1.freeEv r direct) fun s =>
    match s.icache r with
    | none => .panic "trap"
    | some ip =>
      if ip.doomed then
        if ip.busy then .panic "iput busy" else .ok true (s.setInode r (some { ip with busy := true }))
      else .ok false (s.drop r ip)
  free (r : IRef) : P (fun _ => .tau) fun s =>
    match s.icache r with
    | none => .panic "trap"
    | some ip => .ok () (s.drop r { ip with busy := false, valid := false, mountroot := false })
  ask : P (fun _ => .tau) fun s => .ok (s.answers s.asked)
    { s with asked := s.asked + 1, singleuser := (s.answers s.asked).singleuser }
  raw (dev b : Nat) (g : Block → Block) (n : Int) : P (fun _ => .disk dev (.bwrite b)) fun s =>
    ((s.disk dev).editDirect b g).bind fun _ d => .ok n (s.setDisk dev d)

section

variable {P : StepProp} {α : Type}

theorem made_onlyIf {c} [Decidable c] {p} (hp : Made P p) : Made P (onlyIf c p) := by
  unfold onlyIf
  split
  · exact hp
  · exact made_pure _

theorem made_ifSome {o} {p : α → K Unit} (hp : ∀ a, Made P (p a)) : Made P (ifSome o p) := by
  cases o with
  | none => exact made_pure _
  | some a => exact hp a

namespace Quiet

variable (hP : Quiet P)
include hP

theorem peek {f : Kernel → α} : Made P (peek f) := made_act (hP.look _ _ fun s b s' h => by cases h; rfl)

theorem panic {msg} : Made P (panic msg : K α) := made_act (hP.look _ _ fun s b s' h => by cases h)

theorem inode {r} : Made P (inode r) := made_act (hP.look _ _ fun s b s' h => by
    have hx : (Xv6Vsd.inode r).exec s = .ok b s' := by rw [Xv6Vsd.inode, exec_tau]; exact h
    exact (inode_ok hx).1)

theorem getsuperblock {dev} : Made P (getsuperblock dev) := made_act (hP.look _ _ fun s b s' h => by
    have hx : (Xv6Vsd.getsuperblock dev).exec s = .ok b s' := by
      rw [Xv6Vsd.getsuperblock, exec_tau]; exact h
    exact (getsuperblock_ok hx).1)

theorem din {r} {g : Dinode → Dinode} : Made P (modDin r g) := hP.field r _ fun _ => rfl

theorem bzero {dev b} : Made P (bzero dev b) := made_act (hP.edit dev b _)

theorem ballocFrom {dev sb fuel b} : Made P (ballocFrom dev sb fuel b) := by
  induction fuel generalizing b with
  | zero => exact made_pure _
  | succ fuel ih =>
    unfold Xv6Vsd.ballocFrom
    split
    · refine (made_act (hP.edit dev _ _)).bind fun found => ?_
      split
      · exact made_pure _
      · exact ih
    · exact made_pure _

theorem balloc {dev} : Made P (balloc dev) := by
  refine hP.getsuperblock.bind fun sb => hP.ballocFrom.bind fun found => ?_
  split
  · exact hP.bzero.bind fun _ => made_pure _
  · exact made_pure _

theorem bfree {dev b} : Made P (bfree dev b) := hP.getsuperblock.bind fun _ => made_act (hP.edit dev _ _)

theorem iallocFrom {dev sb type fuel inum} : Made P (iallocFrom dev sb type fuel inum) := by
  induction fuel generalizing inum with
  | zero => exact made_pure _
  | succ fuel ih =>
    unfold Xv6Vsd.iallocFrom
    split
    · refine (made_act (hP.edit dev _ _)).bind fun free => ?_
      split
      · exact (hP.iget dev inum).map
      · exact ih
    · exact made_pure _

theorem ialloc {dev type} : Made P (ialloc dev type) := hP.getsuperblock.bind fun _ => hP.iallocFrom

theorem iupdate1 {r direct} : Made P (iupdate1 r direct) := by
  refine hP.getsuperblock.bind fun sb => hP.inode.bind fun ip => ?_
  split
  · exact made_act (hP.editDirect r.dev _ _)
  · exact made_act (hP.edit r.dev _ _)

theorem idup {ip : Option IRef} : Made P (idup ip) := by
  refine (made_ifSome fun r => ?_).bind fun _ => made_pure _
  exact hP.field r _ fun _ => rfl

theorem bmapPtr {r bn create ptr} : Made P (bmapG.bmapPtr r bn create ptr) := by
  refine hP.inode.bind fun ip => (made_act (hP.hold _ r.dev _)).bind fun x => ?_
  split
  · refine hP.balloc.bind fun newblock => ?_
    split
    · exact made_pure _
    · exact made_act (hP.release r.dev _ _)
  · split
    · exact made_pure _
    · exact made_act (hP.release r.dev _ _)

theorem bmapG {r bn create} : Made P (bmapG r bn create) := by
  unfold Xv6Vsd.bmapG
  dsimp only
  split
  · exact hP.panic
  refine (made_act (hP.look _ _ fun s b s' h => ?_)).bind fun ip => ?_
  · split at h <;> cases h
    rfl
  split
  · refine hP.balloc.bind fun newblock => ?_
    split
    · exact made_pure _
    · exact hP.din.bind fun _ => hP.bmapPtr
  · split
    · exact made_pure _
    · exact hP.bmapPtr

theorem bfreeref {r addr} : Made P (bfreeref r addr) := by
  exact hP.inode.bind fun ip => made_onlyIf (made_act (hP.edit r.dev _ _))

theorem itrunc {r} : Made P (itrunc r) := by
  refine hP.inode.bind fun ip => ?_
  refine (made_loop fun i => hP.bmapG.bind fun addr => made_onlyIf ?_).bind fun _ => hP.din.bind fun _ => hP.iupdate1
  exact hP.bfree.bind fun _ => hP.bfreeref

theorem readPieces {r} {ps} : Made P (readPieces r ps) := by
  induction ps with
  | nil => exact made_pure _
  | cons p ps ih =>
    exact hP.bmapG.bind fun addr => (made_act (hP.edit r.dev _ _)).bind fun xs => ih.bind fun ys => made_pure _

theorem writePieces {r} {src : Nat → UInt8} {start} {ps} {off} :
    Made P (writePieces r src start ps off) := by
  induction ps generalizing off with
  | nil => exact made_pure _
  | cons p ps ih =>
    refine hP.bmapG.bind fun bnum => ?_
    split
    · exact made_pure _
    · exact (made_act (hP.edit r.dev _ _)).bind fun _ => ih

theorem bdiskRead {d off n} : Made P (bdiskRead d off n) := by
  unfold Xv6Vsd.bdiskRead
  split
  · exact made_pure _
  refine made_act (hP.look _ _ fun s b s' h => ?_)
  obtain ⟨x, d', -, he⟩ := Res.bind_eq_ok.mp h
  cases he
  rfl

end Quiet

/-- What passes from the parts of a routine to the routine, for those on the contents of inode `r`. -/
structure Flow (J : {α : Type} → K α → Prop) (r : IRef) : Prop where
  quiet {α : Type} {p : K α} (h : ∀ {P : StepProp}, Quiet P → Made P p) : J p
  bind {α β : Type} {p : K α} {q : α → K β} : J p → (∀ a, J (q a)) → J (p >>= q)
  ask : J (askDevice r)
  raw (d : Dinode) (src : Nat → UInt8) (off n : UInt32) : J (bdiskWrite d src off n)

namespace Flow

variable {J : {α : Type} → K α → Prop} {r : IRef} (hJ : Flow J r)
include hJ

theorem done (a : α) : J (pure a : K α) := hJ.quiet fun _ => made_pure a

theorem panic {msg} : J (panic msg : K α) := hJ.quiet fun h => h.panic

theorem inode : J (inode r) := hJ.quiet fun h => h.inode

theorem readi {off n} : J (readi r off n) := by
  refine hJ.bind hJ.inode fun ip => ?_
  split
  · split
    · exact hJ.done _
    split
    · exact hJ.quiet fun h => h.bdiskRead
    · exact hJ.bind hJ.ask fun a => hJ.done _
  · split
    · exact hJ.done _
    · exact hJ.bind (hJ.quiet fun h => h.readPieces) fun xs => hJ.done _

theorem writei {src : Nat → UInt8} {off n : UInt32} : J (writei r src off n) := by
  refine hJ.bind hJ.inode fun ip => ?_
  split
  · split
    · exact hJ.done _
    split
    · exact hJ.raw ..
    · exact hJ.bind hJ.ask fun a => hJ.done _
  split
  · exact hJ.done _
  split
  · exact hJ.done _
  refine hJ.bind (hJ.quiet fun h => h.writePieces) fun res => hJ.bind hJ.inode fun ip => ?_
  refine hJ.bind (hJ.quiet fun h => ?_) fun _ => hJ.done _
  exact made_onlyIf (h.din.bind fun _ => h.iupdate1)

theorem readDirent {off msg} : J (readDirent r off msg) := by
  refine hJ.bind hJ.readi fun res => ?_
  dsimp only
  split
  · exact hJ.panic
  · exact hJ.done _

theorem dirlookupFrom {name} {fuel off} : J (dirlookupFrom r name fuel off) := by
  induction fuel generalizing off with
  | zero => exact hJ.done _
  | succ fuel ih =>
    refine hJ.bind hJ.inode fun ip => ?_
    split
    · refine hJ.bind hJ.readDirent fun de => ?_
      split
      · exact ih
      · exact hJ.bind hJ.inode fun ip => hJ.bind (hJ.quiet fun h => h.iget _ _) fun next => hJ.done _
    · exact hJ.done _

theorem dirlookup {name : List UInt8} : J (dirlookup r name) := by
  refine hJ.bind hJ.inode fun ip => ?_
  split
  · exact hJ.panic
  · exact hJ.dirlookupFrom

theorem emptyFrom {fuel off} : J (emptyFrom r fuel off) := by
  induction fuel generalizing off with
  | zero => exact hJ.done _
  | succ fuel ih =>
    refine hJ.bind hJ.inode fun ip => ?_
    split
    · refine hJ.bind hJ.readDirent fun de => ?_
      split
      · exact hJ.done _
      · exact ih
    · exact hJ.done _

end Flow

namespace Plain

variable (hP : Plain P)
include hP

theorem ilock {r} : Made P (ilock r) := by
  refine (made_act (hP.lock r)).bind fun locked => made_onlyIf ?_
  refine hP.inode.bind fun ip => made_onlyIf ?_
  exact hP.getsuperblock.bind fun sb => (made_act (hP.edit r.dev _ _)).bind fun d => hP.field r _ fun _ => rfl

theorem iput1 {r direct} : Made P (iput1 r direct) := by
  refine (made_act (hP.put r direct)).bind fun free => made_onlyIf ?_
  exact hP.itrunc.bind fun _ => hP.din.bind fun _ => hP.iupdate1.bind fun _ => made_act (hP.free r)

theorem iunlockput1 {r direct} : Made P (iunlockput1 r direct) := (hP.unlock r).bind fun _ => hP.iput1

theorem askDevice {r} : Made P (askDevice r) := by
  refine (made_act hP.ask).bind fun a => (made_onlyIf ?_).bind fun _ => made_pure _
  exact (hP.unlock r).bind fun _ => hP.ilock

theorem bdiskWrite {d} {src : Nat → UInt8} {off n} : Made P (bdiskWrite d src off n) := by
  unfold Xv6Vsd.bdiskWrite
  split
  · exact made_pure _
  · exact made_act (hP.raw _ _ _ _)

theorem flow (r : IRef) : Flow (fun p => Made P p) r where
  quiet h := h hP.toQuiet
  bind hp hq := hp.bind hq
  ask := hP.askDevice
  raw _ _ _ _ := hP.bdiskWrite

theorem readi {r off n} : Made P (readi r off n) := (hP.flow r).readi

theorem writei {r : IRef} {src : Nat → UInt8} {off n : UInt32} : Made P (writei r src off n) := (hP.flow r).writei

theorem readDirent {r off msg} : Made P (readDirent r off msg) := (hP.flow r).readDirent

theorem dirlookup {r} {name : List UInt8} : Made P (dirlookup r name) := (hP.flow r).dirlookup

theorem emptyFrom {r fuel off} : Made P (emptyFrom r fuel off) := (hP.flow r).emptyFrom

theorem dirlink {r : IRef} {name : List UInt8} {inum : Nat} : Made P (dirlink r name inum) := by
  refine hP.dirlookup.bind fun found => ?_
  split
  · exact hP.iput1.bind fun _ => made_pure _
  refine hP.inode.bind fun ip => hP.emptyFrom.bind fun off => hP.writei.bind fun n => ?_
  split
  · exact hP.panic
  · exact made_pure _

theorem walk {parent direct} {names : List (List UInt8)} {r} : Made P (walk parent direct names r) := by
  induction names generalizing r with
  | nil =>
    unfold Xv6Vsd.walk
    split
    · exact hP.iput1.bind fun _ => made_pure _
    · exact made_pure _
  | cons name rest ih =>
    refine hP.ilock.bind fun _ => hP.inode.bind fun ip => ?_
    split
    · exact hP.iunlockput1.bind fun _ => made_pure _
    split
    · exact (hP.unlock r).bind fun _ => made_pure _
    refine hP.dirlookup.bind fun found => ?_
    split
    · exact hP.iunlockput1.bind fun _ => made_pure _
    · exact hP.iunlockput1.bind fun _ => ih

theorem namex {p : Nat} {path : List UInt8} {parent direct : Bool} : Made P (namex p path parent direct) := by
  refine hP.peek.bind fun start => hP.idup.bind fun ip => ?_
  split
  · exact hP.walk
  split
  · exact made_pure _
  · exact hP.panic

theorem nameiDirect {p} {path} : Made P (nameiDirect p path) := hP.namex.map

end Plain

end

end Xv6Vsd
