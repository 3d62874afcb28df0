import Xv6Vsd.Fs.Lemmas.Frame
import Xv6Vsd.Log.Lemmas.Moves
import Xv6Vsd.Log.Lemmas.Replay
import Xv6Vsd.Sys.Exec

/-! # Counting open operations -/

namespace Xv6Vsd

open Prog Kernel Function

def Kernel.ops (s : Kernel) (dev : Nat) : Nat × Int := ((s.disk dev).log.size, (s.disk dev).log.outstanding)

def opened (dev : Nat) (o : Nat → Nat × Int) : Nat → Nat × Int :=
  if (o dev).1 = 0 then o else update o dev ((o dev).1, (o dev).2 + 1)

def closed (dev : Nat) (o : Nat → Nat × Int) : Nat → Nat × Int :=
  if (o dev).1 = 0 then o else update o dev ((o dev).1, (o dev).2 - 1)

@[simp] theorem closed_opened (dev) (o : Nat → Nat × Int) : closed dev (opened dev o) = o := by
  unfold closed opened
  by_cases h : (o dev).1 = 0
  · simp [h]
  · simp [h]

variable {dev : Nat} {o : Nat → Nat × Int}

theorem opened_ne (h : (o dev).1 ≠ 0) : (opened dev o dev).2 ≠ (o dev).2 := by simp [opened, h]

theorem closed_ne (h : (o dev).1 ≠ 0) : (closed dev o dev).2 ≠ (o dev).2 := by simp [closed, h]

theorem opened_eq (h : (o dev).1 = 0) : opened dev o = o := by simp [opened, h]

theorem closed_eq (h : (o dev).1 = 0) : closed dev o = o := by simp [closed, h]

section

theorem ops_setDisk {s : Kernel} {dev : Nat} {d : Disk} :
    (s.setDisk dev d).ops = update s.ops dev (d.log.size, d.log.outstanding) := by
  funext dev'
  by_cases h : dev' = dev
  · subst h; simp [ops]
  · simp [ops, update_of_ne h, setDisk_disk_of_ne _ _ h]

theorem ops_beginOp {dev : Nat} {s s' : Kernel} {u : Unit} (h : (beginOp dev).exec s = .ok u s') :
    s'.ops = opened dev s.ops := by
  obtain ⟨d, hd, rfl⟩ := onLog_ok h
  rw [Log.beginOp, exec_act] at hd
  rw [ops_setDisk]
  obtain ⟨hs, rfl⟩ | ⟨hs, -, -, rfl⟩ := Disk.beginOp_ok hd
  · rw [opened_eq (o := s.ops) hs]
    simp [ops]
  · rw [opened, if_neg (show ¬ (s.ops dev).1 = 0 from hs)]; rfl

end

theorem ops_endOp {s s' : Kernel} {u : Unit} (h : (endOp dev).exec s = .ok u s') : s'.ops = closed dev s.ops := by
  obtain ⟨d, hd, rfl⟩ := onLog_ok h
  obtain ⟨c, d1, h1, h2⟩ := bind_ok hd
  rw [exec_act] at h1
  have hrest : (d.log.size, d.log.outstanding) = (d1.log.size, d1.log.outstanding) := by
    split at h2
    · obtain ⟨_, d2, h3, h4⟩ := bind_ok h2
      rw [exec_act] at h4; cases h4
      exact ((Log.keeps_commit (g := fun d : Disk => (d.log.size, d.log.outstanding)) (fun _ _ _ => rfl)
        fun _ _ => rfl).exec h3 :)
    · cases h2; rfl
  rw [ops_setDisk, hrest]
  obtain ⟨hs, -, rfl⟩ | ⟨hs, -, -, -, rfl⟩ | ⟨hs, -, ho, -, rfl⟩ := Disk.endOpLocked_ok h1
  · rw [closed_eq (o := s.ops) hs]
    simp [ops]
  · rw [closed, if_neg (show ¬ (s.ops dev).1 = 0 from hs)]; rfl
  · rw [closed, if_neg (show ¬ (s.ops dev).1 = 0 from hs)]; simp [ops, ho]

/-! ## Rules -/

section

variable {α β : Type}

def Closes (dev : Nat) (p : K α) : Prop := ∀ s a s', p.exec s = .ok a s' → s'.ops = closed dev s.ops

def Balanced (p : K α) : Prop := ∀ s a s', p.exec s = .ok a s' → s'.ops = s.ops

theorem ops_of_frames {s s' : Kernel} (h : s'.frames = s.frames) : s'.ops = s.ops := by
  funext dev
  have := congrFun h dev
  simp only [frames, Disk.frame, Prod.mk.injEq] at this
  simp [ops, this]

variable {p : K α} {q : α → K β} {dev : Nat}

theorem keeps_balanced (h : Keeps Kernel.frames p) : Balanced p := fun _ _ _ he => ops_of_frames (h.exec he)

theorem Balanced.bind (hp : Balanced p) (hq : ∀ a, Balanced (q a)) : Balanced (p >>= q) := by
  intro s b s' h
  obtain ⟨a, s1, h1, h2⟩ := bind_ok h
  rw [hq a _ _ _ h2, hp _ _ _ h1]

theorem balanced_pure {a} : Balanced (pure a : K α) := fun s b s' h => by cases h; rfl

theorem balanced_panic {msg} : Balanced (panic msg : K α) := fun s b s' h => by
  simp [exec_panic] at h

theorem balanced_beginOp {q : Unit → K α} (hq : ∀ u, Closes dev (q u)) : Balanced (beginOp dev >>= q) := by
  intro s b s' h
  obtain ⟨u, s1, h1, h2⟩ := bind_ok h
  rw [hq u _ _ _ h2, ops_beginOp h1, closed_opened]

theorem closes_endOp {dev} : Closes dev (endOp dev) := fun _ _ _ h => ops_endOp h

theorem closes_panic {dev msg} : Closes dev (panic msg : K α) := fun s b s' h => by
  simp [exec_panic] at h

theorem Balanced.closes (hp : Balanced p) (hq : ∀ a, Closes dev (q a)) : Closes dev (p >>= q) := by
  intro s b s' h
  obtain ⟨a, s1, h1, h2⟩ := bind_ok h
  rw [hq a _ _ _ h2, hp _ _ _ h1]

theorem Closes.bind (hp : Closes dev p) (hq : ∀ a, Balanced (q a)) : Closes dev (p >>= q) := by
  intro s b s' h
  obtain ⟨a, s1, h1, h2⟩ := bind_ok h
  rw [hq a _ _ _ h2, hp _ _ _ h1]

theorem keeps_frames_tau {f : Kernel → Res Kernel α} (h : ∀ s b s', f s = .ok b s' → s'.disk = s.disk) :
    Keeps Kernel.frames (tau f) := made_act (spares_frames_of_disk h)

theorem keeps_frames_poke {f : Kernel → Kernel} (h : ∀ s, (f s).disk = s.disk) :
    Keeps Kernel.frames (poke f) := keeps_frames_tau fun s b s' hf => by cases hf; exact h s

theorem balanced_seterr {p msg} : Balanced (seterr p msg) := keeps_balanced (keeps_frames_poke fun _ => rfl)

theorem balanced_modProc {p} {f : Proc → Proc} : Balanced (modProc p f) :=
  keeps_balanced (keeps_frames_poke fun _ => rfl)

theorem balanced_peek {f : Kernel → α} : Balanced (peek f) := keeps_balanced plain_frames.peek

theorem balanced_inode {r} : Balanced (inode r) := keeps_balanced plain_frames.inode

theorem balanced_din {r} {f : Dinode → Dinode} : Balanced (modDin r f) := keeps_balanced plain_frames.din

theorem balanced_ilock {r} : Balanced (ilock r) := keeps_balanced plain_frames.ilock

theorem balanced_iunlock {r} : Balanced (iunlock r) := keeps_balanced (plain_frames.unlock r)

theorem balanced_iput1 {r direct} : Balanced (iput1 r direct) := keeps_balanced plain_frames.iput1

theorem balanced_iunlockput {r} : Balanced (iunlockput r) := keeps_balanced plain_frames.iunlockput1

theorem balanced_iupdate {r} : Balanced (iupdate r) := keeps_balanced plain_frames.iupdate1

theorem balanced_dirlink {r} {name} {inum} : Balanced (dirlink r name inum) :=
  keeps_balanced plain_frames.dirlink

theorem balanced_nameiDirect {p} {path} : Balanced (nameiDirect p path) :=
  keeps_balanced plain_frames.nameiDirect

theorem balanced_namex {p} {path} {parent direct} : Balanced (namex p path parent direct) :=
  keeps_balanced plain_frames.namex

theorem balanced_onlyIf {c} [Decidable c] {p} (hp : Balanced p) : Balanced (onlyIf c p) := by
  unfold onlyIf
  split
  · exact hp
  · exact balanced_pure

theorem balanced_ifSome {o} {p : α → K Unit} (hp : ∀ a, Balanced (p a)) : Balanced (ifSome o p) := by
  cases o with
  | none => exact balanced_pure
  | some a => exact hp a

end

end Xv6Vsd
