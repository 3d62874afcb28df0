import Xv6Vsd.Fs.Lemmas.Frame
import Xv6Vsd.Sys.Lemmas.Parts

/-! # Who a process runs as -/

namespace Xv6Vsd

open Prog Kernel

section

variable {α β : Type}

theorem plain_proc : Plain (Spares Kernel.proc) := Framed.plain ⟨fun _ => rfl, fun _ _ hp => hp⟩

theorem plain_file : Plain (Spares Kernel.file) := Framed.plain ⟨fun _ => rfl, fun _ hf _ => hf⟩

def Kernel.uids (s : Kernel) (p : Nat) : Int := (s.proc p).uid

def SameUids (p : K α) : Prop := ∀ s a s', p.exec s = .ok a s' → s'.uids = s.uids

theorem keeps_sameUids {p : K α} (h : Keeps Kernel.proc p) : SameUids p := fun s a s' he => by
  funext q
  rw [uids, uids, h.exec he]

theorem sameUids_modProc (p) {f} (hf : ∀ x, (f x).uid = x.uid) : SameUids (modProc p f) := by
  intro s a s' h
  rw [modProc, exec_poke] at h; cases h
  funext q
  by_cases hq : q = p
  · subst hq; simp [uids, setProc, hf]
  · simp [uids, setProc, hq]

theorem steady_sameUids : Steady SameUids where
  done a := fun s b s' h => by cases h; rfl
  bind hp hq := fun s b s' h => by
    obtain ⟨a, s1, h1, h2⟩ := bind_ok h
    rw [hq a _ _ _ h2, hp _ _ _ h1]
  panic msg := keeps_sameUids plain_proc.panic
  peek f := keeps_sameUids plain_proc.peek
  inode r := keeps_sameUids plain_proc.inode
  seterr p msg := sameUids_modProc p fun _ => rfl

theorem sameUids_onLog {dev : Nat} {p : Prog Disk LogEv α} : SameUids (onLog dev p) := by
  intro s a s' h
  obtain ⟨d, -, rfl⟩ := onLog_ok h
  rfl

theorem SameUids.bind {p} {q : α → K β} (hp : SameUids p) (hq : ∀ a, SameUids (q a)) : SameUids (p >>= q) :=
  steady_sameUids.bind hp hq

theorem sameUids_pure (a : α) : SameUids (pure a : K α) := steady_sameUids.done a

theorem sameUids_leave (r : IRef) (a : α) :
    SameUids (iunlockput r >>= fun _ => endOp r.dev >>= fun _ => (pure a : K α)) :=
  (keeps_sameUids plain_proc.iunlockput1).bind fun _ => sameUids_onLog.bind fun _ => sameUids_pure a

theorem sameUids_exec (p path vm) : SameUids (exec p path vm) := by
  refine (steady_sameUids.peek _).bind fun x => ?_
  split
  · exact (steady_sameUids.seterr p _).bind fun _ => sameUids_pure _
  refine (keeps_sameUids plain_proc.nameiDirect).bind fun ip => ?_
  cases ip with
  | none => exact (steady_sameUids.seterr p _).bind fun _ => sameUids_pure _
  | some ip =>
    refine sameUids_onLog.bind fun _ => (keeps_sameUids plain_proc.ilock).bind fun _ => ?_
    refine (steady_sameUids.loadImage (fun off n => keeps_sameUids plain_proc.readi) p vm).bind fun loaded => ?_
    exact sameUids_leave ip _

theorem sameUids_chroot (p path) : SameUids (chroot p path) := by
  refine (steady_sameUids.peek _).bind fun x => ?_
  split
  · exact sameUids_pure _
  split
  · exact sameUids_pure _
  split
  · exact sameUids_pure _
  refine (keeps_sameUids plain_proc.nameiDirect).bind fun rp => ?_
  cases rp with
  | none => exact sameUids_pure _
  | some rp =>
    refine (steady_sameUids.peek _).bind fun root => ?_
    split
    · exact (sameUids_modProc p fun _ => by rfl).bind fun _ => sameUids_pure _
    refine sameUids_onLog.bind fun _ => (keeps_sameUids plain_proc.ilock).bind fun _ => ?_
    split
    · exact sameUids_leave rp _
    refine (steady_sameUids.inode rp).bind fun y => ?_
    split
    · exact sameUids_leave rp _
    refine (sameUids_modProc p fun _ => by rfl).bind fun _ => (steady_sameUids.peek _).bind fun old => ?_
    refine (keeps_sameUids (made_ifSome fun r => plain_proc.iput1)).bind fun _ => ?_
    refine (keeps_sameUids plain_proc.idup).bind fun _ => (sameUids_modProc p fun _ => by rfl).bind fun _ => ?_
    exact sameUids_onLog.bind fun _ => sameUids_pure _

end

end Xv6Vsd
