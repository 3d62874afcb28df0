import Xv6Vsd.Fs.Lemmas.Spec

/-! # What the file system never changes about a disk -/

namespace Xv6Vsd

open Prog Disk

def Kernel.frames (s : Kernel) (dev : Nat) : Bool × Bool × Superblock × Nat × Nat × Int × Bool := (s.disk dev).frame

section

variable {α : Type}

theorem frames_setDisk {s : Kernel} {dev : Nat} {d : Disk} (h : d.frame = (s.disk dev).frame) :
    (s.setDisk dev d).frames = s.frames := by
  funext dev'
  by_cases hd : dev' = dev
  · subst hd; rw [Kernel.frames, Kernel.setDisk_disk_self, h]; rfl
  · rw [Kernel.frames, Kernel.setDisk_disk_of_ne _ _ hd]; rfl

theorem spares_frames_of_disk {lab : Kernel → Ev} {f : Kernel → Res Kernel α}
    (h : ∀ s b s', f s = .ok b s' → s'.disk = s.disk) : Spares Kernel.frames lab f := by
  intro s b s' hf
  funext dev
  rw [Kernel.frames, h s b s' hf]
  rfl

theorem Disk.edit_frame {d d' : Disk} {b : Nat} {g : Block → Option Block × α} {a : α}
    (h : d.edit b g = .ok a d') : d'.frame = d.frame := by
  obtain ⟨-, -, ⟨-, rfl⟩ | ⟨y, -, rfl, -⟩⟩ := edit_ok h
  · rfl
  · exact logged_frame _ _ _

theorem Disk.release_frame {d d' : Disk} {b : Nat} {g : Block → Option Block × α} {a : α}
    (h : d.release b g = .ok a d') : d'.frame = d.frame := by
  obtain ⟨x, d1, h1, h2⟩ := Res.bind_eq_ok.mp h
  cases h2
  unfold put at h1
  split at h1
  · cases h1; rfl
  obtain ⟨_, d2, h3, h4⟩ := Res.bind_eq_ok.mp h1
  cases h4
  unfold logWrite at h3
  split at h3
  · cases h3; rfl
  obtain ⟨_, d4, h5, h6⟩ := Res.bind_eq_ok.mp h3
  cases h6
  unfold logWriteCheck at h5
  split at h5
  · cases h5
  · split at h5 <;> cases h5
    exact logAppend_frame _ _

/-- A part of the state that depends on the disks, the files and the processes, and on a disk only
through its frame. -/
structure Framed {γ : Type} (t : Kernel → γ) : Prop where
  disk {s dev d} (h : d.frame = (s.disk dev).frame) : t (s.setDisk dev d) = t s
  rest {s s'} (hd : s'.disk = s.disk) (hf : s'.file = s.file) (hp : s'.proc = s.proc) : t s' = t s

section

variable {γ : Type} {t : Kernel → γ} (ht : Framed t)
include ht

theorem Framed.onDisk {lab : Kernel → Ev} {dev} {g : Disk → Res Disk α}
    (h : ∀ d b d', g d = .ok b d' → d'.frame = d.frame) : Spares t lab (Kernel.onDisk dev g) := by
  intro s b s' hf
  obtain ⟨-, d, hd, rfl⟩ := onDisk_ok hf
  exact ht.disk (h _ _ _ hd)

theorem Framed.drop (s : Kernel) (r : IRef) (ip : Inode) : t (s.drop r ip) = t s := by
  unfold Kernel.drop
  split <;> exact ht.rest rfl rfl rfl

theorem Framed.quiet : Quiet (Spares t) where
  look lab f h := fun s b s' hf => by rw [h s b s' hf]
  edit dev b g := ht.onDisk fun d a d' h => edit_frame h
  editDirect dev b g := ht.onDisk fun d a d' h => by
    obtain ⟨-, rfl⟩ := editDirect_ok h
    exact bwrite_frame _ _ _
  hold lab dev b := ht.onDisk fun d a d' h => by
    obtain ⟨-, -, rfl⟩ := hold_ok h
    rfl
  release dev b g := ht.onDisk fun d a d' h => release_frame h
  field r g _ := made_act fun s b s' hf => by
    split at hf <;> cases hf
    exact ht.rest rfl rfl rfl
  iget dev inum := made_act fun s b s' hf => by
    split at hf
    · cases hf; exact ht.rest rfl rfl rfl
    · split at hf <;> cases hf
      exact ht.rest rfl rfl rfl

theorem Framed.plain : Plain (Spares t) where
  toQuiet := ht.quiet
  lock r := fun s b s' hf => by
    dsimp only at hf
    split at hf
    · cases hf; rfl
    · split at hf <;> cases hf
      exact ht.rest rfl rfl rfl
  unlock r := made_act fun s b s' hf => by
    cases hf
    dsimp only
    split
    · rfl
    · exact ht.rest rfl rfl rfl
  put r direct := fun s b s' hf => by
    dsimp only at hf
    split at hf
    · cases hf
    split at hf
    · split at hf <;> cases hf
      exact ht.rest rfl rfl rfl
    · cases hf; exact ht.drop ..
  free r := fun s b s' hf => by
    dsimp only at hf
    split at hf <;> cases hf
    exact ht.drop ..
  ask := fun s b s' hf => by cases hf; exact ht.rest rfl rfl rfl
  raw dev b g n := fun s b s' hf => by
    obtain ⟨_, d, hd, he⟩ := Res.bind_eq_ok.mp hf
    cases he
    obtain ⟨-, rfl⟩ := editDirect_ok hd
    exact ht.disk (bwrite_frame _ _ _)

end

theorem framed_frames : Framed Kernel.frames where
  disk := frames_setDisk
  rest hd _ _ := funext fun dev => by rw [Kernel.frames, hd]; rfl

theorem quiet_frames : Quiet (Spares Kernel.frames) := framed_frames.quiet

theorem plain_frames : Plain (Spares Kernel.frames) := framed_frames.plain

theorem keeps_sb {p : K α} {s s' : Kernel} {a : α} (hp : Keeps Kernel.frames p) (he : p.exec s = .ok a s')
    (dev : Nat) : (s'.disk dev).sb = (s.disk dev).sb :=
  congrArg (·.2.2.1) (congrFun (hp.exec he) dev)

end

end Xv6Vsd
