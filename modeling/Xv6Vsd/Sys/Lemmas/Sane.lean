import Xv6Vsd.Fs.Lemmas.KeepFile
import Xv6Vsd.Sys.Locks

/-!
# Routines that keep a state consistent

A routine may write an inode back only while it has the inode locked, so the rules follow the set of
locked inodes.
-/

namespace Xv6Vsd

open Prog Function

structure At (S : Nat → Superblock) (L : IRef → Bool) (s : Kernel) : Prop where
  ok : s.Consistent
  sb : ∀ dev, (s.disk dev).sb = S dev
  locked : s.locked = L

def Sane {α : Type} (S : Nat → Superblock) (L L' : IRef → Bool) (Q : α → Prop) (p : K α) : Prop :=
  ∀ s a s', At S L s → p.exec s = .ok a s' → At S L' s' ∧ Q a

section

variable {α β : Type} {S : Nat → Superblock} {L L' M : IRef → Bool} {r : IRef} {Q : α → Prop} {R : β → Prop}

theorem Kernel.Consistent.cached {s} (h : s.Consistent) (hl : s.locked r = true) : ∃ ip, Cached s r ip := by
  cases hr : s.icache r with
  | none => simp [Kernel.locked_none hr] at hl
  | some ip => rw [Kernel.locked_eq hr] at hl; exact ⟨ip, hr, (h.at hr).loaded r.inum ip hr hl⟩

theorem At.ilock {q : Unit → K α} {s s' : Kernel} {a : α} (hs : At S L s) (hneeds : ∀ u, Needs r (q u))
    (h : (ilock r >>= q).exec s = .ok a s') :
    L r = false ∧ ∃ u s1, At S (update L r true) s1 ∧ (q u).exec s1 = .ok a s' := by
  obtain ⟨u, s1, h1, h2⟩ := bind_ok h
  obtain ⟨hn, -⟩ | ⟨hr, hl⟩ := ilock_locked h1
  · exact absurd h2 (hneeds u _ _ _ hn)
  rw [hs.locked] at hr hl
  refine ⟨hr, u, s1, ⟨hs.ok.ilock h1, fun dev => ?_, hl⟩, h2⟩
  rw [keeps_sb plain_frames.ilock h1, hs.sb]

namespace Sane

variable {p : K α}

theorem bind {q} (hp : Sane S L M Q p) (hq : ∀ a, Q a → Sane S M L' R (q a)) : Sane S L L' R (p >>= q) := by
  intro s b s' hs h
  obtain ⟨a, s1, h1, h2⟩ := bind_ok h
  obtain ⟨hs1, ha⟩ := hp s a s1 hs h1
  exact hq a ha s1 b s' hs1 h2

theorem of (hok : ∀ s a s', At S L s → p.exec s = .ok a s' → s'.Consistent) (hsb : Keeps Kernel.frames p)
    (hl : Takes L L' p) : Sane S L L' (fun _ => True) p :=
  fun s a s' hs he => ⟨⟨hok s a s' hs he, fun dev => (keeps_sb hsb he dev).trans (hs.sb dev),
    hl s a s' hs.locked he⟩, trivial⟩

theorem pure {a} (ha : Q a) : Sane S L L Q (Pure.pure a : K α) := fun s b s' hs h => by
  cases h
  exact ⟨hs, ha⟩

theorem panic (msg) : Sane S L L' Q (panic msg : K α) := fun s b s' _ h => by
  simp [exec_panic] at h

theorem onlyIf {c} [Decidable c] {p} (hp : Sane S L L (fun _ => True) p) : Sane S L L (fun _ => True) (onlyIf c p) := by
  unfold Xv6Vsd.onlyIf
  split
  · exact hp
  · exact pure trivial

theorem peek (f : Kernel → α) : Sane S L L (fun _ => True) (peek f) := fun s a s' hs h => by
  rw [exec_peek] at h; cases h
  exact ⟨hs, trivial⟩

theorem modProc (p) (f : Proc → Proc) : Sane S L L (fun _ => True) (modProc p f) := fun s a s' hs h => by
  rw [Xv6Vsd.modProc, exec_poke] at h; cases h
  exact ⟨⟨hs.ok.of_same rfl rfl rfl, hs.sb, hs.locked⟩, trivial⟩

theorem seterr (p msg) : Sane S L L (fun _ => True) (seterr p msg) := modProc p _

theorem inode (r : IRef) : Sane S L L (fun _ => r.inum < (S r.dev).ninodes) (inode r) := fun s a s' hs h => by
  obtain ⟨rfl, hip⟩ := inode_ok h
  refine ⟨hs, ?_⟩
  rw [← hs.sb]
  exact (hs.ok.at hip).refs r.inum a hip

theorem of_locked (hr : L r = true) (hp : r.inum < (S r.dev).ninodes → Sane S L L' Q p) :
    Sane S L L' Q p := fun s a s' hs he => by
  obtain ⟨ip, hc⟩ := hs.ok.cached (by rw [hs.locked]; exact hr)
  have hlt := (hs.ok.at hc.entry).refs r.inum ip hc.entry
  rw [hs.sb] at hlt
  exact hp hlt s a s' hs he

/-! ## The log -/

theorem onLog {dev : Nat} {p : Prog Disk LogEv α} (hp : Keeps Disk.sb p)
    (hok : ∀ s a s', s.Consistent → (onLog dev p).exec s = .ok a s' → s'.Consistent) :
    Sane S L L (fun _ => True) (onLog dev p) := fun s a s' hs he => by
  refine ⟨⟨hok s a s' hs.ok he, fun dev' => ?_, (onLog_locked he).trans hs.locked⟩, trivial⟩
  obtain ⟨d, hd, rfl⟩ := onLog_ok he
  by_cases hdev : dev' = dev
  · subst hdev; rw [Kernel.setDisk_disk_self, hp.exec hd, hs.sb]
  · rw [Kernel.setDisk_disk_of_ne _ _ hdev, hs.sb]

theorem beginOp (dev) : Sane S L L (fun _ => True) (beginOp dev) := by
  refine onLog (keeps_act fun d _ d' h => ?_) fun s a s' h he => h.beginOp he
  obtain ⟨-, rfl⟩ | ⟨-, -, -, rfl⟩ := Disk.beginOp_ok h <;> rfl

theorem endOp (dev) : Sane S L L (fun _ => True) (endOp dev) := by
  refine onLog ?_ fun s a s' h he => h.endOp he
  refine Made.bind (keeps_act fun d _ d' h => ?_) fun c => ?_
  · obtain ⟨-, -, rfl⟩ | ⟨-, -, -, -, rfl⟩ | ⟨-, -, -, -, rfl⟩ := Disk.endOpLocked_ok h <;> rfl
  split
  · exact (Log.keeps_commit (fun _ _ _ => rfl) fun _ _ => rfl).bind fun _ => keeps_act fun d _ d' h => by cases h; rfl
  · exact made_ret ()

/-! ## Inodes -/

theorem namex (p path parent direct) : Sane S L L (fun _ => True) (namex p path parent direct) :=
  of (fun _ _ _ hs he => namex_keep hs.ok he) plain_frames.namex fun _ _ _ hs he => (namex_locked he).trans hs

theorem nameiDirect (p path) : Sane S L L (fun _ => True) (nameiDirect p path) :=
  (namex p path false true).bind fun _ _ => pure trivial

theorem iunlock : Sane S L (update L r false) (fun _ => True) (iunlock r) :=
  of (fun _ _ _ hs he => hs.ok.iunlock he) (plain_frames.unlock r) takes_iunlock

theorem iunlockput : Sane S L (update L r false) (fun _ => True) (iunlockput r) :=
  of (fun _ _ _ hs he => hs.ok.iunlockput1 he) plain_frames.iunlockput1 takes_iunlockput

theorem iput (hr : L r = false) : Sane S L L (fun _ => True) (iput r) :=
  of (fun _ _ _ hs he => hs.ok.iput1 he) plain_frames.iput1 (takes_iput hr)

theorem ilock {q : Unit → K α} (hneeds : ∀ u, Needs r (q u))
    (hq : L r = false → ∀ u, Sane S (update L r true) L' Q (q u)) : Sane S L L' Q (ilock r >>= q) := by
  intro s a s' hs h
  obtain ⟨hr, u, s1, hs1, h2⟩ := hs.ilock hneeds h
  exact hq hr u s1 a s' hs1 h2

theorem modDin {f} (hf : Mild f) : Sane S L L (fun _ => True) (modDin r f) :=
  of (fun _ _ _ hs he => hs.ok.modDin hf he) quiet_frames.din (keeps_takes quiet_locked.din)

theorem iupdate (hr : L r = true) : Sane S L L (fun _ => True) (iupdate r) := by
  refine of (fun s _ _ hs he => ?_) quiet_frames.iupdate1 (keeps_takes quiet_locked.iupdate1)
  obtain ⟨ip, hc⟩ := hs.ok.cached (r := r) (by rw [hs.locked]; exact hr)
  exact hs.ok.iupdate1 hc he

theorem update {f q} (hr : L r = true) (hf : Mild f) (hq : ∀ u, Sane S L L' Q (q u)) :
    Sane S L L' Q (Xv6Vsd.modDin r f >>= fun _ => Xv6Vsd.iupdate r >>= q) :=
  (modDin hf).bind fun _ _ => (iupdate hr).bind fun u _ => hq u

theorem dirlookup (hr : L r = true) (name : List UInt8) : Sane S L L
    (fun a => ∀ ip o, a = some (ip, o) → o % 16 = 0) (dirlookup r name) := by
  intro s a s' hs he
  obtain ⟨ip, hc⟩ := hs.ok.cached (r := r) (by rw [hs.locked]; exact hr)
  obtain ⟨hok, -, ho⟩ := dirlookup_keep hs.ok hc he
  exact ⟨⟨hok, fun dev => (keeps_sb plain_frames.dirlookup he dev).trans (hs.sb dev),
    (held_dirlookup r name).takes hr s a s' hs.locked he⟩, ho⟩

theorem dirlink (hr : L r = true) (name : List UInt8) {inum} (hlt : inum < (S r.dev).ninodes) :
    Sane S L L (fun _ => True) (dirlink r name inum) := by
  refine of (fun s _ _ hs he => ?_) plain_frames.dirlink ((held_dirlink r name inum).takes hr)
  obtain ⟨ip, hc⟩ := hs.ok.cached (r := r) (by rw [hs.locked]; exact hr)
  exact dirlink_keep hs.ok hc (by rw [hs.sb]; exact hlt) he

theorem ialloc (dev type) : Sane S L L
    (fun a => ∀ ip, a = some ip → ip.dev = dev ∧ ip.inum < (S dev).ninodes) (ialloc dev type) := by
  intro s a s' hs he
  refine ⟨⟨hs.ok.ialloc he, fun dev' => (keeps_sb quiet_frames.ialloc he dev').trans (hs.sb dev'),
    keeps_takes quiet_locked.ialloc s a s' hs.locked he⟩, fun ip hip => ?_⟩
  subst hip
  obtain ⟨ha, -⟩ | ⟨i, ha, -, hlt, -⟩ := ialloc_ok he
  · cases ha
  · cases ha; rw [hs.sb] at hlt; exact ⟨rfl, hlt⟩

end Sane

/-! ## Routines that may leave anything locked -/

def Safe (S : Nat → Superblock) (L : IRef → Bool) (p : K α) : Prop :=
  ∀ s a s', At S L s → p.exec s = .ok a s' → s'.Consistent

theorem Sane.safe {p} (hp : Sane S L L' Q p) : Safe S L p := fun s a s' hs he => (hp s a s' hs he).1.ok

theorem Sane.then {p : K α} {q : α → K β} (hp : Sane S L M Q p) (hq : ∀ a, Q a → Safe S M (q a)) :
    Safe S L (p >>= q) := by
  intro s b s' hs h
  obtain ⟨a, s1, h1, h2⟩ := bind_ok h
  obtain ⟨hs1, ha⟩ := hp s a s1 hs h1
  exact hq a ha s1 b s' hs1 h2

theorem safe_pure (a : α) : Safe S L (Pure.pure a : K α) := Sane.safe (Q := fun _ => True) (.pure trivial)

theorem safe_ilock {q : Unit → K α} (hneeds : ∀ u, Needs r (q u))
    (hq : L r = false → ∀ u, Safe S (update L r true) (q u)) : Safe S L (ilock r >>= q) := by
  intro s a s' hs h
  obtain ⟨hr, u, s1, hs1, h2⟩ := hs.ilock hneeds h
  exact hq hr u s1 a s' hs1 h2

end

end Xv6Vsd
