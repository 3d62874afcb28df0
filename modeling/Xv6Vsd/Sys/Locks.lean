import Xv6Vsd.Sys.Lemmas.Locked
import Xv6Vsd.Sys.Lemmas.Ops
import Xv6Vsd.Sys.Outcome

/-!
# Which inodes a system call leaves locked

`create` returns with the parent locked when it finds no inode or cannot make the entries of a
directory, `sys_unlink` with the file locked when the caller may not remove it, and `chroot` with the
new root locked whenever it succeeds.
-/

namespace Xv6Vsd

open Prog Function Kernel

def Stuck (p : Nat) (path : Path) (type major minor : Int16) (s : Kernel) : Prop :=
  ∃ dev, NoInode p path s dev ∨ NoDots p path type major minor s dev

/-- The path names a file, not by "." or "..", that process `p` may not remove. -/
def Denied (p : Nat) (path : Path) (s : Kernel) : Prop :=
  ∃ dp name ip off s', Looks p path s dp name (some (ip, off)) s' ∧
    (namecmp name dot || namecmp name dotdot) = false ∧ checkinodeperm s' p (s'.din ip) .unlink ≠ 0

def Jails (p : Nat) (path : Path) (s : Kernel) : Prop :=
  (s.proc p).injail = false ∧ (s.proc p).uid = -1 ∧ path.head? = some slash ∧ path.length + 1 < 122 ∧
    ∃ rp s', (nameiDirect p path).exec s = .ok (some rp) s' ∧ rp.inum ≠ s'.rootdir.inum ∧ (s'.din rp).type = tDir

/-- The path names a directory, and somebody has the current directory locked without a reference
to it. -/
def Strays (p : Nat) (path : Path) (s : Kernel) : Prop :=
  ∃ ip cwd s', (nameiDirect p path).exec s = .ok (some ip) s' ∧ (s'.din ip).type = tDir ∧
    (s'.proc p).cwd = some cwd ∧ ¬ s'.Loose cwd

/-- The call returns with an inode locked that was not locked before, or the other way round. -/
def Call.LeavesLocks (p : Nat) (s : Kernel) : Call → Prop
  | .open (some path) (some omode) => omode &&& oCreate ≠ 0 ∧ Stuck p path tFile 0 0 s
  | .mkdir (some path) _ => Stuck p path tDir 0 0 s
  | .mknod (some path) (some major) (some minor) _ =>
    (s.proc p).uid ≤ -1 ∧ Stuck p path tDev major.toInt16 minor.toInt16 s
  | .unlink (some path) => Denied p path s
  | .chdir (some path) _ => Strays p path s
  | .chroot (some path) => Jails p path s
  | _ => False

/-! ## Rules -/

section

variable {α β : Type} {L L' M : IRef → Bool} {r : IRef}

def Takes (L L' : IRef → Bool) (p : K α) : Prop := ∀ s a s', s.locked = L → p.exec s = .ok a s' → s'.locked = L'

def Needs (r : IRef) (p : K α) : Prop := ∀ s a s', s.icache r = none → p.exec s ≠ .ok a s'

theorem Takes.bind {p} {q : α → K β} (hp : Takes L M p) (hq : ∀ a, Takes M L' (q a)) : Takes L L' (p >>= q) := by
  intro s b s' hs h
  obtain ⟨a, s1, h1, h2⟩ := bind_ok h
  exact hq a s1 b s' (hp s a s1 hs h1) h2

theorem takes_pure (a : α) : Takes L L (pure a : K α) := fun s b s' hs h => by cases h; exact hs

theorem takes_panic (msg : String) : Takes L L' (panic msg : K α) := fun s b s' _ h => by
  simp [exec_panic] at h

theorem keeps_takes {p : K α} (hp : Keeps Kernel.locked p) : Takes L L p := fun s a s' hs h => by
  rw [hp.exec h, hs]

theorem Held.takes {p : K α} (hp : Held r p) (hr : L r = true) : Takes L L p := fun s a s' hs h => by
  rw [hp s a s' (by rw [hs]; exact hr) h, hs]

theorem takes_seterr (p : Nat) (msg : String) : Takes L L (seterr p msg) := keeps_takes (keeps_locked_modProc p _)

theorem takes_modProc (p : Nat) (f : Proc → Proc) : Takes L L (modProc p f) := keeps_takes (keeps_locked_modProc p f)

theorem takes_iunlockput : Takes L (update L r false) (iunlockput r) := fun s a s' hs h => by
  rw [iunlockput1_locked h, hs]

theorem takes_put (hr : L r = false) : Takes (update L r true) L (iunlockput r) := fun s a s' hs h => by
  rw [takes_iunlockput s a s' hs h, update_unlock hr]

theorem takes_iunlock : Takes L (update L r false) (iunlock r) := fun s a s' hs h => by
  rw [iunlock_locked h, hs]

theorem takes_unlock (hr : L r = false) : Takes (update L r true) L (iunlock r) := fun s a s' hs h => by
  rw [takes_iunlock s a s' hs h, update_unlock hr]

theorem takes_put_first {ip} (hr : L r = false) (hne : ip ≠ r) :
    Takes (update (update L r true) ip true) (update L ip true) (iunlockput r) := fun s a s' hs h => by
  rw [takes_iunlockput s a s' hs h, update_unlock_first hr hne]

theorem takes_iput (hr : L r = false) : Takes L L (iput r) := fun s a s' hs h => by
  rw [iput1_loose (loose_of_unlocked (by rw [hs]; exact hr)) h, hs]

variable {dev p : Nat} {q : Unit → K α} {msg : String} {v : α}

theorem onLog_locked {p : Prog Disk LogEv α} {s s' : Kernel} {a : α} (h : (onLog dev p).exec s = .ok a s') :
    s'.locked = s.locked := by
  obtain ⟨d, -, rfl⟩ := onLog_ok h
  exact locked_of_icache rfl

theorem takes_onLog {p : Prog Disk LogEv α} : Takes L L (onLog dev p) := fun s a s' hs h => by
  rw [onLog_locked h, hs]

theorem takes_ilock (hneeds : ∀ u, Needs r (q u)) (hq : L r = false → ∀ u, Takes (update L r true) L' (q u)) :
    Takes L L' (ilock r >>= q) := by
  intro s a s' hs h
  obtain ⟨u, s1, h1, h2⟩ := bind_ok h
  obtain ⟨hn, -⟩ | ⟨hr, hl⟩ := ilock_locked h1
  · exact absurd h2 (hneeds u _ _ _ hn)
  · rw [hs] at hr hl; exact hq hr u _ _ _ hl h2

theorem Needs.bind {p} {q : α → K β} (hp : Needs r p) : Needs r (p >>= q) := by
  intro s b s' hn h
  obtain ⟨a, s1, h1, -⟩ := bind_ok h
  exact hp s a s1 hn h1

theorem needs_inode {q : Inode → K α} : Needs r (inode r >>= q) := fun _ _ _ hn => inode_trap hn

theorem needs_modDin {f} : Needs r (modDin r f) := by
  intro s a s' hn h
  obtain ⟨ip, hip, -⟩ := modDin_ok h
  simp [hip] at hn

theorem needs_peek {f : Kernel → α} {q : α → K β} (hq : ∀ a, Needs r (q a)) : Needs r (peek f >>= q) := by
  intro s a s' hn h
  have h2 := peek_bind h
  exact hq _ _ _ _ hn h2

theorem needs_seterr (hq : ∀ u, Needs r (q u)) : Needs r (seterr p msg >>= q) := by
  intro s a s' hn h
  obtain ⟨u, s1, h1, h2⟩ := bind_ok h
  rw [seterr, modProc, exec_poke] at h1; cases h1
  exact hq () _ a s' (show (s.setProc p _).icache r = none from hn) h2

theorem needs_iunlockput : Needs r (iunlockput r) := by
  intro s a s' hn h
  obtain ⟨_, s2, h2, h3⟩ := bind_ok h
  rw [iunlock_none hn] at h2; cases h2
  obtain ⟨ip, hip, -⟩ := iput1_ok h3
  rw [hip] at hn; cases hn

theorem needs_dirlookup {name} : Needs r (dirlookup r name) := needs_inode

theorem needs_dirlink {name inum} : Needs r (dirlink r name inum) := needs_dirlookup.bind

theorem takes_update {f : Dinode → Dinode} (hq : ∀ u, Takes L L' (q u)) :
    Takes L L' (modDin r f >>= fun _ => iupdate r >>= q) :=
  (keeps_takes quiet_locked.din).bind fun _ => (keeps_takes quiet_locked.iupdate1).bind hq

theorem takes_leave (hr : L r = false) : Takes (update L r true) L
    (iunlockput r >>= fun _ => endOp dev >>= fun _ => (pure v : K α)) :=
  (takes_put hr).bind fun _ => takes_onLog.bind fun _ => takes_pure v

theorem takes_nameiDirect {path} : Takes L L (nameiDirect p path) := fun s a s' hs h => by
  rw [nameiDirect_locked h, hs]

theorem takes_fail : Takes L L (seterr p msg >>= fun _ => (pure v : K α)) :=
  (takes_seterr p msg).bind fun _ => takes_pure v

theorem takes_leave_seterr (hr : L r = false) :
    Takes (update L r true) L (iunlockput r >>= fun _ => endOp dev >>= fun _ =>
      seterr p msg >>= fun _ => (pure v : K α)) :=
  (takes_put hr).bind fun _ => takes_onLog.bind fun _ => takes_fail

end

/-! ## Calls that unlock what they lock -/

section

variable {L : IRef → Bool}
variable {p : Nat}

theorem takes_sysChperms {fname rmode perms} : Takes L L (sysChperms p fname rmode perms) := by
  unfold sysChperms
  split
  · refine takes_nameiDirect.bind fun o => ?_
    cases o with
    | none => exact takes_fail
    | some ip =>
      refine takes_onLog.bind fun _ => takes_ilock (fun _ => needs_inode) fun hip _ =>
        (keeps_takes quiet_locked.inode).bind fun x => ?_
      split
      · exact takes_leave hip
      split
      · refine (keeps_takes quiet_locked.peek).bind fun denied => ?_
        split
        · exact (takes_seterr p _).bind fun _ => takes_leave hip
        · exact takes_update fun _ => takes_leave hip
      · exact takes_leave_seterr hip
  · exact takes_pure _

theorem takes_exec {path : Path} {vm : Vm} : Takes L L (exec p path vm) := by
  refine (keeps_takes quiet_locked.peek).bind fun x => ?_
  split
  · exact takes_fail
  refine takes_nameiDirect.bind fun o => ?_
  cases o with
  | none => exact takes_fail
  | some ip =>
    have himage := (steady_held ip).loadImage (fun _ _ => (flow_held ip).readi) p vm
    exact takes_onLog.bind fun _ => takes_ilock (fun _ => Needs.bind needs_inode) fun hip _ =>
      (himage.takes (update_self ..)).bind fun loaded => takes_leave hip

theorem takes_link_bad {ip} : Takes L L (sysLink.bad ip) :=
  takes_ilock (fun _ => needs_modDin.bind) fun hip _ => takes_update fun _ => takes_leave hip

theorem takes_sysLink {old new} : Takes L L (sysLink p old new) := by
  unfold sysLink
  split
  · rename_i old new
    refine takes_nameiDirect.bind fun o => ?_
    cases o with
    | none => exact takes_fail
    | some ip =>
      refine takes_onLog.bind fun _ => takes_ilock (fun _ => needs_inode) fun hip _ =>
        (keeps_takes quiet_locked.inode).bind fun x => ?_
      split
      · exact takes_leave_seterr hip
      refine takes_update fun _ => (takes_unlock hip).bind fun _ =>
        Takes.bind (M := L) (fun s a s' hs h => by rw [namex_locked h, hs]) fun found => ?_
      obtain ⟨o, name⟩ := found
      cases o with
      | none => exact (takes_seterr p _).bind fun _ => takes_link_bad
      | some dp =>
        refine takes_ilock (fun _ => ?_) fun hdp _ => ?_
        · by_cases hdev : dp.dev ≠ ip.dev
          · simp only [if_pos hdev]; exact needs_iunlockput.bind
          · simp only [if_neg hdev]; exact needs_dirlink.bind
        have hlink : Takes (update L dp true) (update L dp true)
          (if dp.dev ≠ ip.dev then pure (-1) else dirlink dp name ip.inum) := by
          split
          · exact takes_pure _
          · exact (held_dirlink dp name ip.inum).takes (update_self ..)
        refine hlink.bind fun linked => ?_
        split
        · exact (takes_put hdp).bind fun _ => (takes_seterr p _).bind fun _ => takes_link_bad
        · exact (takes_put hdp).bind fun _ => (takes_iput hip).bind fun _ => takes_onLog.bind fun _ => takes_pure 0
  · exact takes_pure _

/-! ## Creation -/

section

variable {p : Nat} {path : Path} {type major minor : Int16} {s s' : Kernel}
variable {dp ip : IRef} {t : Kernel} {a : Option IRef} {v : Int}

theorem Looks.locked {name : List UInt8} {found : Option (IRef × Nat)} (h : Looks p path s dp name found t) :
    s.locked dp = false ∧ t.locked = update s.locked dp true := by
  obtain ⟨s1, s2, s3, h1, h2, h3, h4⟩ := h
  have hs : s2.locked = s.locked := by rw [onLog_locked h2, namex_locked h1]
  obtain ⟨hn, -⟩ | ⟨hr, hl⟩ := ilock_locked h3
  · exact absurd h4 (inode_trap hn)
  rw [hs] at hr hl
  refine ⟨hr, ?_⟩
  rw [held_dirlookup dp name _ _ _ (by rw [hl, update_self]) h4, hl]

theorem newInode_locked {dev : Nat} (h : (newInode p dev type major minor).exec s = .ok (some ip) s') :
    s.locked ip = false ∧ s'.locked = update s.locked ip true := by
  obtain ⟨o, s1, h1, h2⟩ := bind_ok h
  have hs : s1.locked = s.locked := Keeps.exec quiet_locked.ialloc h1
  cases o with
  | none => cases h2
  | some r =>
    obtain ⟨_, s2, h3, h4⟩ := bind_ok h2
    obtain ⟨hn, -⟩ | ⟨hr, hl⟩ := ilock_locked h3
    · exact absurd h4 (needs_peek (fun _ => needs_modDin.bind) _ _ _ hn)
    rw [hs] at hr hl
    have hl' := ((keeps_takes quiet_locked.peek).bind fun _ => takes_update fun _ => takes_pure _) _ _ _ hl h4
    obtain ⟨_, s3, -, h5⟩ := bind_ok h4
    obtain ⟨_, s4, -, h6⟩ := bind_ok h5
    obtain ⟨_, s5, -, h7⟩ := bind_ok h6
    cases h7
    exact ⟨hr, hl'⟩

theorem mkdots_locked {b} (hip : s.locked ip = true) (h : (mkdots dp ip).exec s = .ok b s') :
    s'.locked = s.locked := by
  have hlink : ∀ name inum, Held ip (dirlink ip name inum) := held_dirlink ip
  refine (?_ : Takes s.locked s.locked (mkdots dp ip)) s b s' rfl h
  refine takes_update fun _ => ((hlink _ _).takes hip).bind fun n => ?_
  split
  · exact takes_pure _
  · exact ((hlink _ _).takes hip).bind fun _ => takes_pure _

/-- From `s` to `s'` the inode `a` was locked for the caller, or something is left locked if `P`. -/
def Locks (P : Prop) (s : Kernel) (a : Option IRef) (s' : Kernel) : Prop := (P ∧ a = none ∧ s'.locked ≠ s.locked) ∨
    (¬ P ∧ match a with
      | some ip => s.locked ip = false ∧ s'.locked = Function.update s.locked ip true
      | none => s'.locked = s.locked)

theorem Looks.reopen {name off t1 t2 u u'}
    (h : Looks p path s dp name (some (ip, off)) t) (hput : (iunlockput dp).exec t = .ok u t1)
    (hlock : (ilock ip).exec t1 = .ok u' t2) (hin : t2.icache ip ≠ none) :
    ¬ Stuck p path type major minor s ∧ s.locked ip = false ∧ t2.locked = update s.locked ip true := by
  obtain ⟨hdp, ht⟩ := h.locked
  have ht1 : t1.locked = s.locked := by rw [iunlockput1_locked hput, ht, update_unlock hdp]
  refine ⟨fun ⟨dev, hr⟩ => hr.elim (h.not_noInode dev) (h.not_noDots dev), ?_⟩
  obtain ⟨hn, -⟩ | ⟨hr, hl⟩ := ilock_locked hlock
  · exact absurd hn hin
  · rw [ht1] at hr hl; exact ⟨hr, hl⟩

theorem locks_create (h : CreateEnds p path type major minor s a s') :
    Locks (Stuck p path type major minor s) s a s' := by
  cases h with
  | orphan hparent =>
    refine .inr ⟨fun ⟨dev, hr⟩ => ?_, namex_locked hparent⟩
    have : ∃ dp name found t, Looks p path s dp name found t := by
      rcases hr with ⟨_, _, _, h, -⟩ | ⟨-, _, _, _, _, _, _, h, -⟩
      · exact ⟨_, _, _, _, h⟩
      · exact ⟨_, _, _, _, h⟩
    obtain ⟨_, _, _, _, _, _, _, hp, -⟩ := this
    rw [hparent] at hp; cases hp
  | opened hlook _ hput hlock hin => exact .inr (hlook.reopen hput hlock hin)
  | taken hlook _ hput hlock hin hput' =>
    obtain ⟨hnot, hr, hl⟩ := hlook.reopen hput hlock hin
    exact .inr ⟨hnot, takes_put hr _ _ _ hl hput'⟩
  | @full dp name t t1 _ hlook hfull halloc herr =>
    obtain ⟨hdp, ht⟩ := hlook.locked
    refine .inl ⟨⟨dp.dev, .inl ⟨dp, name, t, hlook, rfl, hfull⟩⟩, rfl, fun hc => ?_⟩
    have hl : s'.locked = t.locked := by
      rw [Keeps.exec (keeps_locked_modProc p _) herr, Keeps.exec quiet_locked.ialloc halloc]
    rw [← hc, hl, ht, update_self] at hdp; cases hdp
  | @dotless dp ip name t t1 t2 _ hlook htype hnew hdots herr =>
    obtain ⟨hdp, ht⟩ := hlook.locked
    obtain ⟨hip, hl⟩ := newInode_locked hnew
    have hl2 := mkdots_locked (by rw [hl, update_self]) hdots
    refine .inl ⟨⟨dp.dev, .inr ⟨htype, dp, name, ip, t, t1, t2, hlook, rfl, hnew, hdots⟩⟩, rfl, fun hc => ?_⟩
    have hl3 : s'.locked = update t.locked ip true := by
      rw [Keeps.exec (keeps_locked_modProc p _) herr, hl2, hl]
    have hne : dp ≠ ip := fun he => by
      rw [← he, ht, update_self] at hip; cases hip
    rw [← hc, hl3, update_of_ne hne, ht, update_self] at hdp; cases hdp
  | @made dp ip name n t t1 t2 t3 _ hlook hdev hfree hnew hdots hlink hput =>
    obtain ⟨hdp, ht⟩ := hlook.locked
    obtain ⟨hip, hl⟩ := newInode_locked hnew
    have hne : ip ≠ dp := fun he => by
      rw [he, ht, update_self] at hip; cases hip
    have hl2 : t2.locked = t1.locked := by
      obtain ⟨-, hdots⟩ | ⟨-, rfl⟩ := hdots
      · exact mkdots_locked (by rw [hl, update_self]) hdots
      · rfl
    have hl1 : t1.locked = update (update s.locked dp true) ip true := by rw [hl, ht]
    have hheld : t2.locked dp = true := by rw [hl2, hl1, update_of_ne hne.symm, update_self]
    refine .inr ⟨fun ⟨dev, hr⟩ => ?_, ?_, ?_⟩
    · rcases hr with ⟨_, _, _, hk, rfl, hf⟩ | ⟨htype, _, _, _, _, _, _, hk, rfl, hn, hd⟩
      · obtain ⟨rfl, -, -, rfl⟩ := hlook.unique hk; exact hfree hf
      obtain ⟨rfl, -, -, rfl⟩ := hlook.unique hk
      rw [hnew] at hn; cases hn
      obtain ⟨-, hdots⟩ | ⟨hne, -⟩ := hdots
      · rw [hd] at hdots; cases hdots
      · exact hne htype
    · rwa [ht, update_of_ne hne] at hip
    · rw [iunlockput1_locked hput, held_dirlink dp name ip.inum _ _ _ hheld hlink, hl2, hl1,
        update_unlock_first hdp hne]

theorem Locks.iff {P : Prop} (h : Locks P s a t) {q : K Int} (hnone : a = none → ∀ L, Takes L L q)
    (hsome : ∀ ip, a = some ip → ∀ L, L ip = false → Takes (update L ip true) L q) (hq : q.exec t = .ok v s') :
    s'.locked = s.locked ↔ ¬ P := by
  obtain ⟨hP, rfl, hne⟩ | ⟨hP, hl⟩ := h
  · have := hnone rfl t.locked t v s' rfl hq
    exact ⟨fun he => absurd (this.symm.trans he) hne, fun hn => absurd hP hn⟩
  refine ⟨fun _ => hP, fun _ => ?_⟩
  cases a with
  | none => exact hnone rfl s.locked t v s' hl hq
  | some ip => exact hsome ip rfl s.locked hl.1 t v s' hl.2 hq

theorem takes_openFile {omode : UInt32} (hip : L ip = false) : Takes (update L ip true) L (openFile p ip omode) := by
  have hfull : Takes (update L ip true) L (openFile.full p ip) := takes_leave_seterr hip
  intro s v s' hs h
  obtain ⟨o, s1, h1, h2⟩ := bind_ok h
  obtain ⟨-, hi1, hf⟩ := filealloc_ok h1
  have hs1 : s1.locked = update L ip true := by rw [locked_of_icache hi1, hs]
  cases o with
  | none => exact hfull _ _ _ hs1 h2
  | some f =>
    obtain ⟨fd, s2, h3, h4⟩ := bind_ok h2
    obtain ⟨-, hi2, hf2⟩ := fdalloc_ok h3
    have hs2 : s2.locked = update L ip true := by rw [locked_of_icache hi2, hs1]
    cases fd with
    | none =>
      obtain ⟨_, s3, h5, h6⟩ := bind_ok h4
      have hi3 := (fileclose_fresh (by rw [hf2]; exact hf f rfl) rfl h5).2
      exact hfull _ _ _ (by rw [locked_of_icache hi3, hs2]) h6
    | some fd =>
      refine ((takes_unlock hip).bind fun _ => takes_onLog.bind fun _ =>
        (keeps_takes quiet_locked.inode).bind fun y => ?_) _ _ _ hs2 h4
      exact (keeps_takes (keeps_locked_poke fun s => s.setFile_icache f _)).bind fun _ => takes_pure _

theorem locks_openInode {omode : UInt32} (h : (openInode p path omode).exec s = .ok a s') :
    Locks (Call.LeavesLocks p s (.open (some path) (some omode))) s a s' := by
  unfold openInode at h
  by_cases hc : omode &&& oCreate ≠ 0
  · have hP : Call.LeavesLocks p s (.open (some path) (some omode)) = Stuck p path tFile 0 0 s :=
      propext ⟨fun hu => hu.2, fun hu => ⟨hc, hu⟩⟩
    rw [hP]
    rw [if_pos hc] at h
    obtain ⟨o, s1, h1, h2⟩ := bind_ok h
    have ho := locks_create (create_ends h1)
    cases o with
    | none =>
      obtain ⟨_, s2, h3, h4⟩ := bind_ok h2
      cases h4
      simpa only [Locks, Keeps.exec (keeps_locked_modProc p _) h3] using ho
    | some ip => cases h2; exact ho
  · rw [if_neg hc] at h
    refine .inr ⟨fun hu => hc hu.1, ?_⟩
    obtain ⟨o, s1, h1, h2⟩ := bind_ok h
    have hs1 := nameiDirect_locked h1
    cases o with
    | none =>
      obtain ⟨_, s2, h3, h4⟩ := bind_ok h2
      cases h4
      exact (Keeps.exec (keeps_locked_modProc p _) h3).trans hs1
    | some ip =>
      obtain ⟨_, s2, h3, h4⟩ := bind_ok h2
      obtain ⟨_, s3, h5, h6⟩ := bind_ok h4
      obtain ⟨hn, -⟩ | ⟨hip, hl⟩ := ilock_locked h5
      · exact absurd h6 (inode_trap hn)
      rw [onLog_locked h3, hs1] at hip hl
      obtain ⟨x, -, h8⟩ := inode_bind h6
      have h10 := peek_bind h8
      split at h10
      · obtain ⟨_, t1, e1, h10⟩ := bind_ok h10
        obtain ⟨_, t2, e2, h10⟩ := bind_ok h10
        obtain ⟨_, t3, e3, h10⟩ := bind_ok h10
        cases h10
        show s'.locked = s.locked
        rw [onLog_locked e3, iunlockput1_locked e2, Keeps.exec (keeps_locked_modProc p _) e1, hl, update_unlock hip]
      split at h10
      · obtain ⟨_, t1, e1, h10⟩ := bind_ok h10
        obtain ⟨_, t2, e2, h10⟩ := bind_ok h10
        obtain ⟨_, t3, e3, h10⟩ := bind_ok h10
        cases h10
        show s'.locked = s.locked
        rw [Keeps.exec (keeps_locked_modProc p _) e3, onLog_locked e2, iunlockput1_locked e1, hl, update_unlock hip]
      · cases h10; exact ⟨hip, hl⟩

/-! ## Removal -/

theorem takes_erase {off : Nat} (hdp : L dp = false) (hip : L ip = false) (hne : ip ≠ dp) :
    Takes (update (update L dp true) ip true) L (sysUnlink.erase dp ip off) := by
  have hheld : update (update L dp true) ip true dp = true := by
    rw [update_of_ne hne.symm, update_self]
  refine ((flow_held dp).writei.takes hheld).bind fun n => ?_
  split
  · exact takes_panic _
  refine (keeps_takes quiet_locked.inode).bind fun x => Takes.bind (keeps_takes (made_onlyIf ?_))
    fun _ => (takes_put_first hdp hne).bind fun _ => takes_update fun _ => takes_leave hip
  exact quiet_locked.din.bind fun _ => quiet_locked.iupdate1

theorem sysUnlink_locked (h : (sysUnlink p (some path)).exec s = .ok v s') :
    s'.locked = s.locked ↔ ¬ Denied p path s := by
  obtain ⟨⟨o, name⟩, s1, h1, h2⟩ := bind_ok h
  have hs1 := namex_locked h1
  cases o with
  | none =>
    refine ⟨fun _ hd => ?_, fun _ => (takes_fail _ _ _ rfl h2).trans hs1⟩
    obtain ⟨_, _, _, _, _, ⟨_, _, _, hp, -⟩, -⟩ := hd
    rw [h1] at hp; cases hp
  | some dp =>
    obtain ⟨_, s2, h3, h4⟩ := bind_ok h2
    obtain ⟨_, s3, h5, h6⟩ := bind_ok h4
    have hbad : ∀ {L : IRef → Bool}, L dp = false →
      Takes (update L dp true) L (sysUnlink.bad dp) := fun hdp => takes_leave hdp
    by_cases hname : (namecmp name dot || namecmp name dotdot) = true
    · rw [if_pos hname] at h6
      obtain ⟨_, s4, h7, h8⟩ := bind_ok h6
      have hs2 : s2.locked = s.locked := by rw [onLog_locked h3, hs1]
      refine ⟨fun _ hd => ?_, fun _ => ?_⟩
      · obtain ⟨_, _, _, _, _, ⟨_, _, _, hp, -⟩, hn, -⟩ := hd
        rw [h1] at hp; cases hp
        rw [hname] at hn; cases hn
      obtain ⟨hn, rfl⟩ | ⟨hdp, hl⟩ := ilock_locked h5
      · -- without an entry `iunlockput` does not return
        refine absurd h8 (needs_iunlockput.bind _ _ _ ?_)
        rw [seterr, modProc, exec_poke] at h7; cases h7
        exact hn
      · rw [hs2] at hdp hl
        exact hbad hdp _ _ _ (by rw [Keeps.exec (keeps_locked_modProc p _) h7, hl]) h8
    · rw [if_neg hname] at h6
      obtain ⟨found, s4, h7, h8⟩ := bind_ok h6
      have hlook : Looks p path s dp name found s4 := ⟨s1, s2, s3, h1, h3, h5, h7⟩
      obtain ⟨hdp, hl⟩ := hlook.locked
      cases found with
      | none =>
        refine ⟨fun _ hd => ?_, fun _ => ?_⟩
        · obtain ⟨_, _, _, _, _, hk, -⟩ := hd; obtain ⟨-, -, hf, -⟩ := hlook.unique hk; cases hf
        · exact ((takes_seterr p _).bind fun _ => hbad hdp) _ _ _ hl h8
      | some x =>
        obtain ⟨ip, off⟩ := x
        obtain ⟨_, s5, h9, h10⟩ := bind_ok h8
        obtain ⟨hn, -⟩ | ⟨y, hy, hb, rfl⟩ := ilock_ok h9
        · obtain ⟨-, z, hz, -⟩ := hlook.found; rw [hz] at hn; cases hn
        obtain ⟨x, hx, h12⟩ := inode_bind h10
        rw [setInode_icache_self] at hx; cases hx
        have h14 := peek_bind h12
        have hipL : s4.locked ip = false := by rw [locked_eq hy, hb]
        have hne : ip ≠ dp := fun he => by
          rw [he, hl, update_self] at hipL; cases hipL
        have hip : s.locked ip = false := by rwa [hl, update_of_ne hne] at hipL
        have hl7 : (s4.setInode ip (some { y with busy := true, valid := true, din := s4.din ip })).locked =
          update (update s.locked dp true) ip true := by
          rw [locked_setInode, hl]
          rfl
        split at h14
        · -- the file stays locked
          rename_i hden
          have hden' : checkinodeperm s4 p (s4.din ip) .unlink ≠ 0 := hden
          have hres : s'.locked = update s.locked ip true :=
            ((takes_seterr p _).bind fun _ => (takes_put_first hdp hne).bind fun _ => takes_onLog.bind fun _ =>
              takes_pure _) _ _ _ hl7 h14
          refine ⟨fun he => ?_, fun hnot => absurd ?_ hnot⟩
          · rw [← he, hres, update_self] at hip; cases hip
          · exact ⟨dp, name, ip, off, s4, hlook, by simpa using hname, hden'⟩
        · rename_i hden
          have hden' : ¬ checkinodeperm s4 p (s4.din ip) .unlink ≠ 0 := hden
          have hnot : ¬ Denied p path s := by
            rintro ⟨_, _, _, _, _, hk, -, hc⟩
            obtain ⟨-, -, hf, rfl⟩ := hlook.unique hk
            cases hf
            exact hden' hc
          refine ⟨fun _ => hnot, fun _ => ?_⟩
          split at h14
          · rw [exec_panic] at h14; cases h14
          have hheld : update (update s.locked dp true) ip true ip = true := update_self ..
          refine (Takes.bind (M := update (update s.locked dp true) ip true) ?_ fun full => ?_) _ _ _ hl7 h14
          · split
            · exact ((held_isdirempty ip).takes hheld).bind fun _ => takes_pure _
            · exact takes_pure _
          split
          · have hip' : update s.locked dp true ip = false := by rw [update_of_ne hne, hip]
            exact (takes_put hip').bind fun _ => (takes_seterr p _).bind fun _ => hbad hdp
          · exact takes_erase hdp hip hne

/-! ## Directories of a process -/

theorem ilock_view {r t' x u u'} (h1 : (beginOp r.dev).exec s = .ok u t)
    (h2 : (ilock r).exec t = .ok u' t') (hx : t'.icache r = some x) :
    s.locked r = false ∧ t'.locked = update s.locked r true ∧ x.din = s.din r ∧
      (∀ r' ≠ r, t'.icache r' = s.icache r') ∧ t'.proc = s.proc ∧ x.busy = true := by
  obtain ⟨d, hd, rfl⟩ := onLog_ok h1
  have hview : (s.setDisk r.dev d).din r = s.din r := by
    refine din_congr rfl rfl ?_
    rw [Log.beginOp, exec_act] at hd
    obtain ⟨-, rfl⟩ | ⟨-, -, -, rfl⟩ := Disk.beginOp_ok hd <;> simp [diskInode, Disk.setOut]
  obtain ⟨hn, rfl⟩ | ⟨y, hy, hb, rfl⟩ := ilock_ok h2
  · rw [hn] at hx; cases hx
  rw [setInode_icache_self] at hx
  cases hx
  have hy' : s.icache r = some y := hy
  refine ⟨by rw [locked_eq hy', hb], locked_setInode .., hview, fun r' hr => ?_, rfl, rfl⟩
  exact setInode_icache_of_ne _ _ hr

theorem sysChdir_locked {junk : Option Nat} (h : (sysChdir p (some path) junk).exec s = .ok v s') :
    s'.locked = s.locked ↔ ¬ Strays p path s := by
  obtain ⟨o, s1, h1, h2⟩ := bind_ok h
  have hs1 := nameiDirect_locked h1
  cases o with
  | none =>
    refine ⟨fun _ hd => ?_, fun _ => (takes_fail _ _ _ rfl h2).trans hs1⟩
    obtain ⟨_, _, _, hp, -⟩ := hd
    rw [h1] at hp; cases hp
  | some ip =>
    obtain ⟨_, s2, h3, h4⟩ := bind_ok h2
    obtain ⟨_, s3, h5, h6⟩ := bind_ok h4
    obtain ⟨x, s4, h7, h8⟩ := bind_ok h6
    obtain ⟨rfl, hx⟩ := inode_ok h7
    obtain ⟨hip, hl, hview, hothers, hproc, -⟩ := ilock_view h3 h5 hx
    rw [hs1] at hip hl
    by_cases hdir : x.din.type ≠ tDir
    · rw [if_pos hdir] at h8
      refine ⟨fun _ hd => ?_, fun _ => takes_leave_seterr hip _ _ _ hl h8⟩
      obtain ⟨_, _, _, hp, ht, -⟩ := hd
      rw [h1] at hp; cases hp
      rw [hview] at hdir
      exact hdir ht
    rw [if_neg hdir] at h8
    obtain ⟨_, s5, h9, h10⟩ := bind_ok h8
    have h12 := peek_bind h10
    have hl5 : s5.locked = s.locked := by rw [iunlock_locked h9, hl, update_unlock hip]
    rw [iunlock_some hx] at h9; cases h9
    have hcwd : (s1.proc p).cwd = (s4.proc p).cwd := by rw [hproc]
    cases hc : (s4.proc p).cwd with
    | none =>
      rw [show ((s4.setInode ip (some { x with busy := false })).proc p).cwd = none from hc, exec_trap] at h12
      cases h12
    | some cwd =>
      rw [show ((s4.setInode ip (some { x with busy := false })).proc p).cwd = some cwd from hc] at h12
      obtain ⟨_, s7, h13, h14⟩ := bind_ok h12
      have hl' : s'.locked = s7.locked := (takes_onLog.bind fun _ =>
        (takes_modProc p _).bind fun _ => takes_pure _) _ _ _ rfl h14
      -- the entry of the current directory is the one before the lookup's inode was locked
      have hloose : (s4.setInode ip (some { x with busy := false })).Loose cwd ↔ s1.Loose cwd := by
        by_cases he : cwd = ip
        · rw [he]
          refine iff_of_true (loose_of_unlocked ?_) (loose_of_unlocked (by rw [hs1, hip]))
          rw [hl5, hip]
        · unfold Kernel.Loose; rw [setInode_icache_of_ne _ _ he, hothers cwd he]
      have hstray : Strays p path s ↔ ¬ s1.Loose cwd := by
        constructor
        · rintro ⟨_, _, _, hp, -, hcw, hn⟩
          rw [h1] at hp; cases hp
          rw [hcwd, hc] at hcw; cases hcw
          exact hn
        · intro hn
          refine ⟨ip, cwd, s1, h1, ?_, by rw [hcwd, hc], hn⟩
          rw [← hview]
          simpa using hdir
      rw [hstray, not_not, hl', ← hloose]
      refine ⟨fun he y hy hb => ?_, fun hlo => by rw [iput1_loose hlo h13, hl5]⟩
      obtain ⟨z, hz, he'⟩ := iput1_locked h13
      rw [hy] at hz; cases hz
      by_contra hm
      rw [if_pos (by omega), he, hl5] at he'
      have hbusy : s.locked cwd = true := by rw [← hl5, locked_eq hy, hb]
      rw [he', update_self] at hbusy; cases hbusy

theorem chroot_locked (h : (chroot p path).exec s = .ok v s') : s'.locked = s.locked ↔ ¬ Jails p path s := by
  have h1 := peek_bind h
  by_cases hjail : (s.proc p).injail = true
  · rw [if_pos hjail] at h1
    cases h1
    exact iff_of_true rfl fun hj => by rw [hj.1] at hjail; cases hjail
  rw [if_neg hjail] at h1
  by_cases huid : (s.proc p).uid ≠ -1
  · rw [if_pos huid] at h1; cases h1; exact iff_of_true rfl fun hj => huid hj.2.1
  rw [if_neg huid] at h1
  by_cases hslash : path.head? ≠ some slash
  · rw [if_pos hslash] at h1; cases h1; exact iff_of_true rfl fun hj => hslash hj.2.2.1
  rw [if_neg hslash] at h1
  obtain ⟨o, s1, h2, h3⟩ := bind_ok h1
  have hs1 := nameiDirect_locked h2
  cases o with
  | none =>
    cases h3
    refine iff_of_true hs1 fun ⟨_, _, _, _, _, _, hp, _⟩ => ?_
    rw [h2] at hp; cases hp
  | some rp =>
    have h5 := peek_bind h3
    have honly : ∀ {Q : Prop}, (rp.inum ≠ s1.rootdir.inum → path.length + 1 < 122 →
      (s1.din rp).type = tDir → Q) → Jails p path s → Q := by
      rintro Q hQ ⟨-, -, -, hlen, _, _, hp, hr, ht⟩
      rw [h2] at hp; cases hp
      exact hQ hr hlen ht
    by_cases hroot : rp.inum = s1.rootdir.inum
    · rw [if_pos hroot] at h5
      refine iff_of_true ?_ (honly fun hr _ _ => hr hroot)
      rw [← hs1]
      exact ((takes_modProc p _).bind fun _ => takes_pure _) _ _ _ rfl h5
    rw [if_neg hroot] at h5
    obtain ⟨_, s3, h6, h7⟩ := bind_ok h5
    obtain ⟨_, s4, h8, h9⟩ := bind_ok h7
    by_cases hlen : 122 ≤ path.length + 1
    · rw [if_pos hlen] at h9
      refine iff_of_true ?_ (honly fun _ hl _ => by omega)
      obtain ⟨hn, -⟩ | ⟨hrp, hl⟩ := ilock_locked h8
      · exact absurd h9 (needs_iunlockput.bind _ _ _ hn)
      · rw [onLog_locked h6, hs1] at hrp hl; exact takes_leave hrp _ _ _ hl h9
    rw [if_neg hlen] at h9
    obtain ⟨y, hy, h11⟩ := inode_bind h9
    obtain ⟨hrp, hl, hview, -, -, -⟩ := ilock_view h6 h8 hy
    rw [hs1] at hrp hl
    by_cases hdir : y.din.type ≠ tDir
    · rw [if_pos hdir] at h11
      refine iff_of_true (takes_leave hrp _ _ _ hl h11) (honly fun _ _ ht => ?_)
      rw [← hview] at ht
      exact hdir ht
    rw [if_neg hdir] at h11
    -- the call succeeds, with the new root locked
    refine iff_of_false (fun he => ?_) (not_not.mpr ?_)
    · obtain ⟨_, s6, h12, h13⟩ := bind_ok h11
      have h15 := peek_bind h13
      obtain ⟨_, s8, h16, h17⟩ := bind_ok h15
      obtain ⟨_, s9, h18, h19⟩ := bind_ok h17
      have hend : s'.locked = s9.locked := ((takes_modProc p _).bind fun _ => takes_onLog.bind fun _ =>
        takes_pure _) _ _ _ rfl h19
      have hdup : s9.locked = s8.locked := Keeps.exec quiet_locked.idup h18
      obtain ⟨_, s10, h20, h21⟩ := bind_ok h18
      obtain ⟨z, hz, -⟩ := modInode_ok h20
      have hput : s8.locked rp = s6.locked rp := by
        cases hold : (s6.proc p).rootdir with
        | none => rw [hold] at h16; cases h16; rfl
        | some old => rw [hold] at h16; exact iput1_stays h16 hz
      rw [← he, hend, hdup, hput, Keeps.exec (keeps_locked_modProc p _) h12, hl, update_self] at hrp
      cases hrp
    · refine ⟨by simpa using hjail, by simpa using huid, by simpa using hslash, by omega, rp, s1, h2, hroot, ?_⟩
      rw [← hview]
      simpa using hdir

/-! ## All calls -/

theorem call_locked {c : Call} (h : (c.run p).exec s = .ok v s') : s'.locked = s.locked ↔ ¬ c.LeavesLocks p s := by
  have hsame : ∀ {q : K Int}, (∀ L, Takes L L q) → q.exec s = .ok v s' → (s'.locked = s.locked ↔ ¬ False) :=
    fun hq he => iff_of_true (hq _ _ _ _ rfl he) not_false
  cases c with
  | «open» path omode =>
    cases path with
    | none => exact hsame (fun _ => takes_pure _) h
    | some path =>
      cases omode with
      | none => exact hsame (fun _ => takes_pure _) h
      | some omode =>
        obtain ⟨a, t, h1, h2⟩ := bind_ok h
        refine (locks_openInode h1).iff ?_ ?_ h2
        · rintro rfl _; exact takes_pure _
        · rintro ip rfl _ hip; exact takes_openFile hip
  | mkdir path junk =>
    cases path with
    | none => exact hsame (fun _ => takes_noCreate) h
    | some path =>
      obtain ⟨a, t, h1, h2⟩ := bind_ok h
      refine (locks_create (create_ends h1)).iff ?_ ?_ h2
      · rintro rfl _; exact takes_noCreate
      · rintro ip rfl _ hip; exact takes_leave hip
  | mknod path major minor junk => exact sysMknod_locked h
  | link old new => exact hsame (fun _ => takes_sysLink) h
  | unlink path =>
    cases path with
    | none => exact hsame (fun _ => takes_pure _) h
    | some path => exact sysUnlink_locked h
  | chdir path junk =>
    cases path with
    | none => exact hsame (fun _ => takes_junk.bind fun _ => takes_fail) h
    | some path => exact sysChdir_locked (show (sysChdir p (some path) junk).exec s = _ from h)
  | chperms fname rmode perms => exact hsame (fun _ => takes_sysChperms) h
  | chroot path =>
    cases path with
    | none => exact hsame (fun _ => takes_pure _) h
    | some path => exact chroot_locked h
  | exec path vm => exact hsame (fun _ => takes_exec) h
where
  takes_junk {L : IRef → Bool} {junk : Option Nat} : Takes L L (ifSome junk endOp) := by
    cases junk with
    | none => exact takes_pure ()
    | some dev => exact takes_onLog
  takes_noCreate {L : IRef → Bool} {p : Nat} {junk : Option Nat} : Takes L L (noCreate p junk) :=
    takes_junk.bind fun _ => takes_fail
  sysMknod_locked {path : Option Path} {major minor : Option Int32} {junk : Option Nat} {v : Int}
    (h : (sysMknod p path major minor junk).exec s = .ok v s') :
    s'.locked = s.locked ↔ ¬ Call.LeavesLocks p s (.mknod path major minor junk) := by
    have h2 := peek_bind h
    have hnot : (noCreate p junk).exec s = .ok v s' → s'.locked = s.locked := fun h => takes_noCreate _ _ _ rfl h
    by_cases hu : (s.proc p).uid > -1
    · rw [if_pos hu] at h2
      refine iff_of_true (takes_fail _ _ _ rfl h2) fun hc => ?_
      match path, major, minor, hc with
      | some _, some _, some _, hc => exact absurd hc.1 (by omega)
    rw [if_neg hu] at h2
    have hu' : (s.proc p).uid ≤ -1 := by omega
    match path, major, minor, h2 with
    | none, _, _, h2 => exact iff_of_true (hnot h2) not_false
    | some _, none, _, h2 => exact iff_of_true (hnot h2) not_false
    | some _, some _, none, h2 => exact iff_of_true (hnot h2) not_false
    | some path, some major, some minor, h2 =>
      simp only [Call.LeavesLocks, hu', true_and]
      obtain ⟨a, t, h3, h4⟩ := bind_ok h2
      refine (locks_create (create_ends h3)).iff ?_ ?_ h4
      · rintro rfl _; exact takes_noCreate
      · rintro ip rfl _ hip; exact (keeps_takes quiet_locked.din).bind fun _ => takes_leave hip

/-- A call returns with the same inodes locked as on entry, exactly if it is not one of those that
leave an inode locked. -/
theorem locks_balanced_iff {c : Call} {v : Int} (h : (c.run p).exec s = .ok v s') :
    (∀ r, s'.locked r = s.locked r) ↔ ¬ c.LeavesLocks p s :=
  funext_iff.symm.trans (call_locked h)

theorem locks_balanced_mkdirA : ∃ s', (mkdirA.run 0).exec crowded = .ok (-1) s' ∧ mkdirA.LeavesLocks 0 crowded := by
  obtain ⟨s', h, -, hbusy⟩ := mkdirA_run
  refine ⟨s', h, ?_⟩
  by_contra hn
  have hroot := (locks_balanced_iff h).mpr hn ⟨1, 1⟩
  rw [show s'.locked ⟨1, 1⟩ = true from hbusy] at hroot
  revert hroot
  decide +kernel

/-- `mkdir` on a file system without free inodes fails and leaves the parent directory locked. -/
theorem mkdir_leaves_parent_locked : ∃ s', (mkdirA.run 0).exec crowded = .ok (-1) s' ∧
    crowded.locked ⟨1, 1⟩ = false ∧ s'.locked ⟨1, 1⟩ = true := by
  obtain ⟨s', h, -, hbusy⟩ := mkdirA_run
  exact ⟨s', h, by decide +kernel, hbusy⟩

end

end

end Xv6Vsd
