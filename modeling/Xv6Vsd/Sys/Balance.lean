import Xv6Vsd.Sys.Lemmas.Parts
import Xv6Vsd.Sys.Lemmas.Ops
import Xv6Vsd.Sys.Outcome

/-!
# Every `begin_op` has its `end_op`, except after a failed `create`

`create` opens a transaction for its caller, who learns the device only from the inode it returns: when
`create` fails the transaction stays open.
-/

namespace Xv6Vsd

open Prog

def Refused (p : Nat) (path : Path) (type major minor : Int16) (s : Kernel) (dev : Nat) : Prop :=
  NameTaken p path type s dev ∨ NoInode p path s dev ∨ NoDots p path type major minor s dev

/-- The call opens or closes a transaction on `dev` that it does not close or did not open. -/
def Call.Unbalanced (p : Nat) (s : Kernel) : Call → Nat → Prop
  | .open (some path) (some omode), dev => omode &&& oCreate ≠ 0 ∧ Refused p path tFile 0 0 s dev
  | .mkdir (some path) _, dev => Refused p path tDir 0 0 s dev
  | .mkdir none junk, dev => junk = some dev
  | .mknod (some path) (some major) (some minor) _, dev =>
    (s.proc p).uid ≤ -1 ∧ Refused p path tDev major.toInt16 minor.toInt16 s dev
  | .mknod _ _ _ junk, dev => (s.proc p).uid ≤ -1 ∧ junk = some dev
  | .chdir none junk, dev => junk = some dev
  | _, _ => False

/-- From `s` to `s'` one operation was left open, or closed too often, on the device that satisfies
`P`, and none if there is no such device. -/
def Drift (P : Nat → Prop) (s s' : Kernel) : Prop := (∃ dev, P dev ∧ (∀ dev', P dev' → dev' = dev) ∧
    (s'.ops = opened dev s.ops ∨ s'.ops = closed dev s.ops)) ∨
  ((∀ dev, ¬ P dev) ∧ s'.ops = s.ops)

theorem Drift.iff {P s s'} (h : Drift P s s') : (∀ dev, (s'.disk dev).log.outstanding = (s.disk dev).log.outstanding) ↔
      ∀ dev, P dev → (s.disk dev).log.size = 0 := by
  obtain ⟨dev, hP, huniq, hops⟩ | ⟨hP, hops⟩ := h
  · constructor
    · intro hall dev' hP'
      obtain rfl := huniq dev' hP'
      by_contra hs
      have hne : (s'.ops dev').2 ≠ (s.ops dev').2 := by
        rcases hops with hops | hops
        · rw [hops]; exact opened_ne hs
        · rw [hops]; exact closed_ne hs
      exact hne (hall dev')
    · intro hall
      have heq : s'.ops = s.ops := by
        rcases hops with hops | hops
        · rw [hops, opened_eq (hall dev hP)]
        · rw [hops, closed_eq (hall dev hP)]
      exact fun dev' => congrArg Prod.snd (congrFun heq dev')
  · exact ⟨fun _ dev hP' => absurd hP' (hP dev), fun _ dev' => congrArg Prod.snd (congrFun hops dev')⟩

theorem Balanced.drift {p : K Int} {P : Nat → Prop} {s s' : Kernel} {v : Int} (hp : Balanced p)
    (hP : ∀ dev, ¬ P dev) (h : p.exec s = .ok v s') : Drift P s s' := .inr ⟨hP, hp _ _ _ h⟩

/-! ## Calls that close what they open -/

theorem steady_balanced : Steady (fun p => Balanced p) where
  done _ := balanced_pure
  bind hp hq := hp.bind hq
  panic _ := balanced_panic
  peek _ := balanced_peek
  inode _ := balanced_inode
  seterr _ _ := balanced_seterr

theorem closes_return {dev v} : Closes dev (endOp dev >>= fun _ => (pure v : K Int)) :=
  closes_endOp.bind fun _ => balanced_pure

theorem closes_leave {ip dev} {v} : Closes dev (iunlockput ip >>= fun _ => endOp dev >>= fun _ => (pure v : K Int)) :=
  balanced_iunlockput.closes fun _ => closes_return

theorem closes_leave_seterr {ip dev} {p msg v} :
    Closes dev (iunlockput ip >>= fun _ => endOp dev >>= fun _ => seterr p msg >>= fun _ =>
      (pure v : K Int)) :=
  balanced_iunlockput.closes fun _ => closes_endOp.bind fun _ => balanced_seterr.bind fun _ => balanced_pure

theorem balanced_fail {p msg v} : Balanced (seterr p msg >>= fun _ => (pure v : K Int)) :=
  balanced_seterr.bind fun _ => balanced_pure

theorem closes_link_bad {ip} : Closes ip.dev (sysLink.bad ip) :=
  balanced_ilock.closes fun _ => balanced_din.closes fun _ => balanced_iupdate.closes fun _ => closes_leave

theorem balanced_sysLink {p} {old new} : Balanced (sysLink p old new) := by
  unfold sysLink
  split
  · rename_i old new
    refine balanced_nameiDirect.bind fun o => ?_
    cases o with
    | none => exact balanced_fail
    | some ip =>
      refine balanced_beginOp fun _ => balanced_ilock.closes fun _ => balanced_inode.closes fun x => ?_
      split
      · exact closes_leave_seterr
      refine balanced_din.closes fun _ => balanced_iupdate.closes fun _ =>
        balanced_iunlock.closes fun _ => balanced_namex.closes fun found => ?_
      obtain ⟨o, name⟩ := found
      cases o with
      | none => exact balanced_seterr.closes fun _ => closes_link_bad
      | some dp =>
        have hlink : Balanced (if dp.dev ≠ ip.dev then pure (-1) else dirlink dp name ip.inum) := by
          split
          · exact balanced_pure
          · exact balanced_dirlink
        refine balanced_ilock.closes fun _ => hlink.closes fun linked => ?_
        split
        · exact balanced_iunlockput.closes fun _ => balanced_seterr.closes fun _ => closes_link_bad
        · exact balanced_iunlockput.closes fun _ => balanced_iput1.closes fun _ => closes_return
  · exact balanced_pure

theorem closes_erase {dp ip} {off} : Closes dp.dev (sysUnlink.erase dp ip off) := by
  refine (keeps_balanced plain_frames.writei).closes fun n => ?_
  split
  · exact closes_panic
  refine balanced_inode.closes fun x => (balanced_onlyIf ?_).closes fun _ => ?_
  · exact balanced_din.bind fun _ => balanced_iupdate
  · exact balanced_iunlockput.closes fun _ => balanced_din.closes fun _ =>
      balanced_iupdate.closes fun _ => closes_leave

theorem balanced_sysUnlink {p} {path} : Balanced (sysUnlink p path) := by
  have hbad : ∀ dp : IRef, Closes dp.dev (sysUnlink.bad dp) := fun dp => closes_leave
  unfold sysUnlink
  split
  · exact balanced_pure
  rename_i path
  refine balanced_namex.bind fun found => ?_
  obtain ⟨o, name⟩ := found
  cases o with
  | none => exact balanced_fail
  | some dp =>
    refine balanced_beginOp fun _ => balanced_ilock.closes fun _ => ?_
    split
    · exact balanced_seterr.closes fun _ => hbad dp
    refine (keeps_balanced plain_frames.dirlookup).closes fun found => ?_
    split
    · exact balanced_seterr.closes fun _ => hbad dp
    rename_i ip off
    refine balanced_ilock.closes fun _ => balanced_inode.closes fun x => balanced_peek.closes fun denied => ?_
    split
    · exact balanced_seterr.closes fun _ => hbad dp
    split
    · exact closes_panic
    have hfull : Balanced (if x.din.type = tDir then (!·) <$> isdirempty ip else pure false) := by
      split
      · exact (keeps_balanced (plain_frames.flow ip).isdirempty).bind fun _ => balanced_pure
      · exact balanced_pure
    refine hfull.closes fun full => ?_
    split
    · exact balanced_iunlockput.closes fun _ => balanced_seterr.closes fun _ => hbad dp
    · exact closes_erase

theorem balanced_sysChdir {p path} (junk : Option Nat) : Balanced (sysChdir p (some path) junk) := by
  refine balanced_nameiDirect.bind fun o => ?_
  cases o with
  | none => exact balanced_fail
  | some ip =>
    refine balanced_beginOp fun _ => balanced_ilock.closes fun _ => balanced_inode.closes fun x => ?_
    split
    · exact closes_leave_seterr
    refine balanced_iunlock.closes fun _ => balanced_peek.closes fun cwd => ?_
    cases cwd with
    | none => exact closes_panic
    | some cwd =>
      exact balanced_iput1.closes fun _ => closes_endOp.bind fun _ => balanced_modProc.bind fun _ => balanced_pure

theorem balanced_chroot {p path} : Balanced (chroot p path) := by
  refine balanced_peek.bind fun x => ?_
  split
  · exact balanced_pure
  split
  · exact balanced_pure
  split
  · exact balanced_pure
  refine balanced_nameiDirect.bind fun o => ?_
  cases o with
  | none => exact balanced_pure
  | some rp =>
    refine balanced_peek.bind fun root => ?_
    split
    · exact balanced_modProc.bind fun _ => balanced_pure
    refine balanced_beginOp fun _ => balanced_ilock.closes fun _ => ?_
    split
    · exact closes_leave
    refine balanced_inode.closes fun y => ?_
    split
    · exact closes_leave
    refine balanced_modProc.closes fun _ => balanced_peek.closes fun old =>
      (balanced_ifSome fun r => balanced_iput1).closes fun _ =>
      (keeps_balanced plain_frames.idup).closes fun _ =>
      balanced_modProc.closes fun _ => closes_return

theorem balanced_sysChperms {p} {fname} {rmode perms} :
    Balanced (sysChperms p fname rmode perms) := by
  unfold sysChperms
  split
  · rename_i fname rmode perms
    refine balanced_nameiDirect.bind fun o => ?_
    cases o with
    | none => exact balanced_fail
    | some ip =>
      refine balanced_beginOp fun _ => balanced_ilock.closes fun _ => balanced_inode.closes fun x => ?_
      split
      · exact closes_leave
      split
      · refine balanced_peek.closes fun denied => ?_
        split
        · exact balanced_seterr.closes fun _ => closes_leave
        · exact balanced_din.closes fun _ => balanced_iupdate.closes fun _ => closes_leave
      · exact closes_leave_seterr
  · exact balanced_pure

theorem balanced_exec {p path vm} : Balanced (exec p path vm) := by
  refine balanced_peek.bind fun x => ?_
  split
  · exact balanced_fail
  refine balanced_nameiDirect.bind fun o => ?_
  cases o with
  | none => exact balanced_fail
  | some ip =>
    have hread : ∀ off n, Balanced (readi ip off n) := fun off n => keeps_balanced plain_frames.readi
    exact balanced_beginOp fun _ => balanced_ilock.closes fun _ =>
      (steady_balanced.loadImage hread p vm).closes fun loaded => closes_leave

/-! ## Calls that create -/

section

variable {p : Nat} {path : Path} {type major minor : Int16} {s s' : Kernel}

theorem Looks.ops {dp name found t} (h : Looks p path s dp name found t) : t.ops = opened dp.dev s.ops := by
  obtain ⟨s1, s2, s3, h1, h2, h3, h4⟩ := h
  rw [keeps_balanced plain_frames.dirlookup _ _ _ h4, balanced_ilock _ _ _ h3, ops_beginOp h2, balanced_namex _ _ _ h1]

theorem Refused.dev {dev} (h : Refused p path type major minor s dev) :
    ∃ dp name found t, Looks p path s dp name found t ∧ dp.dev = dev := by
  rcases h with ⟨_, _, _, _, _, h, hd, -⟩ | ⟨_, _, _, h, hd, -⟩ | ⟨-, _, _, _, _, _, _, h, hd, -⟩
  · exact ⟨_, _, _, _, h, hd⟩
  · exact ⟨_, _, _, _, h, hd⟩
  · exact ⟨_, _, _, _, h, hd⟩

theorem Refused.unique {dev} (h : Refused p path type major minor s dev) {dp name found t}
    (hl : Looks p path s dp name found t) :
    dev = dp.dev := by
  obtain ⟨dp', _, _, _, hl', hd⟩ := h.dev
  rw [← hd, (hl.unique hl').1]

theorem balanced_newInode {dev} : Balanced (newInode p dev type major minor) := by
  refine (keeps_balanced plain_frames.ialloc).bind fun o => ?_
  cases o with
  | none => exact balanced_pure
  | some ip =>
    exact balanced_ilock.bind fun _ => balanced_peek.bind fun uid =>
      balanced_din.bind fun _ => balanced_iupdate.bind fun _ => balanced_pure

theorem balanced_mkdots {dp ip} : Balanced (mkdots dp ip) := by
  refine balanced_din.bind fun _ => balanced_iupdate.bind fun _ => balanced_dirlink.bind fun n => ?_
  split
  · exact balanced_pure
  · exact balanced_dirlink.bind fun n => balanced_pure

def openedFor (a : Option IRef) (o : Nat → Nat × Int) : Nat → Nat × Int := match a with
  | some ip => opened ip.dev o
  | none => o

/-- From `s` to `s'` a transaction was opened for the caller, on the device of the inode it gets or
on the one that satisfies `P`. -/
def Opens (P : Nat → Prop) (s : Kernel) (a : Option IRef) (s' : Kernel) : Prop :=
  (a = none ∧ ∃ dev, P dev ∧ (∀ dev', P dev' → dev' = dev) ∧ s'.ops = opened dev s.ops) ∨
  ((∀ dev, ¬ P dev) ∧ s'.ops = openedFor a s.ops)

theorem Opens.drift {P : Nat → Prop} {a : Option IRef} {t : Kernel} (h : Opens P s a t)
    {q : K Int} (hnone : a = none → Balanced q) (hsome : ∀ ip, a = some ip → Closes ip.dev q)
    {v : Int} (hq : q.exec t = .ok v s') : Drift P s s' := by
  obtain ⟨rfl, dev, hr, huniq, hops⟩ | ⟨hr, hops⟩ := h
  · exact .inl ⟨dev, hr, huniq, .inl (by rw [hnone rfl _ _ _ hq, hops])⟩
  refine .inr ⟨hr, ?_⟩
  cases a with
  | none => rw [hnone rfl _ _ _ hq, hops, openedFor]
  | some ip => rw [hsome ip rfl _ _ _ hq, hops, openedFor, closed_opened]

theorem opens_create {a} (h : CreateEnds p path type major minor s a s') :
    Opens (Refused p path type major minor s) s a s' := by
  cases h with
  | orphan hparent =>
    refine .inr ⟨fun dev hr => ?_, balanced_namex _ _ _ hparent⟩
    obtain ⟨_, _, _, _, ⟨_, _, _, hp, -⟩, -⟩ := hr.dev
    rw [hparent] at hp; cases hp
  | @opened dp ip name off t t1 _ hlook hfile hput hlock _ =>
    refine .inr ⟨fun dev hr => ?_, ?_⟩
    · rcases hr with ⟨_, _, _, _, _, hl, -, hn⟩ | hr | hr
      · obtain ⟨-, -, hf, rfl⟩ := hlook.unique hl; cases hf; exact hn hfile
      · exact hlook.not_noInode dev hr
      · exact hlook.not_noDots dev hr
    · rw [openedFor, balanced_ilock _ _ _ hlock, balanced_iunlockput _ _ _ hput, hlook.ops, hlook.found.1]
  | @taken dp ip name off t t1 t2 _ hlook hfile hput hlock _ hput' =>
    refine .inl ⟨rfl, dp.dev, .inl ⟨dp, name, ip, off, t, hlook, rfl, hfile⟩, fun dev' hr => hr.unique hlook, ?_⟩
    rw [balanced_iunlockput _ _ _ hput', balanced_ilock _ _ _ hlock, balanced_iunlockput _ _ _ hput, hlook.ops]
  | @full dp name t t1 _ hlook hfull halloc herr =>
    refine .inl ⟨rfl, dp.dev, .inr (.inl ⟨dp, name, t, hlook, rfl, hfull⟩), fun dev' hr => hr.unique hlook, ?_⟩
    rw [balanced_seterr _ _ _ herr, keeps_balanced plain_frames.ialloc _ _ _ halloc, hlook.ops]
  | @dotless dp ip name t t1 t2 _ hlook htype hnew hdots herr =>
    refine .inl ⟨rfl, dp.dev, .inr (.inr ⟨htype, dp, name, ip, t, t1, t2, hlook, rfl, hnew, hdots⟩),
      fun dev' hr => hr.unique hlook, ?_⟩
    rw [balanced_seterr _ _ _ herr, balanced_mkdots _ _ _ hdots, balanced_newInode _ _ _ hnew, hlook.ops]
  | @made dp ip name n t t1 t2 t3 _ hlook hdev hfree hnew hdots hlink hput =>
    refine .inr ⟨fun dev hr => ?_, ?_⟩
    · rcases hr with hr | ⟨_, _, _, hl, rfl, hf⟩ | ⟨ht, _, _, _, _, _, _, hl, rfl, hn, hd⟩
      · exact hlook.not_nameTaken dev hr
      · obtain ⟨rfl, -, -, rfl⟩ := hlook.unique hl; exact hfree hf
      obtain ⟨rfl, -, -, rfl⟩ := hlook.unique hl
      rw [hnew] at hn; cases hn
      obtain ⟨-, hdots⟩ | ⟨hne, -⟩ := hdots
      · rw [hd] at hdots; cases hdots
      · exact hne ht
    · have hdots' : t2.ops = t1.ops := by
        obtain ⟨-, hdots⟩ | ⟨-, rfl⟩ := hdots
        · exact balanced_mkdots _ _ _ hdots
        · rfl
      rw [openedFor, balanced_iunlockput _ _ _ hput, balanced_dirlink _ _ _ hlink, hdots',
        balanced_newInode _ _ _ hnew, hlook.ops, hdev]

theorem drift_junk {junk} {q : Unit → K Int} (hq : ∀ u, Balanced (q u)) {v}
    (h : (ifSome junk endOp >>= q).exec s = .ok v s') : Drift (fun dev => junk = some dev) s s' := by
  obtain ⟨_, s1, h1, h2⟩ := bind_ok h
  rw [Drift, hq _ _ _ _ h2]
  cases junk with
  | none => cases h1; exact .inr ⟨by simp, rfl⟩
  | some dev => exact .inl ⟨dev, rfl, by simp, .inr (ops_endOp h1)⟩

theorem balanced_noCreate {p} : Balanced (noCreate p none) := balanced_pure.bind fun _ => balanced_fail

theorem ops_of_disk (h : s'.disk = s.disk) : s'.ops = s.ops := by
  funext dev
  rw [Kernel.ops, h]
  rfl

theorem closes_openFile {p} {ip} {omode} : Closes ip.dev (openFile p ip omode) := by
  have hfull : Closes ip.dev (openFile.full p ip) := closes_leave_seterr
  intro s v s' h
  obtain ⟨o, s1, h1, h2⟩ := bind_ok h
  obtain ⟨hd1, -, hf⟩ := filealloc_ok h1
  rw [← ops_of_disk hd1]
  cases o with
  | none => exact hfull _ _ _ h2
  | some f =>
    obtain ⟨fd, s2, h3, h4⟩ := bind_ok h2
    cases fd with
    | none =>
      obtain ⟨hd2, -, hf2⟩ := fdalloc_ok h3
      obtain ⟨_, s3, h5, h6⟩ := bind_ok h4
      have hd3 := (fileclose_fresh (by rw [hf2]; exact hf f rfl) rfl h5).1
      rw [← ops_of_disk hd2, ← ops_of_disk hd3]
      exact hfull _ _ _ h6
    | some fd =>
      rw [← ops_of_disk (fdalloc_ok h3).1]
      refine (balanced_iunlock.closes fun _ => closes_endOp.bind fun _ => balanced_inode.bind fun y => ?_) _ _ _ h4
      exact (keeps_balanced (keeps_frames_poke fun s => s.setFile_disk f _)).bind fun _ => balanced_pure

theorem opens_openInode {omode a} (h : (openInode p path omode).exec s = .ok a s') :
    Opens (Call.Unbalanced p s (.open (some path) (some omode))) s a s' := by
  unfold openInode at h
  by_cases hc : omode &&& oCreate ≠ 0
  · have hP : Call.Unbalanced p s (.open (some path) (some omode)) = Refused p path tFile 0 0 s :=
      funext fun dev => propext ⟨fun hu => hu.2, fun hu => ⟨hc, hu⟩⟩
    rw [hP]
    rw [if_pos hc] at h
    obtain ⟨o, s1, h1, h2⟩ := bind_ok h
    have ho := opens_create (create_ends h1)
    cases o with
    | none =>
      obtain ⟨_, s2, h3, h4⟩ := bind_ok h2
      cases h4
      simpa only [Opens, balanced_seterr _ _ _ h3] using ho
    | some ip => cases h2; exact ho
  · rw [if_neg hc] at h
    refine .inr ⟨fun dev hu => hc hu.1, ?_⟩
    obtain ⟨o, s1, h1, h2⟩ := bind_ok h
    rw [← balanced_nameiDirect _ _ _ h1]
    cases o with
    | none => obtain ⟨_, s2, h3, h4⟩ := bind_ok h2; cases h4; exact balanced_seterr _ _ _ h3
    | some ip =>
      obtain ⟨_, s2, h3, h4⟩ := bind_ok h2
      obtain ⟨_, s3, h5, h6⟩ := bind_ok h4
      obtain ⟨x, s4, h7, h8⟩ := bind_ok h6
      obtain ⟨denied, s5, h9, h10⟩ := bind_ok h8
      have hops : s5.ops = opened ip.dev s1.ops := by
        rw [balanced_peek _ _ _ h9, balanced_inode _ _ _ h7, balanced_ilock _ _ _ h5, ops_beginOp h3]
      split at h10
      · obtain ⟨_, t1, e1, h10⟩ := bind_ok h10
        obtain ⟨_, t2, e2, h10⟩ := bind_ok h10
        obtain ⟨_, t3, e3, h10⟩ := bind_ok h10
        cases h10
        rw [ops_endOp e3, balanced_iunlockput _ _ _ e2, balanced_seterr _ _ _ e1, hops, closed_opened, openedFor]
      split at h10
      · obtain ⟨_, t1, e1, h10⟩ := bind_ok h10
        obtain ⟨_, t2, e2, h10⟩ := bind_ok h10
        obtain ⟨_, t3, e3, h10⟩ := bind_ok h10
        cases h10
        rw [balanced_seterr _ _ _ e3, ops_endOp e2, balanced_iunlockput _ _ _ e1, hops, closed_opened, openedFor]
      · cases h10; exact hops

/-! ## All calls -/

theorem drift_call {c : Call} {v : Int} (h : (c.run p).exec s = .ok v s') : Drift (c.Unbalanced p s) s s' := by
  cases c with
  | «open» path omode =>
    cases path with
    | none => exact Balanced.drift balanced_pure (fun dev hu => hu) h
    | some path =>
      cases omode with
      | none => exact Balanced.drift balanced_pure (fun dev hu => hu) h
      | some omode =>
        obtain ⟨a, t, h1, h2⟩ := bind_ok h
        refine (opens_openInode h1).drift ?_ ?_ h2
        · rintro rfl; exact balanced_pure
        · rintro ip rfl; exact closes_openFile
  | mkdir path junk =>
    cases path with
    | none => exact drift_junk (fun _ => balanced_fail) h
    | some path =>
      obtain ⟨a, t, h1, h2⟩ := bind_ok h
      refine (opens_create (create_ends h1)).drift ?_ ?_ h2
      · rintro rfl; exact balanced_noCreate
      · rintro ip rfl; exact closes_leave
  | mknod path major minor junk => exact drift_sysMknod h
  | link old new => exact balanced_sysLink.drift (fun dev hu => hu) h
  | unlink path => exact balanced_sysUnlink.drift (fun dev hu => hu) h
  | chdir path junk =>
    cases path with
    | none => exact drift_junk (fun _ => balanced_fail) h
    | some path => exact (balanced_sysChdir junk).drift (fun dev hu => hu) h
  | chperms fname rmode perms => exact balanced_sysChperms.drift (fun dev hu => hu) h
  | chroot path =>
    cases path with
    | none => exact Balanced.drift balanced_pure (fun dev hu => hu) h
    | some path => exact balanced_chroot.drift (fun dev hu => hu) h
  | exec path vm => exact balanced_exec.drift (fun dev hu => hu) h
where
  drift_sysMknod {path : Option Path} {major minor : Option Int32} {junk : Option Nat} {v : Int}
    (h : (sysMknod p path major minor junk).exec s = .ok v s') :
    Drift (Call.Unbalanced p s (.mknod path major minor junk)) s s' := by
    have h2 := peek_bind h
    have hroot : ∀ dev, Call.Unbalanced p s (.mknod path major minor junk) dev → (s.proc p).uid ≤ -1 := by
      cases path <;> cases major <;> cases minor <;> exact fun _ hc => hc.1
    by_cases hu : (s.proc p).uid > -1
    · rw [if_pos hu] at h2
      exact Balanced.drift balanced_fail (fun dev hc => by have := hroot dev hc; omega) h2
    rw [if_neg hu] at h2
    have hu' : (s.proc p).uid ≤ -1 := by omega
    have hjunk : (noCreate p junk).exec s = .ok v s' →
      Drift (fun dev => (s.proc p).uid ≤ -1 ∧ junk = some dev) s s' := fun h => by
      simpa only [hu', true_and] using drift_junk (fun _ => balanced_fail) h
    cases path with
    | none => exact hjunk h2
    | some path =>
      cases major with
      | none => exact hjunk h2
      | some major =>
        cases minor with
        | none => exact hjunk h2
        | some minor =>
          change Drift (fun dev => (s.proc p).uid ≤ -1 ∧ Refused p path tDev major.toInt16 minor.toInt16 s dev) s s'
          simp only [hu', true_and]
          obtain ⟨a, t, h3, h4⟩ := bind_ok h2
          refine (opens_create (create_ends h3)).drift ?_ ?_ h4
          · rintro rfl; exact balanced_noCreate
          · rintro ip rfl; exact balanced_din.closes fun _ => closes_leave

/-- Every counter of open operations is as it was, exactly if no device with a log is among those on
which the call leaves a transaction open or closes one that it did not open. -/
theorem outstanding_balanced_iff {c : Call} {v : Int} (h : (c.run p).exec s = .ok v s') :
    (∀ dev, (s'.disk dev).log.outstanding = (s.disk dev).log.outstanding) ↔
      ∀ dev, c.Unbalanced p s dev → (s.disk dev).log.size = 0 :=
  (drift_call h).iff

end

theorem outstanding_balanced_mkdirA : ∃ s', (mkdirA.run 0).exec crowded = .ok (-1) s' ∧
    ¬ ∀ dev, mkdirA.Unbalanced 0 crowded dev → (crowded.disk dev).log.size = 0 := by
  obtain ⟨s', h, hout, -⟩ := mkdirA_run
  refine ⟨s', h, fun hall => ?_⟩
  have := (outstanding_balanced_iff h).mpr hall 1
  rw [hout] at this; cases this

/-- `mkdir` on a file system without free inodes fails and leaves its transaction open. -/
theorem mkdir_leaves_op_open : ∃ s', (mkdirA.run 0).exec crowded = .ok (-1) s' ∧
    (crowded.disk 1).log.outstanding = 0 ∧ (s'.disk 1).log.outstanding = 1 := by
  obtain ⟨s', h, hout, -⟩ := mkdirA_run
  exact ⟨s', h, rfl, hout⟩

end Xv6Vsd
