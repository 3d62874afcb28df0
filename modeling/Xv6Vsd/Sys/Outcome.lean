import Xv6Vsd.Fs.Lemmas.Spec
import Xv6Vsd.Sys.Exec

/-! # The system calls on paths, and how a creation ends -/

namespace Xv6Vsd

open Prog Kernel

inductive Call where
  | open (path : Option Path) (omode : Option UInt32)
  | mkdir (path : Option Path) (junk : Option Nat)
  | mknod (path : Option Path) (major minor : Option Int32) (junk : Option Nat)
  | link (old new : Option Path)
  | unlink (path : Option Path)
  | chdir (path : Option Path) (junk : Option Nat)
  | chperms (fname : Option Path) (rmode perms : Option Int32)
  | chroot (path : Option Path)
  | exec (path : Path) (vm : Vm)

def Call.run (p : Nat) : Call → K Int
  | .open path omode => sysOpen p path omode
  | .mkdir path junk => sysMkdir p path junk
  | .mknod path major minor junk => sysMknod p path major minor junk
  | .link old new => sysLink p old new
  | .unlink path => sysUnlink p path
  | .chdir path junk => sysChdir p path junk
  | .chperms fname rmode perms => sysChperms p fname rmode perms
  | .chroot path => sysChroot p path
  | .exec path vm => Xv6Vsd.exec p path vm

/-- The parent directory `dp` of the path exists, and `found` is what it has under the last element
`name`. The lookup ends in `s'`, with `dp` locked. -/
def Looks (p : Nat) (path : Path) (s : Kernel) (dp : IRef) (name : List UInt8)
    (found : Option (IRef × Nat)) (s' : Kernel) : Prop :=
  ∃ s1 s2 s3, (nameiparentDirect p path).exec s = .ok (some dp, name) s1 ∧
    (beginOp dp.dev).exec s1 = .ok () s2 ∧ (ilock dp).exec s2 = .ok () s3 ∧
    (dirlookup dp name).exec s3 = .ok found s'

/-- The path exists on `dev`, and it is not an ordinary file that `open` may take. -/
def NameTaken (p : Nat) (path : Path) (type : Int16) (s : Kernel) (dev : Nat) : Prop :=
  ∃ dp name ip off s', Looks p path s dp name (some (ip, off)) s' ∧ dp.dev = dev ∧
    ¬ (type = tFile ∧ (s'.din ip).type = tFile)

def NoInode (p : Nat) (path : Path) (s : Kernel) (dev : Nat) : Prop :=
  ∃ dp name s', Looks p path s dp name none s' ∧ dp.dev = dev ∧ (s'.disk dev).inodesFull

/-- The path is new and should become a directory, but the inode for it does not take the entries
"." and "..". -/
def NoDots (p : Nat) (path : Path) (type major minor : Int16) (s : Kernel) (dev : Nat) : Prop :=
  type = tDir ∧ ∃ dp name ip s' s1 s2, Looks p path s dp name none s' ∧ dp.dev = dev ∧
    (newInode p dev type major minor).exec s' = .ok (some ip) s1 ∧ (mkdots dp ip).exec s1 = .ok false s2

section

variable {p : Nat} {path : Path} {s s' : Kernel}
variable {dp : IRef} {name : List UInt8} {t : Kernel} {type major minor : Int16} {a : Option IRef}

theorem Looks.unique {dp' name' found found' t'}
    (h : Looks p path s dp name found t) (h' : Looks p path s dp' name' found' t') :
    dp = dp' ∧ name = name' ∧ found = found' ∧ t = t' := by
  obtain ⟨s1, s2, s3, h1, h2, h3, h4⟩ := h
  obtain ⟨t1, t2, t3, h1', h2', h3', h4'⟩ := h'
  rw [h1] at h1'; cases h1'
  rw [h2] at h2'; cases h2'
  rw [h3] at h3'; cases h3'
  rw [h4] at h4'; cases h4'
  exact ⟨rfl, rfl, rfl, rfl⟩

theorem Looks.found {ip off} (h : Looks p path s dp name (some (ip, off)) s') :
    ip.dev = dp.dev ∧ ∃ x, s'.icache ip = some x ∧ (ip = dp → 1 ≤ x.more) := by
  obtain ⟨s1, s2, s3, -, -, -, h4⟩ := h
  obtain ⟨hdev, x, hx, hmore⟩ := dirlookup_post dp name s3 _ _ h4 ip off rfl
  exact ⟨hdev, x, hx, fun he => hmore (.inl he)⟩

theorem create_ok (h : (create p path type major minor).exec s = .ok a s') :
    (∃ name, (nameiparentDirect p path).exec s = .ok (none, name) s' ∧ a = none) ∨
      ∃ dp name found t, Looks p path s dp name found t ∧ (match found with
          | some (ip, _) => createOld dp ip type
          | none => createNew p dp name type major minor).exec t = .ok a s' := by
  obtain ⟨⟨o, name⟩, s1, h1, h2⟩ := bind_ok h
  cases o with
  | none => cases h2; exact .inl ⟨name, h1, rfl⟩
  | some dp =>
    obtain ⟨_, s2, h3, h4⟩ := bind_ok h2
    obtain ⟨_, s3, h5, h6⟩ := bind_ok h4
    obtain ⟨found, s4, h7, h8⟩ := bind_ok h6
    refine .inr ⟨dp, name, found, s4, ⟨s1, s2, s3, h1, h3, h5, h7⟩, ?_⟩
    cases found with
    | none | some x => exact h8

theorem createOld_ok {ip} (hdev : ip.dev = dp.dev) (href : ∃ x, s.icache ip = some x ∧ (ip = dp → 1 ≤ x.more))
    (h : (createOld dp ip type).exec s = .ok a s') :
    ∃ s1 s2, (iunlockput dp).exec s = .ok () s1 ∧ (ilock ip).exec s1 = .ok () s2 ∧ s2.icache ip ≠ none ∧
      ((a = some ip ∧ s' = s2 ∧ type = tFile ∧ (s.din ip).type = tFile) ∨
        (a = none ∧ (iunlockput ip).exec s2 = .ok () s' ∧ ¬ (type = tFile ∧ (s.din ip).type = tFile))) := by
  obtain ⟨_, s1, h1, h2⟩ := bind_ok h
  obtain ⟨_, s2, h3, h4⟩ := bind_ok h2
  obtain ⟨x, s3, h5, h6⟩ := bind_ok h4
  obtain ⟨rfl, hx⟩ := inode_ok h5
  have hview : x.din = s.din ip := by
    rw [show x.din = s1.din ip from ?_]
    · exact din_iunlockput href hdev h1
    obtain ⟨hn, rfl⟩ | ⟨y, -, -, rfl⟩ := ilock_ok h3
    · rw [hn] at hx; cases hx
    · rw [setInode_icache_self] at hx; cases hx; rfl
  refine ⟨s1, s3, h1, h3, by rw [hx]; simp, ?_⟩
  rw [hview] at h6
  split at h6
  · rename_i hc
    cases h6
    exact .inl ⟨rfl, rfl, hc⟩
  rename_i hc
  obtain ⟨_, s4, h7, h8⟩ := bind_ok h6
  cases h8
  exact .inr ⟨rfl, h7, hc⟩
where
  din_iunlockput {dp ip : IRef} {s s1 : Kernel} (href : ∃ x, s.icache ip = some x ∧ (ip = dp → 1 ≤ x.more))
    (hdev : ip.dev = dp.dev) (h : (iunlockput dp).exec s = .ok () s1) : s1.din ip = s.din ip := by
    obtain ⟨_, s0, h1, h2⟩ := bind_ok h
    obtain ⟨x, hx, hmore⟩ := href
    by_cases hne : ip = dp
    · subst hne
      rw [iunlock_some hx] at h1; cases h1
      have hm := hmore rfl
      obtain ⟨y, hy, ⟨-, rfl⟩ | ⟨hd, -⟩⟩ := iput1_ok h2
      · rw [setInode_icache_self] at hy
        cases hy
        have hm' : ¬ x.more = 0 := by omega
        simp only [drop, hm', ↓reduceIte, setInode_setInode]
        simp [din, diskInode, hx]
      · rw [setInode_icache_self] at hy
        cases hy
        have : x.more = 0 := (of_decide_eq_true hd).1
        omega
    · rw [(iput1_din h2 hne hdev).2]
      cases hdp : s.icache dp with
      | none => rw [iunlock_none hdp] at h1; cases h1; rfl
      | some y => rw [iunlock_some hdp] at h1; cases h1; exact s.din_setInode_of_ne _ hne

theorem newInode_ok {dev} (h : (newInode p dev type major minor).exec s = .ok a s') :
    (a = none ∧ (s.disk dev).inodesFull ∧ (ialloc dev type).exec s = .ok none s') ∨
      ∃ ip, a = some ip ∧ ip.dev = dev ∧ ¬ (s.disk dev).inodesFull := by
  obtain ⟨o, s1, h1, h2⟩ := bind_ok h
  obtain ⟨hdev, hfull⟩ := ialloc_post dev type s o s1 h1
  cases o with
  | none => cases h2; exact .inl ⟨rfl, hfull.mp rfl, h1⟩
  | some ip =>
    obtain ⟨_, s2, -, h3⟩ := bind_ok h2
    obtain ⟨_, s3, -, h4⟩ := bind_ok h3
    obtain ⟨_, s4, -, h5⟩ := bind_ok h4
    obtain ⟨_, s5, -, h6⟩ := bind_ok h5
    cases h6
    exact .inr ⟨ip, rfl, hdev ip rfl, fun hc => by cases hfull.mpr hc⟩

inductive CreateEnds (p : Nat) (path : Path) (type major minor : Int16) (s : Kernel) : Option IRef → Kernel → Prop
  | orphan {name : List UInt8} {s' : Kernel} (hparent : (nameiparentDirect p path).exec s = .ok (none, name) s') :
    CreateEnds p path type major minor s none s'
  | opened {dp ip name off t t1 s'}
    (hlook : Looks p path s dp name (some (ip, off)) t) (hfile : type = tFile ∧ (t.din ip).type = tFile)
    (hput : (iunlockput dp).exec t = .ok () t1) (hlock : (ilock ip).exec t1 = .ok () s') (hin : s'.icache ip ≠ none) :
      CreateEnds p path type major minor s (some ip) s'
  | taken {dp ip name off t t1 t2 s'} (hlook : Looks p path s dp name (some (ip, off)) t)
    (hfile : ¬ (type = tFile ∧ (t.din ip).type = tFile))
    (hput : (iunlockput dp).exec t = .ok () t1) (hlock : (ilock ip).exec t1 = .ok () t2)
    (hin : t2.icache ip ≠ none) (hput' : (iunlockput ip).exec t2 = .ok () s') :
      CreateEnds p path type major minor s none s'
  | full {dp name t t1 s'} (hlook : Looks p path s dp name none t)
    (hfull : (t.disk dp.dev).inodesFull) (halloc : (ialloc dp.dev type).exec t = .ok none t1)
    (herr : (seterr p "filesystem full: could not alloc inode").exec t1 = .ok () s') :
    CreateEnds p path type major minor s none s'
  | dotless {dp ip name t t1 t2 s'} (hlook : Looks p path s dp name none t) (htype : type = tDir)
    (hnew : (newInode p dp.dev type major minor).exec t = .ok (some ip) t1)
    (hdots : (mkdots dp ip).exec t1 = .ok false t2)
    (herr : (seterr p "unable to create links . and ..").exec t2 = .ok () s') :
    CreateEnds p path type major minor s none s'
  | made {dp ip name n t t1 t2 t3 s'}
    (hlook : Looks p path s dp name none t) (hdev : ip.dev = dp.dev) (hfree : ¬ (t.disk dp.dev).inodesFull)
    (hnew : (newInode p dp.dev type major minor).exec t = .ok (some ip) t1)
    (hdots : (type = tDir ∧ (mkdots dp ip).exec t1 = .ok true t2) ∨ (type ≠ tDir ∧ t2 = t1))
    (hlink : (dirlink dp name ip.inum).exec t2 = .ok n t3) (hput : (iunlockput dp).exec t3 = .ok () s') :
      CreateEnds p path type major minor s (some ip) s'

theorem createNew_ends (hlook : Looks p path s dp name none t)
    (h : (createNew p dp name type major minor).exec t = .ok a s') : CreateEnds p path type major minor s a s' := by
  obtain ⟨o, t1, h1, h2⟩ := bind_ok h
  rcases newInode_ok h1 with ⟨rfl, hfull, halloc⟩ | ⟨ip, rfl, hdev, hfree⟩
  · obtain ⟨_, t2, h3, h4⟩ := bind_ok h2; cases h4; exact .full hlook hfull halloc h3
  obtain ⟨dots, t2, h3, h4⟩ := bind_ok h2
  have hd : (type = tDir ∧ (mkdots dp ip).exec t1 = .ok dots t2) ∨ (type ≠ tDir ∧ dots = true ∧ t2 = t1) := by
    split at h3
    · exact .inl ⟨‹_›, h3⟩
    · cases h3; exact .inr ⟨‹_›, rfl, rfl⟩
  cases dots with
  | false =>
    obtain ⟨_, t3, h5, h6⟩ := bind_ok h4
    cases h6
    obtain ⟨ht, hdots⟩ | ⟨-, hc, -⟩ := hd
    · exact .dotless hlook ht h1 hdots h5
    · cases hc
  | true =>
    obtain ⟨n, t3, h5, h6⟩ := bind_ok h4
    split at h6
    · simp [exec_panic] at h6
    obtain ⟨_, t4, h7, h8⟩ := bind_ok h6
    cases h8
    exact .made hlook hdev hfree h1 (hd.imp id fun h => ⟨h.1, h.2.2⟩) h5 h7

theorem create_ends (h : (create p path type major minor).exec s = .ok a s') :
    CreateEnds p path type major minor s a s' := by
  obtain ⟨name, hn, rfl⟩ | ⟨dp, name, found, t, hlook, ht⟩ := create_ok h
  · exact .orphan hn
  cases found with
  | none => exact createNew_ends hlook ht
  | some x =>
    obtain ⟨ip, off⟩ := x
    obtain ⟨hdev, href⟩ := hlook.found
    obtain ⟨t1, t2, h1, h2, hin, ⟨rfl, rfl, hf⟩ | ⟨rfl, h3, hf⟩⟩ := createOld_ok hdev href ht
    · exact .opened hlook hf h1 h2 hin
    · exact .taken hlook hf h1 h2 hin h3

theorem Looks.not_noInode {x} (h : Looks p path s dp name (some x) t) (dev : Nat) : ¬ NoInode p path s dev := by
  rintro ⟨_, _, _, h', -⟩
  obtain ⟨-, -, hf, -⟩ := h.unique h'
  cases hf

theorem Looks.not_noDots {x} (h : Looks p path s dp name (some x) t) (dev : Nat) :
    ¬ NoDots p path type major minor s dev := by
  rintro ⟨-, _, _, _, _, _, _, h', -⟩
  obtain ⟨-, -, hf, -⟩ := h.unique h'
  cases hf

theorem Looks.not_nameTaken (h : Looks p path s dp name none t) (dev : Nat) : ¬ NameTaken p path type s dev := by
  rintro ⟨_, _, _, _, _, h', -⟩
  obtain ⟨-, -, hf, -⟩ := h.unique h'
  cases hf

end

/-! ## A file system without free inodes -/

def emptyRoot : Dinode := { Dinode.zero with type := tDir, nlink := 1 }

def crowdedDisk : Disk where
  present := true
  mounted := true
  sb := { size := 100, nblocks := 66, ninodes := 2, nlog := 30, logstart := 2, inodestart := 32, bmapstart := 33 }
  log := { start := 2, size := 30, outstanding := 0, committing := false, lh := [] }
  cache b := if b = 32 then Bytes.zero.setDinode 1 emptyRoot else Bytes.zero
  platter b := if b = 32 then Bytes.zero.setDinode 1 emptyRoot else Bytes.zero
  busy _ := false

def crowded : Kernel where
  disk _ := crowdedDisk
  icache r := if r = ⟨1, 1⟩ then some ⟨1, false, true, true, emptyRoot⟩ else none
  slots := 1
  stale _ := Dinode.zero
  rootdir := ⟨1, 1⟩
  file _ := none
  proc _ := ⟨-1, false, fun _ => none, some ⟨1, 1⟩, none, false, [], ""⟩
  singleuser := false
  answers _ := ⟨0, [], false, false⟩
  asked := 0

def mkdirA : Call := .mkdir (some [97]) none

theorem mkdirA_run : ∃ s', (mkdirA.run 0).exec crowded = .ok (-1) s' ∧
    (s'.disk 1).log.outstanding = 1 ∧ (s'.icache ⟨1, 1⟩).any (·.busy) = true := by
  have hrun : ((mkdirA.run 0).exec crowded).yields (fun v s' => v = -1 ∧ (s'.disk 1).log.outstanding = 1 ∧
    (s'.icache ⟨1, 1⟩).any (·.busy) = true) = true := by decide +kernel
  obtain ⟨v, s', he, h⟩ := Res.yields_ok hrun
  obtain ⟨rfl, hopen, hbusy⟩ := of_decide_eq_true h
  exact ⟨s', he, hopen, hbusy⟩

end Xv6Vsd
