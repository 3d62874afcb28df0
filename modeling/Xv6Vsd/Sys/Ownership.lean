import Xv6Vsd.Fs.Blank
import Xv6Vsd.Sys.Lemmas.Sane

/-! # Every block has one owner -/

namespace Xv6Vsd

open Prog Function Disk

section

variable {S : Nat → Superblock} {L : IRef → Bool}

/-! ## Creating -/

variable {p off : Nat} {type major minor : Int16} {s s' : Kernel} {dp ip r : IRef} {b : Bool}

theorem newInode_at {dev a} (hs : At S L s) (he : (newInode p dev type major minor).exec s = .ok a s') :
    (a = none ∧ At S L s') ∨ ∃ ip, a = some ip ∧ ip.dev = dev ∧ ip.inum < (S dev).ninodes ∧ L ip = false ∧
        At S (update L ip true) s' := by
  obtain ⟨o, s1, h1, h2⟩ := bind_ok he
  obtain ⟨hs1, hip⟩ := Sane.ialloc dev type s o s1 hs h1
  cases o with
  | none => cases h2; exact .inl ⟨rfl, hs1⟩
  | some ip =>
    obtain ⟨hdev, hlt⟩ := hip ip rfl
    obtain ⟨hs', rfl, hfree⟩ := Sane.ilock (Q := fun a => a = some ip ∧ L ip = false)
      (fun _ => needs_peek fun _ => needs_modDin.bind) (fun hip _ => (Sane.peek _).bind fun uid _ =>
        .update (update_self ..) (by exact ⟨fun _ _ => rfl, fun _ => rfl⟩) fun _ => .pure ⟨rfl, hip⟩) s1 a s' hs1 h2
    exact .inr ⟨ip, rfl, hdev, hlt, hfree, hs'⟩

theorem sane_mkdots (hdp : L dp = true) (hip : L ip = true) (hdev : ip.dev = dp.dev) :
    Sane S L L (fun _ => True) (mkdots dp ip) := by
  refine .of_locked hdp fun hltd => .of_locked hip fun hlti => ?_
  refine .update hdp (by exact ⟨fun _ _ => rfl, fun _ => rfl⟩) fun _ => (Sane.dirlink hip dot hlti).bind fun n _ => ?_
  split
  · exact .pure trivial
  · exact (Sane.dirlink hip dotdot (by rw [hdev]; exact hltd)).bind fun n _ => .pure trivial

theorem safe_createNew {name} (hdp : L dp = true) : Safe S L (createNew p dp name type major minor) := by
  intro s a s' hs he
  obtain ⟨o, s1, h1, h2⟩ := bind_ok he
  obtain ⟨rfl, hs1⟩ | ⟨ip, rfl, hdev, hlt, hfree, hs1⟩ := newInode_at hs h1
  · exact ((Sane.seterr p _).then fun _ _ => safe_pure none) s1 a s' hs1 h2
  have hne : dp ≠ ip := fun hc => by
    simp [← hc, hdp] at hfree
  have hdp' : update L ip true dp = true := by rw [update_of_ne hne, hdp]
  have hip' : update L ip true ip = true := update_self ..
  refine (?_ : Safe S (update L ip true) _) s1 a s' hs1 h2
  have hdots : Sane S (update L ip true) (update L ip true) (fun _ => True)
    (if type = tDir then mkdots dp ip else pure true) := by
    split
    · exact sane_mkdots hdp' hip' hdev
    · exact .pure trivial
  refine hdots.then fun dots _ => ?_
  split
  · exact (Sane.seterr p _).then fun _ _ => safe_pure none
  refine (Sane.dirlink hdp' name hlt).then fun linked _ => ?_
  split
  · have hpanic : Sane S (update L ip true) (update L ip true) (fun _ => True)
      (Xv6Vsd.panic "create: dirlink" : K (Option IRef)) := .panic _
    exact hpanic.safe
  · exact Sane.iunlockput.then fun _ _ => safe_pure (some ip)

theorem safe_createOld : Safe S L (createOld dp ip type) := by
  refine Sane.iunlockput.then fun _ _ => safe_ilock (fun _ => needs_inode) fun _ _ => (Sane.inode ip).then fun x _ => ?_
  split
  · exact safe_pure _
  · exact Sane.iunlockput.then fun _ _ => safe_pure none

theorem safe_create {path} : Safe S L (create p path type major minor) := by
  refine (Sane.namex p path true true).then fun res _ => ?_
  obtain ⟨o, name⟩ := res
  cases o with
  | none => exact safe_pure none
  | some dp =>
    refine (Sane.beginOp dp.dev).then fun _ _ => safe_ilock (fun _ => needs_dirlookup.bind) fun _ _ => ?_
    refine (Sane.dirlookup (update_self ..) name).then fun found _ => ?_
    cases found with
    | some x => exact safe_createOld
    | none => exact safe_createNew (update_self ..)

/-! ## Linking -/

theorem safe_linkBad : Safe S L (sysLink.bad ip) := by
  apply safe_ilock (fun _ => needs_modDin.bind)
  intro _ _
  refine (Sane.modDin (by exact ⟨fun _ _ => rfl, fun _ => rfl⟩)).then fun _ _ => ?_
  exact (Sane.iupdate (update_self ..)).then fun _ _ => Sane.iunlockput.then fun _ _ =>
    (Sane.endOp ip.dev).then fun _ _ => safe_pure _

theorem safe_linkInto {name} (hlt : ip.inum < (S ip.dev).ninodes) (hip : L ip = false) : Safe S L (do
      ilock dp
      let linked ← (if dp.dev ≠ ip.dev then pure (-1) else dirlink dp name ip.inum)
      if linked < 0 then
        iunlockput dp
        seterr p "can not link across devices"
        sysLink.bad ip
      else
        iunlockput dp
        iput ip
        endOp ip.dev
        pure 0 : K Int) := by
  apply safe_ilock
  · intro _
    by_cases hdev : dp.dev ≠ ip.dev
    · simp only [if_pos hdev]; exact needs_iunlockput.bind
    · simp only [if_neg hdev]; exact needs_dirlink.bind
  intro hdp _
  have hput := Sane.iunlockput (S := S) (L := update L dp true) (r := dp)
  rw [update_unlock hdp] at hput
  have hlink : Sane S (update L dp true) (update L dp true) (fun _ => True)
    (if dp.dev ≠ ip.dev then pure (-1) else dirlink dp name ip.inum : K Int) := by
    split
    · exact .pure trivial
    · rename_i hdev
      exact Sane.dirlink (update_self ..) name (by rw [not_not.mp hdev]; exact hlt)
  apply hlink.then
  intro n _
  split
  · exact hput.then fun _ _ => (Sane.seterr p _).then fun _ _ => safe_linkBad
  · exact hput.then fun _ _ => (Sane.iput hip).then fun _ _ => (Sane.endOp ip.dev).then fun _ _ => safe_pure 0

theorem safe_sysLink {old new} : Safe S L (sysLink p old new) := by
  unfold sysLink
  split
  · rename_i old new
    refine (Sane.nameiDirect p old).then fun o _ => ?_
    cases o with
    | none => exact (Sane.seterr p _).then fun _ _ => safe_pure _
    | some ip =>
      refine (Sane.beginOp ip.dev).then fun _ _ => safe_ilock (fun _ => needs_inode) fun hip _ =>
        (Sane.inode ip).then fun x hlt => ?_
      have hunlock := Sane.iunlock (S := S) (L := update L ip true) (r := ip)
      rw [update_unlock hip] at hunlock
      split
      · exact Sane.iunlockput.then fun _ _ => (Sane.endOp ip.dev).then fun _ _ =>
          (Sane.seterr p _).then fun _ _ => safe_pure _
      apply (Sane.modDin (by exact ⟨fun _ _ => rfl, fun _ => rfl⟩)).then
      intro _ _
      apply (Sane.iupdate (update_self ..)).then
      refine fun _ _ => hunlock.then fun _ _ => (Sane.namex p new true false).then fun found _ => ?_
      obtain ⟨o, name⟩ := found
      cases o with
      | none => exact (Sane.seterr p _).then fun _ _ => safe_linkBad
      | some dp => exact safe_linkInto hlt hip
  · exact safe_pure _

/-! ## Unlinking -/

theorem isdiremptyFrom_keep (h : s.Consistent) (hin : InCore s r tDir) {fuel} (hoff : off % 16 = 0)
    (he : (isdiremptyFrom r fuel off).exec s = .ok b s') : Kept s s' r tDir := by
  induction fuel generalizing s off with
  | zero => cases he; exact .refl h hin
  | succ fuel ih =>
    obtain ⟨x, -, h2⟩ := inode_bind he
    split at h2
    · obtain ⟨de, s2, h3, h4⟩ := bind_ok h2
      have hk := (readDirent_keep h hin hoff h3).1
      split at h4
      · cases h4; exact hk
      · exact hk.trans (ih hk.ok hk.inCore (by omega) h4)
    · cases h2; exact .refl h hin

theorem isdirempty_keep (h : s.Consistent) (hin : InCore s r tDir) (he : (isdirempty r).exec s = .ok b s') :
    Kept s s' r tDir := by
  obtain ⟨x, -, h2⟩ := inode_bind he
  exact isdiremptyFrom_keep h hin rfl h2

theorem erase_keep (hs : At S L s) (hin : InCore s dp tDir) (hoff : off % 16 = 0) (hdp : L dp = true)
    (hip : L ip = true) (hne : ip ≠ dp) {v} (he : (sysUnlink.erase dp ip off).exec s = .ok v s') :
    s'.Consistent := by
  obtain ⟨n, s1, h1, h2⟩ := bind_ok he
  have hs1 : At S L s1 := ⟨(writeEntry_keep hs.ok hin hoff (.inl rfl) h1).ok,
      fun dev => (keeps_sb plain_frames.writei h1 dev).trans (hs.sb dev),
      (flow_held dp).writei.takes hdp s n s1 hs.locked h1⟩
  have hip' : update L dp false ip = true := by rw [update_of_ne hne]; exact hip
  split at h2
  · simp [exec_panic] at h2
  refine (Sane.then (Sane.inode ip) fun x _ => ?_) s1 v s' hs1 h2
  apply (Sane.onlyIf _).then
  · intro _ _
    refine Sane.iunlockput.then fun _ _ => (Sane.modDin (by exact ⟨fun _ _ => rfl, fun _ => rfl⟩)).then fun _ _ => ?_
    exact (Sane.iupdate hip').then fun _ _ => Sane.iunlockput.then fun _ _ =>
      (Sane.endOp dp.dev).then fun _ _ => safe_pure 0
  · exact (Sane.modDin (by exact ⟨fun _ _ => rfl, fun _ => rfl⟩)).bind fun _ _ => Sane.iupdate hdp

theorem safe_unlinkBad : Safe S L (sysUnlink.bad dp) :=
  Sane.iunlockput.then fun _ _ => (Sane.endOp dp.dev).then fun _ _ => safe_pure _

theorem full_keep {x} (h : s.Consistent) (hc : Cached s r x)
    (he : (if x.din.type = tDir then (!·) <$> isdirempty r else pure false : K Bool).exec s = .ok b s') :
    s'.Consistent ∧ ∀ r', r' ≠ r → s'.icache r' = s.icache r' := by
  split at he
  · rename_i ht
    obtain ⟨c, s1, h1, h2⟩ := bind_ok he
    cases h2
    have hk := isdirempty_keep h ⟨x, hc, ht⟩ h1
    exact ⟨hk.ok, hk.others⟩
  · cases he; exact ⟨h, fun _ _ => rfl⟩

theorem unlinkFound_keep {v} (hs : At S L s) (hin : InCore s dp tDir) (hoff : off % 16 = 0) (hdp : L dp = true)
    (he : (do
      ilock ip
      let x ← inode ip
      let denied ← peek fun s => checkinodeperm s p x.din .unlink
      if denied ≠ 0 then
        seterr p "cannot unlink file"
        sysUnlink.bad dp
      else
        if x.din.nlink < 1 then panic "unlink: nlink < 1"
        else
          let full ← (if x.din.type = tDir then (!·) <$> isdirempty ip else pure false)
          if full then
            iunlockput ip
            seterr p "directory not empty"
            sysUnlink.bad dp
          else sysUnlink.erase dp ip off : K Int).exec s = .ok v s') :
    s'.Consistent := by
  obtain ⟨u, s0, h1, h2⟩ := bind_ok he
  obtain ⟨x, s1, h3, h4⟩ := bind_ok h2
  obtain ⟨rfl, hx⟩ := inode_ok h3
  have hc := ilock_cached h1 hx
  have hs1 : At S (update L ip true) s1 ∧ L ip = false ∧ s1.icache dp = s.icache dp := by
    obtain ⟨hn, rfl⟩ | ⟨y, hy, hb, hs1⟩ := ilock_ok h1
    · rw [hx] at hn; cases hn
    have hfree : L ip = false := by rw [← hs.locked, Kernel.locked_eq hy, hb]
    have hne : dp ≠ ip := fun h => by
      rw [← h, hdp] at hfree; cases hfree
    obtain ⟨hn, -⟩ | ⟨-, hl⟩ := ilock_locked h1
    · rw [hx] at hn; cases hn
    refine ⟨⟨hs.ok.ilock h1, fun dev => ?_, by rw [hl, hs.locked]⟩, hfree, ?_⟩
    · rw [keeps_sb plain_frames.ilock h1, hs.sb]
    · rw [hs1, Kernel.setInode_icache_of_ne _ _ hne]
  obtain ⟨hat, hfree, hsame⟩ := hs1
  have hne : ip ≠ dp := fun h => by
    rw [h, hdp] at hfree; cases hfree
  have h6 := peek_bind h4
  split at h6
  · exact ((Sane.seterr p _).then fun _ _ => safe_unlinkBad) s1 v s' hat h6
  split at h6
  · rw [exec_panic] at h6; cases h6
  obtain ⟨full, s4, h7, h8⟩ := bind_ok h6
  obtain ⟨hok, hothers⟩ := full_keep hat.ok hc h7
  have hat4 : At S (update L ip true) s4 := by
    refine ⟨hok, fun dev => (keeps_sb ?_ h7 dev).trans (hat.sb dev), ?_⟩
    · split
      · exact (plain_frames.flow ip).isdirempty.map
      · exact made_ret _
    split at h7
    · obtain ⟨c, s5, h9, h10⟩ := bind_ok h7
      cases h10
      exact (held_isdirempty ip).takes (update_self ..) _ _ _ hat.locked h9
    · cases h7; exact hat.locked
  split at h8
  · exact (Sane.iunlockput.then fun _ _ => (Sane.seterr p _).then fun _ _ => safe_unlinkBad) s4 v s' hat4 h8
  obtain ⟨y, hcy, hty⟩ := hin
  have hdp4 : s4.icache dp = s.icache dp := (hothers dp hne.symm).trans hsame
  have hin4 : InCore s4 dp tDir := ⟨y, ⟨hdp4.trans hcy.entry, hcy.valid⟩, hty⟩
  exact erase_keep hat4 hin4 hoff (by rw [update_of_ne hne.symm]; exact hdp) (update_self ..) hne h8

theorem safe_sysUnlink {path} : Safe S L (sysUnlink p path) := by
  cases path with
  | none => exact safe_pure _
  | some path =>
    refine (Sane.namex p path true true).then fun res _ => ?_
    obtain ⟨o, name⟩ := res
    cases o with
    | none => exact (Sane.seterr p _).then fun _ _ => safe_pure _
    | some dp =>
      refine (Sane.beginOp dp.dev).then fun _ _ => ?_
      by_cases hname : (namecmp name dot || namecmp name dotdot) = true
      · simp only [if_pos hname]
        refine safe_ilock (fun _ => needs_seterr fun _ => needs_iunlockput.bind) fun _ _ => ?_
        exact (Sane.seterr p _).then fun _ _ => safe_unlinkBad
      simp only [if_neg hname]
      refine safe_ilock (fun _ => needs_dirlookup.bind) fun _ _ s v s' hs he => ?_
      obtain ⟨found, s1, h1, h2⟩ := bind_ok he
      obtain ⟨x, hc⟩ := hs.ok.cached (r := dp) (by rw [hs.locked]; exact update_self ..)
      obtain ⟨-, hin, hoff⟩ := dirlookup_keep hs.ok hc h1
      have hs1 := (Sane.dirlookup (update_self ..) name s found s1 hs h1).1
      cases found with
      | none => exact ((Sane.seterr p _).then fun _ _ => safe_unlinkBad) s1 v s' hs1 h2
      | some x => exact unlinkFound_keep hs1 hin (hoff x.1 x.2 rfl) (update_self ..) h2

end

/-! ## Runs -/

/-- One call to the file system that returns. An inode is written to by the process that has it locked,
and directories are written to by `dirlink` and `sys_unlink` only. -/
inductive FsStep : Kernel → Kernel → Prop
  | beginOp {s s' dev} : (beginOp dev).exec s = .ok () s' → FsStep s s'
  | endOp {s s' dev} : (endOp dev).exec s = .ok () s' → FsStep s s'
  | iget {s s' dev inum a} (hm : (s.disk dev).mounted = true) (hlt : inum < (s.disk dev).sb.ninodes) :
    (iget dev inum).exec s = .ok a s' → FsStep s s'
  | idup {s s' o a} : (idup o).exec s = .ok a s' → FsStep s s'
  | ilock {s s' r} : (ilock r).exec s = .ok () s' → FsStep s s'
  | iunlock {s s' r} : (iunlock r).exec s = .ok () s' → FsStep s s'
  | ialloc {s s' dev type a} :
    (ialloc dev type).exec s = .ok a s' → FsStep s s'
  | writei {s s' r ip src off n v} (hip : s.icache r = some ip) (hl : ip.busy = true) (hdir : ip.din.type ≠ tDir)
    (hraw : ip.din.type = tDev → ip.din.major ≠ rawDisk) :
    (writei r src off n).exec s = .ok v s' → FsStep s s'
  | dirlink {s s' r name inum v} (hl : s.locked r = true) (hlt : inum < (s.disk r.dev).sb.ninodes) :
    (dirlink r name inum).exec s = .ok v s' → FsStep s s'
  | create {s s' p path type major minor a} :
    (create p path type major minor).exec s = .ok a s' → FsStep s s'
  | link {s s' p old new v} :
    (sysLink p old new).exec s = .ok v s' → FsStep s s'
  | unlink {s s' p path v} : (sysUnlink p path).exec s = .ok v s' → FsStep s s'
  | iput {s s' r direct} : (iput1 r direct).exec s = .ok () s' → FsStep s s'

variable {s : Kernel}

theorem Kernel.Consistent.at_self (h : s.Consistent) :
    At (fun dev => (s.disk dev).sb) s.locked s := ⟨h, fun _ => rfl, rfl⟩

theorem FsStep.consistent {s'} (hstep : FsStep s s') (h : s.Consistent) : s'.Consistent := by
  cases hstep with
  | beginOp he => exact h.beginOp he
  | endOp he => exact h.endOp he
  | iget hm hlt he => exact h.iget hm hlt he
  | idup he => exact h.idup he
  | ilock he => exact h.ilock he
  | iunlock he => exact h.iunlock he
  | ialloc he => exact h.ialloc he
  | writei hip hl hdir hraw he =>
    have hc : Cached s _ _ := ⟨hip, (h.at hip).loaded _ _ hip hl⟩
    exact (writei_keep h hc hraw (fun ht => absurd ht hdir) he).ok
  | dirlink hl hlt he => obtain ⟨ip, hc⟩ := h.cached hl; exact dirlink_keep h hc hlt he
  | create he => exact safe_create s _ s' h.at_self he
  | link he => exact safe_sysLink s _ s' h.at_self he
  | unlink he => exact safe_sysUnlink s _ s' h.at_self he
  | iput he => exact h.iput1 he

def Disk.allocated (d : Disk) (i : Nat) : Dinode :=
  if (diskIn d.sb d.cache i).type = 0 then Dinode.zero else diskIn d.sb d.cache i

/-- The block numbers stored in an allocated inode or in one of its indirect blocks. -/
def Disk.stored (d : Disk) : Place → Nat := blockAt d.sb.ninodes d.allocated d.cache

/-- Each of them is below `sb.size`, is no metadata block, is marked in the bitmap and occurs once. -/
def Disk.OwnsBlocks (d : Disk) : Prop :=
  Owned d.stored fun b => d.sb.metaEnd ≤ b ∧ b < d.sb.size ∧ markedIn d.sb d.cache b = true

theorem Sound.ownsBlocks {dev} (h : Sound s dev) : (s.disk dev).OwnsBlocks := by
  have haddr : ∀ i < (s.disk dev).sb.ninodes, ∀ k, ((s.disk dev).allocated i).addr k = 0 ∨
    ((s.disk dev).allocated i).addr k = (s.view dev i).addr k := by
    intro i hi k
    unfold allocated
    split
    · exact .inl (Dinode.addr_zero k)
    · exact or_iff_not_imp_left.mpr fun hk => (h.fit.coherent i hi k hk).1
  apply h.fit.tidy.owned.sub
  intro p
  cases p with
  | ind i k | dat i k j =>
    by_cases hi : i < (s.disk dev).sb.ninodes
    · rcases haddr i hi k with h0 | h0 <;> simp [stored, blockAt, hi, h0]
    · simp [stored, blockAt, hi]

theorem run_consistent {s'} (h : s.Consistent) (hrun : Relation.ReflTransGen FsStep s s') : s'.Consistent := by
  induction hrun with
  | refl => exact h
  | tail _ hstep ih => exact hstep.consistent ih

/-- Every run from a consistent state ends in a consistent state, in which the block numbers on every
mounted disk are owned once. -/
theorem run_ownsBlocks {s s' : Kernel} (h : s.Consistent) (hrun : Relation.ReflTransGen FsStep s s') :
    s'.Consistent ∧ ∀ dev, (s'.disk dev).mounted = true → (s'.disk dev).OwnsBlocks := by
  have hok := run_consistent h hrun
  exact ⟨hok, fun dev hm => (hok.sound dev hm).ownsBlocks⟩

/-! ### A run on a small disk -/

/-- On a blank disk a file is created, locked and one byte written to it; the state then passes `check`. -/
def firstByte (bits : Block) (check : Kernel → Bool) : Bool := match (ialloc 1 tFile).exec (blank bits) with
  | .ok (some r) s1 =>
    match (ilock r).exec s1 with
    | .ok () s2 =>
      match s2.icache r with
      | some ip => ip.busy && ip.din.type == tFile &&
        match (writei r (fun _ => 7) 0 1).exec s2 with
        | .ok _ s3 => check s3
        | _ => false
      | none => false
    | _ => false
  | _ => false

theorem firstByte_run (bits : Block) (check : Kernel → Bool) (h : firstByte bits check = true) :
    ∃ s, Relation.ReflTransGen FsStep (blank bits) s ∧ check s = true := by
  unfold firstByte at h
  split at h
  · rename_i r s1 h1
    split at h
    · rename_i s2 h2
      split at h
      · rename_i ip hip
        simp only [Bool.and_eq_true, beq_iff_eq] at h
        obtain ⟨⟨hbusy, htype⟩, h⟩ := h
        have hne : ip.din.type ≠ tDir := by rw [htype]; decide
        have hraw : ip.din.type = tDev → ip.din.major ≠ rawDisk := fun hdev => by
          rw [htype] at hdev
          exact absurd hdev (by decide)
        split at h
        · rename_i s3 h3
          exact ⟨s3, ((Relation.ReflTransGen.single (.ialloc h1)).tail (.ilock h2)).tail
            (.writei hip hbusy hne hraw h3), h⟩
        · cases h
      · cases h
    · cases h
  · cases h

theorem run_ownsBlocks_firstByte : ∃ s, (blank metaBits).Consistent ∧
    Relation.ReflTransGen FsStep (blank metaBits) s ∧ (s.disk 1).OwnsBlocks ∧
    (s.disk 1).stored (.ind 1 0) = 5 ∧ (s.disk 1).stored (.dat 1 0 0) = 6 := by
  have h0 : (blank metaBits).Consistent := blank_consistent (by decide +kernel)
  obtain ⟨s, hrun, hs⟩ := firstByte_run metaBits (fun s => (s.disk 1).mounted && (s.disk 1).stored (.ind 1 0) == 5 &&
      (s.disk 1).stored (.dat 1 0 0) == 6) (by decide +kernel)
  simp only [Bool.and_eq_true, beq_iff_eq] at hs
  exact ⟨s, h0, hrun, (run_ownsBlocks h0 hrun).2 1 hs.1.1, hs.1.2, hs.2⟩

/-- Owning the stored block numbers is not enough: where the bitmap does not mark the metadata, a file
is given the superblock. -/
theorem unmarked_metadata_is_allocated : ∃ s s', (∀ dev, (s.disk dev).OwnsBlocks) ∧
    Relation.ReflTransGen FsStep s s' ∧ ¬ (s'.disk 1).OwnsBlocks := by
  obtain ⟨s', hrun, hs⟩ := firstByte_run (Bytes.zero.setBit 0)
    (fun s => (s.disk 1).stored (.ind 1 0) == 1 && (s.disk 1).sb.metaEnd == 5) (by decide +kernel)
  simp only [Bool.and_eq_true, beq_iff_eq] at hs
  refine ⟨_, s', fun dev => ?_, hrun, fun h => ?_⟩
  · have hzero : ∀ i < 8, (blankDisk (Bytes.zero.setBit 0)).allocated i = Dinode.zero := fun i hi => by
      rw [allocated, blank_diskIn _ hi]
      rfl
    have htable : ∀ p, (blankDisk (Bytes.zero.setBit 0)).stored p = 0 :=
      blockAt_blank fun i hi k => by rw [hzero i hi, Dinode.addr_zero]
    exact ⟨fun p hp => absurd (htable p) hp, fun p q hp => absurd (htable p) hp⟩
  · have hge := (h.good (.ind 1 0) (by rw [hs.1]; decide)).1
    rw [hs.1, hs.2] at hge
    exact absurd hge (by decide)

end Xv6Vsd
