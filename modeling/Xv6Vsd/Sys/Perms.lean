import Xv6Vsd.Fs.Blank
import Xv6Vsd.Sys.Lemmas.Identity

/-! # Whom the permission bits are for (`file.c`) -/

namespace Xv6Vsd

open Prog Bool

def userGrants (perms : UInt8) : FileOp → Bool
  | .read => permBit perms 0
  | .write => permBit perms 1
  | .exec => permBit perms 0 && permBit perms 2
  | .open => permBit perms 0 || permBit perms 1
  | .unlink => permBit perms 0 && permBit perms 1

def worldGrants (perms : UInt8) : FileOp → Bool
  | .read => permBit perms 4
  | .write => permBit perms 5
  | .exec => permBit perms 4 && permBit perms 6
  | .open => permBit perms 4 || permBit perms 5
  | .unlink => permBit perms 4 && permBit perms 5

def goesByUser (uid : Int) (owner : Int16) : FileOp → Bool
  | .open | .unlink => owner != 0
  | _ => owner.toInt == uid

section

variable {s s' : Kernel} {p : Nat} {d d' : Dinode} {op : FileOp}

theorem checkinodeperm_multiuser (h : s.singleuser = false) (d : Dinode) (op : FileOp) : checkinodeperm s p d op =
    if (goesByUser (s.proc p).uid d.owner op && userGrants d.perms op) || worldGrants d.perms op then 0 else 1 := by
  cases op <;> simp [checkinodeperm, h, goesByUser, userGrants, worldGrants]

theorem checkinodeperm_eq_zero (h : s.singleuser = false) : checkinodeperm s p d op = 0 ↔
    goesByUser (s.proc p).uid d.owner op = true ∧ userGrants d.perms op = true ∨ worldGrants d.perms op = true := by
  rw [checkinodeperm_multiuser h, ← and_eq_true, ← or_eq_true]
  split
  · exact iff_of_true rfl ‹_›
  · exact iff_of_false (by decide) ‹_›

theorem permBit_world (a : UInt8) {bit} (h : bit = 4 ∨ bit = 5 ∨ bit = 6) :
    permBit a bit = permBit (a &&& 0xf0) bit := by
  rcases h with rfl | rfl | rfl <;> · rw [permBit, permBit, UInt8.and_assoc]; rfl

theorem worldGrants_congr {a b} (h : a &&& 0xf0 = b &&& 0xf0) (op : FileOp) : worldGrants a op = worldGrants b op := by
  have hbit : ∀ bit, bit = 4 ∨ bit = 5 ∨ bit = 6 → permBit a bit = permBit b bit := fun bit hb => by
    rw [permBit_world a hb, permBit_world b hb, h]
  have h4 := hbit 4 (by simp)
  have h5 := hbit 5 (by simp)
  have h6 := hbit 6 (by simp)
  cases op <;> simp [worldGrants, h4, h5, h6]

/-- The `U_*` bits of the files of `owner` are for the owner only, as process `p` meets them. -/
structure OwnerBits (s : Kernel) (p : Nat) (owner : Int16) (op : FileOp) : Prop where
  others : owner.toInt ≠ (s.proc p).uid → ∀ d d' : Dinode, d.owner = owner → d'.owner = owner →
    d.perms &&& 0xf0 = d'.perms &&& 0xf0 → checkinodeperm s p d op = checkinodeperm s p d' op
  owner : owner.toInt = (s.proc p).uid → ∀ d : Dinode, d.owner = owner → userGrants d.perms op = true →
    checkinodeperm s p d op = 0

def AsksOwner (uid : Int) (owner : Int16) (op : FileOp) : Prop := goesByUser uid owner op = true ↔ owner.toInt = uid

theorem asksOwner_iff {uid owner} :
    AsksOwner uid owner op ↔ (op = .open ∨ op = .unlink → (owner ≠ 0 ↔ owner.toInt = uid)) := by
  cases op <;> simp [AsksOwner, goesByUser]

theorem userGrants_all (op : FileOp) : userGrants 7 op = true ∧ worldGrants 7 op = false := by
  cases op <;> decide

theorem userGrants_none (op : FileOp) : userGrants 0 op = false ∧ worldGrants 0 op = false := by
  cases op <;> decide

theorem ownerBits_iff_asksOwner (h : s.singleuser = false) (owner : Int16) :
    OwnerBits s p owner op ↔ AsksOwner (s.proc p).uid owner op := by
  constructor
  · intro hb
    by_cases ho : owner.toInt = (s.proc p).uid
    · have hzero := hb.owner ho { Dinode.zero with owner := owner, perms := 7 } rfl (userGrants_all op).1
      obtain ⟨hg, -⟩ | hw := (checkinodeperm_eq_zero h).mp hzero
      · exact iff_of_true hg ho
      · exact absurd ((userGrants_all op).2.symm.trans hw) (by decide)
    refine iff_of_false (fun hg => ?_) ho
    -- a file with all `U_*` bits and one without any
    have hworld : (7 : UInt8) &&& 0xf0 = 0 &&& 0xf0 := by decide
    have hsame := hb.others ho { Dinode.zero with owner := owner, perms := 7 }
      { Dinode.zero with owner := owner, perms := 0 } rfl rfl hworld
    rw [(checkinodeperm_eq_zero h).mpr (.inl ⟨hg, (userGrants_all op).1⟩)] at hsame
    obtain ⟨-, hu⟩ | hw := (checkinodeperm_eq_zero h).mp hsame.symm
    · exact absurd ((userGrants_none op).1.symm.trans hu) (by decide)
    · exact absurd ((userGrants_none op).2.symm.trans hw) (by decide)
  · intro ha
    refine ⟨fun ho d d' hd hd' hw => ?_, fun ho d hd hu => ?_⟩
    · have hno : goesByUser (s.proc p).uid owner op = false := eq_false_iff.mpr fun hg => ho (ha.mp hg)
      rw [checkinodeperm_multiuser h, checkinodeperm_multiuser h, hd, hd', hno, worldGrants_congr hw]
      simp
    · rw [checkinodeperm_eq_zero h, hd]; exact .inl ⟨ha.mpr ho, hu⟩

def OnWorldBits (s : Kernel) (p : Nat) (d : Dinode) (op : FileOp) : Prop :=
  s.singleuser = false → d.owner.toInt ≠ (s.proc p).uid → worldGrants d.perms op = true

theorem onWorldBits_of_granted (ha : AsksOwner (s.proc p).uid d.owner op) (hg : checkinodeperm s p d op = 0) :
    OnWorldBits s p d op := by
  intro hm ho
  obtain ⟨hu, -⟩ | hw := (checkinodeperm_eq_zero hm).mp hg
  · exact absurd (ha.mp hu) ho
  · exact hw

theorem three_ok {α : Type} {q1 q2 q3 : K Unit} {v w : α}
    (h : (q1 >>= fun _ => q2 >>= fun _ => q3 >>= fun _ => pure v).exec s = .ok w s') : w = v := by
  obtain ⟨_, _, -, h⟩ := bind_ok h
  obtain ⟨_, _, -, h⟩ := bind_ok h
  obtain ⟨_, _, -, h⟩ := bind_ok h
  cases h
  rfl

/-- `sys_unlink` up to the check, where it comes to the check. -/
def unlinkTarget (p : Nat) (path : Path) : K (IRef × IRef × Nat) := do
  match ← nameiparentDirect p path with
  | (none, _) => trap
  | (some dp, name) =>
    beginOp dp.dev
    ilock dp
    match ← dirlookup dp name with
    | none => trap
    | some (ip, off) =>
      ilock ip
      pure (dp, ip, off)

theorem sysUnlink_granted {path} (he : (sysUnlink p (some path)).exec s = .ok 0 s') :
    ∃ s1 s2 dp ip off x, (unlinkTarget p path).exec s = .ok (dp, ip, off) s1 ∧ s1.uids = s.uids ∧
      s1.icache ip = some x ∧ checkinodeperm s1 p x.din .unlink = 0 ∧
      (if x.din.type = tDir then (!·) <$> isdirempty ip else pure false : K Bool).exec s1 = .ok false s2 ∧
      (sysUnlink.erase dp ip off).exec s2 = .ok 0 s' := by
  have hbad : ∀ (msg : String) (dp : IRef) (t : Kernel),
    (seterr p msg >>= fun _ => sysUnlink.bad dp).exec t = .ok 0 s' → False := fun msg dp t h => by
    cases three_ok h
  obtain ⟨⟨dp, name⟩, s1, h1, he⟩ := bind_ok he
  have hu1 : s1.uids = s.uids := keeps_sameUids plain_proc.namex _ _ _ h1
  cases dp with
  | none => obtain ⟨_, _, -, he⟩ := bind_ok he; cases he
  | some dp =>
    obtain ⟨_, s2, h2, he⟩ := bind_ok he
    obtain ⟨_, s3, h3, he⟩ := bind_ok he
    have hu3 : s3.uids = s1.uids := (keeps_sameUids plain_proc.ilock _ _ _ h3).trans (sameUids_onLog _ _ _ h2)
    split at he
    · exact (hbad _ _ _ he).elim
    obtain ⟨found, s4, h4, he⟩ := bind_ok he
    have hu4 : s4.uids = s3.uids := keeps_sameUids plain_proc.dirlookup _ _ _ h4
    cases found with
    | none => exact (hbad _ _ _ he).elim
    | some e =>
      obtain ⟨ip, off⟩ := e
      obtain ⟨_, s5, h5, he⟩ := bind_ok he
      have hu5 : s5.uids = s4.uids := keeps_sameUids plain_proc.ilock _ _ _ h5
      obtain ⟨x, s6, h6, he⟩ := bind_ok he
      obtain ⟨hs, hx⟩ := inode_ok h6
      rw [hs, exec_bind, exec_peek, Res.ok_bind] at he
      split at he
      · exact (hbad _ _ _ he).elim
      rename_i hgranted
      have huids : s5.uids = s.uids := by rw [hu5, hu4, hu3, hu1]
      split at he
      · simp [exec_panic] at he
      obtain ⟨full, s8, h8, he⟩ := bind_ok he
      split at he
      · obtain ⟨_, _, -, he⟩ := bind_ok he; exact (hbad _ _ _ he).elim
      rename_i hfull
      rw [eq_false_iff.mpr hfull] at h8
      refine ⟨s5, s8, dp, ip, off, x, ?_, huids, hx, not_not.mp hgranted, h8, he⟩
      simp only [unlinkTarget, exec_bind, show (nameiparentDirect p path).exec s = _ from h1, Res.ok_bind, h2, h3, h4,
        h5]
      rfl

theorem sysOpen_granted {path omode fd} (hmode : omode &&& oCreate = 0) (hfd : 0 ≤ fd)
    (he : (sysOpen p (some path) (some omode)).exec s = .ok fd s') :
    ∃ s1 ip x, (openInode p path omode).exec s = .ok (some ip) s1 ∧ s1.uids = s.uids ∧ s1.icache ip = some x ∧
      checkinodeperm s1 p x.din .open = 0 ∧ (openFile p ip omode).exec s1 = .ok fd s' := by
  obtain ⟨found, s0, h0, he⟩ := bind_ok he
  have hopen := h0
  have hnone : found ≠ none := by rintro rfl; cases he; cases hfd
  unfold openInode at h0
  rw [if_neg (not_not.mpr hmode)] at h0
  obtain ⟨ip, s1, h1, h0⟩ := bind_ok h0
  have hu1 : s1.uids = s.uids := keeps_sameUids plain_proc.nameiDirect _ _ _ h1
  cases ip with
  | none => obtain ⟨_, _, -, h0⟩ := bind_ok h0; cases h0; exact absurd rfl hnone
  | some ip =>
    obtain ⟨_, s2, h2, h3⟩ := bind_ok h0
    obtain ⟨_, s3, h4, h5⟩ := bind_ok h3
    have hu3 : s3.uids = s1.uids := (keeps_sameUids plain_proc.ilock _ _ _ h4).trans (sameUids_onLog _ _ _ h2)
    obtain ⟨x, s4, h6, h7⟩ := bind_ok h5
    obtain ⟨hs, hx⟩ := inode_ok h6
    rw [hs, exec_bind, exec_peek, Res.ok_bind] at h7
    split at h7
    · exact absurd (three_ok h7) hnone
    rename_i hgranted
    split at h7
    · exact absurd (three_ok h7) hnone
    · cases h7; exact ⟨_, ip, x, hopen, hu3.trans hu1, hx, not_not.mp hgranted, he⟩

/-- The `U_*` bits are for the owner only if and only if, to open or to unlink, the owner is
somebody else than 0 exactly when the owner is the caller. Then `sys_unlink` and `sys_open` succeed
for others only by the `W_*` bits of the inode that the path leads them to. -/
theorem owner_bits_iff (s : Kernel) (p : Nat) : (s.singleuser = false → ∀ owner op,
  OwnerBits s p owner op ↔ (op = .open ∨ op = .unlink → (owner ≠ 0 ↔ owner.toInt = (s.proc p).uid))) ∧
    (∀ path s', (sysUnlink p (some path)).exec s = .ok 0 s' → ∃ s1 s2 dp ip off x,
      (unlinkTarget p path).exec s = .ok (dp, ip, off) s1 ∧ s1.icache ip = some x ∧
      (if x.din.type = tDir then (!·) <$> isdirempty ip else pure false : K Bool).exec s1 = .ok false s2 ∧
      (sysUnlink.erase dp ip off).exec s2 = .ok 0 s' ∧
      ((x.din.owner ≠ 0 ↔ x.din.owner.toInt = (s.proc p).uid) → OnWorldBits s1 p x.din .unlink)) ∧
    ∀ path omode fd s', omode &&& oCreate = 0 → 0 ≤ fd →
      (sysOpen p (some path) (some omode)).exec s = .ok fd s' → ∃ s1 ip x,
      (openInode p path omode).exec s = .ok (some ip) s1 ∧ s1.icache ip = some x ∧
      (openFile p ip omode).exec s1 = .ok fd s' ∧
      ((x.din.owner ≠ 0 ↔ x.din.owner.toInt = (s.proc p).uid) → OnWorldBits s1 p x.din .open) := by
  refine ⟨fun hm owner op => ?_, fun path s' he => ?_, fun path omode fd s' hmode hfd he => ?_⟩
  · rw [ownerBits_iff_asksOwner hm, asksOwner_iff]
  · obtain ⟨s1, s2, dp, ip, off, x, hs, hu, hx, hg, hfull, he'⟩ := sysUnlink_granted he
    refine ⟨s1, s2, dp, ip, off, x, hs, hx, hfull, he', fun hc => onWorldBits_of_granted ?_ hg⟩
    have huid : (s1.proc p).uid = (s.proc p).uid := congrFun hu p
    rw [asksOwner_iff, huid]
    exact fun _ => hc
  · obtain ⟨s1, ip, x, hs, hu, hx, hg, he'⟩ := sysOpen_granted hmode hfd he
    refine ⟨s1, ip, x, hs, hx, he', fun hc => onWorldBits_of_granted ?_ hg⟩
    have huid : (s1.proc p).uid = (s.proc p).uid := congrFun hu p
    rw [asksOwner_iff, huid]
    exact fun _ => hc

theorem owner_bits_system : (blank metaBits).singleuser = false ∧ OwnerBits (blank metaBits) 0 (-1) .unlink :=
  ⟨rfl, ((owner_bits_iff (blank metaBits) 0).1 rfl (-1) .unlink).mpr (by decide)⟩

def asUser (uid : Int) : Kernel := { blank metaBits with proc := fun _ => { (blank metaBits).proc 0 with uid := uid } }

/-- User 5 may unlink a file of the system whose `U_*` bits alone are set, and not if they are clear; user 0 may not
unlink such a file of user 0. -/
theorem user_bits_of_others : checkinodeperm (asUser 5) 0 { Dinode.zero with owner := -1, perms := 3 } .unlink = 0 ∧
    checkinodeperm (asUser 5) 0 { Dinode.zero with owner := -1, perms := 0 } .unlink = 1 ∧
    checkinodeperm (asUser 0) 0 { Dinode.zero with owner := 0, perms := 3 } .unlink = 1 := by
  decide

end

end Xv6Vsd
