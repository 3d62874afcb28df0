import Xv6Vsd.Disk.Lemmas.Records
import Xv6Vsd.Fs.Lemmas.Made

/-! # What the routines on inodes do -/

namespace Xv6Vsd

open Prog Kernel Disk Function

section

variable {α : Type}
variable {s s' : Kernel} {u : Unit} {dev b : Nat}

theorem onlyIf_ok {c} [Decidable c] {p} (h : (onlyIf c p).exec s = .ok u s') :
    (c ∧ p.exec s = .ok u s') ∨ (¬ c ∧ s' = s) := by
  unfold onlyIf at h
  split at h
  · exact .inl ⟨‹_›, h⟩
  · cases h; exact .inr ⟨‹_›, rfl⟩

theorem modDin_ok {r f} (h : (modDin r f).exec s = .ok u s') :
    ∃ ip, s.icache r = some ip ∧ s' = s.setInode r (some { ip with din := f ip.din }) := modInode_ok h

theorem edit_ok {g : Block → Option Block × α} {a} (h : (edit dev b g).exec s = .ok a s') :
    ∃ d, (s.disk dev).edit b g = .ok a d ∧ s' = s.setDisk dev d := by
  rw [edit, exec_act] at h
  obtain ⟨-, d, hd, rfl⟩ := onDisk_ok h
  exact ⟨d, hd, rfl⟩

@[simp] theorem Kernel.setDisk_self (s : Kernel) (dev : Nat) : s.setDisk dev (s.disk dev) = s := by
  simp [setDisk]

@[simp] theorem Kernel.setDisk_setDisk (s : Kernel) (dev : Nat) (d d' : Disk) :
    (s.setDisk dev d).setDisk dev d' = s.setDisk dev d' := by
  simp [setDisk]

@[simp] theorem Kernel.setInode_setInode (s : Kernel) (r : IRef) (x y : Option Inode) :
    (s.setInode r x).setInode r y = s.setInode r y := by
  simp [setInode]

theorem edit_read_ok {g : Block → α} {a} (h : (edit dev b fun x => (none, g x)).exec s = .ok a s') :
    s' = s ∧ a = g ((s.disk dev).cache b) ∧ (s.disk dev).Ready b := by
  obtain ⟨d, hd, rfl⟩ := edit_ok h
  obtain ⟨hr, rfl, ⟨-, rfl⟩ | ⟨y, hy, -⟩⟩ := Disk.edit_ok hd
  · exact ⟨setDisk_self s dev, rfl, hr⟩
  · cases hy

theorem edit_write_ok {g : Block → Block} (h : (edit dev b fun x => (some (g x), ())).exec s = .ok u s') :
    s' = s.setDisk dev ((s.disk dev).logged b (g ((s.disk dev).cache b))) ∧
      (s.disk dev).Ready b ∧ (s.disk dev).Open := by
  obtain ⟨d, hd, rfl⟩ := edit_ok h
  obtain ⟨hr, -, ⟨hn, -⟩ | ⟨y, hy, rfl, ho⟩⟩ := Disk.edit_ok hd
  · cases hn
  · cases hy; exact ⟨rfl, hr, ho⟩

end

/-! ## The inode cache -/

variable {dev inum : Nat} {s s' : Kernel} {r r' : IRef} {u : Unit} {direct : Bool}

theorem iget_ok (h : (iget dev inum).exec s = .ok r s') : r = ⟨dev, inum⟩ ∧
      ((∃ ip, s.icache r = some ip ∧ s' = s.setInode r (some { ip with more := ip.more + 1 })) ∨ (s.icache r = none ∧
          s' = { s.setInode r (some ⟨0, false, false, false, s.stale r⟩) with slots := s.slots + 1 })) := by
  rw [iget, exec_tau] at h
  cases hr : s.icache ⟨dev, inum⟩ with
  | some ip => rw [hr] at h; cases h; exact ⟨rfl, .inl ⟨ip, hr, rfl⟩⟩
  | none =>
    rw [hr] at h
    dsimp only at h
    split at h <;> cases h
    exact ⟨rfl, .inr ⟨hr, rfl⟩⟩

def Kernel.diskInode (s : Kernel) (r : IRef) : Dinode :=
  ((s.disk r.dev).cache ((s.disk r.dev).sb.iblock r.inum)).dinode r.inum

def Kernel.din (s : Kernel) (r : IRef) : Dinode := match s.icache r with
  | some ip => if ip.valid then ip.din else ip.din.update (s.diskInode r)
  | none => (s.stale r).update (s.diskInode r)

theorem ilock_ok (h : (ilock r).exec s = .ok u s') :
    (s.icache r = none ∧ s' = s) ∨ ∃ ip, s.icache r = some ip ∧ ip.busy = false ∧
        s' = s.setInode r (some { ip with busy := true, valid := true, din := s.din r }) := by
  obtain ⟨locked, s1, h1, h2⟩ := bind_ok h
  rw [exec_tau] at h1
  cases hr : s.icache r with
  | none =>
    rw [hr] at h1; cases h1
    obtain ⟨hc, -⟩ | ⟨-, rfl⟩ := onlyIf_ok h2
    · cases hc
    · exact .inl ⟨rfl, rfl⟩
  | some ip =>
    rw [hr] at h1
    dsimp only at h1
    split at h1
    · cases h1
    rename_i hb
    cases h1
    have hb' : ip.busy = false := by simpa using hb
    refine .inr ⟨ip, rfl, hb', ?_⟩
    obtain ⟨-, h3⟩ | ⟨hc, -⟩ := onlyIf_ok h2
    · obtain ⟨x, hx, h5⟩ := inode_bind h3
      rw [setInode_icache_self] at hx; cases hx
      obtain ⟨hv, h6⟩ | ⟨hv, rfl⟩ := onlyIf_ok h5
      · obtain ⟨sb, s3, h7, h8⟩ := bind_ok h6
        obtain ⟨rfl, rfl, -⟩ := getsuperblock_ok h7
        obtain ⟨d, s4, h9, h10⟩ := bind_ok h8
        obtain ⟨rfl, rfl, -⟩ := edit_read_ok h9
        obtain ⟨y, hy, rfl⟩ := modInode_ok h10
        rw [setInode_icache_self] at hy; cases hy
        have hv' : ip.valid = false := hv
        rw [setInode_setInode]
        simp only [din, hr, hv', Bool.false_eq_true, ↓reduceIte]
        rfl
      · have hv' : ip.valid = true := by simpa using hv
        simp only [din, hr, hv', ↓reduceIte]
    · cases hc rfl

theorem iunlock_some {ip} (h : s.icache r = some ip) :
    (iunlock r).exec s = .ok () (s.setInode r (some { ip with busy := false })) := by
  rw [iunlock, exec_poke, h]

theorem iunlock_none (h : s.icache r = none) : (iunlock r).exec s = .ok () s := by
  rw [iunlock, exec_poke, h]

/-! ## Writing an inode back -/

namespace Disk

def save (d : Disk) (direct : Bool) (b : Nat) (x : Block) : Disk := if direct then d.bwrite b x else d.logged b x

variable (d : Disk) (direct : Bool) (b inum : Nat) (x : Block) (ip : Dinode)

@[simp] theorem save_cache : (d.save direct b x).cache = update d.cache b x := by
  cases direct with
  | false => exact logged_cache d b x
  | true => rfl

theorem save_frame : (d.save direct b x).frame = d.frame := by
  cases direct with
  | false => exact logged_frame d b x
  | true => exact bwrite_frame d b x

@[simp] theorem save_sb : (d.save direct b x).sb = d.sb := congrArg (·.2.2.1) (d.save_frame direct b x)

@[simp] theorem save_mounted : (d.save direct b x).mounted = d.mounted := congrArg (·.2.1) (d.save_frame direct b x)

@[simp] theorem save_busy : (d.save direct b x).busy = d.busy := by
  cases direct with
  | false => exact logged_busy d b x
  | true => rfl

def putInode (d : Disk) (direct : Bool) (inum : Nat) (ip : Dinode) : Disk :=
  let x := d.cache (d.sb.iblock inum)
  d.save direct (d.sb.iblock inum) (x.setDinode inum ((x.dinode inum).update ip))

@[simp] theorem putInode_sb : (d.putInode direct inum ip).sb = d.sb := save_sb ..

theorem putInode_frame : (d.putInode direct inum ip).frame = d.frame := save_frame ..

theorem putInode_dinode_of_ne {inum j} (h : j ≠ inum) :
    ((d.putInode direct inum ip).cache (d.sb.iblock j)).dinode j = (d.cache (d.sb.iblock j)).dinode j := by
  rw [putInode, save_cache]
  by_cases hb : d.sb.iblock j = d.sb.iblock inum
  · rw [hb, update_self]
    refine dinode_setDinode_of_ne _ _ ?_
    have hb' : j / 8 + d.sb.inodestart = inum / 8 + d.sb.inodestart := hb
    omega
  · rw [update_of_ne hb]

end Disk

theorem iupdate1_ok (h : (iupdate1 r direct).exec s = .ok u s') :
    ∃ ip, s.icache r = some ip ∧ s' = s.setDisk r.dev ((s.disk r.dev).putInode direct r.inum ip.din) ∧
      (s.disk r.dev).Ready ((s.disk r.dev).sb.iblock r.inum) ∧
      (direct = false → (s.disk r.dev).Open) := by
  obtain ⟨sb, s1, h1, h2⟩ := bind_ok h
  obtain ⟨rfl, rfl, -⟩ := getsuperblock_ok h1
  obtain ⟨ip, hip, h4⟩ := inode_bind h2
  refine ⟨ip, hip, ?_⟩
  cases direct with
  | true =>
    rw [if_pos rfl, editDirect, exec_act] at h4
    obtain ⟨-, d, hd, rfl⟩ := onDisk_ok h4
    obtain ⟨hr, rfl⟩ := editDirect_ok hd
    exact ⟨rfl, hr, fun hc => by cases hc⟩
  | false =>
    rw [if_neg (by simp)] at h4
    obtain ⟨rfl, hr, ho⟩ := edit_write_ok h4
    exact ⟨rfl, hr, fun _ => ho⟩

/-! ## Dropping an inode -/

theorem bmapG_false_ok {bn a} (h : (bmapG r bn false).exec s = .ok a s') : a = -1 ∧ s' = s := by
  unfold bmapG at h
  dsimp only at h
  split at h
  · rw [exec_panic] at h; cases h
  obtain ⟨ip, s1, h1, h2⟩ := bind_ok h
  rw [exec_act] at h1
  have hs : s1 = s := by split at h1 <;> cases h1; rfl
  rw [if_neg (by simp), if_pos (by simp)] at h2; cases h2
  exact ⟨rfl, hs⟩

theorem itrunc_ok (h : (itrunc r).exec s = .ok u s') : ∃ ip, s.icache r = some ip ∧
      (iupdate r).exec (s.setInode r (some { ip with din := { ip.din with size := 0 } })) = .ok u s' := by
  obtain ⟨ip, s1, h1, h2⟩ := bind_ok h
  obtain ⟨rfl, hip⟩ := inode_ok h1
  obtain ⟨_, s2, h3, h4⟩ := bind_ok h2
  obtain ⟨_, s3, h5, h6⟩ := bind_ok h4
  have hs : s2 = s1 := by
    refine exec_loop (I := fun _ t => t = s1) (fun i _ t t' ht hb => ?_) rfl h3
    subst ht
    obtain ⟨a, t1, h7, h8⟩ := bind_ok hb
    obtain ⟨rfl, rfl⟩ := bmapG_false_ok h7
    obtain ⟨hc, -⟩ | ⟨-, rfl⟩ := onlyIf_ok h8
    · exact absurd rfl hc
    · rfl
  subst hs
  obtain ⟨x, hx, rfl⟩ := modDin_ok h5
  rw [hip] at hx; cases hx
  exact ⟨ip, hip, h6⟩

def Disk.freed (d : Disk) (direct : Bool) (inum : Nat) (ip : Dinode) : Disk :=
  (d.putInode false inum { ip with size := 0 }).putInode direct inum { ip with size := 0, type := 0 }

theorem Disk.freed_frame (d : Disk) (direct : Bool) (inum : Nat) (ip : Dinode) :
    (d.freed direct inum ip).frame = d.frame := by
  rw [freed, putInode_frame, putInode_frame]

theorem Disk.freed_dinode_of_ne (d : Disk) (direct : Bool) {j} (ip : Dinode) (h : j ≠ inum) :
    ((d.freed direct inum ip).cache (d.sb.iblock j)).dinode j = (d.cache (d.sb.iblock j)).dinode j := by
  have h2 := putInode_dinode_of_ne (d.putInode false inum { ip with size := 0 }) direct
    { ip with size := 0, type := 0 } h
  rw [putInode_sb] at h2
  exact h2.trans (putInode_dinode_of_ne d false _ h)

theorem iput1_ok (h : (iput1 r direct).exec s = .ok u s') :
    ∃ ip, s.icache r = some ip ∧ ((ip.doomed = false ∧ s' = s.drop r ip) ∨ (ip.doomed = true ∧ ip.busy = false ∧
          s' = (s.setDisk r.dev ((s.disk r.dev).freed direct r.inum ip.din)).drop r ip ∧
          (s.disk r.dev).Ready ((s.disk r.dev).sb.iblock r.inum) ∧ (s.disk r.dev).Open ∧
          (direct = false → ((s.disk r.dev).putInode false r.inum { ip.din with size := 0 }).Open))) := by
  obtain ⟨free, s1, h1, h2⟩ := bind_ok h
  rw [exec_act] at h1
  cases hr : s.icache r with
  | none => rw [hr] at h1; cases h1
  | some ip =>
    rw [hr] at h1
    dsimp only at h1
    refine ⟨ip, rfl, ?_⟩
    split at h1
    · rename_i hd
      split at h1
      · cases h1
      rename_i hb
      cases h1
      refine .inr ⟨hd, by simpa using hb, ?_⟩
      obtain ⟨-, h3⟩ | ⟨hc, -⟩ := onlyIf_ok h2
      · obtain ⟨_, s2, h4, h5⟩ := bind_ok h3
        obtain ⟨x, hx, h6⟩ := itrunc_ok h4
        rw [setInode_icache_self] at hx; cases hx
        obtain ⟨y, hy, rfl, hready, hopen⟩ := iupdate1_ok h6
        rw [setInode_icache_self] at hy; cases hy
        obtain ⟨_, s3, h7, h8⟩ := bind_ok h5
        obtain ⟨z, hz, rfl⟩ := modDin_ok h7
        rw [setDisk_icache, setInode_icache_self] at hz; cases hz
        obtain ⟨_, s4, h9, h10⟩ := bind_ok h8
        obtain ⟨w, hw, rfl, -, hopen'⟩ := iupdate1_ok h9
        rw [setInode_icache_self] at hw; cases hw
        refine ⟨?_, hready, hopen rfl, fun hdir => by
          simpa [setInode, setDisk] using hopen' hdir⟩
        rw [exec_tau, setDisk_icache, setInode_icache_self] at h10; cases h10
        have hm : ip.more = 0 := by simpa using (of_decide_eq_true hd).1
        simp only [drop, hm, ↓reduceIte]
        simp [setInode, setDisk, freed]
      · cases hc rfl
    · rename_i hd
      cases h1
      obtain ⟨hc, -⟩ | ⟨-, rfl⟩ := onlyIf_ok h2
      · cases hc
      · exact .inl ⟨by simpa using hd, rfl⟩

/-! ## Finding an inode -/

theorem dirlookupFrom_post (r : IRef) (name : List UInt8) (fuel off : Nat) (s : Kernel) :
    Post (fun a s' => ∀ ip o, a = some (ip, o) → ip.dev = r.dev ∧ ∃ x, s'.icache ip = some x ∧
      (ip = r ∨ x.busy = true → 1 ≤ x.more))
      (dirlookupFrom r name fuel off) s := by
  induction fuel generalizing off s with
  | zero => exact post_pure (by simp)
  | succ fuel ih =>
    intro a s' h
    obtain ⟨ip, s1, h1, h2⟩ := bind_ok h
    split at h2
    · obtain ⟨de, s2, h3, h4⟩ := bind_ok h2
      split at h4
      · exact ih _ s2 a s' h4
      obtain ⟨x, hx, h6⟩ := inode_bind h4
      obtain ⟨next, s4, h7, h8⟩ := bind_ok h6
      cases h8
      intro ip o he
      cases he
      obtain ⟨hn, ⟨y, hy, rfl⟩ | ⟨hy, rfl⟩⟩ := iget_ok h7
      · exact ⟨by rw [hn], _, setInode_icache_self .., fun _ => Nat.le_add_left 1 _⟩
      refine ⟨by rw [hn], _, setInode_icache_self .., ?_⟩
      rintro (he | hb)
      · simp [he, hx] at hy
      · cases hb
    · cases h2; simp

theorem dirlookup_post (r : IRef) (name : List UInt8) (s : Kernel) : Post (fun a s' => ∀ ip o, a = some (ip, o) →
      ip.dev = r.dev ∧ ∃ x, s'.icache ip = some x ∧ (ip = r ∨ x.busy = true → 1 ≤ x.more)) (dirlookup r name) s := by
  intro a s' h
  obtain ⟨ip, s1, h1, h2⟩ := bind_ok h
  split at h2
  · simp [exec_panic] at h2
  · exact dirlookupFrom_post r name _ _ s1 a s' h2

def Disk.inodesFull (d : Disk) : Prop :=
  ∀ inum, 1 ≤ inum → inum < d.sb.ninodes → ((d.cache (d.sb.iblock inum)).dinode inum).type ≠ 0

def Disk.claimed (d : Disk) (type : Int16) (inum : Nat) : Disk :=
  d.logged (d.sb.iblock inum) ((d.cache (d.sb.iblock inum)).setDinode inum { Dinode.zero with type := type })

theorem iallocFrom_ok {type} {fuel} {a} (hfuel : (s.disk dev).sb.ninodes ≤ inum + fuel)
    (h : (iallocFrom dev (s.disk dev).sb type fuel inum).exec s = .ok a s') :
    (a = none ∧ s' = s ∧ ∀ j, inum ≤ j → j < (s.disk dev).sb.ninodes →
      (((s.disk dev).cache ((s.disk dev).sb.iblock j)).dinode j).type ≠ 0) ∨
      ∃ i, a = some ⟨dev, i⟩ ∧ inum ≤ i ∧ i < (s.disk dev).sb.ninodes ∧
        (((s.disk dev).cache ((s.disk dev).sb.iblock i)).dinode i).type = 0 ∧
        (s.disk dev).Ready ((s.disk dev).sb.iblock i) ∧ (s.disk dev).Open ∧
        (iget dev i).exec (s.setDisk dev ((s.disk dev).claimed type i)) = .ok ⟨dev, i⟩ s' := by
  induction fuel generalizing inum with
  | zero => cases h; exact .inl ⟨rfl, rfl, fun j h1 h2 => by omega⟩
  | succ fuel ih =>
    rw [iallocFrom] at h
    split at h
    · rename_i hlt
      obtain ⟨free, s1, h1, h2⟩ := bind_ok h
      obtain ⟨d, hd, rfl⟩ := edit_ok h1
      obtain ⟨hr, hfree, hd'⟩ := Disk.edit_ok hd
      by_cases ht : (((s.disk dev).cache ((s.disk dev).sb.iblock inum)).dinode inum).type = 0
      · rw [if_pos ht] at hfree hd'
        subst hfree
        obtain ⟨hn, -⟩ | ⟨y, hy, rfl, ho⟩ := hd'
        · cases hn
        cases hy
        rw [if_pos rfl, exec_map] at h2
        obtain ⟨ip, s2, h3, h4⟩ := Res.bind_eq_ok.mp h2
        cases h4
        have hip := (iget_ok h3).1
        subst hip
        exact .inr ⟨inum, rfl, Nat.le_refl _, hlt, ht, hr, ho, h3⟩
      · rw [if_neg ht] at hfree hd'
        subst hfree
        obtain ⟨-, rfl⟩ | ⟨y, hy, -⟩ := hd'
        · rw [if_neg (by simp), setDisk_self] at h2
          obtain ⟨ha, hs, hall⟩ | ⟨i, ha, hle, hrest⟩ := ih (by omega) h2
          · refine .inl ⟨ha, hs, fun j hj hlt => ?_⟩
            rcases Nat.eq_or_lt_of_le hj with rfl | hj'
            · exact ht
            · exact hall j hj' hlt
          · exact .inr ⟨i, ha, by omega, hrest⟩
        · cases hy
    · cases h; exact .inl ⟨rfl, rfl, fun j h1 h2 => by omega⟩

theorem ialloc_ok {type a} (h : (ialloc dev type).exec s = .ok a s') :
    (a = none ∧ s' = s ∧ (s.disk dev).inodesFull) ∨ ∃ i, a = some ⟨dev, i⟩ ∧ 1 ≤ i ∧ i < (s.disk dev).sb.ninodes ∧
        (((s.disk dev).cache ((s.disk dev).sb.iblock i)).dinode i).type = 0 ∧
        (s.disk dev).Ready ((s.disk dev).sb.iblock i) ∧ (s.disk dev).Open ∧
        (iget dev i).exec (s.setDisk dev ((s.disk dev).claimed type i)) = .ok ⟨dev, i⟩ s' := by
  obtain ⟨sb, s1, h1, h2⟩ := bind_ok h
  obtain ⟨rfl, rfl, -⟩ := getsuperblock_ok h1
  exact iallocFrom_ok (by omega) h2

theorem ialloc_post (dev : Nat) (type : Int16) (s : Kernel) :
    Post (fun a _ => (∀ ip, a = some ip → ip.dev = dev) ∧ (a = none ↔ (s.disk dev).inodesFull))
      (ialloc dev type) s := by
  intro a s' h
  obtain ⟨rfl, -, hfull⟩ | ⟨i, rfl, h1, hlt, ht, -⟩ := ialloc_ok h
  · exact ⟨by simp, by simpa using hfull⟩
  · exact ⟨fun ip he => by cases he; rfl, by simp, fun hfull => absurd ht (hfull i h1 hlt)⟩

/-! ## What stays of the other inodes -/

theorem Kernel.din_setInode_of_ne (s : Kernel) (x : Option Inode) (h : r' ≠ r) :
    (s.setInode r x).din r' = s.din r' := by
  unfold din
  rw [setInode_icache_of_ne _ _ h]
  rfl

theorem Kernel.drop_icache_of_ne (s : Kernel) (x : Inode) (h : r' ≠ r) : (s.drop r x).icache r' = s.icache r' := by
  unfold drop
  split
  · exact setInode_icache_of_ne _ _ h
  · exact setInode_icache_of_ne _ _ h

@[simp] theorem Kernel.drop_disk (s : Kernel) (r : IRef) (ip : Inode) : (s.drop r ip).disk = s.disk := by
  unfold drop
  split <;> rfl

@[simp] theorem Kernel.drop_stale (s : Kernel) (r : IRef) (x : Inode) : (s.drop r x).stale = s.stale := by
  unfold drop
  split <;> rfl

theorem Kernel.din_congr (hc : s'.icache r = s.icache r) (hs : s'.stale = s.stale)
    (hd : s'.diskInode r = s.diskInode r) :
    s'.din r = s.din r := by
  unfold din
  rw [hc, hs, hd]

theorem Kernel.diskInode_freed (s : Kernel) (direct : Bool) (ip : Dinode) (h : r' ≠ r) (hdev : r'.dev = r.dev) :
    (s.setDisk r.dev ((s.disk r.dev).freed direct r.inum ip)).diskInode r' = s.diskInode r' := by
  have hinum : r'.inum ≠ r.inum := fun he => h (by cases r; cases r'; simp_all)
  have hsb : ((s.disk r.dev).freed direct r.inum ip).sb = (s.disk r.dev).sb := congrArg (·.2.2.1) (freed_frame ..)
  unfold diskInode
  rw [hdev, setDisk_disk_self, hsb]
  exact freed_dinode_of_ne _ _ _ hinum

theorem iput1_din (h : (iput1 r direct).exec s = .ok u s') (hr : r' ≠ r) (hdev : r'.dev = r.dev) :
    s'.icache r' = s.icache r' ∧ s'.din r' = s.din r' := by
  obtain ⟨ip, -, ⟨-, rfl⟩ | ⟨-, -, rfl, -⟩⟩ := iput1_ok h
  · have hc := s.drop_icache_of_ne ip hr; exact ⟨hc, din_congr hc (by simp) (by simp [diskInode])⟩
  have hc := (s.setDisk r.dev ((s.disk r.dev).freed direct r.inum ip.din)).drop_icache_of_ne ip hr
  refine ⟨hc, din_congr hc (by simp [setDisk]) ?_⟩
  rw [← s.diskInode_freed direct ip.din hr hdev]
  simp [diskInode]

end Xv6Vsd
