import Xv6Vsd.Kernel.State

/-! # Running the atomic steps -/

namespace Xv6Vsd

open Prog Function

section Exec

variable {α β : Type}

@[simp] theorem exec_tau (f : Kernel → Res Kernel α) (s : Kernel) : (tau f).exec s = f s := by
  rw [tau, exec_act]

@[simp] theorem exec_peek (f : Kernel → α) (s : Kernel) : (peek f).exec s = .ok (f s) s := by
  rw [peek, exec_tau]

@[simp] theorem exec_poke (f : Kernel → Kernel) (s : Kernel) : (poke f).exec s = .ok () (f s) := by
  rw [poke, exec_tau]

@[simp] theorem exec_panic (msg s) : (panic msg : K α).exec s = .panic msg := by
  rw [panic, exec_tau]

@[simp] theorem exec_trap (s) : (trap : K α).exec s = .panic "trap" := by
  rw [trap, exec_panic]

variable {r : IRef} {s s' : Kernel}

theorem inode_ok {ip} (h : (inode r).exec s = .ok ip s') : s' = s ∧ s.icache r = some ip := by
  rw [inode, exec_tau] at h
  cases hr : s.icache r with
  | none => rw [hr] at h; cases h
  | some ip => rw [hr] at h; cases h; exact ⟨rfl, rfl⟩

theorem inode_bind {q : Inode → K α} {a} (h : (inode r >>= q).exec s = .ok a s') :
    ∃ ip, s.icache r = some ip ∧ (q ip).exec s = .ok a s' := by
  obtain ⟨ip, s1, h1, h2⟩ := bind_ok h
  obtain ⟨rfl, hip⟩ := inode_ok h1
  exact ⟨ip, hip, h2⟩

theorem peek_bind {f : Kernel → α} {q : α → K β} {b} (h : (peek f >>= q).exec s = .ok b s') :
    (q (f s)).exec s = .ok b s' := by
  rwa [exec_bind, exec_peek] at h

theorem inode_some {ip} (h : s.icache r = some ip) : (inode r).exec s = .ok ip s := by
  rw [inode, exec_tau, h]

theorem modInode_ok {f u} (h : (modInode r f).exec s = .ok u s') :
    ∃ ip, s.icache r = some ip ∧ s' = s.setInode r (some (f ip)) := by
  rw [modInode, exec_tau] at h
  cases hr : s.icache r with
  | none => rw [hr] at h; cases h
  | some ip => rw [hr] at h; cases h; exact ⟨ip, rfl, rfl⟩

theorem onDisk_ok {dev} {f : Disk → Res Disk α} {a} (h : Kernel.onDisk dev f s = .ok a s') :
    (s.disk dev).mounted = true ∧ ∃ d, f (s.disk dev) = .ok a d ∧ s' = s.setDisk dev d := by
  unfold Kernel.onDisk at h
  split at h
  · obtain ⟨b, d, hf, he⟩ := Res.bind_eq_ok.mp h; cases he; exact ⟨‹_›, d, hf, rfl⟩
  · cases h

theorem getsuperblock_ok {dev} {sb} (h : (getsuperblock dev).exec s = .ok sb s') :
    s' = s ∧ sb = (s.disk dev).sb ∧ (s.disk dev).mounted = true := by
  rw [getsuperblock, exec_tau] at h
  obtain ⟨hm, d, hd, rfl⟩ := onDisk_ok h
  cases hd
  exact ⟨by simp [Kernel.setDisk], rfl, hm⟩

end Exec

/-! ## Fields of the state -/

namespace Kernel

variable (s : Kernel)

@[simp] theorem setDisk_disk_self (dev d) : (s.setDisk dev d).disk dev = d := by
  simp [setDisk]

theorem setDisk_disk_of_ne {dev dev'} (d) (h : dev' ≠ dev) : (s.setDisk dev d).disk dev' = s.disk dev' := by
  simp [setDisk, update_of_ne h]

@[simp] theorem setDisk_icache (dev d) : (s.setDisk dev d).icache = s.icache := rfl
@[simp] theorem setInode_disk (r) (ip : Option Inode) : (s.setInode r ip).disk = s.disk := rfl
@[simp] theorem setProc_disk (p x) : (s.setProc p x).disk = s.disk := rfl
@[simp] theorem setProc_icache (p x) : (s.setProc p x).icache = s.icache := rfl
@[simp] theorem setFile_disk (f) (x : Option File) : (s.setFile f x).disk = s.disk := rfl
@[simp] theorem setFile_icache (f) (x : Option File) : (s.setFile f x).icache = s.icache := rfl

@[simp] theorem setInode_icache_self (r) (ip : Option Inode) : (s.setInode r ip).icache r = ip := by
  simp [setInode]

theorem setInode_icache_of_ne {r r'} (ip : Option Inode) (h : r' ≠ r) : (s.setInode r ip).icache r' = s.icache r' := by
  simp [setInode, update_of_ne h]

end Kernel

theorem onLog_ok {α : Type} {dev : Nat} {p : Prog Disk LogEv α} {s s' : Kernel} {a : α}
    (h : (onLog dev p).exec s = .ok a s') :
    ∃ d, p.exec (s.disk dev) = .ok a d ∧ s' = s.setDisk dev d := by
  induction p generalizing s with
  | ret b => cases h; exact ⟨s'.disk dev, rfl, by simp [Kernel.setDisk]⟩
  | step lab f k ih =>
    obtain ⟨b, s1, hf, hk⟩ := Res.bind_eq_ok.mp h
    obtain ⟨-, d1, hd, rfl⟩ := onDisk_ok hf
    obtain ⟨d, hd', rfl⟩ := ih b hk
    rw [Kernel.setDisk_disk_self] at hd'
    refine ⟨d, ?_, by simp [Kernel.setDisk]⟩
    rw [exec_step, hd]
    exact hd'

/-! ## Buffers -/

theorem toNat_ofNat {b} (hb : b < fssize) : (UInt32.ofNat b).toNat = b :=
  UInt32.toNat_ofNat_of_lt' (hb.trans (by decide))

namespace Disk

variable {α : Type}

def logged (d : Disk) (b : Nat) (x : Block) : Disk :=
  if d.log.size = 0 then d.bwrite b x else (d.store b x).logAppend (UInt32.ofNat b)

def frame (d : Disk) : Bool × Bool × Superblock × Nat × Nat × Int × Bool :=
  (d.present, d.mounted, d.sb, d.log.start, d.log.size, d.log.outstanding, d.log.committing)

theorem logAppend_frame (d : Disk) (b : UInt32) : (d.logAppend b).frame = d.frame := by
  unfold logAppend
  split <;> rfl

@[simp] theorem logAppend_cache (d : Disk) (b : UInt32) : (d.logAppend b).cache = d.cache := by
  unfold logAppend
  split <;> rfl

@[simp] theorem logAppend_busy (d : Disk) (b : UInt32) : (d.logAppend b).busy = d.busy := by
  unfold logAppend
  split <;> rfl

theorem logged_frame (d : Disk) (b : Nat) (x : Block) : (d.logged b x).frame = d.frame := by
  unfold logged
  split
  · rfl
  · rw [logAppend_frame]; rfl

@[simp] theorem logged_cache (d : Disk) (b : Nat) (x : Block) : (d.logged b x).cache = update d.cache b x := by
  unfold logged
  split
  · rfl
  · rw [logAppend_cache]; rfl

@[simp] theorem logged_busy (d : Disk) (b : Nat) (x : Block) : (d.logged b x).busy = d.busy := by
  unfold logged
  split
  · rfl
  · rw [logAppend_busy]; rfl

def Open (d : Disk) : Prop :=
  d.log.size = 0 ∨ (d.log.lh.length < logsize ∧ d.log.lh.length < d.log.size - 1 ∧ 1 ≤ d.log.outstanding)

variable {d d' : Disk} {b : Nat} {x : Block}

theorem logWrite_store_ok {u} (hb : b < fssize) (h : (d.store b x).logWrite (UInt32.ofNat b) = .ok u d') :
    d' = d.logged b x ∧ d.Open := by
  have hn := toNat_ofNat hb
  unfold logWrite at h
  unfold logged
  split at h
  · rename_i hs
    cases h
    have hs' : d.log.size = 0 := hs
    rw [if_pos hs']
    refine ⟨?_, .inl hs'⟩
    rw [hn]
    simp [store, bwrite]
  · rename_i hs
    have hs' : d.log.size ≠ 0 := hs
    rw [if_neg hs']
    obtain ⟨_, d1, h1, he⟩ := Res.bind_eq_ok.mp h
    cases he
    unfold logWriteCheck at h1
    split at h1
    · cases h1
    split at h1
    · cases h1
    rename_i hl ho
    cases h1
    have hl' : ¬ (d.log.lh.length ≥ logsize ∨ d.log.lh.length ≥ d.log.size - 1) := hl
    have ho' : ¬ d.log.outstanding < 1 := ho
    exact ⟨rfl, .inr ⟨by omega, by omega, by omega⟩⟩

def Ready (d : Disk) (b : Nat) : Prop := d.present = true ∧ d.busy b = false ∧ b < fssize

theorem bread_ok (h : d.bread b = .ok x d') : d' = d ∧ x = d.cache b ∧ d.Ready b := by
  unfold bread at h
  split at h
  · cases h
  split at h
  · cases h
  split at h
  · cases h
  rename_i hp hb hf
  cases h
  exact ⟨rfl, rfl, by simpa using hp, by simpa using hb, by simpa using hf⟩

theorem put_ok (hb : b < fssize) {o : Option Block} {a a' : α} (h : d.put b a o = .ok a' d') :
    a' = a ∧ ((o = none ∧ d' = d) ∨ ∃ y, o = some y ∧ d' = d.logged b y ∧ d.Open) := by
  cases o with
  | none => cases h; exact ⟨rfl, .inl ⟨rfl, rfl⟩⟩
  | some y =>
    obtain ⟨_, d1, h1, h2⟩ := Res.bind_eq_ok.mp h
    cases h2
    obtain ⟨rfl, ho⟩ := logWrite_store_ok hb h1
    exact ⟨rfl, .inr ⟨y, rfl, rfl, ho⟩⟩

theorem edit_ok {g : Block → Option Block × α} {a : α} (h : d.edit b g = .ok a d') :
    d.Ready b ∧ a = (g (d.cache b)).2 ∧ (((g (d.cache b)).1 = none ∧ d' = d) ∨
        ∃ y, (g (d.cache b)).1 = some y ∧ d' = d.logged b y ∧ d.Open) := by
  obtain ⟨x, d1, h1, h2⟩ := Res.bind_eq_ok.mp h
  obtain ⟨rfl, rfl, hr⟩ := bread_ok h1
  exact ⟨hr, put_ok hr.2.2 h2⟩

theorem editDirect_ok {g u} (h : d.editDirect b g = .ok u d') : d.Ready b ∧ d' = d.bwrite b (g (d.cache b)) := by
  obtain ⟨x, d1, h1, h2⟩ := Res.bind_eq_ok.mp h
  obtain ⟨rfl, rfl, hr⟩ := bread_ok h1
  cases h2
  exact ⟨hr, rfl⟩

def setBusy (d : Disk) (b : Nat) (v : Bool) : Disk := { d with busy := update d.busy b v }

theorem hold_ok (h : d.hold b = .ok x d') : d.Ready b ∧ x = d.cache b ∧ d' = d.setBusy b true := by
  obtain ⟨y, d1, h1, h2⟩ := Res.bind_eq_ok.mp h
  obtain ⟨rfl, rfl, hr⟩ := bread_ok h1
  cases h2
  exact ⟨hr, rfl, rfl⟩

theorem release_ok (hb : b < fssize) {g : Block → Option Block × α} {a : α} (h : d.release b g = .ok a d') :
    a = (g (d.cache b)).2 ∧ (((g (d.cache b)).1 = none ∧ d' = d.setBusy b false) ∨
        ∃ y, (g (d.cache b)).1 = some y ∧ d' = (d.logged b y).setBusy b false ∧ d.Open) := by
  obtain ⟨x, d1, h1, h2⟩ := Res.bind_eq_ok.mp h
  cases h2
  obtain ⟨rfl, ⟨hg, rfl⟩ | ⟨y, hg, rfl, ho⟩⟩ := put_ok hb h1
  · exact ⟨rfl, .inl ⟨hg, rfl⟩⟩
  · exact ⟨rfl, .inr ⟨y, hg, rfl, ho⟩⟩

@[simp] theorem setBusy_cache (d : Disk) (b : Nat) (v : Bool) : (d.setBusy b v).cache = d.cache := rfl
theorem bwrite_frame (d : Disk) (b : Nat) (x : Block) : (d.bwrite b x).frame = d.frame := rfl

end Disk

end Xv6Vsd
