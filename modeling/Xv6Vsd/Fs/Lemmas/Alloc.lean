import Xv6Vsd.Fs.Lemmas.Spec

/-! # What `balloc` and `bmap` do -/

namespace Xv6Vsd

open Prog Function Kernel Disk

def Superblock.metaEnd (sb : Superblock) : Nat := sb.bmapstart + sb.size / bpb + 1

theorem Superblock.bblock_lt (sb : Superblock) {b} (h : b < sb.size) : sb.bblock b < sb.metaEnd := by
  simp only [bblock, metaEnd, bpb, bsize]; omega

namespace Disk

def marked (d : Disk) (b : Nat) : Bool := (d.cache (d.sb.bblock b)).testBit (b % bpb)

def MetaMarked (d : Disk) : Prop := ∀ b < d.sb.metaEnd, b < d.sb.size → d.marked b = true

def full (d : Disk) : Prop := ∀ b < d.sb.size, d.marked b = true

def firstFree (d : Disk) (b : Nat) : Prop := b < d.sb.size ∧ d.marked b = false ∧ ∀ b' < b, d.marked b' = true

def alloc (d : Disk) (b : Nat) : Disk :=
  (d.logged (d.sb.bblock b) ((d.cache (d.sb.bblock b)).setBit (b % bpb))).logged b Bytes.zero

def AllocOpen (d : Disk) (b : Nat) : Prop :=
  d.Open ∧ (d.logged (d.sb.bblock b) ((d.cache (d.sb.bblock b)).setBit (b % bpb))).Open

@[simp] theorem logged_sb (d : Disk) (b : Nat) (x : Block) : (d.logged b x).sb = d.sb :=
  congrArg (·.2.2.1) (d.logged_frame b x)

variable (d : Disk) (b : Nat) (v : Bool)

@[simp] theorem alloc_sb : (d.alloc b).sb = d.sb := by simp [alloc]

@[simp] theorem alloc_busy : (d.alloc b).busy = d.busy := by simp [alloc]

theorem alloc_frame : (d.alloc b).frame = d.frame := by
  simp only [alloc, logged_frame]

theorem alloc_cache : (d.alloc b).cache = update (update d.cache (d.sb.bblock b)
      ((d.cache (d.sb.bblock b)).setBit (b % bpb))) b Bytes.zero := by
  simp [alloc]

@[simp] theorem setBusy_sb : (d.setBusy b v).sb = d.sb := rfl

@[simp] theorem setBusy_log : (d.setBusy b v).log = d.log := rfl

@[simp] theorem setBusy_present : (d.setBusy b v).present = d.present := rfl

@[simp] theorem setBusy_marked : (d.setBusy b v).marked = d.marked := rfl

theorem setBusy_logged (d : Disk) (b c : Nat) (v : Bool) (x : Block) :
    (d.setBusy b v).logged c x = (d.logged c x).setBusy b v := by
  by_cases hs : d.log.size = 0
  · simp [logged, hs, setBusy, bwrite]
  by_cases hm : UInt32.ofNat c ∈ d.log.lh
  · simp [logged, hs, setBusy, store, logAppend, hm]
  · simp [logged, hs, setBusy, store, logAppend, hm, setLh]

theorem setBusy_alloc (d : Disk) (b c : Nat) (v : Bool) : (d.setBusy b v).alloc c = (d.alloc c).setBusy b v := by
  simp [alloc, setBusy_logged]

theorem setBusy_allocOpen (d : Disk) (b c : Nat) (v : Bool) : (d.setBusy b v).AllocOpen c = d.AllocOpen c := by
  unfold AllocOpen
  rw [setBusy_sb, setBusy_logged]
  rfl

theorem setBusy_setBusy (d : Disk) {b} (h : d.busy b = false) : (d.setBusy b true).setBusy b false = d := by
  simp [setBusy, ← h]

end Disk

theorem firstFree_some {x m i} (h : firstFree x m = some i) :
    i < m ∧ x.testBit i = false ∧ ∀ j < i, x.testBit j = true := by
  have := List.find?_range_eq_some.mp h
  simpa [and_assoc, and_comm, and_left_comm] using this

theorem firstFree_none {x m} (h : firstFree x m = none) : ∀ j < m, x.testBit j = true := by
  simpa using List.find?_range_eq_none.mp h

section

variable {dev : Nat} {s s' : Kernel}
variable {b : Nat} {a : UInt32}

theorem marked_add {d : Disk} {i : Nat} (hb : b % bpb = 0) (hi : i < bpb) :
    d.marked (b + i) = (d.cache (d.sb.bblock b)).testBit i := by
  have h1 : (b + i) / bpb = b / bpb := by simp only [bpb, bsize] at *; omega
  have h2 : (b + i) % bpb = i := by simp only [bpb, bsize] at *; omega
  simp [marked, Superblock.bblock, h1, h2]

theorem marked_upto {d : Disk} {k : Nat} (hb : b % bpb = 0) (hk : k ≤ bpb)
    (hbelow : ∀ j < b, j < d.sb.size → d.marked j = true)
      (hbits : ∀ i < k, (d.cache (d.sb.bblock b)).testBit i = true) :
    ∀ j < b + k, j < d.sb.size → d.marked j = true := by
  intro j hj hjs
  by_cases hjb : j < b
  · exact hbelow j hjb hjs
  have := marked_add (d := d) hb (show j - b < bpb by omega)
  rw [show b + (j - b) = j by omega] at this
  rw [this, hbits (j - b) (by omega)]

theorem ballocFrom_ok {fuel : Nat} {o : Option Nat} (hb : b % bpb = 0) (hfuel : (s.disk dev).sb.size ≤ b + fuel * bpb)
    (hbelow : ∀ j < b, j < (s.disk dev).sb.size → (s.disk dev).marked j = true)
    (h : (ballocFrom dev (s.disk dev).sb fuel b).exec s = .ok o s') :
    (o = none ∧ s' = s ∧ (s.disk dev).full) ∨
      ∃ c, o = some c ∧ (s.disk dev).firstFree c ∧ (s.disk dev).Ready ((s.disk dev).sb.bblock c) ∧
        (s.disk dev).Open ∧ s' = s.setDisk dev ((s.disk dev).logged ((s.disk dev).sb.bblock c)
          (((s.disk dev).cache ((s.disk dev).sb.bblock c)).setBit (c % bpb))) := by
  induction fuel generalizing b with
  | zero => cases h; exact .inl ⟨rfl, rfl, fun j hj => hbelow j (by omega) hj⟩
  | succ fuel ih =>
    rw [ballocFrom] at h
    split at h
    · rename_i hlt
      obtain ⟨found, s1, h1, h2⟩ := bind_ok h
      obtain ⟨d, hd, rfl⟩ := edit_ok h1
      obtain ⟨hr, hfound, hd'⟩ := Disk.edit_ok hd
      cases hf : firstFree ((s.disk dev).cache ((s.disk dev).sb.bblock b)) (min bpb ((s.disk dev).sb.size - b)) with
      | some i =>
        rw [hf] at hfound hd'
        subst hfound
        cases h2
        obtain ⟨hn, -⟩ | ⟨y, hy, rfl, ho⟩ := hd'
        · cases hn
        obtain ⟨hi, hbit, hbefore⟩ := firstFree_some hf
        have hib : i < bpb := by omega
        have hbb : (s.disk dev).sb.bblock (b + i) = (s.disk dev).sb.bblock b := by
          simp only [Superblock.bblock, bpb, bsize] at *; omega
        have hmod : (b + i) % bpb = i := by simp only [bpb, bsize] at *; omega
        cases hy
        refine .inr ⟨b + i, rfl, ⟨by omega, ?_, fun j hj => ?_⟩, by rwa [hbb], ho, by rw [hbb, hmod]⟩
        · rw [marked_add hb hib, hbit]
        · exact marked_upto hb (by omega) hbelow hbefore j hj (by omega)
      | none =>
        rw [hf] at hfound hd'
        subst hfound
        obtain ⟨-, rfl⟩ | ⟨y, hy, -⟩ := hd'
        · rw [setDisk_self] at h2
          refine ih (by simp only [bpb, bsize] at *; omega)
            (by simp only [bpb, bsize] at *; omega) (fun j hj hjs => ?_) h2
          exact marked_upto hb (by omega) hbelow (firstFree_none hf) j (by omega) hjs
        · cases hy
    · rename_i hge
      cases h
      exact .inl ⟨rfl, rfl, fun j hj => hbelow j (by omega) hj⟩

theorem balloc_ok (h : (balloc dev).exec s = .ok a s') : (a = 0 ∧ s' = s ∧ (s.disk dev).full) ∨
      ∃ b, (s.disk dev).firstFree b ∧ a = UInt32.ofNat b ∧ (s.disk dev).Ready b ∧
        (s.disk dev).Ready ((s.disk dev).sb.bblock b) ∧ (s.disk dev).AllocOpen b ∧
        s' = s.setDisk dev ((s.disk dev).alloc b) := by
  obtain ⟨sb, s1, h1, h2⟩ := bind_ok h
  obtain ⟨rfl, rfl, -⟩ := getsuperblock_ok h1
  obtain ⟨o, s2, h3, h4⟩ := bind_ok h2
  have hfuel : (s1.disk dev).sb.size ≤ 0 + ((s1.disk dev).sb.size / bpb + 1) * bpb := by
    simp only [bpb, bsize]; omega
  obtain ⟨rfl, rfl, hfull⟩ | ⟨b, rfl, hfree, hr, ho, rfl⟩ := ballocFrom_ok (by simp) hfuel (by simp) h3
  · cases h4; exact .inl ⟨rfl, rfl, hfull⟩
  obtain ⟨_, s3, h5, h6⟩ := bind_ok h4
  cases h6
  obtain ⟨rfl, hr', ho'⟩ := edit_write_ok h5
  rw [setDisk_disk_self] at hr' ho' ⊢
  refine .inr ⟨b, hfree, rfl, ?_, hr, ⟨ho, ho'⟩, by simp [alloc]⟩
  have hp : ((s1.disk dev).logged ((s1.disk dev).sb.bblock b)
    (((s1.disk dev).cache ((s1.disk dev).sb.bblock b)).setBit (b % bpb))).present = (s1.disk dev).present :=
    congrArg (·.1) ((s1.disk dev).logged_frame _ _)
  simpa [Disk.Ready, hp] using hr'

def Disk.filled (d : Disk) (ip : Dinode) (k j b : Nat) : Disk :=
  (d.alloc b).logged (ip.addr k).toNat ((d.cache (ip.addr k).toNat).setU32 (4 * j) (UInt32.ofNat b))

def Kernel.grown (s : Kernel) (r : IRef) (ip : Inode) (k b : Nat) : Kernel :=
  (s.setInode r (some { ip with din := ip.din.setAddr k (UInt32.ofNat b) })).setDisk r.dev ((s.disk r.dev).alloc b)

@[simp] theorem Kernel.grown_disk (s : Kernel) (r : IRef) (ip : Inode) (k b : Nat) :
    (s.grown r ip k b).disk r.dev = (s.disk r.dev).alloc b := setDisk_disk_self ..

theorem Kernel.grown_icache (s : Kernel) (r : IRef) (ip : Inode) (k b : Nat) : (s.grown r ip k b).icache r =
    some { ip with din := ip.din.setAddr k (UInt32.ofNat b) } := setInode_icache_self ..

/-- How `bmap` ends for block `128 * k + j` of the inode `r`, which is cached as `ip`. -/
inductive BmapEnds (s : Kernel) (r : IRef) (ip : Inode) (k j : Nat) : UInt32 → Kernel → Prop
  | hit (hk : ip.din.addr k ≠ 0) (hr : (s.disk r.dev).Ready (ip.din.addr k).toNat)
    (hj : ((s.disk r.dev).cache (ip.din.addr k).toNat).u32 (4 * j) ≠ 0) :
    BmapEnds s r ip k j (((s.disk r.dev).cache (ip.din.addr k).toNat).u32 (4 * j)) s
  | full (hk : ip.din.addr k = 0) (hfull : (s.disk r.dev).full) : BmapEnds s r ip k j (-1) s
  | held (hk : ip.din.addr k ≠ 0) (hr : (s.disk r.dev).Ready (ip.din.addr k).toNat)
    (hj : ((s.disk r.dev).cache (ip.din.addr k).toNat).u32 (4 * j) = 0) (hfull : (s.disk r.dev).full) :
    BmapEnds s r ip k j (-1) (s.setDisk r.dev ((s.disk r.dev).setBusy (ip.din.addr k).toNat true))
  | fill {b : Nat} (hk : ip.din.addr k ≠ 0) (hr : (s.disk r.dev).Ready (ip.din.addr k).toNat)
    (hj : ((s.disk r.dev).cache (ip.din.addr k).toNat).u32 (4 * j) = 0)
    (hfree : (s.disk r.dev).firstFree b) (hb : (s.disk r.dev).Ready b) (hne : b ≠ (ip.din.addr k).toNat)
    (hbm : (s.disk r.dev).sb.bblock b ≠ (ip.din.addr k).toNat) (ho : (s.disk r.dev).AllocOpen b)
    (ho' : ((s.disk r.dev).alloc b).Open) :
    BmapEnds s r ip k j (UInt32.ofNat b) (s.setDisk r.dev ((s.disk r.dev).filled ip.din k j b))
  | halfway {a : Nat} (hk : ip.din.addr k = 0) (hfree : (s.disk r.dev).firstFree a)
    (ha : (s.disk r.dev).Ready a) (ho : (s.disk r.dev).AllocOpen a) (hfull : ((s.disk r.dev).alloc a).full) :
    BmapEnds s r ip k j (-1) ((s.grown r ip k a).setDisk r.dev (((s.disk r.dev).alloc a).setBusy a true))
  | both {a b : Nat} (hk : ip.din.addr k = 0) (hfree : (s.disk r.dev).firstFree a)
    (ha : (s.disk r.dev).Ready a) (ho : (s.disk r.dev).AllocOpen a) (hfree' : ((s.disk r.dev).alloc a).firstFree b)
    (hb : (s.disk r.dev).Ready b) (hne : b ≠ a) (hbm : (s.disk r.dev).sb.bblock b ≠ a)
    (ho' : ((s.disk r.dev).alloc a).AllocOpen b) (ho'' : (((s.disk r.dev).alloc a).alloc b).Open) :
    BmapEnds s r ip k j (UInt32.ofNat b) ((s.grown r ip k a).setDisk r.dev
      (((s.disk r.dev).alloc a).filled (ip.din.setAddr k (UInt32.ofNat a)) k j b))

theorem ofNat_ne_zero (h0 : b ≠ 0) (hb : b < fssize) : UInt32.ofNat b ≠ 0 :=
  fun he => h0 ((toNat_ofNat hb).symm.trans (congrArg UInt32.toNat he))

namespace Disk

variable {d : Disk} {b c : Nat}

theorem firstFree.metaEnd_le (h : d.firstFree b) (hm : d.MetaMarked) : d.sb.metaEnd ≤ b := by
  by_contra hlt
  have hb := hm b (by omega) h.1
  simp [h.2.1] at hb

theorem firstFree.ne_zero (h : d.firstFree b) (hm : d.MetaMarked) : b ≠ 0 := by
  have hle := h.metaEnd_le hm
  simp only [Superblock.metaEnd] at hle
  exact Nat.pos_iff_ne_zero.mp (Nat.lt_of_lt_of_le (Nat.succ_pos _) hle)

theorem firstFree.bblock_ne (h : d.firstFree b) (hm : d.MetaMarked) (hc : c < d.sb.size) : d.sb.bblock c ≠ b := by
  have hlt := d.sb.bblock_lt hc
  have hle := h.metaEnd_le hm
  omega

theorem testBit_alloc {sb : Superblock} {C : Nat → Block} (hc : sb.bblock c ≠ b) :
    (update (update C (sb.bblock b) ((C (sb.bblock b)).setBit (b % bpb))) b Bytes.zero (sb.bblock c)).testBit
      (c % bpb) =
      (decide (b = c) || (C (sb.bblock c)).testBit (c % bpb)) := by
  have hlt : b % bpb / 8 < 512 := by simp only [bpb, bsize]; omega
  rw [update_of_ne hc]
  by_cases hbb : sb.bblock c = sb.bblock b
  · rw [hbb, update_self, Bytes.testBit_setBit _ hlt]
    congr 1
    refine decide_eq_decide.mpr ⟨fun he => ?_, fun he => by rw [he]⟩
    simp only [Superblock.bblock, bpb, bsize] at *
    omega
  · have hne : b ≠ c := fun he => hbb (by rw [he]); simp [update_of_ne hbb, hne]

theorem alloc_marked (hc : d.sb.bblock c ≠ b) : (d.alloc b).marked c = (decide (b = c) || d.marked c) := by
  rw [marked, alloc_sb, alloc_cache]
  exact testBit_alloc hc

theorem MetaMarked.alloc (hm : d.MetaMarked) (h : d.firstFree b) : (d.alloc b).MetaMarked := by
  intro c hc hs
  rw [alloc_sb] at hc hs
  rw [alloc_marked (h.bblock_ne hm hs), hm c hc hs, Bool.or_true]

end Disk

theorem bmapPtr_ok {r ip bn} (hip : s.icache r = some ip)
    (hk : ip.din.addr (bn / nindirect) ≠ 0) (hm : (s.disk r.dev).MetaMarked)
    (h : (bmapG.bmapPtr r bn true (bn % nindirect)).exec s = .ok a s') :
    BmapEnds s r ip (bn / nindirect) (bn % nindirect) a s' := by
  obtain ⟨x, s1, h1, h2⟩ := bind_ok h
  obtain ⟨rfl, hx⟩ := inode_ok h1
  rw [hip] at hx; cases hx
  obtain ⟨y, s2, h3, h4⟩ := bind_ok h2
  rw [exec_act] at h3
  obtain ⟨-, d, hd, rfl⟩ := onDisk_ok h3
  obtain ⟨hr, rfl, rfl⟩ := hold_ok hd
  have hA : (ip.din.addr (bn / nindirect)).toNat < fssize := hr.2.2
  change (if ((s1.disk r.dev).cache (ip.din.addr (bn / nindirect)).toNat).u32 (4 * (bn % nindirect)) = 0 ∧ _ then _
    else _ : K UInt32).exec _ = _ at h4
  by_cases hj : ((s1.disk r.dev).cache (ip.din.addr (bn / nindirect)).toNat).u32 (4 * (bn % nindirect)) = 0
  · rw [if_pos ⟨hj, rfl⟩] at h4
    obtain ⟨nb, s3, h5, h6⟩ := bind_ok h4
    obtain ⟨rfl, rfl, hfull⟩ | ⟨b, hfree, rfl, hb, hbb, ho, rfl⟩ := balloc_ok h5
    · cases h6; rw [setDisk_disk_self] at hfull; exact .held hk hr hj hfull
    rw [setDisk_disk_self] at hfree hb hbb ho h6
    have hfree' : (s1.disk r.dev).firstFree b := hfree
    have hne : b ≠ (ip.din.addr (bn / nindirect)).toNat := fun he => by
      have := hb.2.1
      simp [setBusy, he] at this
    have hbm : (s1.disk r.dev).sb.bblock b ≠ (ip.din.addr (bn / nindirect)).toNat := fun he => by
      have hbusy := hbb.2.1
      rw [setBusy_sb, he] at hbusy
      simp [setBusy] at hbusy
    have hbr : (s1.disk r.dev).Ready b := by
      refine ⟨hb.1, ?_, hb.2.2⟩
      have := hb.2.1
      simpa [setBusy, update_of_ne hne] using this
    rw [if_neg (ofNat_ne_zero (hfree'.ne_zero hm) hbr.2.2), release, exec_act] at h6
    obtain ⟨-, d, hd', rfl⟩ := onDisk_ok h6
    rw [setDisk_disk_self] at hd'
    obtain ⟨rfl, ⟨hn, -⟩ | ⟨z, hz, rfl, ho'⟩⟩ := release_ok hA hd'
    · cases hn
    cases hz
    rw [setBusy_allocOpen] at ho
    have ho2 : ((s1.disk r.dev).alloc b).Open := by rw [setBusy_alloc] at ho'; exact ho'
    have hcache : (((s1.disk r.dev).setBusy (ip.din.addr (bn / nindirect)).toNat true).alloc b).cache
      (ip.din.addr (bn / nindirect)).toNat = (s1.disk r.dev).cache (ip.din.addr (bn / nindirect)).toNat := by
      rw [alloc_cache, update_of_ne hne.symm, setBusy_sb, update_of_ne hbm.symm]
      rfl
    rw [hcache, Bytes.u32_setU32 _ _ (by simp only [nindirect, bsize]; omega), setBusy_alloc, setBusy_logged,
      setBusy_setBusy _ (by simpa using hr.2.1), setDisk_setDisk, setDisk_setDisk]
    exact .fill hk hr hj hfree' hbr hne hbm ho ho2
  · rw [if_neg (fun hc => hj hc.1), if_neg (by simp), release, exec_act] at h4
    obtain ⟨-, d, hd', rfl⟩ := onDisk_ok h4
    rw [setDisk_disk_self] at hd'
    obtain ⟨rfl, ⟨-, rfl⟩ | ⟨z, hz, -⟩⟩ := release_ok hA hd'
    · rw [setBusy_setBusy _ hr.2.1, setDisk_setDisk, setDisk_self]; exact .hit hk hr hj
    · cases hz

theorem Dinode.addr_zero (k : Nat) : Dinode.zero.addr k = 0 := by simp [Dinode.addr, Dinode.zero]

theorem Dinode.addr_setAddr (d : Dinode) {k} (hk : k < 12) (v : UInt32) : (d.setAddr k v).addr k = v := by
  simp [addr, setAddr, hk]

theorem Dinode.addr_setAddr_of_ne (d : Dinode) {k k'} (h : k' ≠ k) (v : UInt32) :
    (d.setAddr k v).addr k' = d.addr k' := by
  simp [addr, setAddr, h]

theorem bmap_ok {r bn} (hm : (s.disk r.dev).MetaMarked) (h : (bmap r bn).exec s = .ok a s') :
    bn < maxfile ∧ ∃ ip, s.icache r = some ip ∧ BmapEnds s r ip (bn / nindirect) (bn % nindirect) a s' := by
  unfold bmap bmapG at h
  dsimp only [offset2real] at h
  split at h
  · rw [exec_panic] at h; cases h
  rename_i hmax
  refine ⟨by omega, ?_⟩
  have hk12 : bn / nindirect < 12 := by simp only [maxfile, nindirect, bsize] at *; omega
  obtain ⟨ip, s1, h1, h2⟩ := bind_ok h
  rw [exec_act] at h1
  cases hip : s.icache r with
  | none => rw [hip] at h1; cases h1
  | some x =>
    rw [hip] at h1; cases h1
    refine ⟨ip, rfl, ?_⟩
    by_cases hk : ip.din.addr (bn / nindirect) = 0
    · rw [if_pos ⟨hk, rfl⟩] at h2
      obtain ⟨na, s2, h3, h4⟩ := bind_ok h2
      obtain ⟨rfl, rfl, hfull⟩ | ⟨b, hfree, rfl, hb, hbb, ho, rfl⟩ := balloc_ok h3
      · cases h4; exact .full hk hfull
      have hb0 := ofNat_ne_zero (hfree.ne_zero hm) hb.2.2
      rw [if_neg hb0] at h4
      obtain ⟨_, s3, h5, h6⟩ := bind_ok h4
      obtain ⟨y, hy, rfl⟩ := modDin_ok h5
      rw [setDisk_icache, hip] at hy; cases hy
      exact both_ends hk12 hk hm hfree hb ho h6
    · rw [if_neg (fun hc => hk hc.1), if_neg (by simp)] at h2; exact bmapPtr_ok hip hk hm h2
where
  both_ends {r : IRef} {ip : Inode} {bn b : Nat} {a : UInt32} (hk12 : bn / nindirect < 12)
    (hk : ip.din.addr (bn / nindirect) = 0) (hm : (s.disk r.dev).MetaMarked)
    (hfree : (s.disk r.dev).firstFree b) (hb : (s.disk r.dev).Ready b) (ho : (s.disk r.dev).AllocOpen b)
    (h : (bmapG.bmapPtr r bn true (bn % nindirect)).exec (s.grown r ip (bn / nindirect) b) = .ok a s') :
    BmapEnds s r ip (bn / nindirect) (bn % nindirect) a s' := by
    have hb0 := ofNat_ne_zero (hfree.ne_zero hm) hb.2.2
    have haddr := ip.din.addr_setAddr hk12 (UInt32.ofNat b)
    have hends := bmapPtr_ok (s.grown_icache r ip _ b) (by rw [haddr]; exact hb0) (by simpa using hm.alloc hfree) h
    have hzero : ((s.disk r.dev).alloc b).cache b = Bytes.zero := by simp [alloc_cache]
    cases hends with
    | hit hk' hr hj =>
      rw [haddr, toNat_ofNat hb.2.2, grown_disk, hzero] at hj
      exact absurd (Bytes.u32_zero _) hj
    | full hk' hfull => exact absurd hk' (by rw [haddr]; exact hb0)
    | held hk' hr hj hfull =>
      simp only [haddr, toNat_ofNat hb.2.2, grown_disk] at hfull ⊢
      exact .halfway hk hfree hb ho hfull
    | fill hk' hr hj hfree' hb' hne hbm ho' ho2 =>
      simp only [haddr, toNat_ofNat hb.2.2, grown_disk] at hfree' hb' hne hbm ho' ho2 ⊢
      refine .both hk hfree hb ho hfree' ?_ hne (by simpa using hbm) ho' ho2
      have hp : ((s.disk r.dev).alloc b).present = (s.disk r.dev).present := congrArg (·.1) (alloc_frame ..)
      simpa [Disk.Ready, hp] using hb'
    | halfway hk' => exact absurd hk' (by rw [haddr]; exact hb0)
    | both hk' => exact absurd hk' (by rw [haddr]; exact hb0)

end

end Xv6Vsd
