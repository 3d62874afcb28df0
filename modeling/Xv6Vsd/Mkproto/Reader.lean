import Xv6Vsd.Fs.Read
import Xv6Vsd.Mkproto.Bitmap

/-! # The kernel reads the image -/

namespace Xv6Vsd.Mkproto

open Prog Function

/-! ## The image -/

def build (ops : List Op) : M Unit := do
  makefs
  runOps ops
  doentry .sync

variable {s s' : Fs} {P : Plan} {i : Nat} {l : List Op} {sb : Superblock}

theorem build_total {label size nlog ninodes} (hlabel : label.length ≤ 10) (hs : size ≤ 2 ^ 23)
    (hk : Plan.root.Knows l) (hcap : (Plan.root.ops l).next ≤ cap (layout size nlog ninodes))
    (hroom : (Plan.root.ops l).blocks (layout size nlog ninodes) ≤ size)
    (hmax : ∀ i, ((Plan.root.ops l).data i).length ≤ maxfile * bsize) :
    ∃ s, (build l).exec (Fs.new label size nlog ninodes) = .ok () { s with closed := true } ∧
      Follows s (Plan.root.ops l) ∧ s.sb = layout size nlog ninodes ∧ s.size = size := by
  have hcap2 : 2 ≤ cap (layout size nlog ninodes) := Nat.le_trans (Plan.next_le_ops Plan.root l) hcap
  have hroot : (layout size nlog ninodes).metaEnd + 2 ≤ size := by
    refine Nat.le_trans ?_ (Nat.le_trans (Plan.blocks_le_ops Plan.root l _) hroom)
    rw [Plan.blocks, Plan.root, total_root hcap2]
    exact Nat.le_refl _
  obtain ⟨s0, h0⟩ := makefs_total hlabel hs hcap2 hroot
  obtain ⟨hf0, -, hsb0, hsize0⟩ := makefs_follows hs hcap2 h0
  obtain ⟨s1, h1, hf1, hm1⟩ := hf0.ops hk (by rw [hsb0]; exact hcap) (by rw [hsb0, hsize0]; exact hroom) hmax
  have hsb1 := hm1.sb.trans hsb0
  obtain ⟨s2, h2, hf2, hsy⟩ := hf1.syncfs (by rw [hsb1]; exact hcap) (by rw [hsb1]; exact Nat.le_add_right ..)
  exact ⟨s2, bind_ok_iff.mpr ⟨_, _, h0, bind_ok_iff.mpr ⟨_, _, h1, bind_ok_iff.mpr ⟨_, _, h2, rfl⟩⟩⟩, hf2,
    hsy.sb.trans hsb1, hsy.size.trans (hm1.size.trans hsize0)⟩

/-! ## The kernel -/

def readInode (dev inum : Nat) (off n : UInt32) : K (Int × List UInt8) := do
  let r ← iget dev inum
  ilock r
  readi r off n

/-- The kernel has the image on the disk `dev`, no buffer is in use and room for an inode in the cache. -/
structure Shows (k : Kernel) (dev : Nat) (s : Fs) : Prop where
  idle : (k.disk dev).Idle
  sb : (k.disk dev).sb = s.sb
  blocks : ∀ b < s.size, (k.disk dev).cache b = s.image b
  cold : ∀ i, k.icache ⟨dev, i⟩ = none
  slots : k.slots < ninode

/-- The kernel reads from every inode of the image what the plan says, whatever part of it is asked for. -/
def Agrees (s : Fs) (P : Plan) : Prop := ∀ i, 0 < i → i < P.next → (s.inodes i).size.toNat = (P.data i).length ∧
    ∀ k dev, Shows k dev s → ∀ off n, ∃ k',
      (readInode dev i off n).exec k = .ok (readAnswer (P.data i) off.toNat n.toNat) k'

variable {k : Kernel} {dev : Nat}

theorem exec_readInode (h : Shows k dev s) (i : Nat) (off n : UInt32) :
    ∃ k' ip, k'.disk = k.disk ∧ k'.icache ⟨dev, i⟩ = some ip ∧
      (∃ old : Dinode, ip.din = old.update (((k.disk dev).cache (s.sb.iblock i)).dinode i)) ∧
      (readInode dev i off n).exec k = if s.sb.iblock i < fssize then (readi ⟨dev, i⟩ off n).exec k'
        else .panic "incorrect blockno" := by
  let r : IRef := ⟨dev, i⟩
  let ip : Inode := ⟨0, false, false, false, k.stale r⟩
  let k1 : Kernel := { k.setInode r (some ip) with slots := k.slots + 1 }
  have hget : (iget dev i).exec k = .ok r k1 := by
    rw [iget, exec_tau]
    simp only [h.cold i, if_neg (Nat.not_le.mpr h.slots)]
    rfl
  have hlock := exec_ilock_load (s := k1) (r := r) h.idle (update_self ..) rfl rfl
  rw [show (k1.disk r.dev).sb = s.sb from h.sb] at hlock
  let ip' : Inode := { ip with
    busy := true
    valid := true
    din := ip.din.update (((k1.disk r.dev).cache (s.sb.iblock r.inum)).dinode r.inum) }
  refine ⟨k1.setInode r (some ip'), ip', rfl, update_self .., ⟨_, rfl⟩, ?_⟩
  rw [readInode, exec_bind, hget, Res.ok_bind, exec_bind, hlock]
  by_cases hb : s.sb.iblock i < fssize
  · rw [if_pos hb, if_pos hb, Res.ok_bind]
  · rw [if_neg hb, if_neg hb, Res.panic_bind]

variable (h : Follows s P)

include h

theorem Follows.mapped {ip : Inode} {old : Dinode} (hk : (k.disk dev).Idle)
    (hblocks : ∀ b < s.size, (k.disk dev).cache b = s.image b) (hi : i < cap s.sb) (hip : k.icache ⟨dev, i⟩ = some ip)
    (hdin : ip.din = old.update (s.inodes i)) : Mapped k ⟨dev, i⟩ (s.table s.inodes) i ip := by
  have haddr : ∀ j, ip.din.addr j = (s.inodes i).addr j := fun j => by rw [hdin]; rfl
  refine ⟨hk, hip, fun j => ?_, fun j j' hj => ?_, fun j j' hj => ?_⟩
  · rw [haddr]; exact blockAt_ind hi j
  · rw [haddr] at hj ⊢
    have hlt : ((s.inodes i).addr j).toNat < s.size := by
      have hind : s.table s.inodes (.ind i j) = _ := blockAt_ind hi j
      rw [← hind]
      exact h.image.files.base.lt (by rw [hind]; exact toNat_ne_zero hj)
    rw [hblocks _ hlt]
    exact blockAt_dat hi hj j'
  · rw [haddr] at hj; exact blockAt_dat_zero hj j'

theorem Follows.type_ne (h0 : 0 < i) (hi : i < P.next) : (s.inodes i).type ≠ tDev := by
  rw [h.type i h0 hi]; cases P.isDir i <;> decide

theorem Follows.iblock_lt (hi : i < cap s.sb) : s.sb.iblock i < s.sb.metaEnd ∧ s.sb.iblock i < s.size := by
  have h1 := iblock_lt_of_cap hi
  have h2 := s.sb.bmapstart_le_metaEnd
  have h3 := h.image.files.base.ge
  have h4 := h.image.files.base.le
  omega

theorem Follows.opened (hk : Shows k dev s) (hi : i < cap s.sb) (off n : UInt32) :
    ∃ k' ip, Mapped k' ⟨dev, i⟩ (s.table s.inodes) i ip ∧ ip.din.type = (s.inodes i).type ∧
      ip.din.size.toNat = (P.data i).length ∧ Holds (s.table s.inodes) (k'.disk dev).cache i (P.data i) ∧
      (readInode dev i off n).exec k = if s.sb.iblock i < fssize then (readi ⟨dev, i⟩ off n).exec k'
        else .panic "incorrect blockno" := by
  obtain ⟨k', ip, hdisk, hip, ⟨old, hdin⟩, he⟩ := exec_readInode hk i off n
  rw [hk.blocks _ (h.iblock_lt hi).2] at hdin
  have hidle : (k'.disk dev).Idle := by rw [hdisk]; exact hk.idle
  have hblocks : ∀ b < s.size, (k'.disk dev).cache b = s.image b := by rw [hdisk]; exact hk.blocks
  refine ⟨k', ip, h.mapped hidle hblocks hi hip hdin, by rw [hdin]; rfl, ?_, ?_, he⟩
  · rw [← h.image.size i hi, hdin]; rfl
  · exact (h.image.files.holds i hi).congr fun o ho => hblocks _ (h.image.files.base.lt ho)

theorem Follows.agrees (hcap : P.next ≤ cap s.sb) (hreach : P.blocks s.sb ≤ fssize) : Agrees s P := by
  intro i h0 hi
  have hic : i < cap s.sb := Nat.lt_of_lt_of_le hi hcap
  have hlt : ∀ p, s.table s.inodes p < fssize := by
    intro p
    by_cases hp : s.table s.inodes p = 0
    · rw [hp]; decide
    · exact Nat.lt_of_lt_of_le (h.image.files.base.owned.good p hp).2 hreach
  refine ⟨h.image.size i hic, fun k dev hk off n => ?_⟩
  obtain ⟨k', ip, hmap, htype, hsize, hholds, he⟩ := h.opened hk hic off n
  refine ⟨k', ?_⟩
  rw [he, if_pos (Nat.lt_of_lt_of_le (h.iblock_lt hic).1 (Nat.le_trans (Nat.le_add_right ..) hreach))]
  exact hmap.readi hholds (by rw [htype]; exact h.type_ne h0 hi) hsize (h.image.files.length_le hic)
    (fun o _ => ⟨hlt _, hlt _⟩) off n

theorem Follows.byte_of_block {b} (h1 : s.sb.metaEnd ≤ b) (h2 : b < P.blocks s.sb) :
    ∃ i < cap s.sb, ∃ o < (P.data i).length, s.table s.inodes (.ind i (o / 65536)) = b ∨
      s.table s.inodes (.ofByte i o) = b := by
  obtain ⟨p, hp⟩ := h.image.files.base.onto b h1 h2
  have hb : b ≠ 0 := Nat.ne_of_gt (Nat.lt_of_lt_of_le s.sb.metaEnd_pos h1)
  cases p with
  | ind i k =>
    have hi : i < cap s.sb := by
      by_contra hi
      simp [Fs.table, blockAt, hi] at hp
      exact hb hp.symm
    have hk := ((h.image.files.exact i hi).ind k).mp (by rw [hp]; exact hb)
    refine ⟨i, hi, k * 65536, hk, .inl ?_⟩
    rw [Nat.mul_div_cancel _ (by decide), hp]
  | dat i k j =>
    have hi : i < cap s.sb := (blockAt_dat_ne (show s.table s.inodes (.dat i k j) ≠ 0 by rw [hp]; exact hb)).1
    have hj : j < 128 := by
      by_contra hj
      refine hb ?_
      rw [← hp, Fs.table, blockAt, Bytes.u32_of_ge _ (show 512 ≤ 4 * j by omega)]
      split <;> rfl
    have hk := ((h.image.files.exact i hi).dat k j hj).mp (by rw [hp]; exact hb)
    refine ⟨i, hi, k * 65536 + j * 512, hk, .inr ?_⟩
    rw [Place.ofByte, show (k * 65536 + j * 512) / 65536 = k by omega,
      show (k * 65536 + j * 512) / 512 % 128 = j by omega, hp]

def booted (s : Fs) : Kernel where
  disk _ := {
    present := true
    mounted := true
    sb := s.sb
    log := { start := s.sb.logstart, size := s.sb.nlog, outstanding := 0, committing := false, lh := [] }
    cache := s.image
    platter := s.image
    busy := fun _ => false }
  icache _ := none
  slots := 0
  stale _ := Dinode.zero
  rootdir := ⟨1, 1⟩
  file _ := none
  proc _ := ⟨-1, false, fun _ => none, none, none, false, [], ""⟩
  singleuser := false
  answers _ := ⟨0, [], false, false⟩
  asked := 0

omit h in
theorem booted_shows (s : Fs) (dev : Nat) : Shows (booted s) dev s :=
  ⟨⟨rfl, rfl, fun _ => rfl⟩, rfl, fun _ _ => rfl, fun _ => rfl, Nat.zero_lt_succ _⟩

theorem Follows.unreadable (h0 : P.data 0 = []) (hpos : s.sb.metaEnd < P.blocks s.sb) (hfar : fssize < P.blocks s.sb) :
    ∃ i o, 0 < i ∧ i < P.next ∧ (readInode 1 i (UInt32.ofNat o) 1).exec (booted s) = .panic "incorrect blockno" := by
  obtain ⟨i, hi, o, ho, hb⟩ := h.byte_of_block (b := P.blocks s.sb - 1) (by omega) (by omega)
  have hi0 : 0 < i := by
    refine Nat.pos_of_ne_zero fun hc => ?_
    rw [hc, h0] at ho
    exact Nat.not_lt_zero o ho
  have hnext : i < P.next := by
    by_contra hc
    rw [h.image.fresh i (by rw [h.next]; omega)] at ho
    exact Nat.not_lt_zero o ho
  refine ⟨i, o, hi0, hnext, ?_⟩
  obtain ⟨k', ip, hmap, htype, hsize, hholds, he⟩ := h.opened (booted_shows s 1) hi (UInt32.ofNat o) 1
  rw [he]
  split
  · refine hmap.readi_far hholds (by rw [htype]; exact h.type_ne hi0 hnext) hsize (h.image.files.length_le hi) ho ?_
    rintro ⟨h1, h2⟩
    omega
  · rfl

omit h

theorem Shows.congr (h : Shows k dev s) (hsb : s'.sb = s.sb) (hsize : s'.size = s.size) (himg : s'.image = s.image) :
    Shows k dev s' :=
  ⟨h.idle, h.sb.trans hsb.symm, by rw [hsize, himg]; exact h.blocks, h.cold, h.slots⟩

theorem Plan.root_blocks_lt (hcap : 2 ≤ cap sb) (l : List Op) : sb.metaEnd < (Plan.root.ops l).blocks sb := by
  refine Nat.lt_of_lt_of_le ?_ (Plan.blocks_le_ops Plan.root l sb)
  rw [Plan.blocks, Plan.root, total_root hcap]
  exact Nat.lt_add_of_pos_right (by decide)

/-- The kernel reads from every inode what was appended to it, if and only if the driver lets it
read all the blocks in use. -/
theorem reads_appended_iff {label : List UInt8} {size nlog : Nat} (hlabel : label.length ≤ 10)
    (hk : Plan.root.Knows l) (hcap : (Plan.root.ops l).next ≤ cap (layout size nlog (size / 10)))
    (hroom : (Plan.root.ops l).blocks (layout size nlog (size / 10)) ≤ size)
    (hmax : ∀ i, ((Plan.root.ops l).data i).length ≤ maxfile * bsize) :
    ((Plan.root.ops l).blocks (layout size nlog (size / 10)) ≤ fssize → size ≤ 2 ^ 23) ∧
      (size ≤ 2 ^ 23 → ∃ s, (build l).exec (Fs.new label size nlog (size / 10)) = .ok () s ∧
        (Agrees s (Plan.root.ops l) ↔ (Plan.root.ops l).blocks (layout size nlog (size / 10)) ≤ fssize)) := by
  constructor
  · intro hreach
    have hle := Nat.le_trans (Nat.le_add_right ..) hreach
    simp only [layout, Superblock.metaEnd, ipb, bpb, bsize, fssize] at hle
    omega
  intro hs
  obtain ⟨s, he, hf, hsb, hsize⟩ := build_total hlabel hs hk hcap hroom hmax
  refine ⟨_, he, fun hagree => ?_, fun hreach => ?_⟩
  · by_contra hfar
    have hcap2 : 2 ≤ cap s.sb := by rw [hsb]; exact Nat.le_trans (Plan.next_le_ops Plan.root l) hcap
    obtain ⟨i, o, h0, hi, hp⟩ := hf.unreadable (Plan.data_zero rfl hk) (Plan.root_blocks_lt hcap2 l)
      (by rw [hsb]; exact Nat.lt_of_not_le hfar)
    obtain ⟨k', hok⟩ := (hagree i h0 hi).2 _ 1 ((booted_shows s 1).congr rfl rfl rfl) (UInt32.ofNat o) 1
    simp [hp] at hok
  · intro i h0 hi
    obtain ⟨h1, h2⟩ := hf.agrees (by rw [hsb]; exact hcap) (by rw [hsb]; exact hreach) i h0 hi
    exact ⟨h1, fun k dev hk => h2 k dev (hk.congr rfl rfl rfl)⟩

def threeBytes : List Op := [.ialloc false 0 0, .iappend 2 [104, 105], .iappend 1 (entryBytes [97] 2), .iappend 2 [33]]

theorem reads_appended_threeBytes : ∃ s, (build threeBytes).exec (Fs.new [] 1000 logsize (1000 / 10)) = .ok () s ∧
      (Plan.root.ops threeBytes).data 2 = [104, 105, 33] ∧ Agrees s (Plan.root.ops threeBytes) := by
  have hblocks : (Plan.root.ops threeBytes).blocks (layout 1000 logsize (1000 / 10)) = 50 := by decide +kernel
  have hmax : ∀ i, ((Plan.root.ops threeBytes).data i).length ≤ maxfile * bsize := by
    intro i
    by_cases h1 : i = 1
    · subst h1; decide
    by_cases h2 : i = 2
    · subst h2; decide
    · simp [threeBytes, Plan.ops, Plan.op, Plan.append, Plan.alloc, Plan.root, h1, h2]
  have h := @reads_appended_iff threeBytes [] 1000 logsize (Nat.zero_le _)
    ⟨by decide, by decide, by decide, by decide, by decide, by decide, trivial⟩ (by decide)
      (by rw [hblocks]; decide) hmax
  obtain ⟨s, he, hiff⟩ := h.2 (by decide)
  exact ⟨s, he, rfl, hiff.mpr (by rw [hblocks]; decide)⟩

/-- With 400000 blocks the root directory lies at 5131, where the driver refuses to read. -/
theorem root_unreadable : ∃ s, (build []).exec (Fs.new [] 400000 logsize (400000 / 10)) = .ok () s ∧
    Shows (booted s) 1 s ∧
    ∃ i o, 0 < i ∧ i < 2 ∧ (readInode 1 i (UInt32.ofNat o) 1).exec (booted s) = .panic "incorrect blockno" := by
  have hcap : 2 ≤ cap (layout 400000 logsize (400000 / 10)) := by decide
  have hblocks : Plan.root.blocks (layout 400000 logsize (400000 / 10)) = 5133 := by
    have htotal : total (cap (layout 400000 logsize (400000 / 10))) Plan.root.data = 2 := total_root hcap _
    rw [Plan.blocks, htotal]
    decide
  have hmax : ∀ i, (Plan.root.data i).length ≤ maxfile * bsize := by
    intro i
    by_cases h1 : i = 1
    · subst h1; decide
    · simp [Plan.root, h1]
  obtain ⟨s, he, hf, hsb, -⟩ := build_total (l := []) (show ([] : List UInt8).length ≤ 10 by decide)
    (show 400000 ≤ 2 ^ 23 by decide) trivial
    hcap (show Plan.root.blocks _ ≤ 400000 by rw [hblocks]; decide) hmax
  refine ⟨_, he, booted_shows _ 1, hf.unreadable rfl ?_ ?_⟩
  · rw [hsb]; exact Plan.root_blocks_lt hcap []
  rw [hsb]
  show fssize < Plan.root.blocks _
  rw [hblocks]
  decide

end Xv6Vsd.Mkproto
