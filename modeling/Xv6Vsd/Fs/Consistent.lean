import Xv6Vsd.Fs.Fit
import Xv6Vsd.Log.Lemmas.Commit

/-! # Consistent states of the file system -/

namespace Xv6Vsd

open Prog Function Kernel Disk List

def Kernel.view (s : Kernel) (dev i : Nat) : Dinode := s.din ⟨dev, i⟩

def Disk.LogOk (d : Disk) : Prop :=
  d.log.size = 0 ∨ (d.log.start + d.log.size ≤ d.sb.inodestart ∧ d.log.lh.length < d.log.size ∧
    ∀ x ∈ d.log.lh, d.sb.inodestart ≤ x.toNat)

structure Settled (s : Kernel) (dev : Nat) : Prop where
  snug : Snug (s.disk dev).sb (s.view dev) (s.disk dev).cache
  log : (s.disk dev).LogOk
  refs : ∀ i ip, s.icache ⟨dev, i⟩ = some ip → i < (s.disk dev).sb.ninodes
  loaded : ∀ i ip, s.icache ⟨dev, i⟩ = some ip → ip.busy = true → ip.valid = true

structure Sound (s : Kernel) (dev : Nat) : Prop where
  fit : Fit (s.disk dev).sb (s.view dev) (s.disk dev).cache
  log : (s.disk dev).LogOk
  refs : ∀ i ip, s.icache ⟨dev, i⟩ = some ip → i < (s.disk dev).sb.ninodes
  loaded : ∀ i ip, s.icache ⟨dev, i⟩ = some ip → ip.busy = true → ip.valid = true

theorem Sound.settled {s dev} (h : Sound s dev) : Settled s dev := ⟨h.fit.toSnug, h.log, h.refs, h.loaded⟩

theorem Settled.sound {s dev} (h : Settled s dev) (hfit : Fit (s.disk dev).sb (s.view dev) (s.disk dev).cache) :
    Sound s dev := ⟨hfit, h.log, h.refs, h.loaded⟩

structure Kernel.Consistent (s : Kernel) : Prop where
  mounted : ∀ r ip, s.icache r = some ip → (s.disk r.dev).mounted = true
  sound : ∀ dev, (s.disk dev).mounted = true → Sound s dev

/-! ## The log -/

namespace Disk

variable {d : Disk} {b : Nat} {x : Block}

theorem logged_log (d : Disk) (b : Nat) (x : Block) : (d.logged b x).log = d.log ∨
    ((d.logged b x).log = { d.log with lh := d.log.lh ++ [UInt32.ofNat b] } ∧ d.log.size ≠ 0) := by
  by_cases hs : d.log.size = 0
  · exact .inl (by simp [logged, hs, bwrite])
  by_cases hm : UInt32.ofNat b ∈ d.log.lh
  · exact .inl (by simp [logged, hs, logAppend, store, hm])
  · exact .inr ⟨by simp [logged, hs, logAppend, store, hm, setLh], hs⟩

theorem LogOk.logged (h : d.LogOk) (ho : d.Open) (hb : d.sb.inodestart ≤ b) (h5 : b < fssize) :
    (d.logged b x).LogOk := by
  unfold LogOk
  rw [logged_sb]
  obtain hl | ⟨hl, hs⟩ := d.logged_log b x
  · rw [hl]; exact h
  obtain ⟨h1, h2, h3⟩ := h.resolve_left hs
  obtain ⟨-, h4, -⟩ := ho.resolve_left hs
  rw [hl]
  refine .inr ⟨h1, ?_, fun y hy => ?_⟩
  · simp only [length_append, length_singleton]; omega
  rcases mem_append.mp hy with hy | hy
  · exact h3 y hy
  · rw [mem_singleton.mp hy, toNat_ofNat h5]; exact hb

theorem LogOk.setBusy (h : d.LogOk) (v : Bool) : (d.setBusy b v).LogOk := h

theorem LogOk.outside (h : d.LogOk) (hs : d.log.size ≠ 0) (hb : d.sb.inodestart ≤ b) : ¬ d.InLog b := by
  obtain ⟨h1, h2, -⟩ := h.resolve_left hs
  rintro ⟨-, hle⟩
  omega

end Disk

/-! ## Changes on one disk -/

structure Apart (dev : Nat) (s s' : Kernel) : Prop where
  disk : ∀ dev', dev' ≠ dev → s'.disk dev' = s.disk dev'
  icache : ∀ r : IRef, r.dev ≠ dev → s'.icache r = s.icache r
  stale : s'.stale = s.stale
  mounted : (s'.disk dev).mounted = (s.disk dev).mounted

section

variable {s s' s'' : Kernel} {dev : Nat} {r : IRef}

theorem Kernel.din_of_valid {ip} (h : s.icache r = some ip) (hv : ip.valid = true) : s.din r = ip.din := by
  simp [din, h, hv]

namespace Apart

theorem refl (dev : Nat) (s : Kernel) : Apart dev s s := ⟨fun _ _ => rfl, fun _ _ => rfl, rfl, rfl⟩

theorem trans (h : Apart dev s s') (h' : Apart dev s' s'') : Apart dev s s'' :=
  ⟨fun d hd => (h'.disk d hd).trans (h.disk d hd), fun r hr => (h'.icache r hr).trans (h.icache r hr),
    h'.stale.trans h.stale, h'.mounted.trans h.mounted⟩

theorem setDisk (s : Kernel) {d} (h : d.mounted = (s.disk dev).mounted) : Apart dev s (s.setDisk dev d) :=
  ⟨fun _ hd => setDisk_disk_of_ne _ _ hd, fun _ _ => rfl, rfl, by rw [setDisk_disk_self, h]⟩

theorem setInode (s : Kernel) (r : IRef) (x : Option Inode) : Apart r.dev s (s.setInode r x) :=
  ⟨fun _ _ => rfl, fun _ hr => setInode_icache_of_ne _ _ fun he => hr (by rw [he]), rfl, rfl⟩

theorem drop (s : Kernel) (r : IRef) (ip : Inode) : Apart r.dev s (s.drop r ip) :=
  ⟨fun _ _ => by rw [drop_disk], fun _ hr => drop_icache_of_ne _ _ fun he => hr (by rw [he]),
    drop_stale .., by rw [drop_disk]⟩

theorem din (h : Apart dev s s') (hr : r.dev ≠ dev) : s'.din r = s.din r :=
  din_congr (h.icache r hr) h.stale (by rw [diskInode, h.disk _ hr, diskInode])

theorem sound (h : Apart dev s s') {dev'} (hne : dev' ≠ dev) (hs : Sound s dev') : Sound s' dev' := by
  have hview : s'.view dev' = s.view dev' := funext fun i => h.din hne
  refine ⟨?_, ?_, fun i ip hip => ?_, fun i ip hip => ?_⟩
  · rw [hview, h.disk _ hne]; exact hs.fit
  · rw [h.disk _ hne]; exact hs.log
  · rw [h.icache _ hne] at hip; rw [h.disk _ hne]; exact hs.refs i ip hip
  · rw [h.icache _ hne] at hip; exact hs.loaded i ip hip

end Apart

theorem Kernel.Consistent.apart (h : s.Consistent) (hm : (s.disk dev).mounted = true) (ha : Apart dev s s')
    (hs : Sound s dev → Sound s' dev) : s'.Consistent := by
  refine ⟨fun r ip hip => ?_, fun dev' hm' => ?_⟩
  · by_cases hd : r.dev = dev
    · rw [hd, ha.mounted, hm]
    · rw [ha.disk _ hd]; exact h.mounted r ip (ha.icache r hd ▸ hip)
  by_cases hd : dev' = dev
  · subst hd; exact hs (h.sound dev' hm)
  · rw [ha.disk _ hd] at hm'; exact ha.sound hd (h.sound dev' hm')

theorem Kernel.Consistent.at (h : s.Consistent) {ip} (hip : s.icache r = some ip) : Sound s r.dev :=
  h.sound r.dev (h.mounted r ip hip)

theorem Kernel.Consistent.of_same (h : s.Consistent) (hd : s'.disk = s.disk) (hc : s'.icache = s.icache)
    (hst : s'.stale = s.stale) : s'.Consistent := by
  refine ⟨fun r ip hip => ?_, fun dev hm => ?_⟩
  · rw [hc] at hip; rw [hd]; exact h.mounted r ip hip
  rw [hd] at hm
  have ha : Apart (dev + 1) s s' := ⟨fun _ _ => by rw [hd], fun _ _ => by rw [hc], hst, by rw [hd]⟩
  exact ha.sound (Nat.ne_of_lt (Nat.lt_succ_self dev)) (h.sound dev hm)

/-! ## Changes of blocks -/

variable {d : Disk} {i k j b : Nat}

theorem Kernel.view_setDisk (hsb : d.sb = (s.disk dev).sb)
    (hin : diskIn d.sb d.cache i = diskIn d.sb (s.disk dev).cache i) : (s.setDisk dev d).view dev i = s.view dev i := by
  refine din_congr rfl rfl ?_
  rw [hsb] at hin
  simpa [diskInode, hsb, diskIn] using hin

theorem Settled.setDisk (h : Settled s dev) (hsb : d.sb = (s.disk dev).sb)
    (hin : ∀ i < d.sb.ninodes, diskIn d.sb d.cache i = diskIn d.sb (s.disk dev).cache i)
    (hsnug : Snug d.sb (s.view dev) d.cache) (hlog : d.LogOk) : Settled (s.setDisk dev d) dev := by
  have hd : (s.setDisk dev d).disk dev = d := setDisk_disk_self ..
  refine ⟨?_, ?_, fun i ip hip => ?_, fun i ip hip => h.loaded i ip hip⟩
  · rw [hd]; exact hsnug.view_congr fun i hi => view_setDisk hsb (hin i hi)
  · rw [hd]; exact hlog
  · rw [hd, hsb]; exact h.refs i ip hip

theorem Sound.setDisk (h : Sound s dev) (hsb : d.sb = (s.disk dev).sb)
    (hin : ∀ i < d.sb.ninodes, diskIn d.sb d.cache i = diskIn d.sb (s.disk dev).cache i)
    (hfit : Fit d.sb (s.view dev) d.cache) (hlog : d.LogOk) : Sound (s.setDisk dev d) dev := by
  refine (h.settled.setDisk hsb hin hfit.toSnug hlog).sound ?_
  rw [setDisk_disk_self]
  exact hfit.view_congr fun i hi => view_setDisk hsb (hin i hi)

theorem Sound.setDisk_congr (h : Sound s dev) (hsb : d.sb = (s.disk dev).sb)
    (hC : ∀ b, d.sb.inodestart ≤ b → d.cache b = (s.disk dev).cache b) (hlog : d.LogOk) :
    Sound (s.setDisk dev d) dev := by
  refine h.setDisk hsb (fun i hi => ?_) ?_ hlog
  · have hb : d.cache (d.sb.iblock i) = (s.disk dev).cache (d.sb.iblock i) := hC _ (Nat.le_add_left ..)
    rw [diskIn, hb, diskIn]
  · rw [hsb] at hC ⊢; exact h.fit.congr hC

def Kernel.table (s : Kernel) (dev : Nat) : Place → Nat :=
  blockAt (s.disk dev).sb.ninodes (s.view dev) (s.disk dev).cache

theorem Settled.owned (hs : Settled s dev) {p} (hp : s.table dev p ≠ 0) :
    (s.disk dev).sb.metaEnd ≤ s.table dev p ∧ s.table dev p < (s.disk dev).sb.size ∧
      markedIn (s.disk dev).sb (s.disk dev).cache (s.table dev p) = true := hs.snug.tidy.good hp

theorem Sound.dirBlock (h : Sound s dev) (ht : (s.view dev i).type = tDir) (hp : s.table dev (.dat i k j) = b)
    (hb : b ≠ 0) : DirBlock (s.disk dev).sb.ninodes ((s.disk dev).cache b) := by
  subst hp
  exact h.fit.dirs i k j ht hb

theorem Kernel.table_setDisk (hsb : d.sb = (s.disk dev).sb)
    (hin : ∀ i < d.sb.ninodes, diskIn d.sb d.cache i = diskIn d.sb (s.disk dev).cache i) :
    (s.setDisk dev d).table dev = blockAt (s.disk dev).sb.ninodes (s.view dev) d.cache := by
  rw [table, setDisk_disk_self, ← hsb]
  exact blockAt_congr (fun i hi k => by rw [view_setDisk hsb (hin i hi)]) fun _ _ => rfl

theorem Settled.data_ge (h : Settled s dev) (hp : s.table dev (.dat i k j) = b) (hb : b ≠ 0) :
    (s.disk dev).sb.metaEnd ≤ b := by
  rw [← hp] at hb ⊢
  exact (h.snug.tidy.good hb).1

theorem Settled.diskIn_write (h : Settled s dev) (hp : s.table dev (.dat i k j) = b) (hb : b ≠ 0) (x : Block) {i'}
    (hi' : i' < (s.disk dev).sb.ninodes) :
    diskIn (s.disk dev).sb ((s.disk dev).logged b x).cache i' = diskIn (s.disk dev).sb (s.disk dev).cache i' := by
  have hge := h.data_ge hp hb
  have hm := (s.disk dev).sb.bmapstart_le_metaEnd
  rw [logged_cache]
  exact h.snug.diskIn_congr (fun c hc => update_of_ne (by omega) ..) hi'

theorem Settled.write (h : Settled s dev) {x} (hp : s.table dev (.dat i k j) = b) (hb : b ≠ 0) (h5 : b < fssize)
    (ho : (s.disk dev).Open) : Settled (s.setDisk dev ((s.disk dev).logged b x)) dev := by
  have hge := h.data_ge hp hb
  have hm := (s.disk dev).sb.bmapstart_le_metaEnd
  have hi := h.snug.inodestart_le
  refine h.setDisk (logged_sb ..) (fun i' hi' => ?_) ?_ (h.log.logged ho (by omega) h5)
  · rw [logged_sb] at hi' ⊢; exact h.diskIn_write hp hb x hi'
  · rw [logged_sb, logged_cache]; exact h.snug.write hp hb

theorem Sound.write (h : Sound s dev) {x} (hp : s.table dev (.dat i k j) = b) (hb : b ≠ 0) (h5 : b < fssize)
    (ho : (s.disk dev).Open) (hx : (s.view dev i).type = tDir → DirBlock (s.disk dev).sb.ninodes x) :
    Sound (s.setDisk dev ((s.disk dev).logged b x)) dev := by
  refine h.setDisk (logged_sb ..) (fun i' hi' => ?_) ?_ (by simpa using (h.settled.write hp hb h5 ho).log)
  · rw [logged_sb] at hi' ⊢; exact h.settled.diskIn_write hp hb x hi'
  · rw [logged_sb, logged_cache]; exact h.fit.write hp hb hx

theorem Disk.firstFree.free (h : d.firstFree b) (hm : d.MetaMarked) :
    Free d.sb d.cache b := ⟨h.metaEnd_le hm, h.1, h.2.1⟩

theorem Disk.LogOk.alloc (h : d.LogOk) (hb : Free d.sb d.cache b) (h5 : b < fssize) (ho : d.AllocOpen b)
    (hi : d.sb.inodestart ≤ d.sb.bmapstart) : (d.alloc b).LogOk := by
  have hm := d.sb.bmapstart_le_metaEnd
  have hge := hb.ge
  have hlt := d.sb.bblock_lt hb.lt
  have hbb : d.sb.bmapstart ≤ d.sb.bblock b := Nat.le_add_left ..
  refine (h.logged ho.1 (by omega) (by omega)).logged ho.2 ?_ h5
  rw [logged_sb]
  omega

theorem Settled.diskIn_alloc (h : Settled s dev) (hb : Free (s.disk dev).sb (s.disk dev).cache b)
    (hi : i < (s.disk dev).sb.ninodes) :
    diskIn (s.disk dev).sb ((s.disk dev).alloc b).cache i = diskIn (s.disk dev).sb (s.disk dev).cache i := by
  have hm := (s.disk dev).sb.bmapstart_le_metaEnd
  have hge := hb.ge
  refine h.snug.diskIn_congr (fun c hc => ?_) hi
  have hbb : (s.disk dev).sb.bmapstart ≤ (s.disk dev).sb.bblock b := Nat.le_add_left ..
  rw [alloc_cache, update_of_ne (by omega), update_of_ne (by omega)]

section Bmap

variable {ip : Inode} {k j b : Nat}

@[simp] theorem Disk.filled_sb (d : Disk) (ip : Dinode) (k j b : Nat) : (d.filled ip k j b).sb = d.sb := by
  simp [filled]

theorem Disk.filled_cache (d : Disk) (ip : Dinode) (k j b : Nat) :
    (d.filled ip k j b).cache = update (allocIn d.sb d.cache b) (ip.addr k).toNat
      ((d.cache (ip.addr k).toNat).setU32 (4 * j) (UInt32.ofNat b)) := by
  rw [filled, logged_cache, alloc_cache]
  rfl

structure Cached (s : Kernel) (r : IRef) (ip : Inode) : Prop where
  entry : s.icache r = some ip
  valid : ip.valid = true

theorem Cached.view (h : Cached s r ip) : s.view r.dev r.inum = ip.din := din_of_valid h.entry h.valid

theorem Cached.grown (h : Cached s r ip) (k b : Nat) :
    Cached (s.grown r ip k b) r { ip with din := ip.din.setAddr k (UInt32.ofNat b) } :=
  ⟨setInode_icache_self .., h.valid⟩

section

variable (hs : Settled s r.dev) (hc : Cached s r ip) (hb : Free (s.disk r.dev).sb (s.disk r.dev).cache b)
include hs hc hb

omit hb in
theorem Settled.indirect_ge (hk : ip.din.addr k ≠ 0) : (s.disk r.dev).sb.metaEnd ≤ (ip.din.addr k).toNat := by
  rw [← hc.view] at hk ⊢
  exact hs.snug.tidy.indirect_ge ⟨r.inum, k, hs.refs r.inum ip hc.entry, hk, rfl⟩

theorem Settled.diskIn_filled (hk : ip.din.addr k ≠ 0) {i} (hi : i < (s.disk r.dev).sb.ninodes) :
    diskIn (s.disk r.dev).sb ((s.disk r.dev).filled ip.din k j b).cache i =
      diskIn (s.disk r.dev).sb (s.disk r.dev).cache i := by
  have hm := (s.disk r.dev).sb.bmapstart_le_metaEnd
  have hlt := hs.snug.iblock_lt hi
  have hgeA := hs.indirect_ge hc hk
  rw [← hs.diskIn_alloc hb hi, filled, logged_cache, diskIn, diskIn, update_of_ne (by omega)]

theorem Settled.logOk_filled (hk : ip.din.addr k ≠ 0) (hA : (ip.din.addr k).toNat < fssize) (h5 : b < fssize)
    (ho : (s.disk r.dev).AllocOpen b) (ho' : ((s.disk r.dev).alloc b).Open) :
    ((s.disk r.dev).filled ip.din k j b).LogOk := by
  have hm := (s.disk r.dev).sb.bmapstart_le_metaEnd
  have hstart := hs.snug.inodestart_le
  have hgeA := hs.indirect_ge hc hk
  refine (hs.log.alloc hb h5 ho hstart).logged ho' ?_ hA
  rw [alloc_sb]
  omega

theorem Settled.fill (hj : j < 128) (hk : ip.din.addr k ≠ 0) (hA : (ip.din.addr k).toNat < fssize) (h5 : b < fssize)
    (ho : (s.disk r.dev).AllocOpen b) (ho' : ((s.disk r.dev).alloc b).Open) :
    Settled (s.setDisk r.dev ((s.disk r.dev).filled ip.din k j b)) r.dev := by
  have hkV : (s.view r.dev r.inum).addr k ≠ 0 := by rwa [hc.view]
  refine hs.setDisk (by simp) (fun i' hi' => ?_) ?_ (hs.logOk_filled hc hb hk hA h5 ho ho')
  · rw [filled_sb] at hi' ⊢; exact hs.diskIn_filled hc hb hk hi'
  · rw [filled_sb, filled_cache, ← hc.view]
    exact hs.snug.grantDat hb h5 (hs.refs r.inum ip hc.entry) hj hkV

theorem Settled.table_fill (hj : j < 128) (hk : ip.din.addr k ≠ 0) (h5 : b < fssize) (q : Place) :
    (s.setDisk r.dev ((s.disk r.dev).filled ip.din k j b)).table r.dev q =
      if q = .dat r.inum k j then b else s.table r.dev q := by
  have hkV : (s.view r.dev r.inum).addr k ≠ 0 := by rwa [hc.view]
  rw [table_setDisk (by simp) (fun i hi => ?_), filled_cache, ← hc.view]
  · exact hs.snug.tidy.grantDat_table hb h5 (hs.refs r.inum ip hc.entry) hj hkV q
  · rw [filled_sb] at hi ⊢; exact hs.diskIn_filled hc hb hk hi

theorem Settled.view_grown {i} (hi : i < (s.disk r.dev).sb.ninodes) : (s.grown r ip k b).view r.dev i =
    update (s.view r.dev) r.inum ((s.view r.dev r.inum).setAddr k (UInt32.ofNat b)) i := by
  by_cases he : i = r.inum
  · subst he; rw [update_self, (hc.grown k b).view, hc.view]
  have hr : (⟨r.dev, i⟩ : IRef) ≠ r := fun hc => he (by rw [← hc])
  rw [update_of_ne he]
  refine din_congr (setInode_icache_of_ne _ _ hr) rfl ?_
  have := hs.diskIn_alloc hb hi
  simpa [diskInode, diskIn, grown] using this

theorem Settled.grow (hk : k < 12) (h0 : ip.din.addr k = 0) (h5 : b < fssize) (ho : (s.disk r.dev).AllocOpen b) :
    Settled (s.grown r ip k b) r.dev := by
  have hi := hs.refs r.inum ip hc.entry
  have hd : (s.grown r ip k b).disk r.dev = (s.disk r.dev).alloc b := setDisk_disk_self ..
  refine ⟨?_, ?_, fun i x hx => ?_, fun i x hx hbusy => ?_⟩
  · rw [hd, alloc_sb, alloc_cache]
    exact (hs.snug.grantInd hb h5 hi hk (by rwa [hc.view])).view_congr fun i => hs.view_grown hc hb
  · rw [hd]; exact hs.log.alloc hb h5 ho hs.snug.inodestart_le
  · rw [hd, alloc_sb]
    by_cases he : (⟨r.dev, i⟩ : IRef) = r
    · have hir : i = r.inum := by rw [← he]
      rwa [hir]
    · exact hs.refs i x ((setInode_icache_of_ne _ _ he).symm.trans hx)
  · by_cases he : (⟨r.dev, i⟩ : IRef) = r
    · rw [he, (hc.grown k b).entry] at hx; cases hx; exact hc.valid
    · exact hs.loaded i x ((setInode_icache_of_ne _ _ he).symm.trans hx) hbusy

theorem Settled.table_grow (hk : k < 12) (h0 : ip.din.addr k = 0) (h5 : b < fssize) (q : Place) :
    (s.grown r ip k b).table r.dev q = if q = .ind r.inum k then b else s.table r.dev q := by
  have hd : (s.grown r ip k b).disk r.dev = (s.disk r.dev).alloc b := setDisk_disk_self ..
  rw [table, hd, alloc_sb, alloc_cache, blockAt_congr (fun i hi k' => by rw [hs.view_grown hc hb hi]) fun _ _ => rfl]
  exact hs.snug.tidy.grantInd_table hb h5 (hs.refs r.inum ip hc.entry) hk (by rwa [hc.view]) q

omit hb in
theorem BmapEnds.place (hk : k < 12) (hj : j < 128) {a} (h : BmapEnds s r ip k j a s') (hne : a ≠ -1) :
    a ≠ 0 ∧ s'.table r.dev (.dat r.inum k j) = a.toNat := by
  have hm : (s.disk r.dev).MetaMarked := hs.snug.tidy.marked
  cases h with
  | hit hk0 _ hj0 =>
    refine ⟨hj0, ?_⟩
    rw [← hc.view] at hk0 ⊢
    exact blockAt_dat (hs.refs r.inum ip hc.entry) hk0 j
  | full | held => exact absurd rfl hne
  | fill hk0 _ _ hfree hb =>
    rw [hs.table_fill hc (hfree.free hm) hj hk0 hb.2.2, if_pos rfl, toNat_ofNat hb.2.2]
    exact ⟨ofNat_ne_zero (hfree.ne_zero hm) hb.2.2, rfl⟩
  | halfway => exact absurd rfl hne
  | @both a b hk0 hfree ha ho hfree' hb =>
    have hg := hs.grow hc (hfree.free hm) hk hk0 ha.2.2 ho
    have hf := hfree'.free (hm.alloc hfree)
    have hk' : (ip.din.setAddr k (UInt32.ofNat a)).addr k ≠ 0 := by
      rw [ip.din.addr_setAddr hk (UInt32.ofNat a)]
      exact ofNat_ne_zero (hfree.ne_zero hm) ha.2.2
    refine ⟨ofNat_ne_zero (hfree'.ne_zero (hm.alloc hfree)) hb.2.2, ?_⟩
    rw [← s.grown_disk r ip k a] at hf ⊢
    rw [hg.table_fill (hc.grown k a) hf hj hk' hb.2.2, if_pos rfl, toNat_ofNat hb.2.2]

end

section

variable (hs : Sound s r.dev) (hc : Cached s r ip) (hb : Free (s.disk r.dev).sb (s.disk r.dev).cache b)
include hs hc hb

theorem Sound.fill (hj : j < 128) (hk : ip.din.addr k ≠ 0) (hA : (ip.din.addr k).toNat < fssize) (h5 : b < fssize)
    (ho : (s.disk r.dev).AllocOpen b) (ho' : ((s.disk r.dev).alloc b).Open) :
    Sound (s.setDisk r.dev ((s.disk r.dev).filled ip.din k j b)) r.dev := by
  have hkV : (s.view r.dev r.inum).addr k ≠ 0 := by rwa [hc.view]
  refine hs.setDisk (by simp) (fun i' hi' => ?_) ?_ (hs.settled.logOk_filled hc hb hk hA h5 ho ho')
  · rw [filled_sb] at hi' ⊢; exact hs.settled.diskIn_filled hc hb hk hi'
  · rw [filled_sb, filled_cache, ← hc.view]
    exact hs.fit.grantDat hb h5 (hs.refs r.inum ip hc.entry) hj hkV

theorem Sound.grow (hk : k < 12) (h0 : ip.din.addr k = 0) (h5 : b < fssize) (ho : (s.disk r.dev).AllocOpen b) :
    Sound (s.grown r ip k b) r.dev := by
  refine (hs.settled.grow hc hb hk h0 h5 ho).sound ?_
  rw [grown_disk, alloc_sb, alloc_cache]
  exact (hs.fit.grantInd hb h5 (hs.refs r.inum ip hc.entry) hk (by rwa [hc.view])).view_congr fun i =>
    hs.settled.view_grown hc hb

omit hb in
theorem BmapEnds.sound (hk : k < 12) (hj : j < 128) {a} (h : BmapEnds s r ip k j a s') : Sound s' r.dev := by
  have hm : (s.disk r.dev).MetaMarked := hs.fit.tidy.marked
  cases h with
  | hit | full => exact hs
  | held => exact hs.setDisk_congr rfl (fun _ _ => rfl) (hs.log.setBusy true)
  | fill hk0 hr hj0 hfree hb _ _ ho ho' =>
    exact hs.fill hc (hfree.free hm) hj hk0 hr.2.2 hb.2.2 ho ho'
  | halfway hk0 hfree ha ho =>
    have hg := hs.grow hc (hfree.free hm) hk hk0 ha.2.2 ho
    refine hg.setDisk_congr (by simp) (fun _ _ => by simp) ?_
    have := hg.log
    rw [grown_disk] at this
    exact this.setBusy true
  | @both a b hk0 hfree ha ho hfree' hb _ _ ho' ho'' =>
    have hg := hs.grow hc (hfree.free hm) hk hk0 ha.2.2 ho
    have haddr := ip.din.addr_setAddr hk (UInt32.ofNat a)
    have hf := hfree'.free (hm.alloc hfree)
    rw [← s.grown_disk r ip k a] at hf ho' ho'' ⊢
    refine hg.fill (hc.grown k a) hf hj ?_ ?_ hb.2.2 ho' ho''
    · rw [haddr]; exact ofNat_ne_zero (hfree.ne_zero hm) ha.2.2
    · rw [haddr, toNat_ofNat ha.2.2]; exact ha.2.2

end

variable {a : UInt32}

theorem BmapEnds.cached (hc : Cached s r ip) (h : BmapEnds s r ip k j a s') :
    ∃ addrs, Cached s' r { ip with din := { ip.din with addrs := addrs } } := by
  cases h with
  | hit | full => exact ⟨_, hc⟩
  | held | fill => exact ⟨_, hc.entry, hc.valid⟩
  | halfway | both => exact ⟨_, (hc.grown k _).entry, hc.valid⟩

theorem BmapEnds.others (h : BmapEnds s r ip k j a s') {r'} (hr : r' ≠ r) : s'.icache r' = s.icache r' := by
  cases h with
  | hit | full => rfl
  | held | fill => rfl
  | halfway | both => exact setInode_icache_of_ne _ _ hr

theorem BmapEnds.apart (h : BmapEnds s r ip k j a s') : Apart r.dev s s' := by
  have hgrown : ∀ a, Apart r.dev s (s.grown r ip k a) := fun a =>
    (Apart.setInode s r _).trans (.setDisk _ (congrArg (·.2.1) ((s.disk r.dev).alloc_frame a)))
  cases h with
  | hit | full => exact .refl ..
  | held => exact .setDisk s rfl
  | fill => exact .setDisk s (congrArg (·.2.1) ((logged_frame ..).trans (alloc_frame ..)))
  | halfway => exact (hgrown _).trans (.setDisk _ (by rw [grown_disk]; rfl))
  | both =>
    refine (hgrown _).trans (.setDisk _ ?_)
    rw [grown_disk]
    exact congrArg (·.2.1) ((logged_frame ..).trans (alloc_frame ..))

end Bmap

/-! ## Changes of one inode -/

structure OnlyInode (r : IRef) (s s' : Kernel) : Prop where
  apart : Apart r.dev s s'
  others : ∀ r', r' ≠ r → s'.icache r' = s.icache r'
  sb : (s'.disk r.dev).sb = (s.disk r.dev).sb
  high : ∀ b, (s.disk r.dev).sb.bmapstart ≤ b → (s'.disk r.dev).cache b = (s.disk r.dev).cache b
  low : ∀ i < (s.disk r.dev).sb.ninodes, i ≠ r.inum →
    diskIn (s.disk r.dev).sb (s'.disk r.dev).cache i = diskIn (s.disk r.dev).sb (s.disk r.dev).cache i

theorem IRef.ne_of_inum (hi : i ≠ r.inum) : (⟨r.dev, i⟩ : IRef) ≠ r := fun he => hi (by rw [← he])

theorem OnlyInode.view (ho : OnlyInode r s s') (hlt : i < (s.disk r.dev).sb.ninodes) (hi : i ≠ r.inum) :
    s'.view r.dev i = s.view r.dev i := by
  have hd : s'.diskInode ⟨r.dev, i⟩ = s.diskInode ⟨r.dev, i⟩ := by
    have := ho.low i hlt hi
    simpa [diskInode, ho.sb, diskIn] using this
  exact din_congr (ho.others _ (IRef.ne_of_inum hi)) ho.apart.stale hd

theorem OnlyInode.diskInode (ho : OnlyInode r s s') :
    s'.diskInode r = diskIn (s.disk r.dev).sb (s'.disk r.dev).cache r.inum := by
  rw [Kernel.diskInode, ho.sb, diskIn]

section

variable (ho : OnlyInode r s s') (hlog : (s'.disk r.dev).LogOk)
  (hin : ∀ ip, s'.icache r = some ip → r.inum < (s.disk r.dev).sb.ninodes ∧ (ip.busy = true → ip.valid = true))
  (haddr : ∀ k, (s'.din r).addr k = 0 ∨ (s'.din r).addr k = (s.din r).addr k)
  (hco : ∀ k, (s'.diskInode r).addr k ≠ 0 →
    (s'.diskInode r).addr k = (s'.din r).addr k ∧ (s'.diskInode r).type = (s'.din r).type)
include ho hlog hin haddr hco

theorem Settled.inode (h : Settled s r.dev) : Settled s' r.dev := by
  rw [ho.diskInode] at hco
  refine ⟨?_, hlog, fun i ip hip => ?_, fun i ip hip hb => ?_⟩
  · rw [ho.sb]; exact h.snug.inode (fun i => ho.view) ho.high ho.low haddr hco
  · rw [ho.sb]
    by_cases hi : i = r.inum
    · subst hi; exact (hin ip hip).1
    · exact h.refs i ip (by rwa [ho.others _ (IRef.ne_of_inum hi)] at hip)
  · by_cases hi : i = r.inum
    · subst hi; exact (hin ip hip).2 hb
    · exact h.loaded i ip (by rwa [ho.others _ (IRef.ne_of_inum hi)] at hip) hb

theorem Sound.inode (h : Sound s r.dev)
    (htype : ∀ k, (s'.din r).addr k ≠ 0 → (s'.din r).type = tDir → (s.din r).type = tDir) : Sound s' r.dev := by
  refine (h.settled.inode ho hlog hin haddr hco).sound ?_
  rw [ho.diskInode] at hco
  rw [ho.sb]
  exact h.fit.inode (fun i => ho.view) ho.high ho.low haddr hco htype

end

theorem OnlyInode.trans (h : OnlyInode r s s') (h' : OnlyInode r s' s'') : OnlyInode r s s'' where
  apart := h.apart.trans h'.apart
  others r' hr := (h'.others r' hr).trans (h.others r' hr)
  sb := h'.sb.trans h.sb
  high b hb := (h'.high b (by rwa [h.sb])).trans (h.high b hb)
  low i hi hne := by
    have := h'.low i (by rwa [h.sb]) hne
    rw [h.sb] at this
    exact this.trans (h.low i hi hne)

theorem OnlyInode.of_disk (hd : s'.disk = s.disk) (hother : ∀ r', r' ≠ r → s'.icache r' = s.icache r')
    (hstale : s'.stale = s.stale) : OnlyInode r s s' where
  apart := ⟨fun _ _ => by rw [hd], fun r' hr => hother r' fun he => hr (by rw [he]), hstale, by rw [hd]⟩
  others := hother
  sb := by rw [hd]
  high _ _ := by rw [hd]
  low _ _ _ := by rw [hd]

theorem Kernel.Consistent.entry (h : s.Consistent) (ho : OnlyInode r s s') (hd : s'.disk = s.disk)
    (hm : (s.disk r.dev).mounted = true) (hlt : r.inum < (s.disk r.dev).sb.ninodes)
    (hbusy : ∀ ip, s'.icache r = some ip → ip.busy = true → ip.valid = true)
    (haddr : ∀ k, (s'.din r).addr k = (s.din r).addr k) (htype : (s'.din r).type = (s.din r).type) :
    s'.Consistent := by
  refine h.apart hm ho.apart fun hs => ?_
  have hdisk : s'.diskInode r = s.diskInode r := by rw [diskInode, hd, diskInode]
  refine hs.inode ho (by rw [hd]; exact hs.log) (fun ip hip => ⟨hlt, hbusy ip hip⟩)
    (fun k => .inr (haddr k)) (fun k => ?_) fun k _ ht => htype ▸ ht
  rw [hdisk, haddr, htype]
  exact hs.fit.coherent r.inum hlt k

end

end Xv6Vsd
