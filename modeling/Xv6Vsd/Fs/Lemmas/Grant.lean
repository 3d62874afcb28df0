import Xv6Vsd.Fs.Consistent
import Xv6Vsd.Fs.File

/-! # What `bmap` does to the files -/

namespace Xv6Vsd

open Prog Function Kernel Disk Finset

def Disk.free (d : Disk) : Nat := ((Finset.range d.sb.size).filter fun b => d.marked b = false).card

namespace Disk

variable {d d' : Disk} {b : Nat}

theorem full.free_eq (h : d.full) : d.free = 0 := by
  rw [free, card_eq_zero, filter_eq_empty_iff]
  intro b hb
  simp [h b (mem_range.mp hb)]

theorem free_congr (hsb : d'.sb = d.sb) (hm : ∀ b < d.sb.size, d'.marked b = d.marked b) : d'.free = d.free := by
  rw [free, free, hsb]
  exact congrArg card (filter_congr fun b hb => by rw [hm b (mem_range.mp hb)])

theorem alloc_free (hm : d.MetaMarked) (h : d.firstFree b) : (d.alloc b).free + 1 = d.free := by
  have hmem : b ∈ (range d.sb.size).filter fun b => d.marked b = false := mem_filter.mpr ⟨mem_range.mpr h.1, h.2.1⟩
  have hset : ((range d.sb.size).filter fun c => (d.alloc b).marked c = false) =
    ((range d.sb.size).filter fun c => d.marked c = false).erase b := by
    ext c
    simp only [mem_filter, mem_range, mem_erase]
    constructor
    · rintro ⟨hc, hmc⟩
      rw [alloc_marked (h.bblock_ne hm hc), Bool.or_eq_false_iff] at hmc
      exact ⟨fun he => by simp [he] at hmc, hc, hmc.2⟩
    rintro ⟨hne, hc, hmc⟩
    refine ⟨hc, ?_⟩
    rw [alloc_marked (h.bblock_ne hm hc), hmc]
    simpa using hne.symm
  rw [free, alloc_sb, hset]
  exact card_erase_add_one hmem

end Disk

section

variable {s s' s'' : Kernel} {r : IRef} {ip : Inode} {k j b : Nat}

structure Aside (s s' : Kernel) (r : IRef) : Prop where
  apart : Apart r.dev s s'
  others : ∀ r', r' ≠ r → s'.icache r' = s.icache r'
  frame : (s'.disk r.dev).frame = (s.disk r.dev).frame
  busy : (s'.disk r.dev).busy = (s.disk r.dev).busy
  view : ∀ i < (s.disk r.dev).sb.ninodes, ∃ addrs, s'.view r.dev i = { s.view r.dev i with addrs := addrs }
  platter : ∀ i < (s.disk r.dev).sb.ninodes,
    diskIn (s.disk r.dev).sb (s'.disk r.dev).cache i = diskIn (s.disk r.dev).sb (s.disk r.dev).cache i

theorem Aside.sb (h : Aside s s' r) : (s'.disk r.dev).sb = (s.disk r.dev).sb := congrArg (·.2.2.1) h.frame

theorem Aside.refl (s : Kernel) (r : IRef) : Aside s s r :=
  ⟨.refl .., fun _ _ => rfl, rfl, rfl, fun _ _ => ⟨_, rfl⟩, fun _ _ => rfl⟩

theorem Aside.trans (h : Aside s s' r) (h' : Aside s' s'' r) : Aside s s'' r := by
  refine ⟨h.apart.trans h'.apart, fun r' hr => (h'.others r' hr).trans (h.others r' hr),
    h'.frame.trans h.frame, h'.busy.trans h.busy, fun i hi => ?_, fun i hi => ?_⟩
  · obtain ⟨a, ha⟩ := h.view i hi
    obtain ⟨a', ha'⟩ := h'.view i (by rw [h.sb]; exact hi)
    exact ⟨a', by rw [ha', ha]⟩
  have h1 := h'.platter i (by rw [h.sb]; exact hi)
  rw [h.sb] at h1
  exact h1.trans (h.platter i hi)

structure Grown (s s' : Kernel) (r : IRef) : Prop where
  settled : Settled s' r.dev
  aside : Aside s s' r
  kept : ∀ p, s.table r.dev p ≠ 0 → s'.table r.dev p = s.table r.dev p
  data : ∀ i k j, s.table r.dev (.dat i k j) ≠ 0 →
    (s'.disk r.dev).cache (s.table r.dev (.dat i k j)) = (s.disk r.dev).cache (s.table r.dev (.dat i k j))

theorem Grown.refl (hs : Settled s r.dev) : Grown s s r := ⟨hs, .refl s r, fun _ _ => rfl, fun _ _ _ _ => rfl⟩

theorem Grown.trans (h : Grown s s' r) (h' : Grown s' s'' r) : Grown s s'' r := by
  refine ⟨h'.settled, h.aside.trans h'.aside, fun p hp => ?_, fun i k j hp => ?_⟩
  · have hp' := h.kept p hp; rw [h'.kept p (by rw [hp']; exact hp), hp']
  have hp' := h.kept _ hp
  have hd := h'.data i k j (by rw [hp']; exact hp)
  rw [hp'] at hd
  rw [hd, h.data i k j hp]

variable (hs : Settled s r.dev) (hc : Cached s r ip) (hb : Free (s.disk r.dev).sb (s.disk r.dev).cache b)
include hs hc hb

theorem Settled.fill_grown (hj : j < 128) (hk : ip.din.addr k ≠ 0) (hA : (ip.din.addr k).toNat < fssize)
    (h5 : b < fssize)
    (ho : (s.disk r.dev).AllocOpen b) (ho' : ((s.disk r.dev).alloc b).Open) (h0 : s.table r.dev (.dat r.inum k j) = 0) :
    Grown s (s.setDisk r.dev ((s.disk r.dev).filled ip.din k j b)) r := by
  have hd : (s.setDisk r.dev ((s.disk r.dev).filled ip.din k j b)).disk r.dev = (s.disk r.dev).filled ip.din k j b :=
    setDisk_disk_self ..
  have hframe : ((s.disk r.dev).filled ip.din k j b).frame = (s.disk r.dev).frame :=
    (logged_frame ..).trans (alloc_frame ..)
  have hkV : (s.view r.dev r.inum).addr k ≠ 0 := by rwa [hc.view]
  refine ⟨hs.fill hc hb hj hk hA h5 ho ho',
    ⟨.setDisk s (congrArg (·.2.1) hframe), fun _ _ => rfl, by rw [hd]; exact hframe,
    by rw [hd]; simp [filled], fun i hi => ⟨_, view_setDisk (by simp) ?_⟩, fun i hi => ?_⟩, fun p hp => ?_,
    fun i k' j' hp => ?_⟩
  · rw [filled_sb]; exact hs.diskIn_filled hc hb hk hi
  · rw [hd]; exact hs.diskIn_filled hc hb hk hi
  · rw [hs.table_fill hc hb hj hk h5, if_neg (by rintro rfl; exact hp h0)]
  have hne : s.table r.dev (.dat i k' j') ≠ (ip.din.addr k).toNat := by
    rw [← hc.view]
    intro he
    refine hs.snug.tidy.dat_not_indirect hp ?_
    show Indirect _ _ (s.table r.dev _)
    rw [he]
    exact ⟨r.inum, k, hs.refs r.inum ip hc.entry, hkV, rfl⟩
  rw [hd, filled_cache, update_of_ne hne]
  exact hs.snug.tidy.allocIn_eq hb hp

theorem Settled.grow_grown (hk : k < 12) (h0 : ip.din.addr k = 0) (h5 : b < fssize) (ho : (s.disk r.dev).AllocOpen b) :
    Grown s (s.grown r ip k b) r := by
  have hT : s.table r.dev (.ind r.inum k) = 0 := by
    have := blockAt_ind (V := s.view r.dev) (C := (s.disk r.dev).cache) (hs.refs r.inum ip hc.entry) k
    rw [hc.view, h0] at this
    exact this
  refine ⟨hs.grow hc hb hk h0 h5 ho, ⟨?_, fun r' hr => setInode_icache_of_ne _ _ hr, ?_, ?_, fun i hi => ?_,
    fun i hi => ?_⟩, fun p hp => ?_, fun i k' j' hp => ?_⟩
  · exact (Apart.setInode s r _).trans (.setDisk _ (congrArg (·.2.1) ((s.disk r.dev).alloc_frame b)))
  · rw [grown_disk]; exact alloc_frame ..
  · rw [grown_disk]; exact alloc_busy ..
  · rw [hs.view_grown hc hb hi]
    by_cases he : i = r.inum
    · subst he; exact ⟨_, by rw [update_self, Dinode.setAddr]⟩
    · exact ⟨_, by rw [update_of_ne he]⟩
  · rw [grown_disk]; exact hs.diskIn_alloc hb hi
  · rw [hs.table_grow hc hb hk h0 h5, if_neg (by rintro rfl; exact hp hT)]
  · rw [grown_disk, alloc_cache]; exact hs.snug.tidy.allocIn_eq hb hp

end

def lack (T : Place → Nat) (p : Place) : Nat := if T p = 0 then 1 else 0

theorem lack_of_zero {T p} (h : T p = 0) : lack T p = 1 := if_pos h

theorem lack_of_ne {T p} (h : T p ≠ 0) : lack T p = 0 := if_neg h

structure Granted (s s' : Kernel) (r : IRef) (k j : Nat) (a : UInt32) : Prop where
  grown : Grown s s' r
  table : ∀ p, p ≠ .ind r.inum k → p ≠ .dat r.inum k j → s'.table r.dev p = s.table r.dev p
  ind : s'.table r.dev (.ind r.inum k) ≠ 0
  dat : s'.table r.dev (.dat r.inum k j) = a.toNat
  ne : a.toNat ≠ 0
  lt : a.toNat < fssize
  fresh : s.table r.dev (.dat r.inum k j) = 0 → (s'.disk r.dev).cache a.toNat = Bytes.zero
  free : (s'.disk r.dev).free + (lack (s.table r.dev) (.ind r.inum k) + lack (s.table r.dev) (.dat r.inum k j)) =
    (s.disk r.dev).free
  marks : ∀ b < (s.disk r.dev).sb.size, (s'.disk r.dev).marked b = true → (s.disk r.dev).marked b = true ∨
    s'.table r.dev (.ind r.inum k) = b ∨ s'.table r.dev (.dat r.inum k j) = b

/-- How `bmap` fails: without an indirect block nothing changes, without a block for the data the
indirect block stays in the hands of the process. -/
inductive Short (s s' : Kernel) (r : IRef) (k : Nat) : Prop
  | indirect (same : s' = s) (hk : s.table r.dev (.ind r.inum k) = 0) (hfree : (s.disk r.dev).free = 0)
  | data {b} (hb : (s'.disk r.dev).busy b = true) (hk : s.table r.dev (.ind r.inum k) = 0 → (s.disk r.dev).free ≠ 0)

section

variable {s s' : Kernel} {r : IRef} {ip : Inode} {k j b : Nat} (hs : Settled s r.dev) (hc : Cached s r ip)
include hs hc

theorem Settled.table_ind : s.table r.dev (.ind r.inum k) = (ip.din.addr k).toNat := by
  have := blockAt_ind (V := s.view r.dev) (C := (s.disk r.dev).cache) (hs.refs r.inum ip hc.entry) k
  rwa [hc.view] at this

theorem Settled.table_dat (hk : ip.din.addr k ≠ 0) :
    s.table r.dev (.dat r.inum k j) = (((s.disk r.dev).cache (ip.din.addr k).toNat).u32 (4 * j)).toNat := by
  have := blockAt_dat (V := s.view r.dev) (C := (s.disk r.dev).cache) (hs.refs r.inum ip hc.entry)
    (by rw [hc.view]; exact hk) j
  rwa [hc.view] at this

omit hs in
theorem Cached.table_hole (hk : ip.din.addr k = 0) : s.table r.dev (.dat r.inum k j) = 0 :=
  blockAt_dat_zero (by rw [hc.view]; exact hk) j

theorem Settled.marked_filled (hk : ip.din.addr k ≠ 0) {c} (hc' : c < (s.disk r.dev).sb.size) :
    ((s.disk r.dev).filled ip.din k j b).marked c = ((s.disk r.dev).alloc b).marked c := by
  have hge := hs.indirect_ge hc hk
  have hlt := (s.disk r.dev).sb.bblock_lt hc'
  rw [marked, marked, filled_sb, alloc_sb, filled, logged_cache, update_of_ne (by omega)]

theorem Settled.free_filled (hk : ip.din.addr k ≠ 0) (hfree : (s.disk r.dev).firstFree b) :
    ((s.disk r.dev).filled ip.din k j b).free + 1 = (s.disk r.dev).free := by
  have hm : (s.disk r.dev).MetaMarked := hs.snug.tidy.marked
  rw [← alloc_free hm hfree]
  congr 1
  exact free_congr (by simp) fun c hc' => hs.marked_filled hc hk (by simpa using hc')

theorem Settled.fill_granted (hj : j < 128) (hk : ip.din.addr k ≠ 0) (hA : (ip.din.addr k).toNat < fssize)
    (hfree : (s.disk r.dev).firstFree b) (h5 : b < fssize)
    (ho : (s.disk r.dev).AllocOpen b) (ho' : ((s.disk r.dev).alloc b).Open) (h0 : s.table r.dev (.dat r.inum k j) = 0) :
    Granted s (s.setDisk r.dev ((s.disk r.dev).filled ip.din k j b)) r k j (UInt32.ofNat b) := by
  have hm : (s.disk r.dev).MetaMarked := hs.snug.tidy.marked
  have hb := hfree.free hm
  have hd : (s.setDisk r.dev ((s.disk r.dev).filled ip.din k j b)).disk r.dev = (s.disk r.dev).filled ip.din k j b :=
    setDisk_disk_self ..
  have htab := hs.table_fill hc hb hj hk h5
  have hind := hs.table_ind hc (k := k)
  have hind0 : s.table r.dev (.ind r.inum k) ≠ 0 := by rw [hind]; exact toNat_ne_zero hk
  refine ⟨hs.fill_grown hc hb hj hk hA h5 ho ho' h0, fun p _ hp => ?_, ?_, ?_, ?_, ?_, fun _ => ?_, ?_,
    fun c hlt hmark => ?_⟩
  · rw [htab, if_neg hp]
  · rw [htab, if_neg (by simp)]; exact hind0
  · rw [htab, if_pos rfl, toNat_ofNat h5]
  · rw [toNat_ofNat h5]; exact hfree.ne_zero hm
  · rw [toNat_ofNat h5]; exact h5
  · have hne : b ≠ (ip.din.addr k).toNat := fun he => hs.snug.tidy.free_nowhere hb (.ind r.inum k) (hind.trans he.symm)
    rw [hd, filled_cache, toNat_ofNat h5, update_of_ne hne, allocIn, update_self]
  · rw [hd, lack_of_ne hind0, lack_of_zero h0]; exact hs.free_filled hc hk hfree
  rw [hd, hs.marked_filled hc hk hlt, alloc_marked (hfree.bblock_ne hm hlt), Bool.or_eq_true,
    decide_eq_true_iff] at hmark
  refine hmark.elim (fun he => .inr (.inr ?_)) .inl
  rw [htab, if_pos rfl, he]

theorem BmapEnds.granted (hk : k < 12) (hj : j < 128) {a} (h : BmapEnds s r ip k j a s')
    (hreach : ∀ p, s.table r.dev p < fssize) :
    (a = -1 ∧ (s.disk r.dev).free < lack (s.table r.dev) (.ind r.inum k) + lack (s.table r.dev) (.dat r.inum k j) ∧
      Short s s' r k) ∨ Granted s s' r k j a := by
  have hm : (s.disk r.dev).MetaMarked := hs.snug.tidy.marked
  have hind := hs.table_ind hc (k := k)
  cases h with
  | hit hk0 hr hj0 =>
    have hdat := hs.table_dat hc (j := j) hk0
    have hi0 : s.table r.dev (.ind r.inum k) ≠ 0 := by rw [hind]; exact toNat_ne_zero hk0
    have hd0 : s.table r.dev (.dat r.inum k j) ≠ 0 := by rw [hdat]; exact toNat_ne_zero hj0
    refine .inr ⟨.refl hs, fun _ _ _ => rfl, hi0, hdat, toNat_ne_zero hj0, hdat ▸ hreach _,
      fun h0 => absurd h0 hd0, ?_, fun _ _ => .inl⟩
    rw [lack_of_ne hi0, lack_of_ne hd0]
    rfl
  | full hk0 hfull =>
    have h0 : s.table r.dev (.ind r.inum k) = 0 := by rw [hind, hk0]; rfl
    refine .inl ⟨rfl, ?_, .indirect rfl h0 hfull.free_eq⟩
    rw [hfull.free_eq, lack_of_zero h0]
    omega
  | held hk0 hr hj0 hfull =>
    refine .inl ⟨rfl, ?_, .data (b := (ip.din.addr k).toNat) (by simp [setBusy]) fun h0 => ?_⟩
    · rw [hfull.free_eq, lack_of_zero (p := .dat ..) (by rw [hs.table_dat hc hk0, hj0]; rfl)]; omega
    · exact absurd (hind.symm.trans h0) (toNat_ne_zero hk0)
  | fill hk0 hr hj0 hfree' hb _ _ ho ho' =>
    exact .inr <| hs.fill_granted hc hj hk0 hr.2.2 hfree' hb.2.2 ho ho' (by rw [hs.table_dat hc hk0, hj0]; rfl)
  | @halfway a hk0 hfree' ha ho hfull =>
    have h1 := alloc_free hm hfree'
    rw [hfull.free_eq] at h1
    refine .inl ⟨rfl, ?_, .data (b := a) (by simp [setBusy]) fun _ => by omega⟩
    rw [lack_of_zero (by rw [hind, hk0]; rfl), lack_of_zero (hc.table_hole hk0)]
    omega
  | @both a b hk0 hfree' ha ho hfree'' hb _ _ ho' ho'' =>
    have hg := hs.grow_grown hc (hfree'.free hm) hk hk0 ha.2.2 ho
    have haddr := ip.din.addr_setAddr hk (UInt32.ofNat a)
    have hcg := hc.grown k a
    have htab := hs.table_grow hc (hfree'.free hm) hk hk0 ha.2.2
    have hk1 : (ip.din.setAddr k (UInt32.ofNat a)).addr k ≠ 0 := by
      rw [haddr]
      exact ofNat_ne_zero (hfree'.ne_zero hm) ha.2.2
    have hhole : (s.grown r ip k a).table r.dev (.dat r.inum k j) = 0 := by
      rw [htab, if_neg (by simp)]
      exact hc.table_hole hk0
    rw [← s.grown_disk r ip k a] at hfree'' ho' ho'' ⊢
    have hfill := hg.settled.fill_granted hcg hj hk1
      (by rw [haddr, toNat_ofNat ha.2.2]; exact ha.2.2) hfree'' hb.2.2 ho' ho''
      hhole
    refine .inr ⟨hg.trans hfill.grown, fun p h1 h2 => ?_, hfill.ind, hfill.dat, hfill.ne, hfill.lt, fun _ => ?_, ?_,
      fun c hlt hmark => ?_⟩
    · rw [hfill.table p h1 h2, htab, if_neg h1]
    · exact hfill.fresh hhole
    · have h1 := alloc_free hm hfree'
      have h2 := hfill.free
      have hi1 : (s.grown r ip k a).table r.dev (.ind r.inum k) ≠ 0 := by
        rw [htab, if_pos rfl]
        exact hfree'.ne_zero hm
      rw [lack_of_ne hi1, lack_of_zero hhole] at h2
      rw [lack_of_zero (by rw [hind, hk0]; rfl), lack_of_zero (hc.table_hole hk0)]
      rw [← s.grown_disk r ip k a] at h1
      exact (Nat.add_assoc ..).symm.trans ((congrArg (· + 1) h2).trans h1)
    · have hkind : (s.grown r ip k a).table r.dev (.ind r.inum k) = a := by rw [htab, if_pos rfl]
      obtain hold | hnew := hfill.marks c (by rw [s.grown_disk, alloc_sb]; exact hlt) hmark
      · rw [s.grown_disk, alloc_marked (hfree'.bblock_ne hm hlt), Bool.or_eq_true, decide_eq_true_iff] at hold
        refine hold.elim (fun he => .inr (.inl ?_)) .inl
        rw [hfill.grown.kept _ (by rw [hkind]; exact hfree'.ne_zero hm), hkind, he]
      · exact .inr hnew

end

end Xv6Vsd
