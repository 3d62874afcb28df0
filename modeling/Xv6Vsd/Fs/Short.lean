import Xv6Vsd.Fs.Access

/-!
# Writes that run out of blocks

A write that finds no block for the data of a file gives up with the indirect block in its hands.
-/

namespace Xv6Vsd

open Prog Disk

/-- The inode on the disk is the one in memory, but for `attrib`, which is not kept there. -/
def Saved (s : Kernel) (r : IRef) : Prop := ∃ ip, s.icache r = some ip ∧ (s.diskInode r).update ip.din = s.diskInode r

def Attached (s : Kernel) (r : IRef) (b : Nat) : Prop :=
  ∃ k, (s.diskInode r).addr k ≠ 0 ∧ (((s.diskInode r).addr k).toNat = b ∨
    ∃ j < nindirect, (((s.disk r.dev).cache ((s.diskInode r).addr k).toNat).u32 (4 * j)).toNat = b)

/-- What a write of `n` bytes at `off` that returns -2 should leave. -/
structure FailsCleanly (s s' : Kernel) (r : IRef) (src : Nat → UInt8) (off n : Nat) : Prop where
  released : (s'.disk r.dev).busy = (s.disk r.dev).busy
  saved : Saved s' r
  covered : ∃ m < n, s'.contents r.dev r.inum = splice (s.contents r.dev r.inum) off ((List.range m).map src)
  attached : ∀ b < (s.disk r.dev).sb.size, (s'.disk r.dev).marked b = true → (s.disk r.dev).marked b = false →
    Attached s' r b

/-- The free blocks are just those that are missing before byte `o`, where an indirect block is
missing; and the inode is written there, or was on the disk before. -/
def ShortOfIndirect (s : Kernel) (r : IRef) (off n : Nat) : Prop :=
  ∃ o, off ≤ o ∧ o < off + n ∧ (o = off ∨ o % 65536 = 0) ∧ s.table r.dev (.ind r.inum (o / 65536)) = 0 ∧
    missing (s.table r.dev) (touched r.inum off o) = (s.disk r.dev).free ∧
    (Saved s r ∨ (s.contents r.dev r.inum).length < o)

section

variable {s s' s1 : Kernel} {r : IRef} {ip : Inode} {c : Nat → List UInt8} {src : Nat → UInt8} {off o : Nat}

theorem ind_mem_touched_iff {i} (h : off ≤ o) :
    Place.ind i (o / 65536) ∈ touched i off o ↔ ¬ (o = off ∨ o % 65536 = 0) := by
  rw [mem_touched]
  constructor
  · rintro ⟨b, h1, h2, hb | hb⟩
    · have := (Place.ind.inj hb).2; omega
    · cases hb
  · intro hne; exact ⟨o - 1, by omega, by omega, .inl (by congr 1; omega)⟩

theorem Saved.addr (h : Saved s r) (hip : s.icache r = some ip) (k : Nat) : (s.diskInode r).addr k = ip.din.addr k := by
  obtain ⟨x, hx, he⟩ := h
  rw [hip] at hx; cases hx
  rw [← he]
  rfl

theorem saved_setSize {v u} (he : (modDin r (fun d => { d with size := v }) >>= fun _ => iupdate r).exec s = .ok u s') :
    Saved s' r ∧ (s'.disk r.dev).busy = (s.disk r.dev).busy := by
  obtain ⟨_, s1, h1, h2⟩ := bind_ok he
  obtain ⟨x, -, rfl⟩ := modDin_ok h1
  obtain ⟨y, hy, rfl, -⟩ := iupdate1_ok h2
  refine ⟨⟨y, hy, ?_⟩, ?_⟩
  · rw [Kernel.diskInode, Kernel.setDisk_disk_self, putInode_sb, putInode, save_cache, Function.update_self,
      dinode_setDinode]
    rfl
  · rw [Kernel.setDisk_disk_self, putInode, save_busy]; rfl

namespace Reached

variable (h : Reached s s1 r ip c src off o)
include h

theorem stops {o'} (hfew : (s1.disk r.dev).free < lack (s1.table r.dev) (.ind r.inum (o / 65536)) +
    lack (s1.table r.dev) (.ofByte r.inum o)) (hle : off ≤ o') (hfirst : o' = off ∨ o' % 65536 = 0)
    (h0 : s.table r.dev (.ind r.inum (o' / 65536)) = 0)
    (hmiss : missing (s.table r.dev) (touched r.inum off o') = (s.disk r.dev).free) : o = o' := by
  have hfree := h.free
  obtain hlt | heq | hlt := Nat.lt_trichotomy o o'
  · have h1 := h.missing_insert Nat.one_pos (by omega)
    have h2 : missing (s.table r.dev) (touched r.inum off (o + 1)) ≤ missing (s.table r.dev) (touched r.inum off o') :=
      missing_mono (touched_mono hlt)
    omega
  · exact heq
  have hnot : Place.ind r.inum (o' / 65536) ∉ touched r.inum off o' := fun hp => (ind_mem_touched_iff hle).mp hp hfirst
  have h1 := Xv6Vsd.missing_insert (T := s.table r.dev) (fun hp => absurd hp hnot) fun _ => rfl
  have h2 : missing (s.table r.dev) (insert (.ind r.inum (o' / 65536)) (touched r.inum off o')) ≤
    missing (s.table r.dev) (touched r.inum off o) := by
    refine missing_mono (Finset.insert_subset ?_ (touched_mono hlt.le))
    exact mem_touched.mpr ⟨o', hle, hlt, .inl rfl⟩
  rw [lack_of_zero h0] at h1
  omega

theorem same (ha : Arrays s r.dev c) (hc : Cached s r ip) (ho : o ≤ (c r.inum).length) :
    s1.table r.dev = s.table r.dev ∧ s1.icache r = some ip := by
  have hlt := ha.settled.refs r.inum ip hc.entry
  have htab : s1.table r.dev = s.table r.dev := by
    funext p
    refine h.kept p (Classical.or_iff_not_imp_left.mpr fun hp => ?_)
    obtain ⟨b, h1, h2, hp⟩ := mem_touched.mp (not_not.mp hp)
    have hdat := (ha.holds r.inum hlt).there b (by omega)
    obtain rfl | rfl := hp
    · rw [ha.settled.table_ind hc]; exact toNat_ne_zero fun hz => hdat (hc.table_hole hz)
    · exact hdat
  refine ⟨htab, ?_⟩
  obtain ⟨addrs, hc1⟩ := h.cached
  have haddrs : addrs = ip.din.addrs := by
    funext k
    have h1 := h.holding.settled.table_ind hc1 (k := k.1)
    rw [htab, ha.settled.table_ind hc, Dinode.addr, Dinode.addr, dif_pos k.2, dif_pos k.2] at h1
    exact (UInt32.toNat_inj.mp h1).symm
  rw [hc1.entry, haddrs]

theorem diskInode (hlt : r.inum < (s.disk r.dev).sb.ninodes) : s1.diskInode r = s.diskInode r := by
  have := h.aside.platter r.inum hlt
  rw [Kernel.diskInode, h.aside.sb]
  exact this

theorem attached {v u} (he : (modDin r (fun d => { d with size := v }) >>= fun _ => iupdate r).exec s1 = .ok u s') {b}
    (hb : b < (s.disk r.dev).sb.size) (hmark : (s'.disk r.dev).marked b = true)
      (hnew : (s.disk r.dev).marked b = false) :
    Attached s' r b := by
  obtain ⟨addrs, hc1⟩ := h.cached
  obtain ⟨-, hone, hc'⟩ := h.holding.setSize hc1 he
  have haddr : ∀ k, (s'.diskInode r).addr k = Dinode.addr { ip.din with addrs := addrs } k :=
    (saved_setSize he).1.addr hc'.entry
  have hm : (s'.disk r.dev).marked b = (s1.disk r.dev).marked b := by
    have hb : (s1.disk r.dev).sb.bmapstart ≤ (s1.disk r.dev).sb.bblock b := Nat.le_add_left ..
    rw [marked, hone.sb, hone.high _ hb, marked]
  obtain hold | ⟨p, hp, rfl⟩ := h.marks b hb (by rw [← hm]; exact hmark)
  · simp [hnew] at hold
  have hne := h.there p hp
  obtain ⟨o', -, -, rfl | rfl⟩ := mem_touched.mp hp
  · have hind := h.holding.settled.table_ind hc1 (k := o' / 65536)
    refine ⟨o' / 65536, ?_, .inl ?_⟩
    · rw [haddr]
      rintro hz
      rw [hind, hz] at hne
      exact hne rfl
    · rw [haddr]; exact hind.symm
  · have hk : Dinode.addr { ip.din with addrs := addrs } (o' / 65536) ≠ 0 := fun hz => hne (hc1.table_hole hz)
    have hge := h.holding.settled.indirect_ge hc1 hk
    have hle := (s1.disk r.dev).sb.bmapstart_le_metaEnd
    refine ⟨o' / 65536, by rw [haddr]; exact hk, .inr ⟨o' / 512 % 128, Nat.mod_lt _ (by decide), ?_⟩⟩
    rw [haddr, hone.high _ (hle.trans hge)]
    exact (h.holding.settled.table_dat hc1 hk).symm

end Reached

/-- A write that runs out of blocks fails cleanly if and only if it does at an indirect block, with
the inode on the disk. -/
theorem writei_fails_cleanly_iff {off n : UInt32} (h : Whole s) (hu : Usable s r)
    (he : (writei r src off n).exec s = .ok (-2) s') :
    FailsCleanly s s' r src off.toNat n.toNat ↔ ShortOfIndirect s r off.toNat n.toNat := by
  obtain ⟨hm, ip, hip, hv, htype⟩ := hu
  have hc : Cached s r ip := ⟨hip, hv⟩
  have ha := h r.dev hm
  have hlt := ha.settled.refs r.inum ip hip
  have hsize : ip.din.size.toNat = (s.contents r.dev r.inum).length := by rw [← ha.size r.inum hlt, hc.view]
  obtain ⟨-, hbad, -⟩ | ⟨hbad, ok, o, s1, y, h1, hy, h2, hans⟩ := writei_ok hip htype he
  · cases hbad
  simp only [OutOfRange, not_or, Nat.not_lt, Nat.not_le] at hbad
  obtain ⟨rfl, ho, s2, hre, hfew, hshort⟩ | ⟨rfl, -⟩ :=
    (Reached.start ha.toHolding hc).writePieces (Nat.le_refl _) (hsize ▸ hbad.1) h1
  swap
  · rw [if_pos rfl] at hans; omega
  cases hshort with
  | @data b hb hk =>
    -- the indirect block is still held at the end
    have hbusy : (s'.disk r.dev).busy = (s1.disk r.dev).busy := by
      obtain ⟨-, h3⟩ | ⟨-, rfl⟩ := onlyIf_ok h2
      · exact (saved_setSize h3).2
      · rfl
    refine iff_of_false (fun hclean => ?_) ?_
    · have := congrFun (hclean.released.symm.trans hbusy) b
      rw [hb, ha.idle.free] at this; cases this
    rintro ⟨o', hle, -, hfirst, h0, hmiss, -⟩
    obtain rfl := hre.stops hfew hle hfirst h0 hmiss
    have hnot : Place.ind r.inum (o / 65536) ∉ touched r.inum off.toNat o :=
      fun hp => (ind_mem_touched_iff hle).mp hp hfirst
    have hfree := hre.free
    exact hk ((hre.kept _ (.inl hnot)).trans h0) (by omega)
  | indirect hsame hk hfree0 =>
    subst hsame
    have hfin := hre.finish ha hc (hsize ▸ hbad.1) (by omega) (Q := 0 < n ∨ (!false) = true) (by simp) hy h2
    have hcovered : s'.contents r.dev r.inum = splice (s.contents r.dev r.inum) off.toNat
      ((List.range (o - off.toNat)).map src) := by
      rw [hfin.1.contents (by rw [hfin.2.2.2]; exact hlt), Function.update_self]
    have hle := hre.le
    have hfirst : o = off.toNat ∨ o % 65536 = 0 := by
      by_contra hne
      exact hre.there _ ((ind_mem_touched_iff hle).mpr hne) hk
    have hnot : Place.ind r.inum (o / 65536) ∉ touched r.inum off.toNat o := fun hp => hre.there _ hp hk
    have h0 := (hre.kept _ (.inl hnot)).symm.trans hk
    have hmiss := hre.free
    rw [hfree0, Nat.zero_add] at hmiss
    obtain ⟨addrs, hc1⟩ := hre.cached
    rw [hc1.entry] at hy; cases hy
    obtain ⟨hgrow, h3⟩ | ⟨hstay, rfl⟩ := onlyIf_ok h2
    · have hgrow' : ip.din.size.toNat < o := hgrow.2
      obtain ⟨hsaved, hbusy⟩ := saved_setSize h3
      refine iff_of_true ⟨hbusy.trans hre.aside.busy, hsaved, ⟨_, by omega, hcovered⟩, fun b => hre.attached h3⟩ ?_
      exact ⟨o, hle, ho, hfirst, h0, hmiss, .inr (hsize ▸ hgrow')⟩
    have hstay' : o ≤ (s.contents r.dev r.inum).length := by
      rw [← hsize]
      exact Nat.le_of_not_lt fun hlt => hstay ⟨.inr rfl, hlt⟩
    obtain ⟨htab, hicache⟩ := hre.same ha hc hstay'
    have hsaved : Saved s' r ↔ Saved s r := by rw [Saved, hicache, hre.diskInode hlt, Saved, hip]
    constructor
    · intro hclean; exact ⟨o, hle, ho, hfirst, h0, hmiss, .inl (hsaved.mp hclean.saved)⟩
    rintro ⟨o', hle', -, hfirst', h0', hmiss', hor⟩
    obtain rfl := hre.stops hfew hle' hfirst' h0' hmiss'
    refine ⟨hre.aside.busy, hsaved.mpr (hor.resolve_right (by omega)), ⟨_, by omega, hcovered⟩,
      fun b hb hmark hnew => ?_⟩
    obtain hold | ⟨p, hp, rfl⟩ := hre.marks b hb hmark
    · rw [hnew] at hold; cases hold
    have hne := hre.there p hp
    rw [htab] at hne hnew
    have := (ha.settled.owned hne).2.2
    exact absurd (this.symm.trans hnew) (by decide)

end

def fullBits : Block := (List.range 30).foldl Bytes.setBit Bytes.zero

def oneSaved : Kernel :=
  { oneFile fullBits with icache := fun r => if r = ⟨1, 1⟩ then some { emptyInode with din := Dinode.zero } else none }

theorem oneSaved_whole : Whole oneSaved := by
  refine whole_of_blank fullBits (by decide +kernel) rfl fun i ip hip => ?_
  obtain ⟨hr, hip⟩ := Option.ite_none_right_eq_some.mp hip
  cases hr
  cases hip
  exact ⟨by decide, rfl, rfl, Dinode.addr_zero⟩

theorem writei_fails_on_full_disk : ∃ s', Whole oneSaved ∧ Usable oneSaved ⟨1, 1⟩ ∧
    (writei ⟨1, 1⟩ (fun _ => 7) 0 1).exec oneSaved = .ok (-2) s' ∧
      FailsCleanly oneSaved s' ⟨1, 1⟩ (fun _ => 7) 0 1 := by
  have hu : Usable oneSaved ⟨1, 1⟩ := by decide +kernel
  have hzero : oneSaved.diskInode ⟨1, 1⟩ = Dinode.zero := blank_diskIn fullBits (by decide)
  have hsaved : Saved oneSaved ⟨1, 1⟩ := ⟨{ emptyInode with din := Dinode.zero }, rfl, by rw [hzero]; rfl⟩
  have hshort : ShortOfIndirect oneSaved ⟨1, 1⟩ (0 : UInt32).toNat (1 : UInt32).toNat :=
    ⟨0, Nat.le_refl _, by decide, .inl rfl, by decide +kernel, by decide +kernel, .inl hsaved⟩
  have hrun : ((writei ⟨1, 1⟩ (fun _ => 7) 0 1).exec oneSaved).yields (fun a _ => a = -2) = true := by decide +kernel
  obtain ⟨a, s', he, ha⟩ := Res.yields_ok hrun
  obtain rfl := of_decide_eq_true ha
  exact ⟨s', oneSaved_whole, hu, he, (writei_fails_cleanly_iff oneSaved_whole hu he).mpr hshort⟩

/-- With two free blocks a write of two blocks returns -2 with the indirect block, block 28, in its hands. -/
theorem writei_keeps_buffer : ∃ s', Whole (oneFile twoFreeBits) ∧ Usable (oneFile twoFreeBits) ⟨1, 1⟩ ∧
    (writei ⟨1, 1⟩ (fun _ => 7) 0 1024).exec (oneFile twoFreeBits) = .ok (-2) s' ∧ (s'.disk 1).busy 28 = true ∧
    ¬ FailsCleanly (oneFile twoFreeBits) s' ⟨1, 1⟩ (fun _ => 7) 0 1024 := by
  have hrun : ((writei ⟨1, 1⟩ (fun _ => 7) 0 1024).exec (oneFile twoFreeBits)).yields
    (fun a s' => a = -2 ∧ (s'.disk 1).busy 28 = true) = true := by decide +kernel
  obtain ⟨a, s', he, ha⟩ := Res.yields_ok hrun
  obtain ⟨rfl, hb⟩ := of_decide_eq_true ha
  have hw : Whole (oneFile twoFreeBits) := oneFile_whole (by decide +kernel)
  refine ⟨s', hw, by decide +kernel, he, hb, fun hclean => ?_⟩
  have hfree := (hw 1 rfl).idle.free 28
  exact absurd ((hb.symm.trans (congrFun hclean.released 28)).trans hfree) (by decide)

end Xv6Vsd
