import Xv6Vsd.Mkproto.Plan

/-!
# The bitmap on the image

`syncfs` counts bitmap blocks but compares the count with bytes: it writes one bitmap block for every 512
of them.
-/

namespace Xv6Vsd.Mkproto

open Prog Function List

variable {s s' : Fs} {P P' : Plan} {X : Nat → List UInt8} {i : Nat}

/-! ## Writing outside of the inodes -/

variable {b : Nat} {d : Dinode} {es : List Entry}

theorem Image.writeLow (h : Image s X) (hb : b < s.sb.metaEnd) (hin : b < s.sb.inodestart ∨ s.sb.bmapstart ≤ b)
    (x : Block) :
    Image (s.write b x) X ∧ (s.write b x).image = update s.image b x ∧
      ∀ i < cap s.sb, (s.write b x).inodes i = s.inodes i := by
  have hU : b < s.sb.metaEnd + total (cap s.sb) X := Nat.lt_of_lt_of_le hb (Nat.le_add_right ..)
  have hnotind : ∀ i k, s.table s.inodes (.ind i k) ≠ 0 → s.table s.inodes (.ind i k) ≠ b := by
    intro i k hne he
    have := (h.files.base.owned.good _ hne).1
    omega
  obtain ⟨hbase, htab, himg⟩ := h.files.base.write hU hnotind x
  have hinodes : ∀ i < cap s.sb, (s.write b x).inodes i = s.inodes i := by
    intro i hi
    have hlt := iblock_lt_of_cap hi
    have hge : s.sb.inodestart ≤ s.sb.iblock i := Nat.le_add_left ..
    rw [Fs.inodes, diskIn, himg]
    exact congrArg (Bytes.dinode · i) (update_of_ne (show s.sb.iblock i ≠ b by omega) ..)
  have hfiles : Files (s.write b x) s.inodes X := by
    refine ⟨hbase, fun i hi => ?_, fun i hi => ?_⟩
    · rw [htab]
      refine (h.files.holds i hi).congr fun o ho => ?_
      have := (h.files.base.owned.good _ ho).1
      rw [himg, update_of_ne (by omega)]
    · rw [htab]; exact h.files.exact i hi
  exact ⟨⟨hfiles.congr hinodes, fun i hi => by rw [hinodes i hi]; exact h.size i hi, h.fresh⟩, himg, hinodes⟩

theorem Follows.writeLow (h : Follows s P) (hcap : P.next ≤ cap s.sb) (hb : b < s.sb.metaEnd)
    (hin : b < s.sb.inodestart ∨ s.sb.bmapstart ≤ b) (x : Block) :
    Follows (s.write b x) P ∧ (s.write b x).image = update s.image b x := by
  obtain ⟨himg, himage, hinodes⟩ := h.image.writeLow hb hin x
  refine ⟨{ h with image := himg, nlink := fun i h0 hi => ?_, type := fun i h0 hi => ?_ }, himage⟩
  · rw [hinodes i (by omega)]; exact h.nlink i h0 hi
  · rw [hinodes i (by omega)]; exact h.type i h0 hi

/-! ## `syncfs` -/

def turns (size : Nat) : Nat := syncTurns (size / (bsize * 8) + 1)

theorem turns_le (sb : Superblock) : sb.bmapstart + turns sb.size ≤ sb.metaEnd := by
  simp only [turns, syncTurns, Superblock.metaEnd, bpb, bsize]; omega

structure Synced (s : Fs) (s' : Fs) : Prop where
  sb : s'.sb = s.sb
  size : s'.size = s.size
  bmap : s'.bmap = s.bmap
  written : ∀ j < turns s.size, s'.image (s.sb.bmapstart + j) = s.bmap j
  rest : ∀ b, s.sb.bmapstart + turns s.size ≤ b → b < s.sb.metaEnd → s'.image b = s.image b

theorem Follows.syncfs (h : Follows s P) (hcap : P.next ≤ cap s.sb) (h2 : 2 ≤ s.sb.inodestart) :
    ∃ s', syncfs.exec s = .ok () s' ∧ Follows s' P ∧ Synced s s' := by
  have hsb := h.image.files.base.sbSize
  have hle := turns_le s.sb
  rw [hsb] at hle
  let I : Nat → Fs → Prop := fun k t => Follows t P ∧ t.sb = s.sb ∧ t.size = s.size ∧ t.bmap = s.bmap ∧
    (∀ j < k, t.image (s.sb.bmapstart + j) = s.bmap j) ∧
    ∀ b, s.sb.bmapstart + k ≤ b → t.image b = s.image b
  let body : Nat → M Unit := fun i => fs (fun s => (s.bmap i, s.sb.bmapstart)) >>= fun x => wsect x.1 (x.2 + i)
  have hloop : ∃ t, (loop (turns s.size) body).exec s = .ok () t ∧ I (turns s.size) t :=
    loop_total (fun k hk t ht => ?_) ⟨h, rfl, rfl, rfl, fun j hj => absurd hj (Nat.not_lt_zero j), fun _ _ => rfl⟩
  · obtain ⟨t, h1, ht, htsb, htsize, htbmap, hwr, hrest⟩ := hloop
    obtain ⟨ht', himg⟩ := ht.writeLow (b := 1) (by rw [htsb]; exact hcap)
      (by have := t.sb.bmapstart_le_metaEnd; have := ht.image.files.base.starts; rw [htsb] at *; omega)
      (.inl (by rw [htsb]; omega)) t.super
    have hstart := h.image.files.base.starts
    refine ⟨t.write 1 t.super, ?_, ht', htsb, htsize, htbmap, fun j hj => ?_, fun b hb hlt => ?_⟩
    · rw [Mkproto.syncfs, exec_bind, exec_fs, Res.ok_bind, exec_bind]
      change (Res.bind ((loop (turns s.size) _).exec s) _) = _
      rw [h1, Res.ok_bind, exec_bind, exec_fs, Res.ok_bind, exec_wsect ht.image.files.base.isOpen]
    · rw [himg, update_of_ne (by omega)]; exact hwr j hj
    · rw [himg, update_of_ne (by omega)]; exact hrest b hb
  · obtain ⟨hf, htsb, htsize, htbmap, hwr, hrest⟩ := ht
    obtain ⟨hf', himg⟩ := hf.writeLow (b := s.sb.bmapstart + k) (by rw [htsb]; exact hcap)
      (by rw [htsb]; omega) (.inr (by rw [htsb]; omega)) (t.bmap k)
    refine ⟨t.write (s.sb.bmapstart + k) (t.bmap k), ?_, hf', htsb, htsize, htbmap, fun j hj => ?_, fun b hb => ?_⟩
    · rw [exec_bind, exec_fs, Res.ok_bind]
      rw [exec_wsect hf.image.files.base.isOpen, htsb]
    · rw [himg]
      by_cases hjk : j = k
      · rw [hjk, update_self, htbmap]
      · rw [update_of_ne (by omega)]; exact hwr j (by omega)
    · rw [himg, update_of_ne (by omega)]; exact hrest b (by omega)

/-! ## `makefs` -/

theorem used_new (label : List UInt8) (size nlog ninodes i : Nat) :
    (Fs.new label size nlog ninodes).used i = false := by
  simp [Fs.used, Fs.new, Bytes.testBit]

structure Reamed (s0 s : Fs) (n : Nat) : Prop where
  same : s = { s0 with bmap := s.bmap, image := s.image, length := s.length }
  used : ∀ i, s.used i = decide (i < s0.sb.metaEnd)
  image : ∀ b, s.image b = Bytes.zero
  long : s0.size ≤ 2 ^ 23 → n ≤ s.length

variable {s0 : Fs} {n size nlog ninodes : Nat} {label : List UInt8}

theorem mark_loop (h0 : ∀ i, s.used i = false) (n : Nat) :
    ∃ s', (loop n fun i => modify (·.mark i)).exec s = .ok () s' ∧ s' = { s with bmap := s'.bmap } ∧
      ∀ i, s'.used i = decide (i < n) := by
  refine loop_total (I := fun k (t : Fs) => t = { s with bmap := t.bmap } ∧ ∀ i, t.used i = decide (i < k)) ?_
    ⟨rfl, fun i => by simp [h0]⟩
  rintro k - t ⟨ht, hu⟩
  refine ⟨t.mark k, rfl, by rw [ht]; rfl, fun i => ?_⟩
  rw [used_mark, hu, ← Bool.decide_or]
  exact decide_eq_decide.mpr (by omega)

theorem ream_loop (hc : s.closed = false) (h0 : ∀ b, s.image b = Bytes.zero) (n : Nat) :
    ∃ s', (loop n fun i => wsect Bytes.zero i).exec s = .ok () s' ∧
      s' = { s with image := s'.image, length := s'.length } ∧ (∀ b, s'.image b = Bytes.zero) ∧
      (n ≤ 2 ^ 23 → n ≤ s'.length) := by
  refine loop_total (I := fun k (t : Fs) => t = { s with image := t.image, length := t.length } ∧
    (∀ b, t.image b = Bytes.zero) ∧ (n ≤ 2 ^ 23 → k ≤ t.length)) ?_ ⟨rfl, h0, fun _ => Nat.zero_le _⟩
  rintro k hk t ⟨ht, hz, hl⟩
  refine ⟨t.write k Bytes.zero, exec_wsect (by rw [ht]; exact hc) .., by rw [ht]; rfl, fun b => ?_, fun hn => ?_⟩
  · simp only [Fs.write, update_apply, hz, ite_self]
  · have hseek : seek k = k := seek_of_lt (by omega); simp only [Fs.write, hseek]; omega

theorem exec_ream (hlabel : label.length ≤ 10) (size nlog ninodes : Nat) :
    ∃ s, ream.exec (Fs.new label size nlog ninodes) = .ok () (s.write 1 s.super) ∧
      Reamed (Fs.new label size nlog ninodes) s size := by
  obtain ⟨s1, h1, hs1, hu1⟩ := mark_loop (used_new label size nlog ninodes)
    ((layout size nlog ninodes).bmapstart + (size / (bsize * 8) + 1))
  obtain ⟨s2, h2, hs2, hz2, hl2⟩ := ream_loop (s := s1) (by rw [hs1]; rfl) (fun b => by rw [hs1]; rfl) size
  have hream : Reamed (Fs.new label size nlog ninodes) s2 size := by
    refine ⟨by rw [hs2, hs1], fun i => ?_, hz2, hl2⟩
    rw [hs2]
    exact hu1 i
  refine ⟨s2, ?_, hream⟩
  rw [ream, exec_bind, exec_fs, Res.ok_bind]
  dsimp only
  rw [if_neg (show ¬ 10 < (Fs.new label size nlog ninodes).label.length from Nat.not_lt.mpr hlabel), exec_bind]
  change Res.bind ((loop ((layout size nlog ninodes).bmapstart + (size / (bsize * 8) + 1)) _).exec _) _ = _
  rw [h1, Res.ok_bind, exec_bind]
  change Res.bind ((loop size _).exec _) _ = _
  rw [h2, Res.ok_bind, exec_bind, exec_fs, Res.ok_bind, exec_wsect (by rw [hream.same]; rfl)]

theorem winode_ok (he : (winode i d).exec s = .ok () s') :
    s' = { s with image := s'.image, length := s'.length } ∧ (s'.image (seek (s.sb.iblock i))).dinode i = d := by
  obtain ⟨_, _, h1, he⟩ := bind_ok he
  cases h1
  obtain ⟨buf, t, h1, he⟩ := bind_ok he
  have ht : t = s := by
    simp only [rsect, step, exec_act] at h1
    split_ifs at h1
    cases h1
    rfl
  rw [ht] at he
  simp only [wsect, step, exec_act] at he
  split_ifs at he
  cases he
  exact ⟨rfl, by simp [Fs.write]⟩

theorem rinode_ok (he : (rinode i).exec s = .ok d s') : s' = s ∧ d = (s.image (seek (s.sb.iblock i))).dinode i := by
  obtain ⟨_, _, h1, he⟩ := bind_ok he
  cases h1
  obtain ⟨buf, t, h1, he⟩ := bind_ok he
  cases he
  simp only [rsect, step, exec_act] at h1
  split_ifs at h1
  cases h1
  exact ⟨rfl, rfl⟩

theorem appendPiece_first
    (hu : ∀ i, s.used i = decide (i < n)) (h1 : 1 ≤ n) {d' off m src} (hd : d.addr (off / bsize / nindirect) = 0)
      (he : (appendPiece d off m src).exec s = .ok d' s') :
    n < s.size := by
  rw [appendPiece] at he
  dsimp only [offset2real] at he
  split at he
  · cases he
  obtain ⟨_, _, h2, -⟩ := bind_ok he
  by_contra hfull
  simp [fetchIndirect, if_pos hd, exec_map, exec_balloc hu h1, if_neg hfull] at h2

theorem append_first
    (hu : ∀ i, s.used i = decide (i < n)) (h1 : 1 ≤ n) {type owner perms ino inum name s1}
      (ha : (ialloc type owner perms).exec s = .ok ino s1)
    (hb : (appendEntry ino name inum).exec s1 = .ok () s') : n < s.size := by
  obtain ⟨_, _, h2, ha⟩ := bind_ok ha
  cases h2
  obtain ⟨_, t, h2, ha⟩ := bind_ok ha
  cases h2
  obtain ⟨_, t, h2, ha⟩ := bind_ok ha
  cases ha
  obtain ⟨hsame, hd⟩ := winode_ok h2
  obtain ⟨din, t, h3, hb⟩ := bind_ok hb
  obtain ⟨ht, hdin⟩ := rinode_ok h3
  rw [show s1.sb = s.sb by rw [hsame], hd] at hdin
  rw [ht, hdin] at hb
  obtain ⟨_, _, h4, -⟩ := bind_ok hb
  have hused : ∀ i, s1.used i = decide (i < n) := fun i => by rw [hsame]; exact hu i
  have hsize : s1.size = s.size := by rw [hsame]
  obtain ⟨_, _, h5, -⟩ := bind_ok h4
  rw [← hsize]
  refine appendPiece_first hused h1 ?_ h5
  exact Dinode.addr_zero _

def Plan.nothing : Plan where
  next := 1
  dirs := []
  files := []
  data _ := []
  isDir _ := false
  kids _ := 0

theorem Plan.root_eq : (((Plan.nothing.alloc true).append 1 (entryBytes dot 1)).append 1 (entryBytes dotdot 1)) =
    { Plan.root with dirs := [] } := by
  simp only [Plan.root, Plan.append, Plan.alloc, Plan.nothing, update_self, update_idem, nil_append,
    Plan.mk.injEq, true_and, and_true]
  funext i
  by_cases hi : i = 1 <;> simp [hi]

theorem Reamed.follows (hs : size ≤ 2 ^ 23) (h : Reamed (Fs.new label size nlog ninodes) s size)
    (hm : s.sb.metaEnd ≤ size) : Follows s Plan.nothing := by
  have hsame := h.same
  have hsb : s.sb = layout size nlog ninodes := by rw [hsame]; rfl
  have hsize : s.size = size := by rw [hsame]; rfl
  have hinodes : ∀ i, s.inodes i = Dinode.zero := by
    intro i
    rw [Fs.inodes, diskIn, h.image, dinode_zero]
  have htab : ∀ p, s.table s.inodes p = 0 := blockAt_blank fun i _ k => by rw [hinodes i, Dinode.addr_zero]
  have htotal : total (cap s.sb) (fun _ => []) = 0 := by simp [total, need]
  constructor
  case image =>
    refine ⟨⟨?_, fun i _ => ?_, fun i _ => ?_⟩, fun i _ => ?_, fun _ _ => rfl⟩
    · rw [show Plan.nothing.data = fun _ => [] from rfl, htotal, Nat.add_zero]
      constructor
      case isOpen => rw [hsame]; rfl
      case small => rw [hsize]; exact hs
      case long => rw [hsize]; exact h.long hs
      case sbSize => rw [hsb, hsize]; rfl
      case starts => rw [hsb]; exact Nat.le_add_right ..
      case used => rw [hsb]; exact h.used
      case ge => exact Nat.le_refl _
      case le => rw [hsize]; exact hm
      case owned => exact ⟨fun p hp => absurd (htab p) hp, fun p _ hp => absurd (htab p) hp⟩
      case onto => intro b h1 h2; omega
      case blank => exact fun b _ _ => h.image b
    · exact ⟨fun o ho => absurd ho (Nat.not_lt_zero o), fun o ho => absurd ho (Nat.not_lt_zero o)⟩
    · constructor
      · intro k; simp [htab, Plan.nothing]
      · intro k j _; simp [htab, Plan.nothing]
    · rw [hinodes]; rfl
  case next => rw [hsame]; rfl
  case dirs => rw [hsame]; rfl
  case files => rw [hsame]; rfl
  case known => exact fun d hd => absurd hd not_mem_nil
  case pos => exact Nat.one_pos
  case nlink => exact fun i h0 h1 => absurd h1 (Nat.not_lt.mpr h0)
  case type => exact fun i h0 h1 => absurd h1 (Nat.not_lt.mpr h0)

def Unsynced (s : Fs) : Prop := ∀ b, s.sb.bmapstart + turns s.size ≤ b → b < s.sb.metaEnd → s.image b = Bytes.zero

theorem SameMap.unsynced (h : SameMap s s') (hu : Unsynced s) : Unsynced s' := by
  intro b h1 h2
  rw [h.sb] at h1 h2
  rw [h.size] at h1
  rw [h.bitmap b (by omega) h2]
  exact hu b h1 h2

theorem Synced.unsynced (h : Synced s s') (hu : Unsynced s) : Unsynced s' := by
  intro b h1 h2
  rw [h.sb] at h1 h2
  rw [h.size] at h1
  rw [h.rest b h1 h2]
  exact hu b h1 h2

theorem Follows.rooted (h : Follows s { Plan.root with dirs := [] }) :
    Follows { s with dirs := [⟨[slash], 1⟩] } Plan.root := { h with
      image := h.image.relabel rfl rfl rfl rfl rfl rfl rfl
      dirs := rfl
      known := fun d hd => by rw [mem_singleton.mp hd]; exact Nat.one_lt_two }

theorem Follows.makeroot (h : Follows s Plan.nothing) (hcap : 2 ≤ cap s.sb) (h2 : 2 ≤ s.sb.inodestart) (hu : Unsynced s)
    (he : makeroot.exec s = .ok () s') :
    Follows s' Plan.root ∧ Unsynced s' ∧ s'.sb = s.sb ∧ s'.size = s.size := by
  obtain ⟨ino, s1, h1, he⟩ := bind_ok he
  obtain ⟨rfl, hf1, hm1⟩ := h.alloc true hcap rfl h1
  obtain ⟨_, s2, h2, he⟩ := bind_ok he
  obtain ⟨hf2, hk2⟩ := hf1.append (Nat.lt_succ_self _) (by rw [hm1.sb]; exact hcap) h2
  have hm2 := hm1.trans hk2.sameMap
  obtain ⟨_, s3, h3, he⟩ := bind_ok he
  obtain ⟨hf3, hk3⟩ := hf2.append (Nat.lt_succ_self _) (by rw [hm2.sb]; exact hcap) h3
  have hm3 := hm2.trans hk3.sameMap
  obtain ⟨_, s4, h4, he⟩ := bind_ok he
  cases h4
  have hf4 := (Plan.root_eq ▸ hf3).rooted
  have hm4 : SameMap s { s3 with dirs := [⟨[slash], 1⟩] } := ⟨hm3.sb, hm3.size, hm3.bitmap⟩
  obtain ⟨s5, h5, hf5, hsy⟩ := hf4.syncfs (by rw [hm4.sb]; exact hcap) (by rw [hm4.sb]; assumption)
  rw [show Plan.nothing.next = 1 from rfl, h5] at he; cases he
  exact ⟨hf5, hsy.unsynced (hm4.unsynced hu), hsy.sb.trans hm3.sb, hsy.size.trans hm3.size⟩

theorem total_root (hi : 1 < n) (xs : List UInt8) : total n (update (fun _ => []) 1 xs) = need xs.length := by
  have h := total_update (X := fun _ => []) hi xs
  have h0 : total n (fun _ => []) = 0 := by simp [total, need]
  rw [h0] at h
  simpa [need] using h

theorem Follows.makeroot_total (h : Follows s Plan.nothing) (hcap : 2 ≤ cap s.sb) (h2 : 2 ≤ s.sb.inodestart)
    (hroom : s.sb.metaEnd + 2 ≤ s.size) : ∃ s', Mkproto.makeroot.exec s = .ok () s' := by
  have happend : ∀ (t : Fs) (xs ys : List UInt8), SameMap s t → 1 < t.freeinode →
    Image t (update (fun _ => []) 1 xs) → xs.length + ys.length ≤ 32 →
    ∃ t', (iappend 1 ys).exec t = .ok () t' := by
    intro t xs ys hm hfree himg hlen
    have hcapt : 1 < cap t.sb := by rw [hm.sb]; exact hcap
    obtain ⟨hfull, -⟩ | ⟨t', he, -⟩ := himg.iappend hcapt hfree ys
    · rw [update_idem, update_self, total_root hcapt, hm.sb, hm.size, length_append] at hfull
      have := need_mono hlen
      simp only [need] at this hfull
      omega
    · exact ⟨t', he⟩
  obtain ⟨s1, h1, -⟩ := h.image.ialloc (by rw [h.next]; exact hcap) tDir (-1) dirperms
  rw [h.next] at h1
  obtain ⟨-, hf1, hm1⟩ := h.alloc true hcap rfl h1
  obtain ⟨s2, h3⟩ := happend _ [] (entryBytes dot 1) hm1 (by rw [hf1.next]; exact Nat.one_lt_two)
    (by rw [update_eq_self]; exact hf1.image) (by decide)
  obtain ⟨hf2, hk2⟩ := hf1.append Nat.one_lt_two (by rw [hm1.sb]; exact hcap) h3
  have hm2 := hm1.trans hk2.sameMap
  obtain ⟨s3, h4⟩ := happend _ _ (entryBytes dotdot 1) hm2 (by rw [hf2.next]; exact Nat.one_lt_two) hf2.image
    (by decide)
  obtain ⟨hf3, hk3⟩ := hf2.append Nat.one_lt_two (by rw [hm2.sb]; exact hcap) h4
  have hm3 := hm2.trans hk3.sameMap
  obtain ⟨s4, h5, -⟩ := (Plan.root_eq ▸ hf3).rooted.syncfs (by show 2 ≤ cap s3.sb; rw [hm3.sb]; exact hcap)
    (by show 2 ≤ s3.sb.inodestart; rw [hm3.sb]; exact h2)
  refine ⟨s4, bind_ok_iff.mpr ⟨_, s1, h1, bind_ok_iff.mpr ⟨_, s2, h3, bind_ok_iff.mpr ⟨_, s3, h4,
    bind_ok_iff.mpr ⟨_, _, rfl, h5⟩⟩⟩⟩⟩

theorem Reamed.ready (hs : size ≤ 2 ^ 23) (hcap : 2 ≤ cap (layout size nlog ninodes))
    (h : Reamed (Fs.new label size nlog ninodes) s size) (hroom : (layout size nlog ninodes).metaEnd ≤ size) :
    Follows (s.write 1 s.super) Plan.nothing ∧ Unsynced (s.write 1 s.super) := by
  have hsb : s.sb = layout size nlog ninodes := by rw [h.same]; rfl
  have hin : 2 ≤ s.sb.inodestart := by rw [hsb]; exact Nat.le_add_right ..
  have hf := h.follows hs (by rw [hsb]; exact hroom)
  have hstart := hf.image.files.base.starts
  have hmeta := s.sb.bmapstart_le_metaEnd
  obtain ⟨hf', himg⟩ := hf.writeLow (b := 1) (by rw [hsb]; exact Nat.le_of_succ_le hcap) (by omega) (.inl (by omega))
    s.super
  refine ⟨hf', fun b h1 h2 => ?_⟩
  change s.sb.bmapstart + _ ≤ b at h1
  rw [himg, update_of_ne (by omega)]
  exact h.image b

theorem makefs_follows (hs : size ≤ 2 ^ 23) (hcap : 2 ≤ cap (layout size nlog ninodes))
    (he : makefs.exec (Fs.new label size nlog ninodes) = .ok () s) :
    Follows s Plan.root ∧ Unsynced s ∧ s.sb = layout size nlog ninodes ∧ s.size = size := by
  obtain ⟨_, s1, h1, he⟩ := bind_ok he
  have hlabel : label.length ≤ 10 := by
    by_contra hlong
    rw [ream, exec_bind, exec_fs, Res.ok_bind] at h1
    dsimp only at h1
    rw [if_pos (show 10 < (Fs.new label size nlog ninodes).label.length from Nat.lt_of_not_le hlong)] at h1
    cases h1
  obtain ⟨s2, h2, hream⟩ := exec_ream hlabel size nlog ninodes
  rw [h2] at h1; cases h1
  have hsb : s2.sb = layout size nlog ninodes := by rw [hream.same]; rfl
  have hsize : s2.size = size := by rw [hream.same]; rfl
  have hroom : (layout size nlog ninodes).metaEnd < s2.size := by
    obtain ⟨_, s3, h3, h4⟩ := bind_ok he
    obtain ⟨_, s4, h4, -⟩ := bind_ok h4
    exact append_first (s := s2.write 1 s2.super) hream.used (layout size nlog ninodes).metaEnd_pos h3 h4
  rw [hsize] at hroom
  obtain ⟨hf, hu⟩ := hream.ready hs hcap (Nat.le_of_lt hroom)
  obtain ⟨hf', hu', hsb', hsize'⟩ := hf.makeroot (show 2 ≤ cap s2.sb by rw [hsb]; exact hcap)
    (show 2 ≤ s2.sb.inodestart by rw [hsb]; exact Nat.le_add_right ..) hu he
  exact ⟨hf', hu', hsb'.trans hsb, hsize'.trans hsize⟩

theorem makefs_total (hlabel : label.length ≤ 10) (hs : size ≤ 2 ^ 23) (hcap : 2 ≤ cap (layout size nlog ninodes))
    (hroom : (layout size nlog ninodes).metaEnd + 2 ≤ size) :
    ∃ s, makefs.exec (Fs.new label size nlog ninodes) = .ok () s := by
  obtain ⟨s1, h1, hream⟩ := exec_ream hlabel size nlog ninodes
  have hsb : s1.sb = layout size nlog ninodes := by rw [hream.same]; rfl
  have hsize : s1.size = size := by rw [hream.same]; rfl
  obtain ⟨hf, hu⟩ := hream.ready hs hcap (Nat.le_trans (Nat.le_add_right ..) hroom)
  obtain ⟨s2, h2⟩ := hf.makeroot_total (show 2 ≤ cap s1.sb by rw [hsb]; exact hcap)
    (show 2 ≤ s1.sb.inodestart by rw [hsb]; exact Nat.le_add_right ..)
    (show s1.sb.metaEnd + 2 ≤ s1.size by rw [hsb, hsize]; exact hroom)
  exact ⟨s2, bind_ok_iff.mpr ⟨_, _, h1, h2⟩⟩

/-! ## Entries -/

def Entry.takesInode : Entry → Bool
  | .direct .. | .file .. => true
  | _ => false

theorem Plan.add_next {e} (h : P.add e = some P') : P'.next = P.next + if e.takesInode then 1 else 0 := by
  cases e <;> simp only [Plan.add, Option.map_eq_some_iff, reduceCtorEq] at h <;> obtain ⟨_, -, rfl⟩ := h <;> rfl

theorem Follows.runentries (h : Follows s P) (hsync : .sync ∉ es)
    (hcap : P.next + es.countP Entry.takesInode ≤ cap s.sb) (he : (runentries es).exec s = .ok () s') :
    ∃ P', P.addAll es = some P' ∧ P'.next = P.next + es.countP Entry.takesInode ∧ Follows s' P' ∧ SameMap s s' := by
  induction es generalizing s P with
  | nil => cases he; exact ⟨P, rfl, rfl, h, SameMap.refl _⟩
  | cons e rest ih =>
    obtain ⟨_, s1, h1, h2⟩ := bind_ok he
    rw [countP_cons] at hcap ⊢
    obtain ⟨P1, hadd, hf, hm⟩ := h.doentry (fun hc => hsync (hc ▸ mem_cons_self)) (fun P1 hadd => by
      rw [Plan.add_next hadd]
      omega) h1
    have hnext := Plan.add_next hadd
    obtain ⟨P', hadd', hnext', hf', hm'⟩ := ih hf (fun hc => hsync (mem_cons_of_mem _ hc))
      (by rw [hnext, hm.sb]; omega) h2
    exact ⟨P', by simp [Plan.addAll, hadd, hadd'], by omega, hf', hm.trans hm'⟩

/-! ## The bitmap -/

def Marked (s : Fs) (b : Nat) : Prop := markedIn s.sb s.image b = true

/-- The blocks in use: the metadata, and what the inodes and the indirect blocks of the image name. -/
def InUse (s : Fs) (b : Nat) : Prop := b < s.sb.metaEnd ∨ ∃ p, s.table s.inodes p = b

theorem Follows.inUse_iff (h : Follows s P) : InUse s b ↔ b < s.sb.metaEnd + total (cap s.sb) P.data := by
  have hbase := h.image.files.base
  constructor
  · rintro (hb | ⟨p, rfl⟩)
    · exact Nat.lt_of_lt_of_le hb (Nat.le_add_right ..)
    by_cases hp : s.table s.inodes p = 0
    · rw [hp]; exact hbase.pos
    · exact (hbase.owned.good p hp).2
  · intro hb
    by_cases hm : b < s.sb.metaEnd
    · exact .inl hm
    · exact .inr (hbase.onto b (by omega) hb)

abbrev synced (size : Nat) : Nat := bpb * turns size

theorem Synced.marked_iff (h : Synced s s') (hf : Follows s P) (hu : Unsynced s) (hb : b < s.size) :
    Marked s' b ↔ b < s.sb.metaEnd + total (cap s.sb) P.data ∧ b < synced s.size := by
  have hblk : s'.sb.bblock b = s.sb.bmapstart + b / bpb := by rw [h.sb, Superblock.bblock, Nat.add_comm]
  rw [Marked, markedIn, hblk]
  by_cases hlt : b / bpb < turns s.size
  · have hsy : b < synced s.size := by simp only [synced, bpb, bsize] at *; omega
    have hused := hf.image.files.base.used b
    rw [Fs.used] at hused
    rw [h.written _ hlt, hused, decide_eq_true_iff]
    exact ⟨fun hlt => ⟨hlt, hsy⟩, And.left⟩
  have hsy : ¬ b < synced s.size := by simp only [synced, bpb, bsize] at *; omega
  have hmeta : s.sb.bmapstart + b / bpb < s.sb.metaEnd := by
    have := hf.image.files.base.sbSize
    simp only [Superblock.metaEnd, bpb, bsize] at *
    omega
  rw [h.rest _ (by omega) hmeta, hu _ (by omega) hmeta]
  simp [Bytes.testBit, hsy]

def InodesFit (sb : Superblock) (es : List Entry) : Prop := 2 + es.countP Entry.takesInode ≤ cap sb

/-- The blocks in use are all among those that the bitmap blocks stand for which `syncfs` writes. -/
def SmallMap (sb : Superblock) (es : List Entry) : Prop :=
  ∃ P, Plan.root.addAll es = some P ∧ sb.metaEnd + total (cap sb) P.data ≤ synced sb.size

theorem proto_follows (hs : size ≤ 2 ^ 23) (hsync : .sync ∉ es) (hfit : InodesFit (layout size nlog ninodes) es)
    (he : (proto es).exec (Fs.new label size nlog ninodes) = .ok () s) :
    ∃ P t, Plan.root.addAll es = some P ∧ P.next = 2 + es.countP Entry.takesInode ∧ Follows t P ∧ Unsynced t ∧
      t.sb = layout size nlog ninodes ∧ t.size = size ∧
      ∃ s1, Follows s1 P ∧ Synced t s1 ∧ s = { s1 with closed := true } := by
  have hcap : 2 ≤ cap (layout size nlog ninodes) := Nat.le_trans (Nat.le_add_right ..) hfit
  obtain ⟨_, s0, h0, he⟩ := bind_ok he
  obtain ⟨hf0, hu0, hsb0, hsize0⟩ := makefs_follows hs hcap h0
  obtain ⟨_, t, h1, he⟩ := bind_ok he
  obtain ⟨P, hadd, hnext, hf, hm⟩ := hf0.runentries hsync (by rw [hsb0]; exact hfit) h1
  have hsb : t.sb = layout size nlog ninodes := hm.sb.trans hsb0
  obtain ⟨s1, h2, hf', hsy⟩ := hf.syncfs (by rw [hsb, hnext]; exact hfit) (by rw [hsb]; exact Nat.le_add_right ..)
  obtain ⟨_, s2, h3, he⟩ := bind_ok he
  rw [h2] at h3; cases h3
  cases he
  exact ⟨P, t, hadd, hnext, hf, hm.unsynced hu0, hsb, hm.size.trans hsize0, s1, hf', hsy, rfl⟩

theorem SmallMap.size_le (h : SmallMap (layout size nlog (size / 10)) es) : size ≤ 2 ^ 23 := by
  obtain ⟨P, -, hle⟩ := h
  simp only [layout, Superblock.metaEnd, synced, turns, syncTurns, ipb, bpb, bsize] at hle
  omega

theorem proto_bits (hs : size ≤ 2 ^ 23) (hsync : .sync ∉ es) (hfit : InodesFit (layout size nlog ninodes) es)
    (he : (proto es).exec (Fs.new label size nlog ninodes) = .ok () s) :
    ∃ P, Plan.root.addAll es = some P ∧
      let U := (layout size nlog ninodes).metaEnd + total (cap (layout size nlog ninodes)) P.data
      U ≤ size ∧ ∀ b < size, (Marked s b ↔ b < U ∧ b < synced size) ∧ (InUse s b ↔ b < U) := by
  obtain ⟨P, t, hadd, -, hf, hu, hsb, hsize, s1, hf', hsy, rfl⟩ := proto_follows hs hsync hfit he
  have hle := hf.image.files.base.le
  rw [hsb, hsize] at hle
  refine ⟨P, hadd, hle, fun b hb => ⟨?_, ?_⟩⟩
  · have h := hsy.marked_iff hf hu (hsize.symm ▸ hb); rw [hsb, hsize] at h; exact h
  · have h : InUse s1 b ↔ _ := hf'.inUse_iff; rw [hsy.sb, hsb] at h; exact h

/-- The bitmap on an image is right if and only if the bitmap blocks that `syncfs` writes are enough
for the blocks in use. Images of more than 4 GiB, whose blocks `wsect` confuses, are never small. -/
theorem bitmap_right_iff {es : List Entry} (hsync : .sync ∉ es) (hfit : InodesFit (layout size nlog (size / 10)) es)
    (he : (proto es).exec (Fs.new label size nlog (size / 10)) = .ok () s) :
    (SmallMap (layout size nlog (size / 10)) es → ∀ b < size, Marked s b ↔ InUse s b) ∧
      (size ≤ 2 ^ 23 → (∀ b < size, Marked s b ↔ InUse s b) → SmallMap (layout size nlog (size / 10)) es) := by
  constructor
  · intro hsmall
    obtain ⟨P, hadd, -, hbits⟩ := proto_bits hsmall.size_le hsync hfit he
    obtain ⟨P', hadd', hle⟩ := hsmall
    obtain rfl : P' = P := Option.some.inj (hadd'.symm.trans hadd)
    intro b hb
    obtain ⟨hmark, huse⟩ := hbits b hb
    rw [hmark, huse]
    exact ⟨And.left, fun h => ⟨h, Nat.lt_of_lt_of_le h hle⟩⟩
  · intro hs hright
    obtain ⟨P, hadd, hle, hbits⟩ := proto_bits hs hsync hfit he
    refine ⟨P, hadd, ?_⟩
    -- otherwise the first block behind the written part of the bitmap is in use
    by_contra hlt
    have hb : synced size < size := Nat.lt_of_lt_of_le (Nat.lt_of_not_le hlt) hle
    obtain ⟨hmark, huse⟩ := hbits _ hb
    exact Nat.lt_irrefl _ (hmark.mp ((hright _ hb).mpr (huse.mpr (Nat.lt_of_not_le hlt)))).2

/-! ### Small images -/

abbrev small : Superblock := layout 1000 logsize (1000 / 10)

theorem proto_one {e} {l} (hsync : e ≠ .sync) (hk : Plan.root.Knows l)
    (hcap : (Plan.root.ops l).next ≤ cap small) (hroom : (Plan.root.ops l).blocks small ≤ 1000)
    (hmax : ∀ i, ((Plan.root.ops l).data i).length ≤ maxfile * bsize)
    (hrun : ∀ s s', Follows s Plan.root → s.sb = small → (runOps l).exec s = .ok () s' →
      ∃ s', (doentry e).exec s = .ok () s') :
    ∃ s, (proto [e]).exec (Fs.new [] 1000 logsize (1000 / 10)) = .ok () s := by
  obtain ⟨s0, h0⟩ := makefs_total (show ([] : List UInt8).length ≤ 10 by decide) (show 1000 ≤ 2 ^ 23 by decide)
    (show 2 ≤ cap small by decide) (by decide)
  obtain ⟨hf0, -, hsb, hsize⟩ := makefs_follows (by decide) (by decide) h0
  obtain ⟨_, h1, -⟩ := hf0.ops hk (by rw [hsb]; exact hcap) (by rw [hsb, hsize]; exact hroom) hmax
  obtain ⟨s1, h1⟩ := hrun _ _ hf0 hsb h1
  have hcap1 : ∀ P', Plan.root.add e = some P' → P'.next ≤ cap small := fun P' hadd => by
    rw [Plan.add_next hadd]
    split <;> decide
  obtain ⟨P, hadd, hf1, hm⟩ := hf0.doentry hsync (by rw [hsb]; exact hcap1) h1
  have hsb1 : s1.sb = small := hm.sb.trans hsb
  obtain ⟨s2, h2, -⟩ := hf1.syncfs (by rw [hsb1]; exact hcap1 P hadd) (by rw [hsb1]; decide)
  exact ⟨_, bind_ok_iff.mpr ⟨_, _, h0, bind_ok_iff.mpr ⟨_, _, bind_ok_iff.mpr ⟨_, _, h1, rfl⟩,
    bind_ok_iff.mpr ⟨_, _, h2, rfl⟩⟩⟩⟩

def oneFile : List Entry := [.file [slash] [97] [104, 105] 0 0]

theorem oneFile_blocks : total (cap small) (Plan.root.addFile [97] 1 [104, 105]).data = 4 := by decide +kernel

theorem oneFile_total : ∃ s, (proto oneFile).exec (Fs.new [] 1000 logsize (1000 / 10)) = .ok () s := by
  refine proto_one (l := [.ialloc false 0 0, .iappend 1 (entryBytes [97] 2), .iappend 2 [104, 105]]) nofun
    ⟨by decide, by decide, by decide, by decide, trivial⟩ (by decide) ?_ (fun i => ?_) fun s s' h hsb he => ?_
  · exact Nat.le_trans (Nat.add_le_add_left (Nat.le_of_eq oneFile_blocks) _) (by decide)
  · by_cases h1 : i = 1
    · subst h1; decide
    by_cases h2 : i = 2
    · subst h2; decide
    · simp [Plan.ops, Plan.op, Plan.append, Plan.alloc, Plan.root, h1, h2]
  obtain ⟨t, h1, he⟩ := h.alloc_ops (by rw [hsb]; decide) he
  obtain ⟨_, _, h2, he⟩ := bind_ok he
  obtain ⟨_, t', h3, -⟩ := bind_ok he
  refine ⟨{ t' with files := t'.files ++ [⟨[97], 2⟩] }, ?_⟩
  rw [doentry, exec_bind, exec_fs, Res.ok_bind, h.dirs]
  exact bind_ok_iff.mpr ⟨_, _, h1, bind_ok_iff.mpr ⟨_, _, h2, bind_ok_iff.mpr ⟨(), t', bind_ok_iff.mpr ⟨_, _, h3, rfl⟩,
    rfl⟩⟩⟩

theorem bitmap_right_small : ∃ s, (proto oneFile).exec (Fs.new [] 1000 logsize (1000 / 10)) = .ok () s ∧
    SmallMap (layout 1000 logsize (1000 / 10)) oneFile ∧ ∀ b < 1000, Marked s b ↔ InUse s b := by
  have hsmall : SmallMap (layout 1000 logsize (1000 / 10)) oneFile := ⟨_, rfl, Nat.le_trans
    (Nat.add_le_add_left (Nat.le_of_eq oneFile_blocks) _) (by decide)⟩
  obtain ⟨s, he⟩ := oneFile_total
  exact ⟨s, he, hsmall, (bitmap_right_iff (by simp [oneFile]) (by unfold InodesFit; decide) he).1 hsmall⟩

theorem proto_nil_total (hlabel : label.length ≤ 10) (hs : size ≤ 2 ^ 23) (hcap : 2 ≤ cap (layout size nlog ninodes))
    (hroom : (layout size nlog ninodes).metaEnd + 2 ≤ size) :
    ∃ s, (proto []).exec (Fs.new label size nlog ninodes) = .ok () s := by
  obtain ⟨s1, h1⟩ := makefs_total hlabel hs hcap hroom
  obtain ⟨hf, -, hsb, -⟩ := makefs_follows hs hcap h1
  obtain ⟨s2, h2, -⟩ := hf.syncfs (by rw [hsb]; exact hcap) (by rw [hsb]; exact Nat.le_add_right ..)
  exact ⟨_, bind_ok_iff.mpr ⟨_, _, h1, bind_ok_iff.mpr ⟨_, _, rfl, bind_ok_iff.mpr ⟨_, _, h2, rfl⟩⟩⟩⟩

/-- With 400000 blocks the metadata end at 5131, and one bitmap block is written, which stands for 4096
blocks. -/
theorem bitmap_misses_metadata : ∃ s, (proto []).exec (Fs.new [] 400000 logsize (400000 / 10)) = .ok () s ∧
    4096 < s.sb.metaEnd ∧ ¬ Marked s 4096 := by
  have hs : 400000 ≤ 2 ^ 23 := by decide
  have hfit : InodesFit (layout 400000 logsize (400000 / 10)) [] := by unfold InodesFit; decide
  obtain ⟨s, he⟩ := proto_nil_total (show ([] : List UInt8).length ≤ 10 by decide) hs hfit (by decide)
  obtain ⟨P, t, -, -, -, -, hsb, -, s1, -, hsy, rfl⟩ := proto_follows hs not_mem_nil hfit he
  refine ⟨_, he, ?_, ?_⟩
  · show 4096 < s1.sb.metaEnd; rw [hsy.sb, hsb]; decide
  obtain ⟨P, -, -, hbits⟩ := proto_bits hs not_mem_nil hfit he
  rw [(hbits 4096 (by decide)).1]
  rintro ⟨-, hlt⟩
  exact absurd hlt (by decide)

end Xv6Vsd.Mkproto
