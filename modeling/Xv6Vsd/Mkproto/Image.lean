import Mathlib.Algebra.BigOperators.Group.Finset.Piecewise
import Xv6Vsd.Fs.Fit
import Xv6Vsd.Fs.File
import Xv6Vsd.Mkproto.Model

/-!
# What the image holds while it is built

Blocks are handed out one after the other, so that the blocks in use are those below some number.
-/

namespace Xv6Vsd.Mkproto

open Prog Function Res

def cap (sb : Superblock) : Nat := ipb * (sb.bmapstart - sb.inodestart)

def Fs.table (s : Fs) (V : Nat → Dinode) : Place → Nat := blockAt (cap s.sb) V s.image

/-- The blocks below `U` are in use. `V` are the inodes, of which one may not be written back yet. -/
structure Base (s : Fs) (U : Nat) (V : Nat → Dinode) : Prop where
  isOpen : s.closed = false
  small : s.size ≤ 2 ^ 23
  long : s.size ≤ s.length
  sbSize : s.sb.size = s.size
  starts : s.sb.inodestart ≤ s.sb.bmapstart
  used : ∀ i, s.used i = decide (i < U)
  ge : s.sb.metaEnd ≤ U
  le : U ≤ s.size
  owned : Owned (s.table V) fun b => s.sb.metaEnd ≤ b ∧ b < U
  onto : ∀ b, s.sb.metaEnd ≤ b → b < U → ∃ p, s.table V p = b
  blank : ∀ b, U ≤ b → b < s.size → s.image b = Bytes.zero

variable {s s' : Fs} {U : Nat} {V : Nat → Dinode} {α : Type}

/-! ## Steps -/

@[simp] theorem exec_fs (f : Fs → α) (s : Fs) : (fs f).exec s = .ok (f s) s := rfl

@[simp] theorem exec_modify (f : Fs → Fs) (s : Fs) : (modify f).exec s = .ok () (f s) := rfl

@[simp] theorem exec_fail (msg : String) (s : Fs) : (fail msg : M α).exec s = .panic msg := rfl

variable {b : Nat} {d d' : Dinode}

theorem seek_of_lt (h : b < 2 ^ 23) : seek b = b := by simp only [seek, bsize]; omega

theorem Fs.write_image (h : b < 2 ^ 23) (x : Block) : (s.write b x).image = update s.image b x := by
  simp [Fs.write, seek_of_lt h]

theorem exec_rsect (hc : s.closed = false) (hl : s.size ≤ s.length) (hs : s.size ≤ 2 ^ 23) (hb : b < s.size) :
    (rsect b).exec s = .ok (s.image b) s := by
  have hseek : seek b = b := seek_of_lt (by omega)
  simp only [rsect, step, exec_act, hc, Bool.false_eq_true, ↓reduceIte, hseek]
  rw [if_neg (by omega)]

theorem exec_wsect (hc : s.closed = false) (b : Nat) (x : Block) : (wsect x b).exec s = .ok () (s.write b x) := by
  simp [wsect, step, hc]

theorem used_mark (s : Fs) (i j : Nat) : (s.mark i).used j = (decide (i = j) || s.used j) := by
  have hlt : i % bpb / 8 < 512 := by simp only [bpb, bsize]; omega
  unfold Fs.used Fs.mark
  by_cases hb : j / bpb = i / bpb
  · simp only [hb, update_self]
    rw [Bytes.testBit_setBit _ hlt]
    congr 1
    exact decide_eq_decide.mpr (by simp only [bpb, bsize] at *; omega)
  · have hne : i ≠ j := fun he => hb (by rw [he]); simp [update_of_ne hb, hne]

theorem exec_balloc (hu : ∀ i, s.used i = decide (i < U)) (h1 : 1 ≤ U) :
    balloc.exec s = if U < s.size then .ok U (s.mark U)
      else .panic "mkproto: unable to allocate block. filesystem full" := by
  unfold balloc step
  rw [exec_act]
  by_cases hlt : U < s.size
  · have hfind : (List.range s.size).find? (fun i => decide (1 ≤ i ∧ (!s.used i) = true)) = some U := by
      rw [List.find?_range_eq_some]
      refine ⟨by simp [hu, h1], by simpa using hlt, fun j hj => ?_⟩
      simp [hu, hj]
    rw [hfind, if_pos hlt]
  have hfind : (List.range s.size).find? (fun i => decide (1 ≤ i ∧ (!s.used i) = true)) = none := by
    rw [List.find?_range_eq_none]
    intro j hj
    have hju : j < U := by omega
    simp [hu, hju]
  rw [hfind, if_neg hlt]

/-! ## Blocks are given to inodes -/

namespace Base

variable (h : Base s U V)
include h

theorem pos : 1 ≤ U := Nat.le_trans s.sb.metaEnd_pos h.ge

theorem rsect {b} (hb : b < s.size) : (rsect b).exec s = .ok (s.image b) s := exec_rsect h.isOpen h.long h.small hb

theorem balloc : balloc.exec s = if U < s.size then .ok U (s.mark U)
    else .panic "mkproto: unable to allocate block. filesystem full" := exec_balloc h.used h.pos

theorem lt {p} (hp : s.table V p ≠ 0) : s.table V p < s.size := Nat.lt_of_lt_of_le (h.owned.good p hp).2 h.le

theorem toNat_ofNat (hU : U < s.size) : (UInt32.ofNat U).toNat = U :=
  UInt32.toNat_ofNat_of_lt' (by have := h.small; simp only [UInt32.size]; omega)

theorem nowhere (p : Place) : s.table V p ≠ U := by
  intro he
  have hlt := (h.owned.good p (by have := h.pos; omega)).2
  omega

theorem grant {V' p} (hframe : s'.closed = s.closed ∧ s'.size = s.size ∧
  s.length ≤ s'.length ∧ s'.sb = s.sb) (hU : U < s.size) (hp : s.table V p = 0) (hused : s'.used = (s.mark U).used)
    (htab : ∀ q, s'.table V' q = if q = p then U else s.table V q)
    (hblank : ∀ b, U + 1 ≤ b → b < s.size → s'.image b = s.image b) : Base s' (U + 1) V' := by
  obtain ⟨hc, hs, hl, hsb⟩ := hframe
  have hmono : Owned (s.table V) fun b => s.sb.metaEnd ≤ b ∧ b < U + 1 :=
    h.owned.mono fun q hq => ⟨(h.owned.good q hq).1, Nat.lt_succ_of_lt (h.owned.good q hq).2⟩
  constructor
  case isOpen => rw [hc, h.isOpen]
  case small => rw [hs]; exact h.small
  case long => have := h.long; omega
  case sbSize => rw [hsb, hs, h.sbSize]
  case starts => rw [hsb]; exact h.starts
  case used =>
    intro i
    rw [hused, used_mark, h.used, ← Bool.decide_or]
    exact decide_eq_decide.mpr (by omega)
  case ge => have := h.ge; rw [hsb]; omega
  case le => rw [hs]; exact hU
  case owned => rw [hsb]; exact hmono.grant ⟨h.ge, Nat.lt_succ_self U⟩ h.nowhere htab
  case onto =>
    intro b hb hlt
    rw [hsb] at hb
    by_cases hbU : b = U
    · exact ⟨p, by rw [htab, if_pos rfl, hbU]⟩
    obtain ⟨q, hq⟩ := h.onto b hb (by omega)
    refine ⟨q, ?_⟩
    rw [htab, if_neg, hq]
    rintro rfl
    have := s.sb.metaEnd_pos
    omega
  case blank =>
    intro b hb hlt
    rw [hs] at hlt
    rw [hblank b hb hlt]
    exact h.blank b (by omega) hlt

theorem grantInd {i k} (hi : i < cap s.sb) (hk : k < 12) (h0 : (V i).addr k = 0) (hU : U < s.size) :
    Base (s.mark U) (U + 1) (update V i ((V i).setAddr k (UInt32.ofNat U))) ∧
      ∀ q, (s.mark U).table (update V i ((V i).setAddr k (UInt32.ofNat U))) q =
        if q = .ind i k then U else s.table V q := by
  have hnat := h.toNat_ofNat hU
  have htab : ∀ q, (s.mark U).table (update V i ((V i).setAddr k (UInt32.ofNat U))) q =
    if q = .ind i k then U else s.table V q := by
    intro q
    have hz : s.image (UInt32.ofNat U).toNat = Bytes.zero := by
      rw [hnat]
      exact h.blank U (Nat.le_refl U) hU
    have := blockAt_setAddr (n := cap s.sb) hi hk h0 hz q
    rwa [hnat] at this
  exact ⟨h.grant ⟨rfl, rfl, Nat.le_refl _, rfl⟩ hU (by simp [Fs.table, blockAt, h0]) rfl htab (fun _ _ _ => rfl), htab⟩

theorem grantDat {i k j} (hi : i < cap s.sb) (hj : j < 128) (hk : (V i).addr k ≠ 0)
    (h0 : (s.image ((V i).addr k).toNat).u32 (4 * j) = 0) (hU : U < s.size) :
    let x := (s.image ((V i).addr k).toNat).setU32 (4 * j) (UInt32.ofNat U)
    Base ((s.mark U).write ((V i).addr k).toNat x) (U + 1) V ∧
      ∀ q, ((s.mark U).write ((V i).addr k).toNat x).table V q = if q = .dat i k j then U else s.table V q := by
  intro x
  have hnat := h.toNat_ofNat hU
  have hind : s.table V (.ind i k) = ((V i).addr k).toNat := blockAt_ind hi k
  have hA := toNat_ne_zero hk
  rw [← hind] at hA
  have hlt := h.lt hA
  have hbelow := (h.owned.good _ hA).2
  rw [hind] at hlt hbelow
  have hsmall := h.small
  have himage : ((s.mark U).write ((V i).addr k).toNat x).image = update s.image ((V i).addr k).toNat x :=
    Fs.write_image (by omega) x
  have htab : ∀ q, ((s.mark U).write ((V i).addr k).toNat x).table V q = if q = .dat i k j then U else s.table V q := by
    intro q
    have := blockAt_setU32 (v := UInt32.ofNat U) h.owned hi hj hk q
    rw [hnat] at this
    simp only [Fs.table, himage]
    exact this
  refine ⟨h.grant ⟨rfl, rfl, Nat.le_max_left .., rfl⟩ hU ?_ rfl htab fun b hb _ => ?_, htab⟩
  · rw [Fs.table, blockAt_dat hi hk, h0]; rfl
  · rw [himage, update_of_ne (by omega)]

theorem write {b} (hb : b < U) (hind : ∀ i k, s.table V (.ind i k) ≠ 0 → s.table V (.ind i k) ≠ b) (x : Block) :
    Base (s.write b x) U V ∧ (s.write b x).table V = s.table V ∧ (s.write b x).image = update s.image b x := by
  have hsmall := h.small
  have hle := h.le
  have himage : (s.write b x).image = update s.image b x := Fs.write_image (by omega) x
  have htab : (s.write b x).table V = s.table V := by
    refine blockAt_congr (fun _ _ _ => rfl) fun c hc => ?_
    obtain ⟨i, k, hi, hk, rfl⟩ := hc
    have heq : s.table V (.ind i k) = ((V i).addr k).toNat := blockAt_ind hi k
    have hne := hind i k (by rw [heq]; exact toNat_ne_zero hk)
    rw [heq] at hne
    rw [himage, update_of_ne hne]
  refine ⟨?_, htab, himage⟩
  exact { h with
    long := Nat.le_trans h.long (Nat.le_max_left ..)
    used := h.used
    owned := by rw [htab]; exact h.owned
    onto := by rw [htab]; exact h.onto
    blank := fun c hc hlt => by
      rw [himage, update_of_ne (by omega)]
      exact h.blank c hc hlt }

end Base

/-! ## One piece is appended -/

def Fs.frame (s : Fs) : List UInt8 × Nat × Nat × Superblock × Bool × UInt16 × UInt16 × List Named × List Named × Bool :=
  (s.label, s.size, s.freeinode, s.sb, s.bootable, s.bootinode, s.kerninode, s.dirs, s.files, s.closed)

def SameHead (d d' : Dinode) : Prop := d' = { d with addrs := d'.addrs }

theorem SameHead.type (h : SameHead d d') : d'.type = d.type := by rw [h]

theorem SameHead.nlink (h : SameHead d d') : d'.nlink = d.nlink := by rw [h]

theorem SameHead.trans {d''} (h : SameHead d d') (h' : SameHead d' d'') : SameHead d d'' := by
  rw [SameHead, h', h]

structure Part (s : Fs) (U : Nat) (V : Nat → Dinode) (i : Nat) (s' : Fs) (U' : Nat) (din : Dinode) : Prop where
  base : Base s' U' (Function.update V i din)
  frame : s'.frame = s.frame
  head : SameHead (V i) din
  low : ∀ b < s.sb.metaEnd, s'.image b = s.image b

theorem frame_sb (h : s'.frame = s.frame) : s'.sb = s.sb := congrArg (·.2.2.2.1) h

theorem frame_size (h : s'.frame = s.frame) : s'.size = s.size := congrArg (·.2.1) h

section

variable {i k j : Nat}

theorem exec_fetchIndirect (h : Base s U V) (hi : i < cap s.sb) (hk : k < 12) :
    (s.table V (.ind i k) = 0 ∧ s.size ≤ U ∧ ∃ msg, (fetchIndirect (V i) k).exec s = .panic msg) ∨
      ∃ din s1 U1, (fetchIndirect (V i) k).exec s = .ok din s1 ∧ Part s U V i s1 U1 din ∧ din.addr k ≠ 0 ∧
        s1.image = s.image ∧ U1 = U + (if s.table V (.ind i k) = 0 then 1 else 0) ∧
        ∀ q, q ≠ .ind i k → s1.table (update V i din) q = s.table V q := by
  have hind : s.table V (.ind i k) = ((V i).addr k).toNat := blockAt_ind hi k
  by_cases h0 : (V i).addr k = 0
  · have hz : s.table V (.ind i k) = 0 := by rw [hind, h0]; rfl
    have hp : (fetchIndirect (V i) k).exec s =
      (balloc.exec s).bind fun b s => .ok ((V i).setAddr k (UInt32.ofNat b)) s := by
      rw [fetchIndirect, if_pos h0, exec_map]
    by_cases hU : U < s.size
    · refine .inr ⟨(V i).setAddr k (UInt32.ofNat U), s.mark U, U + 1, ?_, ?_⟩
      · rw [hp, h.balloc, if_pos hU, ok_bind]
      obtain ⟨hb, htab⟩ := h.grantInd hi hk h0 hU
      refine ⟨⟨hb, rfl, rfl, fun _ _ => rfl⟩, ?_, rfl, by rw [if_pos hz], fun q hq => by rw [htab, if_neg hq]⟩
      rw [Dinode.addr_setAddr _ hk]
      intro he
      have hU0 := congrArg UInt32.toNat he
      rw [h.toNat_ofNat hU, UInt32.toNat_zero] at hU0
      have hpos := h.pos
      omega
    · refine .inl ⟨hz, by omega, "mkproto: unable to allocate block. filesystem full", ?_⟩
      rw [hp, h.balloc, if_neg hU, panic_bind]
  · have hz : s.table V (.ind i k) ≠ 0 := by rw [hind]; exact toNat_ne_zero h0
    refine .inr ⟨V i, s, U, ?_, ⟨?_, rfl, rfl, fun _ _ => rfl⟩, h0, rfl, by rw [if_neg hz]; rfl,
      fun q _ => by rw [update_eq_self]⟩
    · rw [fetchIndirect, if_neg h0, exec_pure]
    · rw [update_eq_self]; exact h

theorem exec_fetchData (h : Base s U V) (hi : i < cap s.sb) (hj : j < 128) (hk : (V i).addr k ≠ 0) :
    (s.table V (.dat i k j) = 0 ∧ s.size ≤ U ∧ ∃ msg, (fetchData ((V i).addr k).toNat j).exec s = .panic msg) ∨
      ∃ b s1 U1, (fetchData ((V i).addr k).toNat j).exec s = .ok b s1 ∧ Base s1 U1 V ∧ s1.frame = s.frame ∧
        b = s1.table V (.dat i k j) ∧ b ≠ 0 ∧ U1 = U + (if s.table V (.dat i k j) = 0 then 1 else 0) ∧
        (s.table V (.dat i k j) ≠ 0 → s1 = s) ∧ (∀ q, q ≠ .dat i k j → s1.table V q = s.table V q) ∧
        ∀ c, c ≠ ((V i).addr k).toNat → s1.image c = s.image c := by
  have hind : s.table V (.ind i k) = ((V i).addr k).toNat := blockAt_ind hi k
  have hdat : s.table V (.dat i k j) = ((s.image ((V i).addr k).toNat).u32 (4 * j)).toNat := blockAt_dat hi hk j
  have halt : ((V i).addr k).toNat < s.size := by
    rw [← hind]
    exact h.lt (by rw [hind]; exact toNat_ne_zero hk)
  have hread := h.rsect halt
  by_cases h0 : (s.image ((V i).addr k).toNat).u32 (4 * j) = 0
  · have hz : s.table V (.dat i k j) = 0 := by rw [hdat, h0]; rfl
    obtain hU | hU := Nat.lt_or_ge U s.size
    · obtain ⟨hb, htab⟩ := h.grantDat hi hj hk h0 hU
      have hself : ((s.image ((V i).addr k).toNat).setU32 (4 * j) (UInt32.ofNat U)).u32 (4 * j) = UInt32.ofNat U :=
        Bytes.u32_setU32 _ _ (by omega)
      refine .inr ⟨U, _, U + 1, ?_, hb, rfl, ?_, Nat.pos_iff_ne_zero.mp h.pos, by rw [if_pos hz],
        fun hn => absurd hz hn, fun q hq => by rw [htab, if_neg hq], fun c hc => ?_⟩
      · rw [fetchData, exec_bind, hread, ok_bind, if_pos h0, exec_bind, h.balloc, if_pos hU, ok_bind,
          exec_bind, exec_wsect (s := s.mark U) h.isOpen, ok_bind, exec_pure, hself, h.toNat_ofNat hU]
      · rw [htab, if_pos rfl]
      have hlt : ((V i).addr k).toNat < 2 ^ 23 := Nat.lt_of_lt_of_le halt h.small
      rw [Fs.write_image hlt, update_of_ne hc]
      rfl
    · refine .inl ⟨hz, hU, "mkproto: unable to allocate block. filesystem full", ?_⟩
      rw [fetchData, exec_bind, hread, ok_bind, if_pos h0, exec_bind, h.balloc, if_neg (Nat.not_lt.mpr hU), panic_bind]
  · have hz : s.table V (.dat i k j) ≠ 0 := by rw [hdat]; exact toNat_ne_zero h0
    refine .inr ⟨_, s, U, ?_, h, rfl, hdat.symm, toNat_ne_zero h0, by rw [if_neg hz]; rfl, fun _ => rfl,
      fun _ _ => rfl, fun _ _ => rfl⟩
    rw [fetchData, exec_bind, hread, ok_bind, if_neg h0, exec_pure]

structure Exact (T : Place → Nat) (i len : Nat) : Prop where
  ind : ∀ k, T (.ind i k) ≠ 0 ↔ k * 65536 < len
  dat : ∀ k j, j < 128 → (T (.dat i k j) ≠ 0 ↔ k * 65536 + j * 512 < len)

def more (off : Nat) : Nat := (if off % 65536 = 0 then 1 else 0) + if off % 512 = 0 then 1 else 0

def need (len : Nat) : Nat := (len + 511) / 512 + (len + 65535) / 65536

variable {off m : Nat}

theorem need_add (hm : 0 < m) (hroom : off % 512 + m ≤ 512) : need (off + m) = need off + more off := by
  simp only [need, more]
  split <;> split <;> omega

theorem Exact.other {T T' i' len} (h : Exact T i' len) (hne : i' ≠ i)
    (hT : ∀ q, q ≠ .ind i k → q ≠ .dat i k j → T' q = T q) : Exact T' i' len := by
  refine ⟨fun k' => ?_, fun k' j' hj => ?_⟩
  · rw [hT _ (by simp [hne]) (by simp)]; exact h.ind k'
  · rw [hT _ (by simp) (by simp [hne])]; exact h.dat k' j' hj

theorem Exact.grow {T T'} (h : Exact T i off) (hm : 0 < m) (hroom : off % 512 + m ≤ 512)
    (hT : ∀ q, q ≠ .ind i (off / 65536) → q ≠ .ofByte i off → T' q = T q) (hind : T' (.ind i (off / 65536)) ≠ 0)
    (hdat : T' (.ofByte i off) ≠ 0) : Exact T' i (off + m) := by
  refine ⟨fun k => ?_, fun k j hj => ?_⟩
  · by_cases hk : k = off / 65536
    · subst hk; exact iff_of_true hind (by omega)
    · rw [hT _ (by simp [hk]) (by simp [Place.ofByte]), h.ind]; omega
  by_cases hkj : k = off / 65536 ∧ j = off / 512 % 128
  · obtain ⟨rfl, rfl⟩ := hkj; exact iff_of_true hdat (by omega)
  · rw [hT _ (by simp) (by simpa [Place.ofByte] using hkj), h.dat k j hj]; omega

theorem exec_appendPiece (h : Base s U V) (hi : i < cap s.sb) (hx : Exact (s.table V) i off)
    (hroom : off % 512 + m ≤ 512) (hmax : off < 786432) (src : Nat → UInt8) :
    (s.size < U + more off ∧ ∃ msg, (appendPiece (V i) off m src).exec s = .panic msg) ∨
      ∃ din s', (appendPiece (V i) off m src).exec s = .ok din s' ∧ Part s U V i s' (U + more off) din ∧
        Written (s.table V) (s'.table (update V i din)) s.image s'.image i off m src ∧
        s'.table (update V i din) (.ind i (off / 65536)) ≠ 0 ∧
        ∀ q, q ≠ .ind i (off / 65536) → q ≠ .ofByte i off → s'.table (update V i din) q = s.table V q := by
  obtain ⟨hk, hj⟩ := index_eq off
  have hk12 : off / 65536 < 12 := by omega
  have hj128 : off / 512 % 128 < 128 := by omega
  have hind0 : s.table V (.ind i (off / 65536)) = 0 ↔ off % 65536 = 0 := by
    rw [← not_iff_not, ← ne_eq, hx.ind]
    omega
  have hdat0 : s.table V (.ofByte i off) = 0 ↔ off % 512 = 0 := by
    rw [← not_iff_not, ← ne_eq, Place.ofByte, hx.dat _ _ hj128]
    omega
  have hrun : appendPiece (V i) off m src = (do
    let din ← fetchIndirect (V i) (off / 65536)
    let raddr ← fetchData (din.addr (off / 65536)).toNat (off / 512 % 128)
    let buf ← rsect raddr
    wsect (buf.blit (off % bsize) m src) raddr
    pure din) := by
    rw [appendPiece]
    dsimp only [offset2real]
    rw [hk, hj, if_neg (by simp only [ndirect]; omega)]
  rw [hrun, exec_bind]
  obtain ⟨hz, hfull, msg, h1⟩ | ⟨din, s1, U1, h1, hp1, ha, himg1, hU1, htab1⟩ := exec_fetchIndirect h hi hk12
  · refine .inl ⟨?_, msg, by rw [h1, panic_bind]⟩
    rw [more, if_pos (hind0.mp hz)]
    omega
  have hsb1 := frame_sb hp1.frame
  have hsize1 := frame_size hp1.frame
  have hW : update V i din i = din := update_self ..
  have hdat1 : s1.table (update V i din) (.ofByte i off) = s.table V (.ofByte i off) := htab1 _ (by simp [Place.ofByte])
  rw [h1, ok_bind, exec_bind]
  have hfetch := exec_fetchData hp1.base (hsb1 ▸ hi) hj128 (k := off / 65536) (by rw [hW]; exact ha)
  rw [hW] at hfetch
  obtain ⟨hz, hfull, msg, h2⟩ | ⟨b, s2, U2, h2, hb2, hf2, hb, hb0, hU2, hsame2, htab2, himg2⟩ := hfetch
  · refine .inl ⟨?_, msg, by rw [h2, panic_bind]⟩
    have h512 := hdat0.mp (hdat1 ▸ hz)
    rw [more, if_pos h512]
    simp only [hind0] at hU1
    omega
  -- the last step overwrites the block
  have hsb2 := frame_sb hf2
  have hbU : s1.sb.metaEnd ≤ b ∧ b < U2 := by
    have hgood := hb2.owned.good (.ofByte i off) (by rw [Place.ofByte, ← hb]; exact hb0)
    rw [Place.ofByte, ← hb, hsb2] at hgood
    exact hgood
  have hblt : b < s2.size := Nat.lt_of_lt_of_le hbU.2 hb2.le
  have hnotind : ∀ i' k', s2.table (update V i din) (.ind i' k') ≠ 0 → s2.table (update V i din) (.ind i' k') ≠ b := by
    intro i' k' hne he
    have := hb2.owned.once _ (.dat i (off / 65536) (off / 512 % 128)) hne (he.trans hb)
    cases this
  obtain ⟨hb3, htab3, himg3⟩ := hb2.write hbU.2 hnotind ((s2.image b).blit (off % bsize) m src)
  have ha2 : s2.table (update V i din) (.ind i (off / 65536)) = (din.addr (off / 65536)).toNat := by
    have := blockAt_ind (V := update V i din) (C := s2.image) (hsb2 ▸ hsb1 ▸ hi) (off / 65536)
    rwa [hW] at this
  have ha0 : s2.table (update V i din) (.ind i (off / 65536)) ≠ 0 := by
    rw [ha2]
    exact toNat_ne_zero ha
  have hother : ∀ q, q ≠ .ind i (off / 65536) → q ≠ .ofByte i off →
    (s2.write b ((s2.image b).blit (off % bsize) m src)).table (update V i din) q = s.table V q := by
    intro q h1 h2
    rw [htab3, htab2 q h2, htab1 q h1]
  have hb' : b = s2.table (update V i din) (.ofByte i off) := hb
  refine .inr ⟨din, _, ?_, ⟨?_, ?_, hp1.head, fun c hc => ?_⟩, ?_, by rw [htab3]; exact ha0, hother⟩
  · rw [h2, ok_bind, exec_bind, hb2.rsect hblt, ok_bind, exec_bind, exec_wsect hb2.isOpen, ok_bind, exec_pure]
  · have hU3 : U2 = U + more off := by
      have hz1 : s1.table (update V i din) (.dat i (off / 65536) (off / 512 % 128)) = s.table V (.ofByte i off) := hdat1
      rw [hU2, hU1, hz1, more]
      simp only [hind0, hdat0, Nat.add_assoc]
    rw [← hU3]
    exact hb3
  · exact hf2.trans hp1.frame
  · have hac : c ≠ (din.addr (off / 65536)).toNat := by
      have hge := (hb2.owned.good _ ha0).1
      rw [ha2, hsb2, hsb1] at hge
      omega
    rw [himg3, update_of_ne (by rw [hsb1] at hbU; omega), himg2 c hac, himg1]
  constructor
  case once => exact hb3.owned.once
  case kept =>
    intro i' o hne
    by_cases hq : Place.ofByte i' o = Place.ofByte i off
    · rw [hq] at hne ⊢
      have hs2 : s2 = s1 := hsame2 (by rw [← hdat1] at hne; exact hne)
      rw [htab3, hs2, hdat1]
    · exact hother _ (by simp [Place.ofByte]) hq
  case there => rw [htab3, ← hb']; exact hb0
  case others =>
    intro i' o hne hnb
    rw [htab3, ← hb'] at hnb
    have hac : s.table V (.ofByte i' o) ≠ (din.addr (off / 65536)).toNat := by
      intro he
      have hq : Place.ofByte i' o ≠ Place.ofByte i off := by
        intro hq
        rw [hq] at hne hnb
        have hs2 : s2 = s1 := hsame2 (by rw [← hdat1] at hne; exact hne)
        rw [hb', hs2, hdat1] at hnb
        exact hnb rfl
      have hT2 : s2.table (update V i din) (.ofByte i' o) = s.table V (.ofByte i' o) := by
        rw [htab2 _ hq, htab1 _ (by simp [Place.ofByte])]
      have := hb2.owned.once (.ofByte i' o) (.ind i (off / 65536)) (by rw [hT2]; exact hne) (by rw [hT2, he, ha2])
      cases this
    rw [himg3, update_of_ne hnb, himg2 _ hac, himg1]
  case block =>
    refine ⟨s2.image b, ?_, fun hne => ?_⟩
    · rw [htab3, ← hb', himg3, update_self]
    · have hs2 : s2 = s1 := hsame2 (by rw [← hdat1] at hne; exact hne)
      rw [hb', hs2, himg1, hdat1]
  case room => exact hroom

end

end Xv6Vsd.Mkproto
