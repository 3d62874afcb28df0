import Xv6Vsd.Fs.Lemmas.Alloc
import Xv6Vsd.Lib.Owner

/-!
# The blocks that inodes own

The table is stated for inodes `V` and blocks `C`, so that it does not matter whether an inode is
looked at in the cache or on the disk.
-/

namespace Xv6Vsd

open Function

/-- Where the number of a block can stand: in pointer `k` of an inode, or in pointer `j` of the
indirect block that pointer `k` leads to. -/
inductive Place where
  | ind (inum k : Nat)
  | dat (inum k j : Nat)
  deriving DecidableEq

def blockAt (n : Nat) (V : Nat → Dinode) (C : Nat → Block) : Place → Nat
  | .ind i k => if i < n then ((V i).addr k).toNat else 0
  | .dat i k j => if i < n ∧ (V i).addr k ≠ 0 then ((C ((V i).addr k).toNat).u32 (4 * j)).toNat else 0

def Indirect (n : Nat) (V : Nat → Dinode) (b : Nat) : Prop := ∃ i k, i < n ∧ (V i).addr k ≠ 0 ∧ ((V i).addr k).toNat = b

def markedIn (sb : Superblock) (C : Nat → Block) (b : Nat) : Bool := (C (sb.bblock b)).testBit (b % bpb)

def allocIn (sb : Superblock) (C : Nat → Block) (b : Nat) : Nat → Block :=
  update (update C (sb.bblock b) ((C (sb.bblock b)).setBit (b % bpb))) b Bytes.zero

/-- Every block number that an inode or one of its indirect blocks holds is that of a marked data
block and stands at one place; the blocks before the data are marked. -/
structure Tidy (sb : Superblock) (V : Nat → Dinode) (C : Nat → Block) : Prop where
  marked : ∀ b < sb.metaEnd, b < sb.size → markedIn sb C b = true
  owned : Owned (blockAt sb.ninodes V C) fun b => sb.metaEnd ≤ b ∧ b < sb.size ∧ markedIn sb C b = true

structure Free (sb : Superblock) (C : Nat → Block) (b : Nat) : Prop where
  ge : sb.metaEnd ≤ b
  lt : b < sb.size
  unmarked : markedIn sb C b = false

section

variable {sb : Superblock} {V V' : Nat → Dinode} {C C' : Nat → Block} {b c n : Nat}

theorem toNat_ne_zero {x : UInt32} (h : x ≠ 0) : x.toNat ≠ 0 := fun hc => h (UInt32.toNat_inj.mp (by simpa using hc))

theorem Free.ne_zero (h : Free sb C b) : b ≠ 0 := Nat.pos_iff_ne_zero.mp (Nat.lt_of_lt_of_le (Nat.succ_pos _) h.ge)

theorem Free.bblock_ne (h : Free sb C b) (hc : c < sb.size) : sb.bblock c ≠ b :=
  Nat.ne_of_lt (Nat.lt_of_lt_of_le (sb.bblock_lt hc) h.ge)

/-! ## What the table and the bitmap depend on -/

theorem markedIn_congr (h : ∀ b, sb.bmapstart ≤ b → b < sb.metaEnd → C' b = C b) (hb : b < sb.size) :
    markedIn sb C' b = markedIn sb C b := by
  have hbb : C' (sb.bblock b) = C (sb.bblock b) := h _ (Nat.le_add_left ..) (sb.bblock_lt hb)
  rw [markedIn, hbb, markedIn]

theorem markedIn_allocIn (h : Free sb C b) (hc : c < sb.size) :
    markedIn sb (allocIn sb C b) c = (decide (b = c) || markedIn sb C c) := Disk.testBit_alloc (h.bblock_ne hc)

theorem blockAt_congr (hV : ∀ i < n, ∀ k, (V' i).addr k = (V i).addr k)
    (hC : ∀ b, Indirect n V b → C' b = C b) : blockAt n V' C' = blockAt n V C := by
  funext p
  cases p with
  | ind i k =>
    by_cases hi : i < n
    · simp [blockAt, hi, hV i hi k]
    · simp [blockAt, hi]
  | dat i k j =>
    by_cases hi : i < n
    · by_cases hk : (V i).addr k = 0
      · simp [blockAt, hi, hV i hi k, hk]
      · simp [blockAt, hi, hV i hi k, hk, hC _ ⟨i, k, hi, hk, rfl⟩]
    · simp [blockAt, hi]

variable {i k : Nat}

theorem blockAt_ind (hi : i < n) (k : Nat) : blockAt n V C (.ind i k) = ((V i).addr k).toNat := by
  simp [blockAt, hi]

theorem blockAt_dat (hi : i < n) (hk : (V i).addr k ≠ 0) (j : Nat) :
    blockAt n V C (.dat i k j) = ((C ((V i).addr k).toNat).u32 (4 * j)).toNat := by
  simp [blockAt, hi, hk]

theorem blockAt_dat_zero (hk : (V i).addr k = 0) (j : Nat) : blockAt n V C (.dat i k j) = 0 := by
  simp [blockAt, hk]

theorem blockAt_dat_ne {j} (h : blockAt n V C (.dat i k j) ≠ 0) : i < n ∧ (V i).addr k ≠ 0 := by
  by_contra hc
  exact h (if_neg hc)

theorem blockAt_blank (hV : ∀ i < n, ∀ k, (V i).addr k = 0) (p : Place) : blockAt n V C p = 0 := by
  cases p with
  | ind i k | dat i k j =>
    by_cases hi : i < n
    · simp [blockAt, hV i hi]
    · simp [blockAt, hi]

theorem blockAt_setAddr {v} (hi : i < n) (hk : k < 12) (h0 : (V i).addr k = 0) (hz : C v.toNat = Bytes.zero)
    (q : Place) :
    blockAt n (update V i ((V i).setAddr k v)) C q = if q = .ind i k then v.toNat else blockAt n V C q := by
  cases q with
  | ind i' k' =>
    by_cases hii : i' = i
    · subst hii
      by_cases hkk : k' = k
      · subst hkk; simp [blockAt, hi, Dinode.addr_setAddr _ hk]
      · simp [blockAt, hi, Dinode.addr_setAddr_of_ne _ hkk, hkk]
    · simp [blockAt, hii]
  | dat i' k' j =>
    by_cases hii : i' = i
    · subst hii
      by_cases hkk : k' = k
      · subst hkk; simp [blockAt, hi, h0, Dinode.addr_setAddr _ hk, hz]
      · simp [blockAt, hi, Dinode.addr_setAddr_of_ne _ hkk]
    · simp [blockAt, update_of_ne hii]

theorem Owned.ind_inj {good : Nat → Prop} (h : Owned (blockAt n V C) good) {i' k' : Nat} (hi : i < n) (hi' : i' < n)
    (hk : (V i).addr k ≠ 0) (he : ((V i').addr k').toNat = ((V i).addr k).toNat) : i' = i ∧ k' = k := by
  have hne := toNat_ne_zero hk
  rw [← blockAt_ind (C := C) hi] at hne he
  rw [← blockAt_ind (C := C) hi'] at he
  cases h.once _ _ hne he.symm
  exact ⟨rfl, rfl⟩

theorem blockAt_setU32 {good} (h : Owned (blockAt n V C) good) {j v} (hi : i < n)
    (hj : j < 128) (hk : (V i).addr k ≠ 0) (q : Place) :
    blockAt n V (update C ((V i).addr k).toNat ((C ((V i).addr k).toNat).setU32 (4 * j) v)) q =
      if q = .dat i k j then v.toNat else blockAt n V C q := by
  cases q with
  | ind i' k' => simp [blockAt]
  | dat i' k' j' =>
    by_cases hp : i' < n ∧ (V i').addr k' ≠ 0
    · rw [blockAt_dat hp.1 hp.2, blockAt_dat hp.1 hp.2]
      by_cases he : ((V i').addr k').toNat = ((V i).addr k).toNat
      · obtain ⟨rfl, rfl⟩ := h.ind_inj hi hp.1 hk he
        rw [update_self]
        by_cases hjj : j' = j
        · subst hjj; rw [Bytes.u32_setU32 _ _ (by omega)]; simp
        · rw [Bytes.u32_setU32_ne _ _ (by omega)]; simp [hjj]
      · have hne : ¬ (Place.dat i' k' j' = .dat i k j) := by rintro ⟨⟩; exact he rfl
        rw [update_of_ne he, if_neg hne]
    · have hne : ¬ (Place.dat i' k' j' = .dat i k j) := by rintro ⟨⟩; exact hp ⟨hi, hk⟩
      rw [if_neg hne]
      simp only [blockAt, hp, ↓reduceIte]

namespace Tidy

variable {p : Place} {i k j : Nat} (h : Tidy sb V C)

include h

theorem good (hp : blockAt sb.ninodes V C p ≠ 0) :
    sb.metaEnd ≤ blockAt sb.ninodes V C p ∧ blockAt sb.ninodes V C p < sb.size ∧
      markedIn sb C (blockAt sb.ninodes V C p) = true := h.owned.good p hp

theorem indirect_ge (hb : Indirect sb.ninodes V b) : sb.metaEnd ≤ b := by
  obtain ⟨i, k, hi, hk, rfl⟩ := hb
  have hne := toNat_ne_zero hk
  rw [← blockAt_ind (C := C) hi] at hne ⊢
  exact (h.good hne).1

variable (hb : Free sb C b)

include hb

theorem free_nowhere (p : Place) : blockAt sb.ninodes V C p ≠ b := by
  rintro rfl
  have := (h.good hb.ne_zero).2.2
  simp [hb.unmarked] at this

theorem free_not_indirect : ¬ Indirect sb.ninodes V b := by
  rintro ⟨i, k, hi, hk, he⟩; exact h.free_nowhere hb (.ind i k) (by rw [blockAt_ind hi, he])

omit hb in
theorem dat_not_indirect (hp : blockAt sb.ninodes V C (.dat i k j) ≠ 0) :
    ¬ Indirect sb.ninodes V (blockAt sb.ninodes V C (.dat i k j)) := by
  rintro ⟨i', k', hi, hk, he⟩
  have := h.owned.once (.dat i k j) (.ind i' k') hp (by rw [blockAt_ind hi, he])
  cases this

/-! ## How it is kept -/

omit hb in
theorem congr (hV : ∀ i < sb.ninodes, ∀ k, (V' i).addr k = (V i).addr k)
    (hbm : ∀ b, sb.bmapstart ≤ b → b < sb.metaEnd → C' b = C b)
    (hC : ∀ b, Indirect sb.ninodes V b → C' b = C b) : Tidy sb V' C' := by
  refine ⟨fun b hb hs => by rw [markedIn_congr hbm hs, h.marked b hb hs], ?_⟩
  rw [blockAt_congr hV hC]
  refine h.owned.mono fun p hp => ?_
  obtain ⟨h1, h2, h3⟩ := h.good hp
  exact ⟨h1, h2, by rw [markedIn_congr hbm h2, h3]⟩

omit hb in
theorem shrink (hV : ∀ i < sb.ninodes, ∀ k, (V' i).addr k = 0 ∨ (V' i).addr k = (V i).addr k) : Tidy sb V' C := by
  refine ⟨h.marked, h.owned.sub fun p => ?_⟩
  cases p with
  | ind i k | dat i k j =>
    by_cases hi : i < sb.ninodes
    · rcases hV i hi k with he | he <;> simp [blockAt, hi, he]
    · simp [blockAt, hi]

theorem alloc_table : blockAt sb.ninodes V (allocIn sb C b) = blockAt sb.ninodes V C := by
  refine blockAt_congr (fun _ _ _ => rfl) fun c hc => ?_
  have hge := h.indirect_ge hc
  have hlt := sb.bblock_lt hb.lt
  have hne : c ≠ b := fun he => h.free_not_indirect hb (he ▸ hc)
  rw [allocIn, update_of_ne hne, update_of_ne (by omega)]

theorem alloc : Tidy sb V (allocIn sb C b) := by
  have hmark : ∀ c < sb.size, markedIn sb C c = true → markedIn sb (allocIn sb C b) c = true :=
    fun c hc hm => by rw [markedIn_allocIn hb hc, hm, Bool.or_true]
  refine ⟨fun c hc hs => hmark c hs (h.marked c hc hs), ?_⟩
  rw [h.alloc_table hb]
  refine h.owned.mono fun p hp => ?_
  obtain ⟨h1, h2, h3⟩ := h.good hp
  exact ⟨h1, h2, hmark _ h2 h3⟩

theorem grant (hbm : ∀ c, sb.bmapstart ≤ c → c < sb.metaEnd → C' c = allocIn sb C b c)
    (htab : ∀ q, blockAt sb.ninodes V' C' q = if q = p then b else blockAt sb.ninodes V C q) : Tidy sb V' C' := by
  have ha := h.alloc hb
  have hmark : ∀ c < sb.size, markedIn sb C' c = markedIn sb (allocIn sb C b) c := fun c hc => markedIn_congr hbm hc
  refine ⟨fun c hc hs => by rw [hmark c hs, ha.marked c hc hs], ?_⟩
  have howned : Owned (blockAt sb.ninodes V C) fun c => sb.metaEnd ≤ c ∧ c < sb.size ∧ markedIn sb C' c = true :=
    h.owned.mono fun q hq => by
      obtain ⟨h1, h2, h3⟩ := h.good hq
      exact ⟨h1, h2, by rw [hmark _ h2, markedIn_allocIn hb h2, h3, Bool.or_true]⟩
  refine howned.grant ⟨hb.ge, hb.lt, ?_⟩ (h.free_nowhere hb) htab
  rw [hmark _ hb.lt, markedIn_allocIn hb hb.lt]
  simp

/-! ## Inodes get blocks -/

theorem allocIn_eq (hp : blockAt sb.ninodes V C p ≠ 0) :
    allocIn sb C b (blockAt sb.ninodes V C p) = C (blockAt sb.ninodes V C p) := by
  have hge := (h.good hp).1
  have hlt := sb.bblock_lt hb.lt
  rw [allocIn, update_of_ne (h.free_nowhere hb p), update_of_ne (by omega)]

theorem grantInd_table (h5 : b < fssize) (hi : i < sb.ninodes) (hk : k < 12) (h0 : (V i).addr k = 0) (q : Place) :
    blockAt sb.ninodes (update V i ((V i).setAddr k (UInt32.ofNat b))) (allocIn sb C b) q =
      if q = .ind i k then b else blockAt sb.ninodes V C q := by
  have hzero : allocIn sb C b (UInt32.ofNat b).toNat = Bytes.zero := by
    rw [toNat_ofNat h5]
    exact update_self ..
  rw [← h.alloc_table hb, blockAt_setAddr hi hk h0 hzero, toNat_ofNat h5]

theorem grantInd (h5 : b < fssize) (hi : i < sb.ninodes) (hk : k < 12)
    (h0 : (V i).addr k = 0) : Tidy sb (update V i ((V i).setAddr k (UInt32.ofNat b))) (allocIn sb C b) :=
  h.grant hb (fun _ _ _ => rfl) (h.grantInd_table hb h5 hi hk h0)

theorem grantDat_table (h5 : b < fssize) (hi : i < sb.ninodes) (hj : j < 128) (hk : (V i).addr k ≠ 0) (q : Place) :
    blockAt sb.ninodes V (update (allocIn sb C b) ((V i).addr k).toNat
      ((C ((V i).addr k).toNat).setU32 (4 * j) (UInt32.ofNat b))) q =
      if q = .dat i k j then b else blockAt sb.ninodes V C q := by
  have hA : allocIn sb C b ((V i).addr k).toNat = C ((V i).addr k).toNat := by
    have hne := toNat_ne_zero hk
    rw [← blockAt_ind (C := C) hi] at hne ⊢
    exact h.allocIn_eq hb hne
  rw [← h.alloc_table hb, ← hA, blockAt_setU32 (h.alloc hb).owned hi hj hk, toNat_ofNat h5]

theorem grantDat (h5 : b < fssize) (hi : i < sb.ninodes) (hj : j < 128) (hk : (V i).addr k ≠ 0) :
    Tidy sb V (update (allocIn sb C b) ((V i).addr k).toNat
      ((C ((V i).addr k).toNat).setU32 (4 * j) (UInt32.ofNat b))) := by
  refine h.grant hb (fun c _ hc => ?_) (h.grantDat_table hb h5 hi hj hk)
  have hge := h.indirect_ge ⟨i, k, hi, hk, rfl⟩
  rw [update_of_ne (by omega)]

end Tidy

end

end Xv6Vsd
