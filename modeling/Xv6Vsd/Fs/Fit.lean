import Xv6Vsd.Fs.Tidy

/-!
# Inodes in memory that fit the disk

`V` are the inodes as they are seen through the inode cache, `C` the blocks.
-/

namespace Xv6Vsd

open Function Nat

def diskIn (sb : Superblock) (C : Nat → Block) (i : Nat) : Dinode := (C (sb.iblock i)).dinode i

def DirBlock (n : Nat) (x : Block) : Prop := ∀ m, x.u16 (16 * m) = 0 ∨ (x.u16 (16 * m)).toNat < n

structure Snug (sb : Superblock) (V : Nat → Dinode) (C : Nat → Block) : Prop where
  room : sb.inodestart + sb.ninodes / ipb + 1 ≤ sb.bmapstart
  tidy : Tidy sb V C
  coherent : ∀ i < sb.ninodes, ∀ k, (diskIn sb C i).addr k ≠ 0 →
    (diskIn sb C i).addr k = (V i).addr k ∧ (diskIn sb C i).type = (V i).type

structure Fit (sb : Superblock) (V : Nat → Dinode) (C : Nat → Block) : Prop extends Snug sb V C where
  dirs : ∀ i k j, (V i).type = tDir → blockAt sb.ninodes V C (.dat i k j) ≠ 0 →
    DirBlock sb.ninodes (C (blockAt sb.ninodes V C (.dat i k j)))

section

variable {sb : Superblock} {V V' : Nat → Dinode} {C C' : Nat → Block} {b : Nat}

@[simp] theorem u16_zero (off : Nat) : (Bytes.zero : Block).u16 off = 0 := by
  simp [Bytes.u16, word16, le]

theorem dirBlock_zero (n : Nat) : DirBlock n Bytes.zero := fun _ => .inl (u16_zero _)

theorem Superblock.metaEnd_pos (sb : Superblock) : 1 ≤ sb.metaEnd := succ_le_succ (zero_le _)

theorem Superblock.bmapstart_le_metaEnd (sb : Superblock) : sb.bmapstart ≤ sb.metaEnd := by
  simp only [Superblock.metaEnd, add_assoc]; exact Nat.le_add_right ..

namespace Snug

variable {i k j : Nat} (h : Snug sb V C)

include h

theorem iblock_lt (hi : i < sb.ninodes) : sb.iblock i < sb.bmapstart := by
  have := h.room
  simp only [Superblock.iblock, ipb, bsize] at *
  omega

theorem inodestart_le : sb.inodestart ≤ sb.bmapstart :=
  le_trans (le_trans (Nat.le_add_right ..) (le_succ _)) h.room

theorem diskIn_congr (hC : ∀ b, b < sb.bmapstart → C' b = C b) (hi : i < sb.ninodes) :
    diskIn sb C' i = diskIn sb C i := by
  rw [diskIn, hC _ (h.iblock_lt hi), diskIn]

theorem indirect_eq (hC : ∀ b, sb.bmapstart ≤ b → C' b = C b) (b : Nat) (hb : Indirect sb.ninodes V b) : C' b = C b :=
  hC b (sb.bmapstart_le_metaEnd.trans (h.tidy.indirect_ge hb))

theorem congr (hC : ∀ b, sb.inodestart ≤ b → C' b = C b) : Snug sb V C' := by
  have hhigh : ∀ b, sb.bmapstart ≤ b → C' b = C b := fun b hb => hC b (h.inodestart_le.trans hb)
  have hdisk : ∀ i, diskIn sb C' i = diskIn sb C i := fun i => by
    have hb : C' (sb.iblock i) = C (sb.iblock i) := hC _ (Nat.le_add_left ..)
    rw [diskIn, hb, diskIn]
  refine ⟨h.room, h.tidy.congr (fun _ _ _ => rfl) (fun b hb _ => hhigh b hb) (h.indirect_eq hhigh), fun i hi k => ?_⟩
  rw [hdisk]
  exact h.coherent i hi k

theorem view_congr (hV : ∀ i < sb.ninodes, V' i = V i) : Snug sb V' C := by
  refine ⟨h.room, h.tidy.congr (fun i hi k => by rw [hV i hi]) (fun _ _ _ => rfl) fun _ _ => rfl, fun i hi k => ?_⟩
  rw [hV i hi]
  exact h.coherent i hi k

theorem write_indirect {x} (hp : blockAt sb.ninodes V C (.dat i k j) = b) (hb : b ≠ 0)
    {c} (hc : Indirect sb.ninodes V c) : update C b x c = C c := by
  subst hp
  have hnot := h.tidy.dat_not_indirect hb
  have hne : c ≠ blockAt sb.ninodes V C (.dat i k j) := fun he => hnot (he ▸ hc)
  exact update_of_ne hne ..

theorem write {x} (hp : blockAt sb.ninodes V C (.dat i k j) = b) (hb : b ≠ 0) : Snug sb V (update C b x) := by
  have hm := sb.bmapstart_le_metaEnd
  have hge : sb.metaEnd ≤ b := by rw [← hp] at hb ⊢; exact (h.tidy.good hb).1
  refine ⟨h.room, h.tidy.congr (fun _ _ _ => rfl) (fun c _ hc => update_of_ne (by omega) ..)
    fun c => h.write_indirect hp hb, fun i' hi' k' => ?_⟩
  rw [h.diskIn_congr (fun c hc => update_of_ne (by omega) ..) hi']
  exact h.coherent i' hi' k'

theorem grantInd (hb : Free sb C b) (h5 : b < fssize) (hi : i < sb.ninodes) (hk : k < 12)
    (h0 : (V i).addr k = 0) : Snug sb (update V i ((V i).setAddr k (UInt32.ofNat b))) (allocIn sb C b) := by
  have hm := sb.bmapstart_le_metaEnd
  have hge := hb.ge
  have hdisk : ∀ j < sb.ninodes, diskIn sb (allocIn sb C b) j = diskIn sb C j := fun j hj =>
    h.diskIn_congr (fun c hc => by
      have : sb.bmapstart ≤ sb.bblock b := Nat.le_add_left ..
      rw [allocIn, update_of_ne (by omega), update_of_ne (by omega)]) hj
  refine ⟨h.room, h.tidy.grantInd hb h5 hi hk h0, fun j hj k' => ?_⟩
  rw [hdisk j hj]
  intro hne
  obtain ⟨h1, h2⟩ := h.coherent j hj k' hne
  by_cases hji : j = i
  · subst hji
    rw [update_self, Dinode.addr_setAddr_of_ne _ (fun he => ?_), h1]
    · exact ⟨rfl, h2⟩
    · exact hne (by rw [h1, he, h0])
  · rw [update_of_ne hji]; exact ⟨h1, h2⟩

theorem grantDat (hb : Free sb C b) (h5 : b < fssize) (hi : i < sb.ninodes) (hj : j < 128) (hk : (V i).addr k ≠ 0) :
    Snug sb V (update (allocIn sb C b) ((V i).addr k).toNat
      ((C ((V i).addr k).toNat).setU32 (4 * j) (UInt32.ofNat b))) := by
  have hm := sb.bmapstart_le_metaEnd
  have hge := hb.ge
  have hgeA := h.tidy.indirect_ge ⟨i, k, hi, hk, rfl⟩
  refine ⟨h.room, h.tidy.grantDat hb h5 hi hj hk, fun i' hi' k' => ?_⟩
  rw [h.diskIn_congr (fun c hc => ?_) hi']
  · exact h.coherent i' hi' k'
  · have : sb.bmapstart ≤ sb.bblock b := Nat.le_add_left ..
    rw [update_of_ne (by omega), allocIn, update_of_ne (by omega), update_of_ne (by omega)]

end Snug

namespace Fit

theorem congr (h : Fit sb V C) (hC : ∀ b, sb.inodestart ≤ b → C' b = C b) : Fit sb V C' := by
  have hhigh : ∀ b, sb.bmapstart ≤ b → C' b = C b := fun b hb => hC b (h.inodestart_le.trans hb)
  refine ⟨h.toSnug.congr hC, ?_⟩
  rw [blockAt_congr (fun _ _ _ => rfl) (h.indirect_eq hhigh)]
  intro i k j ht hp
  rw [hhigh _ (sb.bmapstart_le_metaEnd.trans (h.tidy.good hp).1)]
  exact h.dirs i k j ht hp

theorem view_congr (h : Fit sb V C) (hV : ∀ i < sb.ninodes, V' i = V i) : Fit sb V' C := by
  have htab : blockAt sb.ninodes V' C = blockAt sb.ninodes V C :=
    blockAt_congr (fun i hi k => by rw [hV i hi]) fun _ _ => rfl
  refine ⟨h.toSnug.view_congr hV, fun i k j => ?_⟩
  rw [htab]
  intro ht hp
  rw [hV i (blockAt_dat_ne hp).1] at ht
  exact h.dirs i k j ht hp

variable {i k : Nat}

theorem write (h : Fit sb V C) {j x} (hp : blockAt sb.ninodes V C (.dat i k j) = b) (hb : b ≠ 0)
    (hx : (V i).type = tDir → DirBlock sb.ninodes x) : Fit sb V (update C b x) := by
  refine ⟨h.toSnug.write hp hb, ?_⟩
  rw [blockAt_congr (fun _ _ _ => rfl) fun c => h.write_indirect hp hb]
  intro i' k' j' ht hp'
  by_cases he : blockAt sb.ninodes V C (.dat i' k' j') = b
  · cases h.tidy.owned.once _ _ hp' (he.trans hp.symm); rw [he, update_self]; exact hx ht
  · rw [update_of_ne he]; exact h.dirs i' k' j' ht hp'

theorem grantInd (h : Fit sb V C) (hb : Free sb C b) (h5 : b < fssize) (hi : i < sb.ninodes) (hk : k < 12)
    (h0 : (V i).addr k = 0) : Fit sb (update V i ((V i).setAddr k (UInt32.ofNat b))) (allocIn sb C b) := by
  refine ⟨h.toSnug.grantInd hb h5 hi hk h0, fun j k' m => ?_⟩
  rw [h.tidy.grantInd_table hb h5 hi hk h0, if_neg (by simp)]
  intro ht hp
  rw [h.tidy.allocIn_eq hb hp]
  refine h.dirs j k' m ?_ hp
  by_cases hj : j = i
  · subst hj; simpa [Dinode.setAddr] using ht
  · rwa [update_of_ne hj] at ht

theorem grantDat (h : Fit sb V C) (hb : Free sb C b) (h5 : b < fssize) {j} (hi : i < sb.ninodes) (hj : j < 128)
    (hk : (V i).addr k ≠ 0) :
    Fit sb V (update (allocIn sb C b) ((V i).addr k).toNat
      ((C ((V i).addr k).toNat).setU32 (4 * j) (UInt32.ofNat b))) := by
  have hind : Indirect sb.ninodes V ((V i).addr k).toNat := ⟨i, k, hi, hk, rfl⟩
  refine ⟨h.toSnug.grantDat hb h5 hi hj hk, fun i' k' j' ht => ?_⟩
  rw [h.tidy.grantDat_table hb h5 hi hj hk]
  split
  · have hne : b ≠ ((V i).addr k).toNat := fun he => h.tidy.free_not_indirect hb (he ▸ hind)
    rw [update_of_ne hne, allocIn, update_self]
    exact fun _ => dirBlock_zero _
  intro hp
  have hne : blockAt sb.ninodes V C (.dat i' k' j') ≠ ((V i).addr k).toNat := fun he =>
    h.tidy.dat_not_indirect hp (he ▸ hind)
  rw [update_of_ne hne, h.tidy.allocIn_eq hb hp]
  exact h.dirs i' k' j' ht hp

end Fit

/-! ## Changes of one inode -/

variable {i : Nat} (hV : ∀ j < sb.ninodes, j ≠ i → V' j = V j) (hC : ∀ b, sb.bmapstart ≤ b → C' b = C b)
  (hdisk : ∀ j < sb.ninodes, j ≠ i → diskIn sb C' j = diskIn sb C j)
  (haddr : ∀ k, (V' i).addr k = 0 ∨ (V' i).addr k = (V i).addr k)
  (hco : ∀ k, (diskIn sb C' i).addr k ≠ 0 → (diskIn sb C' i).addr k = (V' i).addr k ∧
    (diskIn sb C' i).type = (V' i).type)
include hV haddr

theorem addr_of_changed {j} (hj : j < sb.ninodes) (k : Nat) : (V' j).addr k = 0 ∨ (V' j).addr k = (V j).addr k := by
  by_cases hji : j = i
  · subst hji; exact haddr k
  · exact .inr (by rw [hV j hj hji])

include hC hdisk hco

theorem Snug.inode (h : Snug sb V C) : Snug sb V' C' := by
  refine ⟨h.room, (h.tidy.congr (fun _ _ _ => rfl) (fun b hb _ => hC b hb) (h.indirect_eq hC)).shrink
    fun j hj => addr_of_changed hV haddr hj, fun j hj k => ?_⟩
  by_cases hji : j = i
  · subst hji; exact hco k
  · rw [hdisk j hj hji, hV j hj hji]; exact h.coherent j hj k

theorem Fit.inode (h : Fit sb V C) (htype : ∀ k, (V' i).addr k ≠ 0 → (V' i).type = tDir → (V i).type = tDir) :
    Fit sb V' C' := by
  refine ⟨h.toSnug.inode hV hC hdisk haddr hco, fun j k m ht hp => ?_⟩
  obtain ⟨hj, hk⟩ := blockAt_dat_ne hp
  have heq := (addr_of_changed hV haddr hj k).resolve_left hk
  have hsame : blockAt sb.ninodes V' C' (.dat j k m) = blockAt sb.ninodes V C (.dat j k m) := by
    rw [heq] at hk
    rw [blockAt_dat hj (heq ▸ hk), blockAt_dat hj hk, heq, h.indirect_eq hC _ ⟨j, k, hj, hk, rfl⟩]
  rw [hsame] at hp ⊢
  rw [hC _ (sb.bmapstart_le_metaEnd.trans (h.tidy.good hp).1)]
  refine h.dirs j k m ?_ hp
  by_cases hji : j = i
  · subst hji; exact htype k hk ht
  · rwa [← hV j hj hji]

end

end Xv6Vsd
