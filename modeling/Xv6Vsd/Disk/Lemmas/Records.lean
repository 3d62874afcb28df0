import Xv6Vsd.Disk.Layout

/-!
# Records inside blocks are read back as they were written
-/

namespace Xv6Vsd

/-! ## The disk inode -/

namespace Dinode

theorem dec_congr {f g} (h : ∀ i < 64, f i = g i) : dec f = dec g := by
  have h16 : ∀ off, off + 2 ≤ 64 → word16 (fun i => f (off + i)) = word16 fun i => g (off + i) :=
    fun off ho => word16_congr fun i hi => h _ (by omega)
  have h32 : ∀ off, off + 4 ≤ 64 → word32 (fun i => f (off + i)) = word32 fun i => g (off + i) :=
    fun off ho => word32_congr fun i hi => h _ (by omega)
  have h0 : word16 f = word16 g := word16_congr fun i hi => h i (by omega)
  simp only [dec, h0, h16 2 (by omega), h16 4 (by omega), h16 6 (by omega), h16 10 (by omega),
    h32 12 (by omega), h 8 (by omega), h 9 (by omega), mk.injEq, true_and]
  funext k
  exact h32 _ (by have := k.2; simp only [ndirect] at this; omega)

theorem word16_enc {d : Dinode} {off : Nat} {v : Int16} (h : ∀ i < 2, d.enc (off + i) = byteAt v.toUInt16.toNat i) :
    (word16 fun i => d.enc (off + i)).toInt16 = v := by
  rw [word16_congr h, word16_byteAt]
  rfl

theorem dec_enc (d : Dinode) : dec d.enc = d := by
  have ht : (word16 d.enc).toInt16 = d.type := by
    rw [word16_congr fun i hi => show d.enc i = byteAt d.type.toUInt16.toNat i by simp [enc, hi], word16_byteAt]
    rfl
  have hmajor : (word16 fun i => d.enc (2 + i)).toInt16 = d.major := word16_enc fun i hi => by
    simp (disch := omega) [enc, if_pos, if_neg]
  have hminor : (word16 fun i => d.enc (4 + i)).toInt16 = d.minor := word16_enc fun i hi => by
    simp (disch := omega) [enc, if_pos, if_neg]
  have howner : (word16 fun i => d.enc (6 + i)).toInt16 = d.owner := word16_enc fun i hi => by
    simp (disch := omega) [enc, if_pos, if_neg]
  have hnlink : (word16 fun i => d.enc (10 + i)).toInt16 = d.nlink := word16_enc fun i hi => by
    simp (disch := omega) [enc, if_pos, if_neg]
  have hsize : (word32 fun i => d.enc (12 + i)) = d.size := (word32_congr fun i hi => by
    simp (disch := omega) [enc, if_pos, if_neg]).trans (word32_byteAt d.size)
  have haddrs : ∀ k : Fin ndirect, (word32 fun i => d.enc (16 + 4 * k.1 + i)) = d.addrs k := by
    intro k
    refine (word32_congr fun i hi => ?_).trans (word32_byteAt (d.addrs k))
    have h1 : (16 + 4 * k.1 + i - 16) / 4 = k.1 := by omega
    have h2 : (16 + 4 * k.1 + i - 16) % 4 = i := by omega
    simp (disch := omega) only [enc, if_neg, h1, h2, addr, k.2, ↓reduceDIte]
  have hperms : d.enc 8 = d.perms := by simp [enc]
  have hattrib : d.enc 9 = d.attrib := by simp [enc]
  simp only [dec, ht, hmajor, hminor, howner, hnlink, hsize, haddrs, hperms, hattrib]

end Dinode

@[simp] theorem dinode_setDinode (b : Block) (inum : Nat) (d : Dinode) : (b.setDinode inum d).dinode inum = d := by
  refine Eq.trans (Dinode.dec_congr fun i hi => ?_) d.dec_enc
  exact Bytes.get_blit_in b _ hi (by simp only [ipb, bsize]; omega)

theorem dinode_setDinode_of_ne (b : Block) {i j} (d : Dinode) (h : j % 8 ≠ i % 8) :
    (b.setDinode i d).dinode j = b.dinode j := by
  refine Dinode.dec_congr fun k hk => ?_
  exact Bytes.get_blit_out b _ (by simp only [ipb, bsize]; omega)

theorem dinode_zero (i : Nat) : (Bytes.zero : Block).dinode i = Dinode.zero := by
  simp [Bytes.dinode, Dinode.dec, Dinode.zero, word16, word32, le]

/-! ## The header of the log -/

variable {lh : List UInt32}

theorem headerBytes_word (i : Nat) : word32 (fun j => headerBytes lh (4 + 4 * i + j)) = lh.getD i 0 := by
  refine Eq.trans (word32_congr fun j hj => ?_) (word32_byteAt _)
  have h1 : ¬ 4 + 4 * i + j < 4 := by omega
  have h2 : (4 + 4 * i + j - 4) / 4 = i := by omega
  have h3 : (4 + 4 * i + j - 4) % 4 = j := by omega
  simp only [headerBytes, h1, ↓reduceIte, h2, h3]

theorem u32_setHeader_zero (b : Block) (h : lh.length ≤ 30) : (b.setHeader lh).u32 0 = UInt32.ofNat lh.length := by
  have hl : lh.length % 256 ^ 4 = lh.length := Nat.mod_eq_of_lt (by omega)
  rw [← hl, ← le_byteAt]
  refine word32_congr fun i hi => ?_
  rw [Bytes.setHeader, Bytes.get_blit_in b _ (by omega) (by omega)]
  simp [headerBytes, hi]

theorem headerN_setHeader (b : Block) (h : lh.length ≤ 30) : (b.setHeader lh).headerN = lh.length := by
  rw [Bytes.headerN, u32_setHeader_zero b h]
  have hbv : (UInt32.ofNat lh.length).toInt32.toInt = (BitVec.ofNat 32 lh.length).toInt := rfl
  have hn : (BitVec.ofNat 32 lh.length).toNat = lh.length := by
    rw [BitVec.toNat_ofNat]; exact Nat.mod_eq_of_lt (by omega)
  rw [hbv, BitVec.toInt_eq_toNat_of_lt (by omega), hn]

theorem u32_setHeader_block (b : Block) (h : lh.length ≤ 30) {i} (hi : i < lh.length) :
    (b.setHeader lh).u32 (4 + 4 * i) = lh.getD i 0 := by
  rw [← headerBytes_word i]
  refine word32_congr fun j hj => ?_
  have hin : (b.setHeader lh).get (0 + (4 + 4 * i + j)) = headerBytes lh (4 + 4 * i + j) :=
    Bytes.get_blit_in b _ (by omega) (by omega)
  rwa [Nat.zero_add] at hin

theorem header_setHeader (b : Block) (h : lh.length ≤ 30) : (b.setHeader lh).header = lh := by
  rw [Bytes.header, headerN_setHeader b h, Int.toNat_natCast]
  refine List.ext_getElem (by simp) fun i h1 h2 => ?_
  have hi : i < lh.length := by simpa using h1
  simp only [List.getElem_map, List.getElem_range]
  rw [u32_setHeader_block b h hi, List.getD_eq_getElem _ _ hi]

theorem header_eq_nil {b : Block} (h : b.headerN = 0) : b.header = [] := by simp [Bytes.header, h]

end Xv6Vsd
