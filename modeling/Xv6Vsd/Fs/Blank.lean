import Xv6Vsd.Fs.Consistent

/-!
# A small disk without files
-/

namespace Xv6Vsd

def blankDisk (bits : Block) : Disk where
  present := true
  mounted := true
  sb := { size := 30, nblocks := 25, ninodes := 8, nlog := 0, logstart := 2, inodestart := 2, bmapstart := 4 }
  log := { start := 2, size := 0, outstanding := 0, committing := false, lh := [] }
  cache b := if b = 4 then bits else Bytes.zero
  platter b := if b = 4 then bits else Bytes.zero
  busy _ := false

def blank (bits : Block) : Kernel where
  disk _ := blankDisk bits
  icache _ := none
  slots := 0
  stale _ := Dinode.zero
  rootdir := ⟨1, 1⟩
  file _ := none
  proc _ := ⟨-1, false, fun _ => none, none, none, false, [], ""⟩
  singleuser := false
  answers _ := ⟨0, [], false, false⟩
  asked := 0

def metaBits : Block := (List.range 5).foldl Bytes.setBit Bytes.zero

theorem blank_diskIn (bits : Block) {i} (hi : i < 8) :
    diskIn (blankDisk bits).sb (blankDisk bits).cache i = Dinode.zero := by
  have hb : (blankDisk bits).sb.iblock i ≠ 4 := by
    simp only [Superblock.iblock, blankDisk, ipb, bsize]
    omega
  have hz : (blankDisk bits).cache ((blankDisk bits).sb.iblock i) = Bytes.zero := if_neg hb
  rw [diskIn, hz, dinode_zero]

theorem blank_snug {bits V} (hb : ∀ b < 5, bits.testBit b = true) (hV : ∀ i < 8, ∀ k, (V i).addr k = 0) :
    Snug (blankDisk bits).sb V (blankDisk bits).cache := by
  have htable : ∀ p, blockAt 8 V (blankDisk bits).cache p = 0 := blockAt_blank hV
  have hmarked : ∀ b < 5, markedIn (blankDisk bits).sb (blankDisk bits).cache b = true := by
    intro b hlt
    have hbb : (blankDisk bits).sb.bblock b = 4 := by
      simp only [Superblock.bblock, blankDisk, bpb, bsize]
      omega
    have hmod : b % bpb = b := Nat.mod_eq_of_lt (by simp only [bpb, bsize]; omega)
    rw [markedIn, hbb, hmod]
    exact hb b hlt
  have hend : (blankDisk bits).sb.metaEnd = 5 := by simp [Superblock.metaEnd, blankDisk, bpb, bsize]
  refine ⟨by simp [blankDisk, ipb, bsize], ⟨fun b hlt _ => hmarked b (hend ▸ hlt), ?_⟩, ?_⟩
  · exact ⟨fun p hp => absurd (htable p) hp, fun p q hp => absurd (htable p) hp⟩
  · intro i hi k hk; rw [blank_diskIn bits hi, Dinode.addr_zero] at hk; exact absurd rfl hk

theorem blank_consistent {bits} (hb : ∀ b < 5, bits.testBit b = true) : (blank bits).Consistent := by
  refine ⟨fun r ip h => (by cases h), fun dev _ => ?_⟩
  have hview : ∀ i < 8, ∀ k, ((blank bits).view dev i).addr k = 0 := fun i hi k => by
    have hin : (blank bits).view dev i = Dinode.zero.update (diskIn (blankDisk bits).sb (blankDisk bits).cache i) := rfl
    rw [hin, blank_diskIn bits hi]
    exact Dinode.addr_zero k
  refine ⟨⟨blank_snug hb hview, ?_⟩, .inl rfl, fun i ip h => (by cases h), fun i ip h => (by cases h)⟩
  intro i k j _ hne
  exact absurd (blockAt_blank hview _) hne

end Xv6Vsd
