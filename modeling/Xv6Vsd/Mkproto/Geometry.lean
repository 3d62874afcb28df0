import Xv6Vsd.Mkproto.Bitmap

/-! # The regions of the image -/

namespace Xv6Vsd.Mkproto

open Prog

def liblock (i : Nat) (sb : Superblock) : Nat := i / ipb + sb.inodestart

def nmeta (size nlog ninodes : Nat) : Nat := 2 + nlog + (ninodes / ipb + 1) + (size / (bsize * 8) + 1)

structure Consecutive (sb : Superblock) (size n : Nat) : Prop where
  log : sb.logstart = 2
  inodes : sb.inodestart = sb.logstart + sb.nlog
  bitmap : sb.inodestart < sb.bmapstart ∧ sb.bmapstart < n
  data : n + sb.nblocks = size ∧ sb.size = size
  iblock : ∀ i < sb.ninodes, sb.inodestart ≤ sb.iblock i ∧ sb.iblock i < sb.bmapstart ∧ 64 * (i % ipb) + 64 ≤ bsize ∧
    ∀ j, sb.iblock j = sb.iblock i → j % ipb = i % ipb → j = i
  bblock : ∀ b < size, sb.bmapstart ≤ sb.bblock b ∧ sb.bblock b < n ∧ ∀ c, sb.bblock c = sb.bblock b → c % bpb =
    b % bpb → c = b
  tool : ∀ i, liblock i sb = sb.iblock i

theorem layout_consecutive {size nlog ninodes} (h : nmeta size nlog ninodes ≤ size) :
    Consecutive (layout size nlog ninodes) size (nmeta size nlog ninodes) := by
  simp only [nmeta, ipb, bsize] at h
  constructor
  case log | inodes | tool => simp [layout, liblock, Superblock.iblock]
  case bitmap =>
    simp only [layout, nmeta, ipb, bsize]
    constructor <;> omega
  case data =>
    refine ⟨?_, rfl⟩
    simp only [layout, nmeta, ipb, bsize]
    omega
  case iblock =>
    intro i hi
    simp only [layout, Superblock.iblock, ipb, bsize] at hi ⊢
    exact ⟨by omega, by omega, by omega, fun j _ _ => by omega⟩
  case bblock =>
    intro b hb
    simp only [layout, nmeta, Superblock.bblock, ipb, bpb, bsize]
    exact ⟨by omega, by omega, fun c _ _ => by omega⟩

-- the numbers are those of the source as long as they are below 2^31, where `int` ends
/-- The regions are in order, and `makefs` reserves the blocks of the metadata and no others. -/
theorem makefs_layout {size nlog : Nat} (h : nmeta size nlog (size / 10) ≤ size) :
    Consecutive (layout size nlog (size / 10)) size (nmeta size nlog (size / 10)) ∧
      ∀ label : List UInt8, label.length ≤ 10 → ∃ s, ream.exec (Fs.new label size nlog (size / 10)) = .ok () s ∧
        ∀ b, s.used b = decide (b < nmeta size nlog (size / 10)) := by
  refine ⟨layout_consecutive h, fun label hlabel => ?_⟩
  obtain ⟨s, he, hream⟩ := exec_ream hlabel size nlog (size / 10)
  refine ⟨_, he, fun b => (hream.used b).trans (decide_eq_decide.mpr ?_)⟩
  simp only [Fs.new, layout, Superblock.metaEnd, nmeta, bpb, bsize]
  omega

theorem makefs_layout_20480 : Consecutive (layout 20480 logsize 2048) 20480 295 :=
  (@makefs_layout 20480 logsize (by decide)).1

end Xv6Vsd.Mkproto
