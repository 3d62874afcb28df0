import Xv6Vsd.Fs.Blank
import Xv6Vsd.Fs.Read

/-!
# Raw disks (`bio.c`)

`bdisk_read` and `bdisk_write` get the offset as an `int` and compute with it as with an unsigned number. `bread` comes
back with a buffer that is valid.
-/

namespace Xv6Vsd

open Prog Kernel

/-- The bytes that a request is for lie in one block of the disk. -/
structure InBlock (off n : UInt32) : Prop where
  block : off.toNat / bsize < fssize
  count : 0 ≤ n.toInt32.toInt
  fits : off.toNat % bsize + n.toNat ≤ bsize

/-- A read is refused, or it answers the bytes that it is for and holds no buffer afterwards. -/
def ReadsBlock (s : Kernel) (d : Dinode) (off n : UInt32) : Prop :=
  bdiskRead d off n = pure (-1, []) ∨ InBlock off n ∧ (bdiskRead d off n).exec s = .ok (n.toNat,
    (List.range n.toNat).map fun i =>
      ((s.disk (rawDev d)).cache (off.toNat / bsize)).get (off.toNat % bsize + i)) s

/-- A write is refused, or it changes the bytes that it is for and holds no buffer afterwards. -/
def WritesBlock (s : Kernel) (d : Dinode) (src : Nat → UInt8) (off n : UInt32) : Prop :=
  bdiskWrite d src off n = pure (-1) ∨ InBlock off n ∧ (bdiskWrite d src off n).exec s = .ok n.toNat
    (s.setDisk (rawDev d) ((s.disk (rawDev d)).bwrite (off.toNat / bsize)
      (((s.disk (rawDev d)).cache (off.toNat / bsize)).blit (off.toNat % bsize) n.toNat src)))

variable {s : Kernel} {d : Dinode} {src : Nat → UInt8} {off n : UInt32}

theorem toInt_nonneg_iff : 0 ≤ n.toInt32.toInt ↔ n.toNat < 2 ^ 31 := by
  have h : n.toInt32.toInt = if 2 * n.toNat < 2 ^ 32 then (n.toNat : Int) else n.toNat - 2 ^ 32 :=
    BitVec.toInt_eq_toNat_cond n.toBitVec
  have := n.toNat_lt
  split at h <;> omega

theorem raw_of_nonneg (h : off.toNat < 2 ^ 31) :
    rawBlock off = off.toNat / bsize ∧ rawOff off = off.toNat % bsize := by
  rw [rawBlock, rawOff, toInt_toInt32 h, Int.tdiv_eq_ediv_of_nonneg (Int.natCast_nonneg _),
    Int.tmod_eq_emod_of_nonneg (Int.natCast_nonneg _)]
  simp only [bsize]
  constructor <;> omega

theorem inBlock_iff (h : ¬ bsize < (rawOff off + n.toNat) % 2 ^ 32) :
    InBlock off n ↔ off.toNat / bsize < fssize ∧ 0 ≤ n.toInt32.toInt := by
  refine ⟨fun hin => ⟨hin.block, hin.count⟩, fun ⟨hblock, hcount⟩ => ⟨hblock, hcount, ?_⟩⟩
  rw [toInt_nonneg_iff] at hcount
  simp only [bsize, fssize] at h hblock ⊢
  rw [(raw_of_nonneg (by omega)).2] at h
  simp only [bsize] at h
  omega

theorem InBlock.raw (h : InBlock off n) : rawBlock off = off.toNat / bsize ∧ rawOff off = off.toNat % bsize ∧
    n.toInt32.toInt = n.toNat := by
  have hblock := h.block
  simp only [bsize, fssize] at hblock
  obtain ⟨hb, ho⟩ : rawBlock off = _ ∧ rawOff off = _ := raw_of_nonneg (by omega)
  exact ⟨hb, ho, toInt_toInt32 (toInt_nonneg_iff.mp h.count)⟩

/-- Raw reads and writes keep to one block if and only if the request is refused, or its block is one of the disk and
its count is not negative. -/
theorem bdisk_within_iff (src : Nat → UInt8) (hp : (s.disk (rawDev d)).present = true)
    (hb : (s.disk (rawDev d)).busy (rawBlock off) = false) :
    (ReadsBlock s d off n ↔ bsize < (rawOff off + n.toNat) % 2 ^ 32 ∨
      off.toNat / bsize < fssize ∧ 0 ≤ n.toInt32.toInt) ∧
    (WritesBlock s d src off n ↔ bsize < (rawOff off + n.toNat) % 2 ^ 32 ∨
      off.toNat / bsize < fssize ∧ 0 ≤ n.toInt32.toInt) := by
  by_cases hr : bsize < (rawOff off + n.toNat) % 2 ^ 32
  · exact ⟨iff_of_true (.inl (if_pos hr)) (.inl hr), iff_of_true (.inl (if_pos hr)) (.inl hr)⟩
  have hread : (InBlock off n → (s.disk (rawDev d)).bread (rawBlock off) =
      .ok ((s.disk (rawDev d)).cache (off.toNat / bsize)) (s.disk (rawDev d))) := fun hin => by
    rw [hin.raw.1] at hb ⊢
    simp [Disk.bread, hp, hb, Nat.not_le.mpr hin.block]
  rw [or_iff_right hr, ← inBlock_iff hr]
  unfold ReadsBlock WritesBlock bdiskRead bdiskWrite
  rw [if_neg hr, if_neg hr]
  refine ⟨⟨fun h => ?_, fun hin => .inr ⟨hin, ?_⟩⟩, ⟨fun h => ?_, fun hin => .inr ⟨hin, ?_⟩⟩⟩
  · exact (h.resolve_left fun hc => by cases hc).1
  · obtain ⟨-, ho, hn⟩ := hin.raw
    rw [exec_tau, hread hin, Res.ok_bind, ho, hn]
  · exact (h.resolve_left fun hc => by cases hc).1
  · obtain ⟨hblock, ho, hn⟩ := hin.raw
    rw [exec_act, Disk.editDirect, hread hin, Res.ok_bind, Res.ok_bind, ho, hn, hblock]

def diskOne : Dinode := { Dinode.zero with minor := 1 }

theorem bdisk_within_two : ReadsBlock (blank metaBits) diskOne 513 2 :=
  (bdisk_within_iff (fun _ => 0) rfl rfl).1.mpr (.inr ⟨by decide, by decide⟩)

/-- One byte at offset 2^32 - 1, which is -1, is read from in front of the buffer of block 0; a byte behind the last
block is the end of the system. -/
theorem bdisk_before_buffer : rawBlock 4294967295 = 0 ∧ rawOff 4294967295 = 4294967295 ∧
    (∃ x, (bdiskRead diskOne 4294967295 1).exec (blank metaBits) = .ok (1, x) (blank metaBits)) ∧
    ¬ ReadsBlock (blank metaBits) diskOne 4294967295 1 ∧
    (bdiskRead diskOne 2560000 1).exec (blank metaBits) = .panic "incorrect blockno" := by
  have htest : ¬ bsize < (rawOff 4294967295 + (1 : UInt32).toNat) % 2 ^ 32 := by decide +kernel
  refine ⟨by decide +kernel, by decide +kernel, ?_, fun h => ?_, rfl⟩
  · rw [bdiskRead, if_neg htest]
    exact ⟨_, rfl⟩
  · rw [ReadsBlock, bdiskRead, if_neg htest] at h
    exact absurd (h.resolve_left fun hc => by cases hc).1.block (by decide)

end Xv6Vsd
