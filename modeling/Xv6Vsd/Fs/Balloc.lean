import Xv6Vsd.Fs.Read
import Xv6Vsd.Fs.Blank

/-!
# The block allocator

The bitmap must mark its own blocks, and the driver must have the blocks.
-/

namespace Xv6Vsd

open Prog Function Kernel Res

variable {s s' : Kernel} {d d' : Disk} {dev b c : Nat} {x : Block} {α : Type} {a : α}

namespace Disk

def InBitmap (d : Disk) (k : Nat) : Prop := ∃ c < d.sb.size, d.sb.bblock c = k

structure OwnMarked (d : Disk) : Prop where
  zero : d.marked 0 = true
  bitmap : ∀ k < d.sb.size, d.InBitmap k → d.marked k = true

def BitsServed (d : Disk) : Prop := ∀ c < d.sb.size, (∀ j < c, d.marked j = true) → d.sb.bblock c < fssize

/-- The driver has the blocks that `balloc` asks for, and the log has room for those it writes. -/
structure Served (d : Disk) : Prop where
  bits : d.BitsServed
  block : ∀ b, d.firstFree b → b < fssize
  room : ∀ b, d.firstFree b → d.AllocOpen b

/-- From `d` to `d'` the block `b` has been taken: its bit and no other is set, and it is zero. -/
structure Taken (d : Disk) (b : Nat) (d' : Disk) : Prop where
  frame : d'.frame = d.frame
  marked : ∀ c, d.InBitmap (d.sb.bblock c) → d'.marked c = (decide (b = c) || d.marked c)
  zero : d'.cache b = Bytes.zero
  other : ∀ k, k ≠ b → k ≠ d.sb.bblock b → d'.cache k = d.cache k

structure Cleared (d : Disk) (b : Nat) (d' : Disk) : Prop where
  frame : d'.frame = d.frame
  marked : ∀ c, d'.marked c = (decide (b ≠ c) && d.marked c)
  other : ∀ k, k ≠ d.sb.bblock b → d'.cache k = d.cache k

def clear (d : Disk) (b : Nat) : Disk := d.logged (d.sb.bblock b) ((d.cache (d.sb.bblock b)).clearBit (b % bpb))

theorem clear_cleared (d : Disk) (b : Nat) : d.Cleared b (d.clear b) := by
  refine ⟨logged_frame .., fun c => ?_, fun k hk => ?_⟩
  · have hlt : b % bpb / 8 < 512 := by simp only [bpb, bsize]; omega
    rw [clear, marked, logged_sb, logged_cache]
    by_cases hbb : d.sb.bblock c = d.sb.bblock b
    · rw [hbb, update_self, Bytes.testBit_clearBit _ hlt, marked, hbb]
      congr 1
      refine decide_eq_decide.mpr (not_congr ⟨fun he => ?_, fun he => by rw [he]⟩)
      simp only [Superblock.bblock, bpb, bsize] at *
      omega
    · have hne : b ≠ c := fun he => hbb (by rw [he])
      simp [update_of_ne hbb, marked, hne]
  · rw [clear, logged_cache, update_of_ne hk]

theorem firstFree.taken (h : d.firstFree b) (hown : d.OwnMarked) : d.Taken b (d.alloc b) := by
  refine ⟨alloc_frame .., fun c hc => alloc_marked fun he => ?_, ?_, fun k hk hkb => ?_⟩
  · have hb := hown.bitmap b h.1 (he ▸ hc)
    rw [h.2.1] at hb
    cases hb
  · rw [alloc_cache, update_self]
  · rw [alloc_cache, update_of_ne hk, update_of_ne hkb]

theorem firstFree.unique (h : d.firstFree b) (h' : d.firstFree c) : b = c := by
  rcases Nat.lt_trichotomy b c with hlt | heq | hlt
  · exact absurd (h'.2.2 b hlt) (by simp [h.2.1])
  · exact heq
  · exact absurd (h.2.2 c hlt) (by simp [h'.2.1])

theorem firstFree.pos (h : d.firstFree b) (hown : d.OwnMarked) : b ≠ 0 := by
  rintro rfl
  have h0 := hown.zero
  rw [h.2.1] at h0
  cases h0

theorem Idle.logged (h : d.Idle) (b : Nat) (x : Block) : (d.logged b x).Idle := by
  have hf := d.logged_frame b x
  simp only [frame, Prod.mk.injEq] at hf
  exact ⟨hf.2.1.trans h.mounted, hf.1.trans h.present, fun k => by rw [logged_busy]; exact h.free k⟩

theorem logWrite_store (hb : b < fssize) (ho : d.Open) :
    (d.store b x).logWrite (UInt32.ofNat b) = .ok () (d.logged b x) := by
  have hn : (UInt32.ofNat b).toNat = b := toNat_ofNat hb
  rw [logWrite, logged, store]
  rcases ho with hs | ⟨h30, hsize, hout⟩
  · simp [hs, hn, bwrite]
  have hne : d.log.size ≠ 0 := by omega
  have hroom : ¬ (d.log.lh.length ≥ logsize ∨ d.log.lh.length ≥ d.log.size - 1) :=
    not_or.mpr ⟨Nat.not_le.mpr h30, Nat.not_le.mpr hsize⟩
  have hin : ¬ d.log.outstanding < 1 := Int.not_lt.mpr hout
  simp only [if_neg hne, logWriteCheck, if_neg hroom, if_neg hin, ok_bind]

def Room (d : Disk) : Prop :=
  d.log.size = 0 ∨ (d.log.lh.length + 1 < logsize ∧ d.log.lh.length + 1 < d.log.size - 1 ∧ 1 ≤ d.log.outstanding)

theorem Room.allocOpen (h : d.Room) (b : Nat) : d.AllocOpen b := by
  refine ⟨h.imp_right fun ⟨h30, hsize, hout⟩ => ⟨by omega, by omega, hout⟩, ?_⟩
  have hf := d.logged_frame (d.sb.bblock b) ((d.cache (d.sb.bblock b)).setBit (b % bpb))
  simp only [frame, Prod.mk.injEq] at hf
  rw [Open, hf.2.2.2.2.1, hf.2.2.2.2.2.1]
  rcases h with hs | ⟨h30, hsize, hout⟩
  · exact .inl hs
  refine .inr ⟨?_, ?_, hout⟩ <;>
  · rw [logged, if_neg (by omega), logAppend]
    split
    · exact Nat.lt_of_succ_lt ‹_›
    · simpa [setLh, store]

theorem served_small (hroom : d.Room) (hsize : d.sb.size ≤ fssize) (hmap : d.sb.bblock (d.sb.size - 1) < fssize) :
    d.Served := by
  refine ⟨fun c hc _ => ?_, fun b hb => Nat.lt_of_lt_of_le hb.1 hsize, fun b _ => hroom.allocOpen b⟩
  have hle : c / bpb ≤ (d.sb.size - 1) / bpb := Nat.div_le_div_right (by omega)
  simp only [Superblock.bblock] at *
  omega

end Disk

/-! ## The runs -/

variable (h : (s.disk dev).Idle)

include h

theorem exec_edit_some {g : Block → Option Block × α} (hb : b < fssize) (ho : (s.disk dev).Open)
    (hg : g ((s.disk dev).cache b) = (some x, a)) :
    (edit dev b g).exec s = .ok a (s.setDisk dev ((s.disk dev).logged b x)) := by
  rw [edit, exec_act, onDisk, if_pos h.mounted, Disk.edit, h.bread, if_pos hb, ok_bind, hg]
  simp only [Disk.put, Disk.logWrite_store hb ho, ok_bind]

theorem exec_edit_keep {g : Block → Option Block × α} (hb : b < fssize)
    (hg : g ((s.disk dev).cache b) = (none, a)) : (edit dev b g).exec s = .ok a s := by
  rw [edit, exec_act, onDisk, if_pos h.mounted, Disk.edit, h.bread, if_pos hb, ok_bind, hg]
  simp only [Disk.put, ok_bind, setDisk_self]

theorem exec_bzero (ho : (s.disk dev).Open) : (bzero dev b).exec s =
      if b < fssize then .ok () (s.setDisk dev ((s.disk dev).logged b Bytes.zero)) else .panic "incorrect blockno" := by
  split
  · next hb => exact exec_edit_some h hb ho rfl
  · next hb => rw [bzero, edit, exec_act, onDisk, if_pos h.mounted, Disk.edit, h.bread, if_neg hb, panic_bind,
      panic_bind]

omit h in
theorem fuel_le (n : Nat) : n ≤ 0 + (n / bpb + 1) * bpb := by
  simp only [bpb, bsize]
  omega

theorem ballocFrom_total (fuel : Nat) (hb : b % bpb = 0)
    (hbelow : ∀ j < b, j < (s.disk dev).sb.size → (s.disk dev).marked j = true)
    (hbits : (s.disk dev).BitsServed) (ho : ∀ c, (s.disk dev).firstFree c → (s.disk dev).Open) :
    ∃ o s', (ballocFrom dev (s.disk dev).sb fuel b).exec s = .ok o s' := by
  induction fuel generalizing b with
  | zero => exact ⟨_, _, rfl⟩
  | succ fuel ih =>
    rw [ballocFrom]
    split
    · next hlt =>
      have hread := hbits b hlt fun j hj => hbelow j hj (by omega)
      cases hf : firstFree ((s.disk dev).cache ((s.disk dev).sb.bblock b)) (min bpb ((s.disk dev).sb.size - b)) with
      | some i =>
        obtain ⟨hi, hbit, hbefore⟩ := firstFree_some hf
        have hfree : (s.disk dev).firstFree (b + i) := by
          refine ⟨by omega, by rw [marked_add hb (by omega), hbit], fun j hj => ?_⟩
          exact marked_upto hb (by omega) hbelow hbefore j hj (by omega)
        rw [exec_bind, exec_edit_some h hread (ho _ hfree) (by rw [hf]), ok_bind]
        exact ⟨_, _, rfl⟩
      | none =>
        rw [exec_bind, exec_edit_keep h hread (by rw [hf]), ok_bind]
        refine ih (by simp only [bpb, bsize] at *; omega) fun j hj hjs => ?_
        exact marked_upto hb (by omega) hbelow (firstFree_none hf) j (by omega) hjs
    · exact ⟨_, _, rfl⟩

theorem exec_balloc_free (hbits : (s.disk dev).BitsServed)
    (hfree : (s.disk dev).firstFree b) (ho : (s.disk dev).AllocOpen b) : (balloc dev).exec s =
      if b < fssize then .ok (UInt32.ofNat b) (s.setDisk dev ((s.disk dev).alloc b))
        else .panic "incorrect blockno" := by
  obtain ⟨o, s1, h1⟩ := ballocFrom_total (b := 0) h ((s.disk dev).sb.size / bpb + 1) (by simp) (by simp) hbits
    fun _ _ => ho.1
  rw [balloc, exec_bind, exec_getsuperblock h.mounted, ok_bind, exec_bind, h1, ok_bind]
  obtain ⟨-, -, hfull⟩ | ⟨c, rfl, hc, -, -, rfl⟩ := ballocFrom_ok (by simp) (fuel_le _) (by simp) h1
  · exact absurd (hfull b hfree.1) (by simp [hfree.2.1])
  obtain rfl := hc.unique hfree
  rw [exec_bind, exec_bzero (by rw [setDisk_disk_self]; exact h.logged _ _) (by rw [setDisk_disk_self]; exact ho.2)]
  split
  · rw [ok_bind, setDisk_disk_self, setDisk_setDisk]
    rfl
  · rfl

theorem exec_balloc_full (hbits : (s.disk dev).BitsServed)
    (hfull : (s.disk dev).full) : (balloc dev).exec s = .ok 0 s := by
  obtain ⟨o, s1, h1⟩ := ballocFrom_total (b := 0) h ((s.disk dev).sb.size / bpb + 1) (by simp) (by simp) hbits
    fun c hc => absurd (hfull c hc.1) (by simp [hc.2.1])
  rw [balloc, exec_bind, exec_getsuperblock h.mounted, ok_bind, exec_bind, h1, ok_bind]
  obtain ⟨rfl, rfl, -⟩ | ⟨c, -, hc, -⟩ := ballocFrom_ok (by simp) (fuel_le _) (by simp) h1
  · rfl
  · exact absurd (hfull c hc.1) (by simp [hc.2.1])

theorem exec_bfree {b} (hb : (s.disk dev).sb.bblock b.toNat < fssize)
    (ho : (s.disk dev).Open) : (bfree dev b).exec s = .ok () (s.setDisk dev ((s.disk dev).clear b.toNat)) := by
  rw [bfree, exec_bind, exec_getsuperblock h.mounted, ok_bind]
  exact exec_edit_some h hb ho rfl

omit h

theorem Disk.Cleared.firstFree (h : d.Cleared b d') (hb : b < d.sb.size) (hbelow : ∀ c < b, d.marked c = true) :
    d'.firstFree b := by
  have hsb : d'.sb = d.sb := congrArg (·.2.2.1) h.frame
  refine ⟨by rwa [hsb], by simp [h.marked], fun c hc => ?_⟩
  rw [h.marked, hbelow c hc, Bool.and_true]
  exact decide_eq_true (by omega)

/-- `balloc` takes the first free block and fails only where there is none; what `bfree` has freed it takes again. -/
theorem allocator_spec (h : (s.disk dev).Idle) (hown : (s.disk dev).OwnMarked) :
    ((s.disk dev).Served →
      (∀ b, (s.disk dev).firstFree b → (balloc dev).exec s =
        .ok (UInt32.ofNat b) (s.setDisk dev ((s.disk dev).alloc b)) ∧
        (s.disk dev).Taken b ((s.disk dev).alloc b)) ∧
      ((balloc dev).exec s = .ok 0 s ↔ (s.disk dev).full)) ∧
    ∀ b : UInt32, b.toNat < (s.disk dev).sb.size → (s.disk dev).sb.bblock b.toNat < fssize → (s.disk dev).Open →
      (bfree dev b).exec s = .ok () (s.setDisk dev ((s.disk dev).clear b.toNat)) ∧
      (s.disk dev).Cleared b.toNat ((s.disk dev).clear b.toNat) ∧
      ((∀ c < b.toNat, (s.disk dev).marked c = true) → ((s.disk dev).clear b.toNat).Served →
        (bfree dev b >>= fun _ => balloc dev).exec s =
          .ok b (s.setDisk dev (((s.disk dev).clear b.toNat).alloc b.toNat))) := by
  refine ⟨fun hserved => ⟨fun b hfree => ⟨?_, hfree.taken hown⟩, fun he => ?_, exec_balloc_full h hserved.bits⟩,
    fun b hb hbits ho => ?_⟩
  · rw [exec_balloc_free h hserved.bits hfree (hserved.room b hfree), if_pos (hserved.block b hfree)]
  · obtain ⟨-, -, hfull⟩ | ⟨c, hc, heq, hready, -⟩ := balloc_ok he
    · exact hfull
    · exact absurd heq.symm (ofNat_ne_zero (hc.pos hown) hready.2.2)
  have hfreed := exec_bfree h hbits ho
  refine ⟨hfreed, (s.disk dev).clear_cleared _, fun hbelow hserved => ?_⟩
  have hfirst := ((s.disk dev).clear_cleared b.toNat).firstFree hb hbelow
  have hdisk : (s.setDisk dev ((s.disk dev).clear b.toNat)).disk dev = (s.disk dev).clear b.toNat :=
    setDisk_disk_self ..
  rw [← hdisk] at hfirst hserved
  rw [exec_bind, hfreed, Res.ok_bind, exec_balloc_free (by rw [hdisk]; exact h.logged _ _) hserved.bits hfirst
    (hserved.room _ hfirst), if_pos (hserved.block _ hfirst), UInt32.ofNat_toNat, hdisk, setDisk_setDisk]

/-- A disk of `size` blocks, of which only `i` is free. Its bitmap starts at block 2. -/
def holeAt (size i : Nat) : Kernel :=
  let ones : Block := fun _ => 255
  (blank ones).setDisk 1 { blankDisk ones with
    sb := { (blankDisk ones).sb with size, bmapstart := 2 }
    cache := fun k => if k = i / bpb + 2 then ones.clearBit (i % bpb) else ones }

theorem holeAt_idle (size i : Nat) : ((holeAt size i).disk 1).Idle := ⟨rfl, rfl, fun _ => rfl⟩

theorem holeAt_marked (size i c : Nat) : ((holeAt size i).disk 1).marked c = decide (i ≠ c) := by
  have hlt : ∀ j, j % bpb / 8 < 512 := fun j => by simp only [bpb, bsize]; omega
  have hones : Bytes.testBit (n := 512) (fun _ => 255) (c % bpb) = true := by
    rw [Bytes.testBit_eq, Bytes.get, dif_pos (hlt c)]
    have h255 : ∀ j < 8, Nat.testBit (255 : UInt8).toNat j = true := by decide
    exact h255 _ (Nat.mod_lt _ (by decide))
  change Bytes.testBit (n := 512) (if c / bpb + 2 = i / bpb + 2 then _ else _) (c % bpb) = _
  split
  · next hdiv =>
    rw [Bytes.testBit_clearBit _ (hlt i), hones, Bool.and_true]
    refine decide_eq_decide.mpr (not_congr ⟨fun he => ?_, fun he => by rw [he]⟩)
    simp only [bpb, bsize] at *
    omega
  · next hdiv =>
    have hne : i ≠ c := fun he => hdiv (by rw [he])
    rw [hones, decide_eq_true hne]

theorem holeAt_firstFree {size i} (h : i < size) : ((holeAt size i).disk 1).firstFree i := by
  refine ⟨h, by simp [holeAt_marked], fun c hc => ?_⟩
  rw [holeAt_marked]
  exact decide_eq_true (by omega)

theorem holeAt_ownMarked {size i} (h0 : i ≠ 0) (h : (size - 1) / bpb + 2 < i) : ((holeAt size i).disk 1).OwnMarked := by
  refine ⟨by rw [holeAt_marked]; exact decide_eq_true h0, ?_⟩
  rintro k - ⟨c, hc, rfl⟩
  have hle : c / bpb ≤ (size - 1) / bpb := Nat.div_le_div_right (Nat.le_sub_one_of_lt hc)
  rw [holeAt_marked]
  refine decide_eq_true fun he => ?_
  have hbb : ((holeAt size i).disk 1).sb.bblock c = c / bpb + 2 := rfl
  omega

/-- A bitmap with four bits in its second block. Block 4098 is taken, and block 7 is taken again after it was freed. -/
theorem allocator_spec_ragged : (balloc 1).exec (holeAt 4100 4098) =
      .ok 4098 ((holeAt 4100 4098).setDisk 1 (((holeAt 4100 4098).disk 1).alloc 4098)) ∧
    (bfree 1 7 >>= fun _ => balloc 1).exec (holeAt 4100 4098) =
      .ok 7 ((holeAt 4100 4098).setDisk 1 ((((holeAt 4100 4098).disk 1).clear 7).alloc 7)) := by
  have hspec := allocator_spec (holeAt_idle 4100 4098) (holeAt_ownMarked (by decide) (by decide))
  refine ⟨((hspec.1 (Disk.served_small (.inl rfl) (by decide) (by decide))).1 4098 (holeAt_firstFree (by decide))).1,
    ?_⟩
  refine (hspec.2 7 (by decide) (by decide) (.inl rfl)).2.2 (fun c hc => ?_)
    (Disk.served_small (.inl rfl) (by decide) (by decide))
  rw [holeAt_marked]
  exact decide_eq_true fun he => by rw [← he] at hc; exact absurd hc (by decide)

/-- The bitmap's own block is handed out, which clears it; and the driver refuses a block of a file system of 10 MB. -/
theorem allocator_spec_fails :
    (∃ s s', (s.disk 1).Idle ∧ (s.disk 1).Served ∧ (s.disk 1).marked 0 = true ∧ (s.disk 1).firstFree 4 ∧
      (balloc 1).exec s = .ok 4 s' ∧ (s'.disk 1).marked 4 = false) ∧
    ∃ s, (s.disk 1).Idle ∧ (s.disk 1).Room ∧ (s.disk 1).OwnMarked ∧ (s.disk 1).sb.size = 20480 ∧
      (s.disk 1).firstFree 5000 ∧ (balloc 1).exec s = .panic "incorrect blockno" := by
  constructor
  · let s := blank ((List.range 4).foldl Bytes.setBit Bytes.zero)
    have hidle : (s.disk 1).Idle := ⟨rfl, rfl, fun _ => rfl⟩
    have hserved : (s.disk 1).Served := Disk.served_small (.inl rfl) (by decide) (by decide)
    have hfree : (s.disk 1).firstFree 4 := ⟨by decide, by decide +kernel, by decide +kernel⟩
    refine ⟨s, _, hidle, hserved, hfree.2.2 0 (by decide), hfree, exec_balloc_free hidle hserved.bits hfree
      (hserved.room 4 hfree), ?_⟩
    rw [setDisk_disk_self, Disk.marked, Disk.alloc_cache]
    decide +kernel
  · have hfree : ((holeAt 20480 5000).disk 1).firstFree 5000 := holeAt_firstFree (by decide)
    refine ⟨_, holeAt_idle _ _, .inl rfl, holeAt_ownMarked (by decide) (by decide), rfl, hfree, ?_⟩
    refine (exec_balloc_free (holeAt_idle _ _) (fun c hc _ => ?_) hfree (Disk.Room.allocOpen (.inl rfl) _)).trans
      (if_neg (by decide))
    have hlt : c < 20480 := hc
    have hbb : ((holeAt 20480 5000).disk 1).sb.bblock c = c / bpb + 2 := rfl
    simp only [hbb, bpb, bsize, fssize]
    omega

end Xv6Vsd
