import Xv6Vsd.Fs.Blank
import Xv6Vsd.Fs.Refine
import Xv6Vsd.Lib.Run

/-!
# Reads and writes one after the other

A write that runs out of blocks may leave an indirect block in the hands of the process, and then
the file can no longer be read.
-/

namespace Xv6Vsd

open Prog Kernel Option Function

def Kernel.contents (s : Kernel) (dev i : Nat) : List UInt8 :=
  (List.range (s.view dev i).size.toNat).map (fileByte (s.table dev) (s.disk dev).cache i)

/-- The files of every mounted disk have all their blocks, and nobody holds a buffer. -/
def Whole (s : Kernel) : Prop := ∀ dev, (s.disk dev).mounted = true → Arrays s dev (s.contents dev)

def Usable (s : Kernel) (r : IRef) : Prop :=
  (s.disk r.dev).mounted = true ∧ ∃ ip, s.icache r = some ip ∧ ip.valid = true ∧ ip.din.type ≠ tDev

instance (s : Kernel) (r : IRef) : Decidable (Usable s r) := decidable_of_iff ((s.disk r.dev).mounted = true ∧
    (s.icache r).any (fun ip => ip.valid = true ∧ ip.din.type ≠ tDev) = true) <| by
    simp [Usable, any_eq_true]

structure WritesRight (s : Kernel) (r : IRef) (src : Nat → UInt8) (off n : UInt32) : Prop where
  refused : OutOfRange (s.contents r.dev r.inum).length off.toNat n.toNat → (writei r src off n).exec s = .ok (-1) s
  taken : ¬ OutOfRange (s.contents r.dev r.inum).length off.toNat n.toNat → ∀ s',
    (writei r src off n).exec s ≠ .ok (-1) s'
  bytes : ∀ s', (writei r src off n).exec s = .ok n.toNat s' →
    s'.contents r.dev r.inum = splice (s.contents r.dev r.inum) off.toNat ((List.range n.toNat).map src)
  others : ∀ s', (writei r src off n).exec s = .ok n.toNat s' → ∀ r', r' ≠ r → (s.disk r'.dev).mounted = true →
    r'.inum < (s.disk r'.dev).sb.ninodes → s'.contents r'.dev r'.inum = s.contents r'.dev r'.inum

def ReadsRight (s : Kernel) (r : IRef) (off n : UInt32) : Prop :=
  off.toNat ≤ (s.contents r.dev r.inum).length → off.toNat + n.toNat < 2 ^ 32 →
    ∃ m : Nat, m = min n.toNat ((s.contents r.dev r.inum).length - off.toNat) ∧
      (readi r off n).exec s = .ok (m, ((s.contents r.dev r.inum).drop off.toNat).take m) s

structure FilesAreArrays (s : Kernel) : Prop where
  whole : Whole s
  writes : ∀ r src off n, Usable s r → WritesRight s r src off n
  reads : ∀ r off n, Usable s r → ReadsRight s r off n

section

variable {s s' : Kernel} {dev : Nat} {c : Nat → List UInt8} {r : IRef}
variable {i dev' : Nat}

theorem Holds.eq_map {T C xs} (h : Holds T C i xs) : xs = (List.range xs.length).map (fileByte T C i) := by
  refine List.ext_getElem (by simp) fun o h1 _ => ?_
  rw [List.getElem_map, List.getElem_range, h.byte o h1, List.getD_eq_getElem _ _ h1]

theorem Arrays.contents (h : Arrays s dev c) (hi : i < (s.disk dev).sb.ninodes) : s.contents dev i = c i := by
  rw [Kernel.contents, h.size i hi, ← (h.holds i hi).eq_map]

theorem Arrays.whole (h : Arrays s dev c) : Arrays s dev (s.contents dev) := by
  refine ⟨⟨h.settled, h.idle, h.reach, fun i hi => ?_⟩, fun i hi => ?_⟩
  · rw [h.contents hi]; exact h.holds i hi
  · rw [h.contents hi]; exact h.size i hi

theorem Apart.table (h : Apart dev s s') (hne : dev' ≠ dev) : s'.table dev' = s.table dev' := by
  have hview : s'.view dev' = s.view dev' := funext fun i => h.din hne
  rw [Kernel.table, hview, h.disk _ hne, Kernel.table]

theorem Apart.arrays (h : Apart dev s s') (hne : dev' ≠ dev) (ha : Arrays s dev' c) : Arrays s' dev' c := by
  have hview : s'.view dev' = s.view dev' := funext fun i => h.din hne
  have hd := h.disk _ hne
  have hic : ∀ i, s'.icache ⟨dev', i⟩ = s.icache ⟨dev', i⟩ := fun i => h.icache _ hne
  refine ⟨⟨⟨?_, by rw [hd]; exact ha.settled.log, fun i ip hip => ?_, fun i ip hip => ?_⟩, by rw [hd]; exact ha.idle,
    by rw [hd]; exact ha.reach, fun i hi => ?_⟩, fun i hi => ?_⟩
  · rw [hview, hd]; exact ha.settled.snug
  · rw [hic] at hip; rw [hd]; exact ha.settled.refs i ip hip
  · rw [hic] at hip; exact ha.settled.loaded i ip hip
  · rw [h.table hne, hd]; rw [hd] at hi; exact ha.holds i hi
  · rw [hview]; rw [hd] at hi; exact ha.size i hi

theorem Arrays.quiet (h : Arrays s dev c) {d} (hq : (s.disk dev).Quiet d) : Arrays (s.setDisk dev d) dev c := by
  have hset := h.settled
  have hd : (s.setDisk dev d).disk dev = d := setDisk_disk_self ..
  have hin : ∀ i < d.sb.ninodes, diskIn d.sb d.cache i = diskIn d.sb (s.disk dev).cache i := fun i _ => by
    have hb : d.cache ((s.disk dev).sb.iblock i) = (s.disk dev).cache ((s.disk dev).sb.iblock i) :=
      hq.cache _ (Nat.le_add_left ..)
    rw [hq.sb, diskIn, hb, diskIn]
  have hm := (s.disk dev).sb.bmapstart_le_metaEnd
  have hstart := hset.snug.inodestart_le
  have htab : (s.setDisk dev d).table dev = s.table dev := by
    rw [table_setDisk hq.sb hin]
    refine blockAt_congr (fun _ _ _ => rfl) fun b hb => hq.cache b ?_
    have := hset.snug.tidy.indirect_ge hb
    omega
  refine ⟨⟨?_, ?_, ?_, fun i hi => ?_⟩, fun i hi => ?_⟩
  · refine hset.setDisk hq.sb hin ?_ (hq.log hset.log)
    rw [hq.sb]
    exact hset.snug.congr hq.cache
  · rw [hd]
    exact ⟨hq.mounted.trans h.idle.mounted, hq.present.trans h.idle.present, by rw [hq.busy]; exact h.idle.free⟩
  · rw [hd, hq.sb]; exact h.reach
  · rw [hd, hq.sb] at hi
    rw [htab, hd]
    refine (h.holds i hi).congr fun o ho => hq.cache _ ?_
    have := (hset.owned ho).1
    omega
  · rw [hd, hq.sb] at hi; rw [view_setDisk hq.sb (hin i (hq.sb ▸ hi))]; exact h.size i hi

theorem Apart.contents (h : Apart dev s s') (hne : dev' ≠ dev) : s'.contents dev' i = s.contents dev' i := by
  have hview : s'.view dev' i = s.view dev' i := h.din hne
  rw [Kernel.contents, hview, h.table hne, h.disk _ hne, Kernel.contents]

/-! ## One access -/

section

variable {src : Nat → UInt8} {off n : UInt32} (h : Whole s) (hu : Usable s r)
include h hu

theorem Whole.written (he : (writei r src off n).exec s = .ok n.toNat s') :
    Arrays s' r.dev (update (s.contents r.dev) r.inum
      (splice (s.contents r.dev r.inum) off.toNat ((List.range n.toNat).map src))) ∧
      Apart r.dev s s' ∧ (s'.disk r.dev).sb = (s.disk r.dev).sb ∧ r.inum < (s.disk r.dev).sb.ninodes := by
  obtain ⟨hm, ip, hip, hv, htype⟩ := hu
  have ha := h r.dev hm
  obtain ⟨-, hn, -⟩ | ⟨-, -, hn⟩ | ⟨-, -, ha', -, hap, hsb⟩ := ha.writei ⟨hip, hv⟩ htype he
  · omega
  · omega
  · exact ⟨ha', hap, hsb, ha.settled.refs r.inum ip hip⟩

theorem Whole.writesRight : WritesRight s r src off n := by
  have hu' := hu
  obtain ⟨hm, ip, hip, hv, htype⟩ := hu'
  have hc : Cached s r ip := ⟨hip, hv⟩
  have ha := h r.dev hm
  constructor
  case refused =>
    intro hbad
    refine exec_writei_refused hip htype ?_
    rwa [← ha.size r.inum (ha.settled.refs r.inum ip hip), hc.view] at hbad
  case taken =>
    intro hok s' he
    obtain ⟨hbad, -, -⟩ | ⟨-, -, hn⟩ | ⟨-, hn, -⟩ := ha.writei hc htype he
    · exact hok hbad
    · cases hn
    · omega
  case bytes =>
    intro s' he
    obtain ⟨ha', -, hsb, hlt⟩ := h.written hu he
    rw [ha'.contents (by rw [hsb]; exact hlt), update_self]
  case others =>
    intro s' he r' hr hm' hlt'
    obtain ⟨ha', hap, hsb, -⟩ := h.written hu he
    by_cases hdev : r'.dev = r.dev
    · have hne : r'.inum ≠ r.inum := fun he => hr (by cases r; cases r'; simp_all)
      rw [hdev] at hlt' ⊢
      rw [ha'.contents (by rw [hsb]; exact hlt'), update_of_ne hne]
    · exact hap.contents hdev

theorem Whole.readsRight : ReadsRight s r off n := by
  intro hoff hn
  obtain ⟨hm, ip, hip, hv, htype⟩ := hu
  refine ⟨_, rfl, ((h r.dev hm).readi ⟨hip, hv⟩ htype off n).trans ?_⟩
  rw [readAnswer, if_neg (by omega)]

end

theorem Whole.filesAreArrays (h : Whole s) : FilesAreArrays s :=
  ⟨h, fun _ _ _ _ hu => h.writesRight hu, fun _ _ _ hu => h.readsRight hu⟩

theorem Whole.apart (h : Whole s) (hap : Apart dev s s') (ha : Arrays s' dev c) : Whole s' := by
  intro dev' hm'
  by_cases hdev : dev' = dev
  · subst hdev; exact ha.whole
  · rw [hap.disk _ hdev] at hm'; exact (hap.arrays hdev (h dev' hm')).whole

theorem Whole.quiet (h : Whole s) {d} (hm : (s.disk dev).mounted = true) (hq : (s.disk dev).Quiet d) :
    Whole (s.setDisk dev d) :=
  h.apart (.setDisk s hq.mounted) ((h dev hm).quiet hq)

/-! ## Runs -/

inductive Access where
  | beginOp (dev : Nat)
  | endOp (dev : Nat)
  | read (r : IRef) (off n : UInt32)
  | write (r : IRef) (src : Nat → UInt8) (off n : UInt32)

def after {α : Type} (p : K α) (s : Kernel) : Option Kernel := match p.exec s with
  | .ok _ s' => some s'
  | _ => none

namespace Access

def act (s : Kernel) : Access → Option Kernel
  | beginOp dev => after (Xv6Vsd.beginOp dev) s
  | endOp dev => after (Xv6Vsd.endOp dev) s
  | read r off n => if Usable s r then after (readi r off n) s else none
  | write r src off n => if Usable s r then after (writei r src off n) s else none

def Roomy (s : Kernel) : Access → Prop
  | write r _ off n => OutOfRange (s.contents r.dev r.inum).length off.toNat n.toNat ∨
    lacking (s.table r.dev) r.inum off.toNat n.toNat ≤ (s.disk r.dev).free
  | _ => True

end Access

theorem after_eq_some {α : Type} {p : K α} (h : after p s = some s') : ∃ a, p.exec s = .ok a s' := by
  unfold after at h
  split at h <;> cases h
  exact ⟨_, ‹_›⟩

theorem Whole.act (h : Whole s) {a : Access} (hok : a.Roomy s) (he : a.act s = some s') : Whole s' := by
  cases a with
  | beginOp dev =>
    obtain ⟨_, he⟩ := after_eq_some he
    obtain ⟨hm, d, rfl, hq⟩ := beginOp_quiet he
    exact h.quiet hm hq
  | endOp dev =>
    obtain ⟨_, he⟩ := after_eq_some he
    obtain ⟨hm, d, rfl, hq⟩ := endOp_quiet (fun hm => (h dev hm).settled.log) he
    exact h.quiet hm hq
  | read r off n =>
    obtain ⟨⟨hm, ip, hip, hv, htype⟩, he⟩ := ite_none_right_eq_some.mp he
    obtain ⟨_, he⟩ := after_eq_some he
    rw [(h r.dev hm).readi ⟨hip, hv⟩ htype] at he; cases he
    exact h
  | write r src off n =>
    obtain ⟨⟨hm, ip, hip, hv, htype⟩, he⟩ := ite_none_right_eq_some.mp he
    obtain ⟨_, he⟩ := after_eq_some he
    obtain ⟨-, -, rfl⟩ | ⟨hin, hfew, -⟩ | ⟨-, -, ha, -, hap, -⟩ := (h r.dev hm).writei ⟨hip, hv⟩ htype he
    · exact h
    · have := hok.resolve_left hin; omega
    · exact h.apart hap ha

/-- As long as the disk has the blocks that are lacking, the files are arrays in every state of a
run. -/
theorem files_are_arrays {s0 : Kernel} (h0 : Whole s0) (h : Run Access.act (fun s a => a.Roomy s) s0 s) :
    FilesAreArrays s :=
  (h.invariant h0 fun _ _ _ hw hok he => hw.act hok he).filesAreArrays

end

/-! ### A disk with one empty file -/

def emptyInode : Inode := ⟨0, true, true, false, { Dinode.zero with type := tFile }⟩

def oneFile (bits : Block) : Kernel := { blank bits with
    disk := fun dev => { blankDisk bits with mounted := dev = 1 }
    icache := fun r => if r = ⟨1, 1⟩ then some emptyInode else none
    slots := 1 }

theorem whole_of_blank {s} (bits : Block) (hb : ∀ b < 5, bits.testBit b = true)
    (hdisk : s.disk = fun dev => { blankDisk bits with mounted := dev = 1 })
    (hic : ∀ i ip, s.icache ⟨1, i⟩ = some ip → i < 8 ∧ ip.valid = true ∧ ip.din.size = 0 ∧ ∀ k, ip.din.addr k = 0) :
    Whole s := by
  intro dev hm
  rw [hdisk] at hm
  obtain rfl : dev = 1 := of_decide_eq_true hm
  have hd : s.disk 1 = { blankDisk bits with mounted := true } := by rw [hdisk]; rfl
  have hview : ∀ i < 8, (s.view 1 i).size = 0 ∧ ∀ k, (s.view 1 i).addr k = 0 := fun i hi => by
    cases hip : s.icache ⟨1, i⟩ with
    | some ip =>
      obtain ⟨-, hv, hsize, haddr⟩ := hic i ip hip
      have hc : Cached s ⟨1, i⟩ ip := ⟨hip, hv⟩
      rw [show s.view 1 i = ip.din from hc.view]
      exact ⟨hsize, haddr⟩
    | none =>
      have hzero : s.diskInode ⟨1, i⟩ = Dinode.zero := by
        simp only [diskInode, hd]
        exact blank_diskIn bits hi
      have hview : s.view 1 i = (s.stale ⟨1, i⟩).update Dinode.zero := by
        simp [view, din, hip, hzero]
      rw [hview]
      exact ⟨rfl, Dinode.addr_zero⟩
  suffices h : Arrays s 1 (fun _ => []) from h.whole
  have hset : Settled s 1 := by
    refine ⟨?_, by rw [hd]; exact .inl rfl, fun i ip h => ?_, fun i ip h _ => (hic i ip h).2.1⟩
    · rw [hd]; exact blank_snug hb fun i hi => (hview i hi).2
    · rw [hd]; exact (hic i ip h).1
  refine ⟨⟨hset, by rw [hd]; exact ⟨rfl, rfl, fun _ => rfl⟩, by rw [hd]; exact show 30 ≤ fssize by decide,
    fun i _ => ⟨fun o ho => ?_, fun o ho => ?_⟩⟩, fun i hi => ?_⟩
  · cases ho
  · cases ho
  · rw [hd] at hi; rw [(hview i hi).1]; rfl

theorem oneFile_whole {bits} (hb : ∀ b < 5, bits.testBit b = true) : Whole (oneFile bits) := by
  refine whole_of_blank _ hb rfl fun i ip hip => ?_
  obtain ⟨hr, hip⟩ := ite_none_right_eq_some.mp hip
  cases hr
  cases hip
  exact ⟨by decide, rfl, rfl, Dinode.addr_zero⟩

instance (s : Kernel) (a : Access) : Decidable (a.Roomy s) := match a with
  | .beginOp _ | .endOp _ | .read .. => inferInstanceAs (Decidable True)
  | .write .. => inferInstanceAs (Decidable (_ ∨ _))

theorem files_are_arrays_one : ∃ s, Whole (oneFile metaBits) ∧
    Run Access.act (fun s a => a.Roomy s) (oneFile metaBits) s ∧ s.contents 1 1 = [7] ∧ FilesAreArrays s := by
  have h0 : Whole (oneFile metaBits) := oneFile_whole (by decide +kernel)
  obtain ⟨s, hrun, hs⟩ : ∃ s, Run Access.act (fun s a => a.Roomy s) (oneFile metaBits) s ∧ s.contents 1 1 = [7] :=
    exists_run [.write ⟨1, 1⟩ (fun _ => 7) 0 1] (by decide +kernel)
  exact ⟨s, h0, hrun, hs, files_are_arrays h0 hrun⟩

def twoFreeBits : Block := (List.range 28).foldl Bytes.setBit Bytes.zero

/-- A write of two blocks finds two free ones and fails after the first: the indirect block stays in
the hands of the process, and the next read waits for ever. -/
theorem full_disk_locks_file : ∃ s, Whole (oneFile twoFreeBits) ∧
    Run Access.act (fun _ _ => True) (oneFile twoFreeBits) s ∧ Usable s ⟨1, 1⟩ ∧ (readi ⟨1, 1⟩ 0 1).exec s = .block ∧
    ¬ FilesAreArrays s := by
  obtain ⟨s, hrun, hu, hs⟩ : ∃ s, Run Access.act (fun _ _ => True) (oneFile twoFreeBits) s ∧ Usable s ⟨1, 1⟩ ∧
      ((readi ⟨1, 1⟩ 0 1).exec s matches .block) :=
    exists_run [.write ⟨1, 1⟩ (fun _ => 7) 0 1024] (by decide +kernel)
  have hblock : (readi ⟨1, 1⟩ 0 1).exec s = .block := by
    split at hs
    · assumption
    · cases hs
  refine ⟨s, oneFile_whole (by decide +kernel), hrun, hu, hblock, fun h => ?_⟩
  obtain ⟨m, -, hread⟩ := h.reads ⟨1, 1⟩ 0 1 hu (Nat.zero_le _) (by decide)
  simp [hblock] at hread

end Xv6Vsd
