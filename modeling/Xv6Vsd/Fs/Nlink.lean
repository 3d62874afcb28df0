import Xv6Vsd.Fs.Path
import Xv6Vsd.Lib.Run

/-!
# Numbers of links

`nlink` is a 16 bit number, and `sys_link` adds one to it without a test. Here a file system is its inodes and the
entries of all its directories. What `namei` and `nameiparent` find is given by a directory and a name; whether the
directory has room for an entry, the permissions and the references that are held elsewhere are inputs.
-/

namespace Xv6Vsd.Nlink

open Function List Option

structure Inode where
  type : Int16
  nlink : Int16

structure Entry where
  dir : Nat
  name : List UInt8
  inum : Nat
  deriving DecidableEq

structure State where
  inode : Nat → Inode
  entries : List Entry

namespace State

def dirlookup (s : State) (dir : Nat) (name : List UInt8) : Option Entry :=
  s.entries.find? fun e => e.dir = dir ∧ e.name = name

def setNlink (s : State) (i : Nat) (n : Int16) : State :=
  { s with inode := update s.inode i { s.inode i with nlink := n } }

def iput (s : State) (i : Nat) (last : Bool) : State :=
  if last ∧ (s.inode i).nlink = 0 then { s with inode := update s.inode i { s.inode i with type := 0 } } else s

def dirlink (s : State) (dir : Nat) (name : List UInt8) (i : Nat) (fits : Bool) : Res State Int :=
  if (s.dirlookup dir name).isSome then .ok (-1) s
  else if fits then .ok 0 { s with entries := ⟨dir, name, i⟩ :: s.entries } else .panic "dirlink"

def isdirempty (s : State) (i : Nat) : Bool := s.entries.all fun e => e.dir ≠ i ∨ e.name = dot ∨ e.name = dotdot

def parent (s : State) (dp : Option Nat) : Option Nat := dp.filter fun d => (s.inode d).type = tDir

end State

structure Link where
  old : Option (Nat × List UInt8)
  parent : Option Nat
  name : List UInt8
  sameDev : Bool
  fits : Bool
  last : Bool

def State.linkBad (s : State) (i : Nat) (last : Bool) : Res State Int :=
  .ok (-1) ((s.setNlink i ((s.inode i).nlink - 1)).iput i last)

def State.sysLink (s : State) (a : Link) : Res State Int := match a.old.bind fun x => s.dirlookup x.1 x.2 with
  | none => .ok (-1) s
  | some e =>
    if (s.inode e.inum).type = tDir then .ok (-1) (s.iput e.inum a.last)
    else
      let s := s.setNlink e.inum ((s.inode e.inum).nlink + 1)
      match s.parent a.parent with
      | none => s.linkBad e.inum a.last
      | some dp =>
        if !a.sameDev then s.linkBad e.inum a.last
        else (s.dirlink dp a.name e.inum a.fits).bind fun r s =>
          if r < 0 then s.linkBad e.inum a.last else .ok 0 (s.iput e.inum a.last)

def State.sysUnlink (s : State) (dp : Option Nat) (name : List UInt8) (denied last : Bool) : Res State Int :=
  match s.parent dp with
  | none => .ok (-1) s
  | some dp =>
    if name = dot ∨ name = dotdot then .ok (-1) s
    else match s.dirlookup dp name with
      | none => .ok (-1) s
      | some e =>
        if denied then .ok (-1) s
        else if (s.inode e.inum).nlink < 1 then .panic "unlink: nlink < 1"
        else if (s.inode e.inum).type = tDir ∧ !s.isdirempty e.inum then .ok (-1) (s.iput e.inum last)
        else
          let n := (s.inode e.inum).nlink
          let s1 := { s with entries := s.entries.erase e }
          let s2 := if (s.inode e.inum).type = tDir then s1.setNlink dp ((s.inode dp).nlink - 1) else s1
          .ok 0 ((s2.setNlink e.inum (n - 1)).iput e.inum last)

inductive Act where
  | link (a : Link)
  | unlink (dp : Option Nat) (name : List UInt8) (denied last : Bool)
  | put (i : Nat)

def returned : Res State Int → Option State
  | .ok _ s => some s
  | _ => none

def act (s : State) : Act → Option State
  | .link a => returned (s.sysLink a)
  | .unlink dp name denied last => returned (s.sysUnlink dp name denied last)
  | .put i => some (s.iput i true)

/-! ## The number of names -/

def State.count (s : State) (i : Nat) : Nat := s.entries.countP fun e => e.inum = i

/-- The number of links of file `i` is the number of its names, and it is not freed while it has one. -/
structure Counted (i : Nat) (s : State) : Prop where
  file : (s.inode i).type ≠ tDir
  nlink : (s.inode i).nlink.toInt = s.count i
  kept : s.count i ≠ 0 → (s.inode i).type ≠ 0

def Below (i : Nat) (s : State) : Act → Prop
  | .link a => ∀ x ∈ a.old, ∀ e ∈ s.dirlookup x.1 x.2, e.inum = i → (s.inode i).nlink ≠ 32767
  | _ => True

variable {s s' : State} {i j : Nat}

theorem toInt_succ {n : Int16} (h : n ≠ 32767) : (n + 1).toInt = n.toInt + 1 := by
  have hlt := Int16.toInt_lt n
  have hle := Int16.le_toInt n
  have hne : n.toInt ≠ 32767 := fun he => h (Int16.toInt_inj.mp he)
  rw [Int16.toInt_add]
  exact Int.bmod_eq_of_le (by simp; omega) (by simp; omega)

theorem toInt_pred {n : Int16} (h : 0 < n.toInt) : (n - 1).toInt = n.toInt - 1 := by
  have hlt := Int16.toInt_lt n
  rw [Int16.toInt_sub]
  exact Int.bmod_eq_of_le (by simp; omega) (by simp; omega)

theorem returned_eq_some {r} (h : returned r = some s) : ∃ a, r = .ok a s := by
  cases r <;> cases h; exact ⟨_, rfl⟩

theorem dirlookup_mem {e d name} (h : s.dirlookup d name = some e) : e ∈ s.entries := mem_of_find?_eq_some h

theorem count_pos {e} (h : e ∈ s.entries) : 0 < s.count e.inum := countP_pos_iff.mpr ⟨e, h, by simp⟩

namespace Counted

variable (h : Counted i s)
include h

theorem iput (j : Nat) (last : Bool) : Counted i (s.iput j last) := by
  unfold State.iput
  split
  · next hz =>
    obtain rfl | hne := eq_or_ne i j
    · have h0 : s.count i = 0 := by
        have := h.nlink
        rw [hz.2] at this
        exact Int.natCast_eq_zero.mp this.symm
      refine ⟨by simp [tDir], ?_, fun hc => absurd h0 hc⟩
      simp only [update_self]
      exact h.nlink
    · refine ⟨?_, ?_, ?_⟩ <;> simp only [update_of_ne hne]
      · exact h.file
      · exact h.nlink
      · exact h.kept
  · exact h

theorem of_same (hi : s'.inode i = s.inode i) (hc : s'.count i = s.count i) : Counted i s' :=
  ⟨hi ▸ h.file, by rw [hi, hc, h.nlink], fun h0 => hi ▸ h.kept (hc ▸ h0)⟩

theorem setNlink (hne : i ≠ j) (n : Int16) : Counted i (s.setNlink j n) := h.of_same (update_of_ne hne ..) rfl

attribute [local simp] State.setNlink

theorem sysLink {a : Link} {r} (hok : Below i s (.link a)) (ha : s.sysLink a = .ok r s') : Counted i s' := by
  unfold State.sysLink at ha
  split at ha
  · cases ha; exact h
  next e he =>
  obtain ⟨x, hx, hlook⟩ := bind_eq_some_iff.mp he
  split at ha
  · cases ha; exact h.iput ..
  have hbad : ∀ s1, s1 = s.setNlink e.inum ((s.inode e.inum).nlink + 1) → s1.linkBad e.inum a.last = .ok r s' →
      Counted i s' := by
    rintro s1 rfl hs
    have hback : (s.setNlink e.inum ((s.inode e.inum).nlink + 1)).setNlink e.inum
        (((s.setNlink e.inum ((s.inode e.inum).nlink + 1)).inode e.inum).nlink - 1) = s := by
      simp [Int16.add_sub_cancel]
    rw [State.linkBad, hback] at hs
    cases hs
    exact h.iput ..
  dsimp only at ha
  split at ha
  · exact hbad _ rfl ha
  split at ha
  · exact hbad _ rfl ha
  unfold State.dirlink at ha
  split at ha
  · exact hbad _ rfl ha
  split at ha
  case isFalse => cases ha
  cases ha
  refine Counted.iput ?_ ..
  obtain rfl | hne := eq_or_ne i e.inum
  · have hpos := count_pos (dirlookup_mem hlook)
    refine ⟨?_, ?_, fun _ => ?_⟩
    · simpa using h.file
    · simpa [State.count, toInt_succ (hok x hx e hlook rfl)] using h.nlink
    · simpa using h.kept hpos.ne'
  · exact h.of_same (update_of_ne hne ..) (by simp [State.count, hne.symm])

theorem ne_panic {dp d name denied last} (hdp : s.parent dp = some d) {e}
    (he : s.dirlookup d name = some e) (hi : e.inum = i) (msg : String) :
      s.sysUnlink dp name denied last ≠ .panic msg := by
  subst hi
  have hpos := count_pos (dirlookup_mem he)
  have hlinks : ¬ (s.inode e.inum).nlink < 1 := by rw [Int16.lt_iff_toInt_lt, h.nlink]; simp; omega
  simp only [State.sysUnlink, hdp, he, if_neg hlinks]
  repeat' split
  all_goals nofun

theorem sysUnlink {dp name denied last a} (ha : s.sysUnlink dp name denied last = .ok a s') : Counted i s' := by
  unfold State.sysUnlink at ha
  split at ha
  · cases ha; exact h
  next d hd =>
  have hdir : i ≠ d := by
    rintro rfl
    obtain ⟨-, ht⟩ := filter_eq_some_iff.mp hd
    exact h.file (of_decide_eq_true ht)
  split at ha
  · cases ha; exact h
  split at ha
  · cases ha; exact h
  next e he =>
  have hmem := dirlookup_mem he
  split at ha
  · cases ha; exact h
  split at ha
  · cases ha
  split at ha
  · cases ha; exact h.iput ..
  cases ha
  refine Counted.iput ?_ ..
  have hcount : ∀ t : State, t.entries = s.entries.erase e → t.count i = s.count i - if e.inum = i then 1 else 0 := by
    intro t ht
    simp [State.count, ht, countP_erase, hmem]
  obtain rfl | hne := eq_or_ne i e.inum
  · have hpos := count_pos hmem
    rw [if_neg h.file]
    refine ⟨?_, ?_, fun hc => ?_⟩
    · simpa using h.file
    · have hn := h.nlink
      simp only [State.setNlink, update_self]
      rw [toInt_pred (by omega), hcount _ rfl, hn, if_pos rfl]
      omega
    · simpa using h.kept hpos.ne'
  · refine Counted.setNlink ?_ hne _
    split
    · exact h.of_same (update_of_ne hdir ..) ((hcount _ rfl).trans (by simp [hne.symm]))
    · exact h.of_same rfl ((hcount _ rfl).trans (by simp [hne.symm]))

end Counted

/-- As long as no link is made to a file with 32767 of them, the numbers are right and `sys_unlink`
does not panic. -/
theorem links_counted {s0 : State} (h0 : Counted i s0) (hrun : Run act (Below i) s0 s) :
    Counted i s ∧ ∀ dp d name denied last e msg, s.parent dp = some d → s.dirlookup d name = some e → e.inum = i →
      s.sysUnlink dp name denied last ≠ .panic msg := by
  have h : Counted i s := by
    refine hrun.invariant h0 fun s a s' h hok ha => ?_
    cases a with
    | link a => obtain ⟨r, hs⟩ := returned_eq_some ha; exact h.sysLink hok hs
    | unlink => obtain ⟨r, hs⟩ := returned_eq_some ha; exact h.sysUnlink hs
    | put j => cases ha; exact h.iput ..
  exact ⟨h, fun _ _ _ _ _ _ msg hd he hi => h.ne_panic hd he hi msg⟩

/-! ### A file with many names -/

def name (k : Nat) : List UInt8 := [UInt8.ofNat (65 + k / 1024), UInt8.ofNat (65 + k / 32 % 32),
    UInt8.ofNat (65 + k % 32)]

def names : Nat → List Entry
  | 0 => [⟨1, name 0, 2⟩]
  | k + 1 => ⟨1, name (k + 1), 2⟩ :: names k

def linked (k : Nat) : State := ⟨fun i => if i = 2 then ⟨tFile, Int16.ofNat (k + 1)⟩ else ⟨tDir, 1⟩, names k⟩

def linkTo (k : Nat) : Act := .link ⟨some (1, name 0), some 1, name k, true, true, false⟩

variable {k : Nat}

theorem name_inj (hj : j < 32768) (hk : k < 32768) (h : name j = name k) : j = k := by
  simp only [name, cons.injEq, ← UInt8.toNat_inj, UInt8.toNat_ofNat'] at h; omega

theorem of_mem_names {e} (h : e ∈ names k) : e.inum = 2 ∧ ∃ j ≤ k, e.name = name j := by
  induction k with
  | zero => cases mem_singleton.mp h; exact ⟨rfl, 0, Nat.le_refl 0, rfl⟩
  | succ k ih =>
    obtain rfl | h := mem_cons.mp h
    · exact ⟨rfl, k + 1, Nat.le_refl _, rfl⟩
    · obtain ⟨hi, j, hj, he⟩ := ih h; exact ⟨hi, j, Nat.le_succ_of_le hj, he⟩

theorem first_mem_names : (⟨1, name 0, 2⟩ : Entry) ∈ names k := by
  induction k with
  | zero => exact mem_singleton_self _
  | succ k ih => exact mem_cons_of_mem _ ih

theorem count_linked : (linked k).count 2 = k + 1 := by
  refine (countP_eq_length.mpr fun e he => by simpa using (of_mem_names he).1).trans ?_
  induction k with
  | zero => rfl
  | succ k ih => exact congrArg (· + 1) ih

theorem dirlookup_first : ∃ e, (linked k).dirlookup 1 (name 0) = some e ∧ e.inum = 2 := by
  cases he : (linked k).dirlookup 1 (name 0) with
  | none => exact absurd (find?_eq_none.mp he _ first_mem_names) (by simp)
  | some e => exact ⟨e, rfl, (of_mem_names (dirlookup_mem he)).1⟩

theorem dirlookup_new (hk : k + 1 < 32768) : (linked k).dirlookup 1 (name (k + 1)) = none := by
  refine find?_eq_none.mpr fun e he => ?_
  obtain ⟨-, j, hj, hname⟩ := of_mem_names he
  have hne : name j ≠ name (k + 1) := fun h => by
    have := name_inj (by omega) hk h
    omega
  simp [hname, hne]

theorem act_linkTo (hk : k + 1 < 32768) : act (linked k) (linkTo (k + 1)) = some (linked (k + 1)) := by
  obtain ⟨e, he, hi⟩ := dirlookup_first (k := k)
  have hinode : update (linked k).inode 2 ⟨tFile, Int16.ofNat (k + 1) + 1⟩ = (linked (k + 1)).inode := by
    funext i
    by_cases h2 : i = 2 <;> simp [linked, h2]
  have hs : (linked k).setNlink 2 (((linked k).inode 2).nlink + 1) = ⟨(linked (k + 1)).inode, names k⟩ := by
    rw [← hinode]
    rfl
  have hlink : (⟨(linked (k + 1)).inode, names k⟩ : State).dirlink 1 (name (k + 1)) 2 true =
    .ok 0 (linked (k + 1)) := by
    have hnew : (⟨(linked (k + 1)).inode, names k⟩ : State).dirlookup 1 (name (k + 1)) = none := dirlookup_new hk
    simp only [State.dirlink, hnew]
    rfl
  have hfile : ((linked k).inode 2).type ≠ tDir := by simp [linked, tFile, tDir]
  simp only [act, linkTo, State.sysLink, bind_some, he, hi, if_neg hfile, hs]
  rw [show State.parent ⟨(linked (k + 1)).inode, names k⟩ (some 1) = some 1 from rfl]
  simp only [hlink, State.iput]
  rfl

theorem run_linked (hk : k < 32768) : Run act (fun _ _ => True) (linked 0) (linked k) := by
  induction k with
  | zero => exact .start
  | succ k ih => exact (ih (by omega)).step trivial (act_linkTo hk)

theorem counted_linked (hk : k < 32767) : Counted 2 (linked k) := by
  refine ⟨by simp [linked, tFile, tDir], ?_, fun _ => by simp [linked, tFile]⟩
  rw [count_linked]
  simp only [linked, if_true]
  exact Int16.toInt_ofNat_of_lt (by omega)

theorem links_counted_two : ∃ s, Run act (Below 2) (linked 0) s ∧ s.count 2 = 2 ∧ Counted 2 s := by
  have hbelow : Below 2 (linked 0) (linkTo 1) := fun _ _ _ _ _ => by decide
  have hrun : Run act (Below 2) (linked 0) (linked 1) := .step .start hbelow (act_linkTo (by decide))
  exact ⟨linked 1, hrun, count_linked, (links_counted (counted_linked (by decide)) hrun).1⟩

/-- After 32767 links the file has 32768 names and -32768 links, and the first `unlink` is the end of the system. -/
theorem nlink_overflows : Counted 2 (linked 0) ∧ Run act (fun _ _ => True) (linked 0) (linked 32767) ∧
    (linked 32767).count 2 = 32768 ∧ ((linked 32767).inode 2).nlink = -32768 ∧
    (linked 32767).sysUnlink (some 1) (name 0) false false = .panic "unlink: nlink < 1" := by
  refine ⟨counted_linked (by decide), run_linked (by decide), count_linked, rfl, ?_⟩
  obtain ⟨e, he, hi⟩ := dirlookup_first (k := 32767)
  have hparent : (linked 32767).parent (some 1) = some 1 := rfl
  have hneg : ((linked 32767).inode 2).nlink < 1 := by decide
  simp only [State.sysUnlink, hparent, he, hi, if_pos hneg]
  rfl

end Xv6Vsd.Nlink
