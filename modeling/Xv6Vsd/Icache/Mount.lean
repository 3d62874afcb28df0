import Mathlib.Algebra.BigOperators.Fin
import Mathlib.Tactic.Ring
import Xv6Vsd.Disk.Layout
import Xv6Vsd.Lib.Prog

/-!
# Mounting and unmounting (`fs.c`)

One process at a time; a pointer to an inode is the number of its entry in the cache. `imount` takes four references and
`iunmount` drops three at most, of which the one to the mount point goes by a field that is never set.
-/

namespace Xv6Vsd.Mount

open Function Prog Finset

abbrev Slot : Type := Fin ninode

structure Inode where
  dev : Nat
  inum : Nat
  ref : Int
  busy : Bool
  valid : Bool
  isPoint : Bool
  isRoot : Bool
  mountroot : Option Slot
  mountparent : Option Slot
  mountpoint : Option Slot
  type : Int16

/-- `low` says whether page 0 of the running process is mapped. -/
structure State where
  entry : Slot → Inode
  dotdot : Nat → Nat → Option Nat
  low : Bool

def State.set (s : State) (i : Slot) (x : Inode) : State := { s with entry := update s.entry i x }

abbrev M (α : Type) : Type 1 := Prog State Unit α

def get (i : Slot) : M Inode := act (fun _ => ()) fun s => .ok (s.entry i) s

def mod (i : Slot) (f : Inode → Inode) : M Unit := act (fun _ => ()) fun s => .ok () (s.set i (f (s.entry i)))

def trap : M α := act (fun _ => ()) fun _ => .panic "trap"

def iget (dev inum : Nat) : M Slot := act (fun _ => ()) fun s =>
  match (List.finRange ninode).find? fun i => 0 < (s.entry i).ref ∧ (s.entry i).dev = dev ∧ (s.entry i).inum = inum with
  | some i =>
    match if (s.entry i).isPoint then (s.entry i).mountroot else some i with
    | some i => .ok i (s.set i { s.entry i with ref := (s.entry i).ref + 1 })
    | none => .panic "trap"
  | none =>
    match (List.finRange ninode).find? fun i => (s.entry i).ref = 0 with
    | some i => .ok i (s.set i { s.entry i with
        dev := dev, inum := inum, ref := 1, busy := false, valid := false, isPoint := false, isRoot := false })
    | none => .panic "iget: no inodes"

def dirlookup (dp : Slot) : M (Option Slot) := do
  let x ← get dp
  let found ← act (fun _ => ()) fun s =>
    if x.type ≠ tDir then .panic "dirlookup not DIR" else .ok (s.dotdot x.dev x.inum) s
  match found with
  | none => pure none
  | some inum =>
    if x.isRoot then
      match x.mountparent with
      | none => trap
      | some q => do
        let y ← get q
        some <$> iget y.dev y.inum
    else some <$> iget x.dev inum

def iref (i : Slot) : M Unit := mod i fun x => { x with ref := x.ref + 1 }

def iunref : Option Slot → M Unit
  | none => pure ()
  | some i => mod i fun x => if x.ref < 1 then x else { x with ref := x.ref - 1 }

def ilock : Option Slot → M Unit
  | none => pure ()
  | some i => act (fun _ => ()) fun s =>
    if (s.entry i).ref < 1 then .ok () s
    else if (s.entry i).busy then .block
    else .ok () (s.set i { s.entry i with busy := true, valid := true })

def iunlock : Option Slot → M Unit
  | none => pure ()
  | some i => mod i fun x => if x.ref < 1 then x else { x with busy := false }

def join (mroot mpoint parent : Slot) : M Unit := do
  iref parent
  iref mpoint
  iref mroot
  mod mpoint fun x => { x with isPoint := true }
  mod mroot fun x => { x with isRoot := true }
  mod mpoint fun x => { x with mountroot := some mroot }
  mod mroot fun x => { x with mountparent := some parent }
  iunlock (some mroot)
  iunlock (if parent ≠ mroot then some parent else none)
  iunlock (if mpoint ≠ mroot then some mpoint else none)

def locks (mroot mpoint parent : Slot) : M Unit := do
  ilock (some mroot)
  ilock (if parent ≠ mroot then some parent else none)
  ilock (if mpoint ≠ mroot then some mpoint else none)

def imount0 (mroot mpoint parent : Slot) : M Unit := do
  locks mroot mpoint parent
  join mroot mpoint parent

def imount (mroot mpoint : Slot) : M Int := do
  let x ← get mpoint
  if x.type ≠ tDir then pure (-1)
  else match ← dirlookup mpoint with
    | none => pure (-1)
    | some parent => do
      imount0 mroot mpoint parent
      pure 0

def clearPoint : Option Slot → M Unit
  -- the flags of the inode at address 0
  | none => act (fun _ => ()) fun s => if s.low then .ok () s else .panic "trap"
  | some mpoint => mod mpoint fun x => { x with isPoint := false }

def iunmount (mroot : Slot) : M Unit := do
  let x ← get mroot
  ilock (some mroot)
  ilock x.mountpoint
  ilock x.mountparent
  iunref (some mroot)
  iunref x.mountpoint
  iunref x.mountparent
  clearPoint x.mountpoint
  mod mroot fun x => { x with isRoot := false }
  iunlock (some mroot)
  iunlock x.mountpoint
  iunlock x.mountparent

/-! ## References -/

def State.total (s : State) : Int := ∑ i, (s.entry i).ref

def Gains (n : Int) (p : M α) : Prop := ∀ s a s', p.exec s = .ok a s' → s.total + n ≤ s'.total

variable {α β : Type} {s s' : State} {i : Slot} {m n : Int}

@[simp] theorem set_entry (s : State) (i : Slot) (x : Inode) : (s.set i x).entry = update s.entry i x := rfl

theorem total_set (s : State) (i : Slot) (x : Inode) : (s.set i x).total + (s.entry i).ref = s.total + x.ref := by
  have hrest : ∑ j ∈ univ.erase i, ((s.set i x).entry j).ref = ∑ j ∈ univ.erase i, (s.entry j).ref :=
    sum_congr rfl fun j hj => by rw [set_entry, update_of_ne (ne_of_mem_erase hj)]
  have hnew := add_sum_erase univ (fun j => ((s.set i x).entry j).ref) (mem_univ i)
  have hold := add_sum_erase univ (fun j => (s.entry j).ref) (mem_univ i)
  rw [hrest, set_entry, update_self] at hnew
  rw [State.total, State.total, set_entry, ← hnew, ← hold]
  ring

theorem Gains.bind {p} {q : α → M β} (hp : Gains m p) (hq : ∀ a, Gains n (q a)) : Gains (m + n) (p >>= q) := by
  intro s b s' h
  obtain ⟨a, s1, h1, h2⟩ := bind_ok h
  have := hp s a s1 h1
  have := hq a s1 b s' h2
  omega

theorem Gains.next {p : M α} {q : α → M β} (hp : Gains 0 p) (hq : ∀ a, Gains n (q a)) : Gains n (p >>= q) := by
  have := hp.bind hq; rwa [Int.zero_add] at this

theorem Gains.le {p : M α} (hp : Gains m p) (h : n ≤ m) : Gains n p := fun s a s' he => by
  have := hp s a s' he
  omega

theorem gains_of_same {p : M α} (h : ∀ s a s', p.exec s = .ok a s' → s' = s) : Gains 0 p := fun s a s' he => by
  rw [h s a s' he]
  omega

theorem gains_mod {f} (h : ∀ x, x.ref + n ≤ (f x).ref) : Gains n (mod i f) := by
  intro s a s' he
  cases he
  have := h (s.entry i)
  have := total_set s i (f (s.entry i))
  omega

theorem gains_iget (dev inum : Nat) : Gains 1 (iget dev inum) := by
  intro s a s' h
  simp only [iget, exec_act] at h
  split at h
  · split at h <;> cases h
    have := total_set s a { s.entry a with ref := (s.entry a).ref + 1 }
    dsimp only at this
    omega
  split at h <;> cases h
  next hz =>
  have hz : (s.entry a).ref = 0 := by simpa using List.find?_some hz
  have := total_set s a { s.entry a with
    dev := dev, inum := inum, ref := 1, busy := false, valid := false, isPoint := false, isRoot := false }
  dsimp only at this
  omega

theorem gains_iunref (o : Option Slot) : Gains (-1) (iunref o) := by
  cases o with
  | none => exact (gains_of_same fun s a s' h => by cases h; rfl).le (by decide)
  | some i =>
    rw [iunref]
    refine gains_mod fun x => ?_
    split
    · omega
    · exact Int.le_refl _

theorem gains_iunlock (o : Option Slot) : Gains 0 (iunlock o) := by
  cases o with
  | none => exact gains_of_same fun s a s' h => by cases h; rfl
  | some i =>
    rw [iunlock]
    refine gains_mod fun x => ?_
    split <;> simp

theorem gains_ilock (o : Option Slot) : Gains 0 (ilock o) := by
  cases o with
  | none => exact gains_of_same fun s a s' h => by cases h; rfl
  | some i =>
    intro s a s' h
    simp only [ilock, exec_act] at h
    split at h
    · cases h; omega
    split at h <;> cases h
    have := total_set s i { s.entry i with busy := true, valid := true }
    dsimp only at this
    omega

theorem gains_flag {f} (h : ∀ x, (f x).ref = x.ref) : Gains 0 (mod i f) := gains_mod fun x => by rw [h, Int.add_zero]

theorem gains_join (mroot mpoint parent : Slot) : Gains (1 + (1 + (1 + 0))) (join mroot mpoint parent) := by
  have hiref : ∀ i, Gains 1 (iref i) := fun i => gains_mod fun x => Int.le_refl _
  exact (hiref parent).bind fun _ => (hiref mpoint).bind fun _ => (hiref mroot).bind fun _ =>
    .next (gains_flag fun _ => rfl) fun _ => .next (gains_flag fun _ => rfl) fun _ => .next (gains_flag fun _ => rfl)
      fun _ =>
    .next (gains_flag fun _ => rfl) fun _ => (gains_iunlock _).next fun _ => (gains_iunlock _).next
      fun _ => gains_iunlock _

theorem gains_iunmount (mroot : Slot) : Gains (-1 + (-1 + (-1 + 0))) (iunmount mroot) := by
  have hget : Gains 0 (get mroot) := gains_of_same fun s a s' h => by cases h; rfl
  have hclear : ∀ o, Gains 0 (clearPoint o) := fun o => by
    cases o with
    | none =>
      refine gains_of_same fun s a s' h => ?_
      rw [clearPoint, exec_act] at h
      split at h <;> cases h
      rfl
    | some i => rw [clearPoint]; exact gains_flag fun _ => rfl
  exact hget.next fun x => (gains_ilock _).next fun _ => (gains_ilock _).next fun _ => (gains_ilock _).next fun _ =>
    (gains_iunref _).bind fun _ => (gains_iunref _).bind fun _ => (gains_iunref _).bind fun _ => (hclear _).next
      fun _ =>
    .next (gains_flag fun _ => rfl) fun _ => (gains_iunlock _).next fun _ => (gains_iunlock _).next
      fun _ => gains_iunlock _

/-! ## When a mount succeeds -/

def Returns (p : M α) : Prop := ∀ s, ∃ a s', p.exec s = .ok a s'

theorem Returns.bind {p} {q : α → M β} (hp : Returns p) (hq : ∀ a, Returns (q a)) : Returns (p >>= q) :=
    fun s => by
  obtain ⟨a, s1, h1⟩ := hp s
  obtain ⟨b, s2, h2⟩ := hq a s1
  exact ⟨b, s2, bind_ok_iff.mpr ⟨a, s1, h1, h2⟩⟩

theorem returns_join (mroot mpoint parent : Slot) : Returns (join mroot mpoint parent) := by
  have hmod : ∀ i f, Returns (mod i f) := fun i f s => ⟨(), _, rfl⟩
  have hunlock : ∀ o, Returns (iunlock o) := fun o s => by cases o <;> exact ⟨(), _, rfl⟩
  exact (hmod _ _).bind fun _ => (hmod _ _).bind fun _ => (hmod _ _).bind fun _ => (hmod _ _).bind fun _ =>
    (hmod _ _).bind fun _ => (hmod _ _).bind fun _ => (hmod _ _).bind fun _ => (hunlock _).bind fun _ =>
    (hunlock _).bind fun _ => hunlock _

/-- The mount point is a directory with an entry `..`, and `ilock` gets the inodes. -/
def Mounts (s : State) (mroot mpoint : Slot) : Prop := (s.entry mpoint).type = tDir ∧ ∃ parent s1 s2,
  (dirlookup mpoint).exec s = .ok (some parent) s1 ∧ (locks mroot mpoint parent).exec s1 = .ok () s2

theorem imount_ok {mroot mpoint} : (imount mroot mpoint).exec s = .ok 0 s' ↔ (s.entry mpoint).type = tDir ∧
    ∃ parent s1, (dirlookup mpoint).exec s = .ok (some parent) s1 ∧
      (imount0 mroot mpoint parent).exec s1 = .ok () s' := by
  simp only [imount, exec_bind, get, exec_act, Res.ok_bind]
  by_cases ht : (s.entry mpoint).type = tDir
  · simp only [ht, ne_eq, not_true, if_false, true_and, exec_bind, Res.bind_eq_ok]
    constructor
    · rintro ⟨o, s1, h1, h2⟩
      cases o with
      | none => cases h2
      | some parent => obtain ⟨u, s2, h3, h4⟩ := bind_ok h2; cases h4; exact ⟨parent, s1, h1, h3⟩
    · rintro ⟨parent, s1, h1, h2⟩; exact ⟨some parent, s1, h1, bind_ok_iff.mpr ⟨(), s', h2, rfl⟩⟩
  · simp [ht]

theorem mounts_iff {mroot mpoint} : Mounts s mroot mpoint ↔ ∃ s', (imount mroot mpoint).exec s = .ok 0 s' := by
  constructor
  · rintro ⟨ht, parent, s1, s2, h1, h2⟩
    obtain ⟨u, s', h3⟩ := returns_join mroot mpoint parent s2
    exact ⟨s', imount_ok.mpr ⟨ht, parent, s1, h1, bind_ok_iff.mpr ⟨(), s2, h2, h3⟩⟩⟩
  rintro ⟨s', h⟩
  obtain ⟨ht, parent, s1, h1, h2⟩ := imount_ok.mp h
  obtain ⟨u, s2, h3, -⟩ := bind_ok h2
  exact ⟨ht, parent, s1, s2, h1, h3⟩

theorem gains_dirlookup {dp parent} (h : (dirlookup dp).exec s = .ok (some parent) s') : s.total + 1 ≤ s'.total := by
  obtain ⟨x, s1, h1, h⟩ := bind_ok h
  obtain ⟨found, s2, h2, h⟩ := bind_ok h
  cases h1
  simp only [exec_act] at h2
  split at h2 <;> cases h2
  split at h
  · cases h
  have hget : ∀ dev inum, (some <$> iget dev inum : M (Option Slot)).exec s = .ok (some parent) s' →
    s.total + 1 ≤ s'.total := by
    intro dev inum h
    obtain ⟨a, s3, h3, h4⟩ := bind_ok h
    cases h4
    exact gains_iget dev inum s _ _ h3
  split at h
  · split at h
    · cases h
    · obtain ⟨y, s3, h3, h⟩ := bind_ok h; cases h3; exact hget _ _ h
  · exact hget _ _ h

theorem gains_imount {mroot mpoint} (h : (imount mroot mpoint).exec s = .ok 0 s') : s.total + 4 ≤ s'.total := by
  obtain ⟨-, parent, s1, h1, h2⟩ := imount_ok.mp h
  have hlocks : Gains (1 + (1 + (1 + 0))) (imount0 mroot mpoint parent) :=
    .next ((gains_ilock _).next fun _ => (gains_ilock _).next fun _ => gains_ilock _) fun _ => gains_join _ _ _
  have := gains_dirlookup h1
  have := hlocks s1 () s' h2
  omega

def Inode.held (x : Inode) : Int × Bool × Bool × Bool × Bool := (x.ref, x.busy, x.valid, x.isPoint, x.isRoot)

/-- The mount point leads to the mounted root and its `..` to the parent; unmounting leaves every
inode as it was. -/
def MountInverse (s : State) (mroot mpoint : Slot) : Prop := ∀ s1, (imount mroot mpoint).exec s = .ok 0 s1 →
  (∃ s', (iget (s.entry mpoint).dev (s.entry mpoint).inum).exec s1 = .ok mroot s') ∧
  (∃ parent s0 s', (dirlookup mpoint).exec s = .ok (some parent) s0 ∧ (dirlookup mroot).exec s1 =
    .ok (some parent) s') ∧
  ∃ s2, (iunmount mroot).exec s1 = .ok () s2 ∧ ∀ i, (s2.entry i).held = (s.entry i).held

/-- Mounting can be undone only where it is not done. -/
theorem mount_inverse_iff (s : State) (mroot mpoint : Slot) :
    MountInverse s mroot mpoint ↔ ¬ Mounts s mroot mpoint := by
  constructor
  · intro h hmounts
    obtain ⟨s1, hm⟩ := mounts_iff.mp hmounts
    obtain ⟨-, -, s2, h2, hsame⟩ := h s1 hm
    have hrefs : s2.total = s.total := sum_congr rfl fun i _ => congrArg Prod.fst (hsame i)
    have := gains_imount hm
    have := gains_iunmount mroot s1 () s2 h2
    omega
  · exact fun h s1 hm => absurd (mounts_iff.mpr ⟨s1, hm⟩) h

def twoDisks : State where
  entry i := if i = 0 then ⟨1, 1, 1, false, true, false, false, none, none, none, tDir⟩
    else if i = 1 then ⟨1, 5, 1, false, true, false, false, none, none, none, tDir⟩
    else if i = 2 then ⟨2, 1, 1, false, true, false, false, none, none, none, tDir⟩
    else ⟨0, 0, 0, false, false, false, false, none, none, none, 0⟩
  dotdot _ _ := some 1
  low := true

/-- Device 2 is mounted on the directory and unmounted. The directory and its parent had one reference each. -/
theorem unmount_leaves_references : ∃ s1 s2, (imount 2 1).exec twoDisks = .ok 0 s1 ∧ (iunmount 2).exec s1 = .ok () s2 ∧
    (s2.entry 0).ref = 2 ∧ (s2.entry 1).ref = 2 ∧ (s2.entry 1).isPoint = true ∧ ¬ MountInverse twoDisks 2 1 := by
  have hrun : ((imount 2 1).exec twoDisks).yields (fun a s1 => a = 0 ∧ ((iunmount 2).exec s1).yields (fun _ s2 =>
    (s2.entry 0).ref = 2 ∧ (s2.entry 1).ref = 2 ∧ (s2.entry 1).isPoint = true) = true) = true := by decide +kernel
  obtain ⟨a, s1, hm, h⟩ := Res.yields_ok hrun
  obtain ⟨rfl, hrest⟩ := of_decide_eq_true h
  obtain ⟨_, s2, hu, hleft⟩ := Res.yields_ok hrest
  obtain ⟨hparent, hpoint, hflag⟩ := of_decide_eq_true hleft
  refine ⟨s1, s2, hm, hu, hparent, hpoint, hflag, fun h => ?_⟩
  obtain ⟨-, -, s2', h2, hsame⟩ := h s1 hm
  rw [hu] at h2
  cases h2
  have hrefs : (s2.entry 0).ref = 1 := congrArg Prod.fst (hsame 0)
  omega

end Xv6Vsd.Mount
