import Mathlib.Algebra.Order.BigOperators.Group.Finset
import Xv6Vsd.Mkproto.Append

/-!
# What the entries ask for

The tree that a list of entries describes, computed without an image: the contents of every inode,
and how many directories every directory has in it.
-/

namespace Xv6Vsd.Mkproto

open Prog List Function

structure Plan where
  next : Nat
  dirs : List Named
  files : List Named
  data : Nat → List UInt8
  isDir : Nat → Bool
  kids : Nat → Nat

def entryBytes (name : List UInt8) (inum : Nat) : List UInt8 := (List.range 16).map (Dirent.bytes name inum)

namespace Plan

def root : Plan where
  next := 2
  dirs := [⟨[slash], 1⟩]
  files := []
  data := update (fun _ => []) 1 (entryBytes dot 1 ++ entryBytes dotdot 1)
  isDir i := i = 1
  kids _ := 0

def append (P : Plan) (i : Nat) (xs : List UInt8) : Plan := { P with data := update P.data i (P.data i ++ xs) }

def addDir (P : Plan) (name : List UInt8) (parent : Nat) : Plan :=
  let P' := ((P.append parent (entryBytes name P.next)).append P.next (entryBytes dot P.next)).append P.next
    (entryBytes dotdot parent)
  { P' with
    next := P.next + 1
    dirs := P.dirs ++ [⟨name, P.next⟩]
    isDir := update P.isDir P.next true
    kids := update P.kids parent (P.kids parent + 1) }

def addFile (P : Plan) (name : List UInt8) (home : Nat) (source : List UInt8) : Plan :=
  let P' := (P.append home (entryBytes name P.next)).append P.next source
  { P' with
    next := P.next + 1
    files := P.files ++ [⟨name, P.next⟩]
    isDir := update P.isDir P.next false }

def add (P : Plan) : Entry → Option Plan
  | .direct name home _ _ => (find P.dirs home).map (P.addDir name)
  | .file home name source _ _ => (find P.dirs home).map fun dir => P.addFile name dir source
  | .kernel name => (find P.files name).map fun _ => P
  | .boot name => (find P.files name).map fun _ => P
  | .sync => none

def addAll (P : Plan) : List Entry → Option Plan
  | [] => some P
  | e :: rest => (P.add e).bind (·.addAll rest)

end Plan

structure Follows (s : Fs) (P : Plan) : Prop where
  image : Image s P.data
  next : s.freeinode = P.next
  dirs : s.dirs = P.dirs
  files : s.files = P.files
  known : ∀ d ∈ P.dirs, d.ino < P.next
  pos : 0 < P.next
  nlink : ∀ i, 0 < i → i < P.next → (s.inodes i).nlink = 1
  type : ∀ i, 0 < i → i < P.next → (s.inodes i).type = if P.isDir i then tDir else tFile

variable {s s' : Fs} {P P' : Plan} {i : Nat}
variable {name : List UInt8} {owner : Int32} {perms : UInt16}

theorem find_mem {l} (h : find l name = some i) : ∃ d ∈ l, d.ino = i := by
  obtain ⟨d, hd, rfl⟩ := Option.map_eq_some_iff.mp h; exact ⟨d, mem_of_find?_eq_some hd, rfl⟩

theorem Follows.append (h : Follows s P) (hi : i < P.next) (hcap : P.next ≤ cap s.sb) {data}
    (he : (iappend i data).exec s = .ok () s') : Follows s' (P.append i data) ∧ Kept s i s' := by
  obtain ⟨-, msg, hp⟩ | ⟨s1, h1, himg, hk⟩ := h.image.iappend (i := i) (by omega) (by rw [h.next]; exact hi) data
  · rw [hp] at he; cases he
  rw [h1] at he
  cases he
  have hframe := hk.frame
  refine ⟨⟨himg, ?_, ?_, ?_, h.known, h.pos, fun i' h0 hlt => ?_, fun i' h0 hlt => ?_⟩, hk⟩
  · exact (congrArg (·.2.2.1) hframe).trans h.next
  · exact (congrArg (·.2.2.2.2.2.2.2.1) hframe).trans h.dirs
  · exact (congrArg (·.2.2.2.2.2.2.2.2.1) hframe).trans h.files
  · by_cases hne : i' = i
    · subst hne; rw [hk.nlink]; exact h.nlink i' h0 hlt
    · rw [hk.others i' (Nat.lt_of_lt_of_le hlt hcap) hne]; exact h.nlink i' h0 hlt
  by_cases hne : i' = i
  · subst hne; rw [hk.type]; exact h.type i' h0 hlt
  · rw [hk.others i' (Nat.lt_of_lt_of_le hlt hcap) hne]; exact h.type i' h0 hlt

theorem Image.relabel {X} (h : Image s X) (h1 : s'.size = s.size) (h2 : s'.bmap = s.bmap)
    (h3 : s'.sb = s.sb) (h4 : s'.image = s.image) (h5 : s'.length = s.length) (h6 : s'.closed = s.closed)
    (h7 : s'.freeinode = s.freeinode) : Image s' X := by
  obtain ⟨_, _, _, _, _, _, _, _, _, _, _, _, _⟩ := s'
  subst h1 h2 h3 h4 h5 h6 h7
  exact ⟨⟨{ h.files.base with }, h.files.holds, h.files.exact⟩, h.size, h.fresh⟩

structure SameMap (s s' : Fs) : Prop where
  sb : s'.sb = s.sb
  size : s'.size = s.size
  bitmap : ∀ b, s.sb.bmapstart ≤ b → b < s.sb.metaEnd → s'.image b = s.image b

theorem SameMap.refl (s : Fs) : SameMap s s := ⟨rfl, rfl, fun _ _ _ => rfl⟩

theorem SameMap.trans {s''} (h : SameMap s s') (h' : SameMap s' s'') : SameMap s s'' :=
  ⟨h'.sb.trans h.sb, h'.size.trans h.size, fun b h1 h2 =>
    (h'.bitmap b (by rw [h.sb]; exact h1) (by rw [h.sb]; exact h2)).trans (h.bitmap b h1 h2)⟩

theorem Kept.sameMap (h : Kept s i s') : SameMap s s' := ⟨frame_sb h.frame, frame_size h.frame, h.bitmap⟩

def Plan.alloc (P : Plan) (dir : Bool) : Plan :=
  { P with next := P.next + 1, isDir := update P.isDir P.next dir }

theorem Follows.alloc (h : Follows s P) (dir : Bool) (hcap : P.next < cap s.sb) {type}
    (ht : type = if dir then tDir else tFile) {ino} (he : (ialloc type owner perms).exec s = .ok ino s') :
    ino = P.next ∧ Follows s' (P.alloc dir) ∧ SameMap s s' := by
  obtain ⟨s1, h1, himg, hframe, hbit, hothers, htype, hnlink⟩ :=
    h.image.ialloc (by rw [h.next]; exact hcap) type owner perms
  rw [h1] at he; cases he
  rw [h.next] at hothers htype hnlink
  refine ⟨h.next, ⟨himg, ?_, ?_, ?_, fun d hd => ?_, Nat.succ_pos _, fun i h0 hlt => ?_, fun i h0 hlt => ?_⟩,
    congrArg (·.2.2.2.1) hframe, congrArg (·.2.1) hframe, fun b hb _ => hbit b hb⟩
  · exact (congrArg (·.2.2.1) hframe).trans (congrArg (· + 1) h.next)
  · exact (congrArg (·.2.2.2.2.2.2.2.1) hframe).trans h.dirs
  · exact (congrArg (·.2.2.2.2.2.2.2.2.1) hframe).trans h.files
  · exact Nat.lt_succ_of_lt (h.known d hd)
  · have hlt' : i < P.next + 1 := hlt
    by_cases hne : i = P.next
    · rw [hne, hnlink]
    · rw [hothers i (by omega) hne]; exact h.nlink i h0 (by omega)
  have hlt' : i < P.next + 1 := hlt
  by_cases hne : i = P.next
  · rw [hne, htype, ht]; simp [Plan.alloc]
  rw [hothers i (by omega) hne]
  simp only [Plan.alloc, update_of_ne hne]
  exact h.type i h0 (by omega)

theorem Follows.makedir (h : Follows s P) (hcap : P.next < cap s.sb) {parent} (hp : parent < P.next)
    (he : (makedir name parent owner perms).exec s = .ok () s') : Follows s' (P.addDir name parent) ∧ SameMap s s' := by
  obtain ⟨ino, s1, h1, he⟩ := bind_ok he
  obtain ⟨rfl, hf1, hm1⟩ := h.alloc true hcap rfl h1
  obtain ⟨_, _, hcpy, he⟩ := bind_ok he
  unfold strcpy at hcpy
  split at hcpy
  · cases hcpy
  cases hcpy
  have hle : ∀ {t}, SameMap s t → (P.alloc true).next ≤ cap t.sb := fun hm => by rw [hm.sb]; exact hcap
  obtain ⟨_, s2, h2, he⟩ := bind_ok he
  obtain ⟨hf2, hk2⟩ := hf1.append (Nat.lt_succ_of_lt hp) (hle hm1) h2
  have hm2 := hm1.trans hk2.sameMap
  obtain ⟨_, s3, h3, he⟩ := bind_ok he
  obtain ⟨hf3, hk3⟩ := hf2.append (Nat.lt_succ_self _) (hle hm2) h3
  have hm3 := hm2.trans hk3.sameMap
  obtain ⟨_, s4, h4, he⟩ := bind_ok he
  obtain ⟨hf4, hk4⟩ := hf3.append (Nat.lt_succ_self _) (hle hm3) h4
  cases he
  have hm4 := hm3.trans hk4.sameMap
  refine ⟨{ hf4 with
    image := hf4.image.relabel rfl rfl rfl rfl rfl rfl rfl
    dirs := congrArg (· ++ [⟨name, P.next⟩]) hf4.dirs
    known := fun d hd => ?_ }, ⟨hm4.sb, hm4.size, hm4.bitmap⟩⟩
  obtain hd | hd := mem_append.mp hd
  · exact Nat.lt_succ_of_lt (h.known d hd)
  · rw [mem_singleton.mp hd]; exact Nat.lt_succ_self _

theorem chunks_flatten {fuel xs} (h : xs.length ≤ fuel) : (chunks fuel xs).flatten = xs := by
  induction fuel generalizing xs with
  | zero => simpa [chunks] using (length_eq_zero_iff.mp (Nat.le_zero.mp h)).symm
  | succ fuel ih =>
    unfold chunks
    split
    · rename_i h0
      simp [h0]
    · rename_i h0
      rw [flatten_cons, ih (by simp only [length_drop, bsize]; omega), take_append_drop]

theorem Follows.appendAll (h : Follows s P) (hi : i < P.next) (hcap : P.next ≤ cap s.sb) {xss}
    (he : (appendAll i xss).exec s = .ok () s') : Follows s' (P.append i xss.flatten) ∧ SameMap s s' := by
  induction xss generalizing s P with
  | nil => cases he; simpa [Plan.append] using ⟨h, SameMap.refl _⟩
  | cons xs rest ih =>
    obtain ⟨_, s1, h1, h2⟩ := bind_ok he
    obtain ⟨hf, hk⟩ := h.append hi hcap h1
    obtain ⟨hf', hm'⟩ := ih hf hi (by rw [hk.sameMap.sb]; exact hcap) h2
    refine ⟨?_, hk.sameMap.trans hm'⟩
    simpa [Plan.append] using hf'

theorem Follows.makefile (h : Follows s P) (hcap : P.next < cap s.sb) {source home}
    (hp : home < P.next) (he : (makefile name home source owner perms).exec s = .ok () s') :
    Follows s' (P.addFile name home source) ∧ SameMap s s' := by
  obtain ⟨ino, s1, h1, he⟩ := bind_ok he
  obtain ⟨rfl, hf1, hm1⟩ := h.alloc false hcap rfl h1
  obtain ⟨_, s2, h2, he⟩ := bind_ok he
  obtain ⟨hf2, hk2⟩ := hf1.append (Nat.lt_succ_of_lt hp) (by rw [hm1.sb]; exact hcap) h2
  have hm2 := hm1.trans hk2.sameMap
  obtain ⟨_, s3, h3, he⟩ := bind_ok he
  obtain ⟨hf3, hm3⟩ := hf2.appendAll (Nat.lt_succ_self _) (by rw [hm2.sb]; exact hcap) h3
  rw [chunks_flatten (Nat.le_refl _)] at hf3
  cases he
  refine ⟨{ hf3 with
    image := hf3.image.relabel rfl rfl rfl rfl rfl rfl rfl
    files := congrArg (· ++ [⟨name, P.next⟩]) hf3.files }, hm2.trans ⟨hm3.sb, hm3.size, hm3.bitmap⟩⟩

theorem Follows.doentry (h : Follows s P) {e} (hsync : e ≠ .sync)
    (hcap : ∀ P', P.add e = some P' → P'.next ≤ cap s.sb) (he : (doentry e).exec s = .ok () s') :
    ∃ P', P.add e = some P' ∧ Follows s' P' ∧ SameMap s s' := by
  cases e with
  | direct name home owner perms =>
    obtain ⟨o, s1, h1, he⟩ := bind_ok he
    cases h1
    dsimp only at he
    rw [h.dirs] at he
    cases hf : find P.dirs home with
    | none => rw [hf] at he; cases he
    | some parent =>
      rw [hf] at he
      obtain ⟨d, hd, rfl⟩ := find_mem hf
      have hadd : P.add (.direct name home owner perms) = some (P.addDir name d.ino) := by simp [Plan.add, hf]
      exact ⟨_, hadd, h.makedir (hcap _ hadd) (h.known d hd) he⟩
  | file home name source owner perms =>
    obtain ⟨o, s1, h1, he⟩ := bind_ok he
    cases h1
    dsimp only at he
    rw [h.dirs] at he
    cases hf : find P.dirs home with
    | none => rw [hf] at he; cases he
    | some dir =>
      rw [hf] at he
      obtain ⟨d, hd, rfl⟩ := find_mem hf
      have hadd : P.add (.file home name source owner perms) = some (P.addFile name d.ino source) := by
        simp [Plan.add, hf]
      exact ⟨_, hadd, h.makefile (hcap _ hadd) (h.known d hd) he⟩
  | kernel name | boot name =>
    obtain ⟨o, s1, h1, he⟩ := bind_ok he
    cases h1
    dsimp only at he
    rw [h.files] at he
    cases hf : find P.files name with
    | none => rw [hf] at he; cases he
    | some ino =>
      rw [hf] at he; cases he
      exact ⟨P, by simp [Plan.add, hf], { h with
        image := h.image.relabel rfl rfl rfl rfl rfl rfl rfl },
        rfl, rfl, fun _ _ _ => rfl⟩
  | sync => exact absurd rfl hsync

/-! ## Appending in any order -/

inductive Op where
  | ialloc (dir : Bool) (owner : Int32) (perms : UInt16)
  | iappend (ino : Nat) (data : List UInt8)

def Op.run : Op → M Unit
  | .ialloc dir owner perms => do
    let _ ← Mkproto.ialloc (if dir then tDir else tFile) owner perms
    pure ()
  | .iappend ino data => Mkproto.iappend ino data

def runOps : List Op → M Unit
  | [] => pure ()
  | op :: rest => do
    op.run
    runOps rest

def Plan.op (P : Plan) : Op → Plan
  | .ialloc dir _ _ => P.alloc dir
  | .iappend ino data => P.append ino data

def Plan.ops (P : Plan) (l : List Op) : Plan := l.foldl Plan.op P

def Plan.Knows (P : Plan) : List Op → Prop
  | [] => True
  | .ialloc dir owner perms :: rest => (P.op (.ialloc dir owner perms)).Knows rest
  | .iappend ino data :: rest => 0 < ino ∧ ino < P.next ∧ (P.op (.iappend ino data)).Knows rest

def Plan.blocks (P : Plan) (sb : Superblock) : Nat := sb.metaEnd + total (cap sb) P.data

variable {l : List Op}

@[simp] theorem Plan.ops_nil (P : Plan) : P.ops [] = P := rfl

@[simp] theorem Plan.ops_cons (P : Plan) (op : Op) (l : List Op) : P.ops (op :: l) = (P.op op).ops l := rfl

theorem Plan.next_le_op (P : Plan) (op : Op) : P.next ≤ (P.op op).next := by
  cases op with
  | ialloc dir owner perms => exact Nat.le_succ _
  | iappend ino data => exact Nat.le_refl _

theorem Plan.next_le_ops (P : Plan) (l : List Op) : P.next ≤ (P.ops l).next := by
  induction l generalizing P with
  | nil => exact Nat.le_refl _
  | cons op l ih => exact Nat.le_trans (P.next_le_op op) (ih _)

theorem Plan.length_le_op (P : Plan) (op : Op) (i : Nat) : (P.data i).length ≤ ((P.op op).data i).length := by
  cases op with
  | ialloc dir owner perms => exact Nat.le_refl _
  | iappend ino data =>
    by_cases hi : i = ino
    · subst hi; simp [Plan.op, Plan.append]
    · simp [Plan.op, Plan.append, update_of_ne hi]

theorem Plan.length_le_ops (P : Plan) (l : List Op) (i : Nat) : (P.data i).length ≤ ((P.ops l).data i).length := by
  induction l generalizing P with
  | nil => exact Nat.le_refl _
  | cons op l ih => exact Nat.le_trans (P.length_le_op op i) (ih _)

theorem Plan.blocks_le_ops (P : Plan) (l : List Op) (sb : Superblock) : P.blocks sb ≤ (P.ops l).blocks sb :=
  Nat.add_le_add_left (Finset.sum_le_sum fun i _ => need_mono (P.length_le_ops l i)) _

theorem Plan.data_zero (h0 : P.data 0 = []) (hk : P.Knows l) : (P.ops l).data 0 = [] := by
  induction l generalizing P with
  | nil => exact h0
  | cons op l ih =>
    cases op with
    | ialloc dir owner perms => exact ih h0 hk
    | iappend ino data =>
      obtain ⟨hpos, -, hk⟩ := hk
      refine ih ?_ hk
      simp only [Plan.op, Plan.append]
      rw [update_of_ne (by omega), h0]

theorem Follows.ops (h : Follows s P) (hk : P.Knows l) (hcap : (P.ops l).next ≤ cap s.sb)
    (hroom : (P.ops l).blocks s.sb ≤ s.size) (hmax : ∀ i, ((P.ops l).data i).length ≤ maxfile * bsize) :
    ∃ s', (runOps l).exec s = .ok () s' ∧ Follows s' (P.ops l) ∧ SameMap s s' := by
  induction l generalizing s P with
  | nil => exact ⟨s, rfl, h, SameMap.refl s⟩
  | cons op l ih =>
    suffices hop : ∃ s1, op.run.exec s = .ok () s1 ∧ Follows s1 (P.op op) ∧ SameMap s s1 ∧ (P.op op).Knows l by
      obtain ⟨s1, h1, hf, hm, hk⟩ := hop
      obtain ⟨s', h2, hf', hm'⟩ := ih hf hk (by rw [hm.sb]; exact hcap) (by rw [hm.sb, hm.size]; exact hroom) hmax
      exact ⟨s', bind_ok_iff.mpr ⟨_, _, h1, h2⟩, hf', hm.trans hm'⟩
    cases op with
    | ialloc dir owner perms =>
      have hlt : P.next < cap s.sb := Nat.lt_of_lt_of_le (Nat.lt_succ_self _)
        (Nat.le_trans (Plan.next_le_ops (P.op (.ialloc dir owner perms)) l) hcap)
      obtain ⟨s1, h1, -⟩ := h.image.ialloc (by rw [h.next]; exact hlt) (if dir then tDir else tFile) owner perms
      obtain ⟨-, hf, hm⟩ := h.alloc dir hlt rfl h1
      exact ⟨s1, bind_ok_iff.mpr ⟨_, _, h1, rfl⟩, hf, hm, hk⟩
    | iappend ino data =>
      obtain ⟨-, hlt, hk⟩ := hk
      have hcap' : P.next ≤ cap s.sb := Nat.le_trans (Plan.next_le_ops P _) hcap
      obtain ⟨hfull, -⟩ | ⟨s1, h1, -⟩ := h.image.iappend (i := ino) (by omega) (by rw [h.next]; exact hlt) data
      · -- the image has room
        have hb := Nat.le_trans (Plan.blocks_le_ops (P.op (.iappend ino data)) l s.sb) hroom
        have hm := Nat.le_trans (Plan.length_le_ops (P.op (.iappend ino data)) l ino) (hmax ino)
        simp only [Plan.op, Plan.append, Plan.blocks, update_self, List.length_append, maxfile, nindirect,
          bsize] at hb hm
        omega
      · obtain ⟨hf, hkept⟩ := h.append hlt hcap' h1; exact ⟨s1, h1, hf, hkept.sameMap, hk⟩

theorem Follows.alloc_ops (h : Follows s P) (hcap : P.next < cap s.sb) {dir}
    (he : (runOps (.ialloc dir owner perms :: l)).exec s = .ok () s') : ∃ t,
      (Mkproto.ialloc (if dir then tDir else tFile) owner perms).exec s = .ok P.next t ∧ (runOps l).exec t =
        .ok () s' := by
  obtain ⟨_, t, h1, he⟩ := bind_ok he
  obtain ⟨ino, _, h1, hr⟩ := bind_ok h1
  cases hr
  obtain ⟨rfl, -⟩ := h.alloc dir hcap rfl h1
  exact ⟨t, h1, he⟩

end Xv6Vsd.Mkproto
