import Xv6Vsd.Fs.Directory
import Xv6Vsd.Fs.Nlink
import Xv6Vsd.Mkproto.Bitmap

/-!
# Link counts on the image

`create` of the kernel counts in a directory one link for its name and one for the `..` of every directory
in it. `ialloc` of `mkproto` gives every inode one link, and `makedir` does not count any more of them.
-/

namespace Xv6Vsd.Mkproto

open Prog Function List Option Nat

/-- Every inode has the links that `create` gives it: one, and one more for every directory in
it. -/
def LinksRight (s : Fs) (P : Plan) : Prop :=
  ∀ i, 0 < i → i < P.next → (s.inodes i).nlink.toInt = 1 + if P.isDir i then P.kids i else 0

def Entry.makesDir : Entry → Bool
  | .direct .. => true
  | _ => false

structure Plan.Sane (P : Plan) : Prop where
  dirs : ∀ d ∈ P.dirs, 0 < d.ino ∧ d.ino < P.next ∧ P.isDir d.ino = true
  pos : 0 < P.next

section

variable {s : Fs} {P P' : Plan} {e : Entry} {es : List Entry}

theorem Plan.sane_root : Plan.root.Sane where
  dirs d hd := by obtain rfl := mem_singleton.mp hd; exact ⟨by decide, by decide, by decide⟩
  pos := by decide

theorem Plan.Sane.grow (h : P.Sane) {dir dirs} (hnext : P'.next = P.next + 1)
    (hdir : P'.isDir = update P.isDir P.next dir) (hdirs : P'.dirs = P.dirs ++ dirs)
    (hnew : ∀ d ∈ dirs, d.ino = P.next ∧ dir = true) : P'.Sane := by
  refine ⟨fun d hd => ?_, by omega⟩
  rw [hdirs] at hd
  rw [hnext, hdir]
  obtain hd | hd := mem_append.mp hd
  · obtain ⟨h0, hlt, hd⟩ := h.dirs d hd
    exact ⟨h0, by omega, by rw [update_of_ne (by omega)]; exact hd⟩
  · obtain ⟨hino, rfl⟩ := hnew d hd
    exact ⟨by have := h.pos; omega, by omega, by rw [hino, update_self]⟩

theorem Plan.Sane.add (h : P.Sane) (hadd : P.add e = some P') : P'.Sane := by
  cases e with
  | direct name home owner perms =>
    obtain ⟨parent, -, rfl⟩ := map_eq_some_iff.mp hadd
    exact h.grow rfl rfl rfl fun d hd => by simp_all
  | file home name source owner perms =>
    obtain ⟨dir, -, rfl⟩ := map_eq_some_iff.mp hadd
    exact h.grow rfl rfl (append_nil _).symm fun d hd => by cases hd
  | kernel name | boot name => obtain ⟨_, -, rfl⟩ := map_eq_some_iff.mp hadd; exact h
  | sync => cases hadd

theorem Plan.Sane.kids_add (h : P.Sane) (hadd : P.add e = some P') :
    if e.makesDir then ∃ d, 0 < d ∧ d < P.next ∧ P.isDir d = true ∧ 0 < P'.kids d else P'.kids = P.kids := by
  cases e with
  | direct name home owner perms =>
    obtain ⟨parent, hp, rfl⟩ := map_eq_some_iff.mp hadd
    obtain ⟨d, hd, rfl⟩ := find_mem hp
    obtain ⟨h0, hlt, hdir⟩ := h.dirs d hd
    exact ⟨d.ino, h0, hlt, hdir, by simp [Plan.addDir]⟩
  | file home name source owner perms => obtain ⟨dir, -, rfl⟩ := map_eq_some_iff.mp hadd; rfl
  | kernel name | boot name => obtain ⟨_, -, rfl⟩ := map_eq_some_iff.mp hadd; rfl
  | sync => cases hadd

theorem Plan.add_mono (hadd : P.add e = some P') {i} (hi : i < P.next) :
    P.next ≤ P'.next ∧ P'.isDir i = P.isDir i ∧ P.kids i ≤ P'.kids i := by
  cases e with
  | direct name home owner perms =>
    obtain ⟨parent, -, rfl⟩ := map_eq_some_iff.mp hadd
    refine ⟨le_succ _, update_of_ne (by omega) .., ?_⟩
    by_cases hp : i = parent
    · simp [Plan.addDir, hp]
    · simp [Plan.addDir, update_of_ne hp]
  | file home name source owner perms =>
    obtain ⟨dir, -, rfl⟩ := map_eq_some_iff.mp hadd
    exact ⟨le_succ _, update_of_ne (by omega) .., le_refl _⟩
  | kernel name | boot name =>
    obtain ⟨_, -, rfl⟩ := map_eq_some_iff.mp hadd
    exact ⟨le_refl _, rfl, le_refl _⟩
  | sync => cases hadd

theorem Plan.addAll_mono (hadd : P.addAll es = some P') {i} (hi : i < P.next) :
    P.next ≤ P'.next ∧ P'.isDir i = P.isDir i ∧ P.kids i ≤ P'.kids i := by
  induction es generalizing P with
  | nil => cases hadd; exact ⟨le_refl _, rfl, le_refl _⟩
  | cons e rest ih =>
    obtain ⟨P1, h1, h2⟩ := bind_eq_some_iff.mp hadd
    obtain ⟨hn, hd, hk⟩ := Plan.add_mono h1 hi
    obtain ⟨hn', hd', hk'⟩ := ih h2 (by omega)
    exact ⟨by omega, hd'.trans hd, by omega⟩

theorem Plan.Sane.kids_addAll (h : P.Sane) (h0 : ∀ i, P.kids i = 0) (hadd : P.addAll es = some P') :
    (∃ d, 0 < d ∧ d < P'.next ∧ P'.isDir d = true ∧ 0 < P'.kids d) ↔ ∃ e ∈ es, e.makesDir = true := by
  induction es generalizing P with
  | nil => cases hadd; simp [h0]
  | cons e rest ih =>
    obtain ⟨P1, h1, h2⟩ := bind_eq_some_iff.mp hadd
    have hkids := h.kids_add h1
    by_cases he : e.makesDir = true
    · rw [if_pos he] at hkids
      obtain ⟨d, hd0, hlt, hdir, hpos⟩ := hkids
      obtain ⟨hn, hd, -⟩ := Plan.add_mono h1 hlt
      obtain ⟨hn', hd', hk'⟩ := Plan.addAll_mono h2 (i := d) (by omega)
      exact ⟨fun _ => ⟨e, mem_cons_self, he⟩, fun _ => ⟨d, hd0, by omega, by rw [hd', hd, hdir], by omega⟩⟩
    · rw [if_neg he] at hkids; rw [ih (h.add h1) (by simpa [hkids] using h0) h2]; simp [he]

theorem Plan.addAll_files (h : ∀ e ∈ es, e.makesDir = false) (hadd : P.addAll es = some P') :
    P'.dirs = P.dirs ∧ ∀ i, P'.isDir i = true → P.isDir i = true := by
  induction es generalizing P with
  | nil => cases hadd; exact ⟨rfl, fun _ => id⟩
  | cons e rest ih =>
    obtain ⟨P1, h1, h2⟩ := bind_eq_some_iff.mp hadd
    obtain ⟨hdirs, hdir⟩ := ih (fun e he => h e (mem_cons_of_mem _ he)) h2
    suffices hone : P1.dirs = P.dirs ∧ ∀ i, P1.isDir i = true → P.isDir i = true from
      ⟨hdirs.trans hone.1, fun i hi => hone.2 i (hdir i hi)⟩
    cases e with
    | direct name home owner perms => cases h _ mem_cons_self
    | file home name source owner perms =>
      obtain ⟨dir, -, rfl⟩ := map_eq_some_iff.mp h1
      refine ⟨rfl, fun i hi => ?_⟩
      by_cases hn : i = P.next
      · simp [Plan.addFile, hn] at hi
      · simpa [Plan.addFile, update_of_ne hn] using hi
    | kernel name | boot name => obtain ⟨_, -, rfl⟩ := map_eq_some_iff.mp h1; exact ⟨rfl, fun _ => id⟩
    | sync => cases h1

/-! ## Unlinking -/

/-- What the kernel finds on the image: the inodes in use and the entries of the directories. -/
def tree (s : Fs) (P : Plan) : Nlink.State where
  inode i := if 0 < i ∧ i < P.next then ⟨(s.inodes i).type, (s.inodes i).nlink⟩ else ⟨0, 0⟩
  entries := P.dirs.flatMap fun d => (List.range ((P.data d.ino).length / 16)).filterMap fun k =>
    (slotAt (P.data d.ino) k).map fun x => ⟨d.ino, x.1, x.2⟩

def Removes : Nlink.Act → Prop
  | .link _ => False
  | _ => True

/-- No sequence of unlinks takes all links from a directory that still has a name. -/
def NamedKept (t : Nlink.State) : Prop := ∀ t', Run Nlink.act (fun _ => Removes) t t' →
  ∀ e ∈ t'.entries, (t'.inode e.inum).type = tDir → (t'.inode e.inum).nlink ≠ 0

/-- The root is the only directory. -/
structure OnlyRoot (t : Nlink.State) : Prop where
  entries : ∀ e ∈ t.entries, e.dir = 1
  dirs : ∀ i, (t.inode i).type = tDir → i = 1
  nlink : (t.inode 1).nlink = 1

variable {t t' : Nlink.State}

theorem OnlyRoot.iput (h : OnlyRoot t) (i : Nat) (last : Bool) : OnlyRoot (t.iput i last) := by
  unfold Nlink.State.iput
  split
  · next hz =>
    have hi : i ≠ 1 := by rintro rfl; exact absurd (h.nlink.symm.trans hz.2) (by decide)
    refine ⟨h.entries, fun j hj => ?_, (congrArg Nlink.Inode.nlink (update_of_ne hi.symm ..)).trans h.nlink⟩
    by_cases hji : j = i
    · simp [hji, tDir] at hj
    · exact h.dirs j (by simpa [update_of_ne hji] using hj)
  · exact h

theorem OnlyRoot.sysUnlink (h : OnlyRoot t) {dp name denied last a}
    (ha : t.sysUnlink dp name denied last = .ok a t') : OnlyRoot t' := by
  unfold Nlink.State.sysUnlink at ha
  split at ha
  · cases ha; exact h
  next d hd =>
  split at ha
  · cases ha; exact h
  next hdots =>
  split at ha
  · cases ha; exact h
  next e he =>
  split at ha
  · cases ha; exact h
  split at ha
  · cases ha
  split at ha
  · cases ha; exact h.iput ..
  next hfull =>
  cases ha
  have hroot : (t.inode 1).type = tDir := by
    obtain ⟨-, ht⟩ := filter_eq_some_iff.mp hd
    have ht := of_decide_eq_true ht
    rwa [h.dirs d ht] at ht
  have hmem := Nlink.dirlookup_mem he
  -- the root has at least the entry that is to go
  have hfile : (t.inode e.inum).type ≠ tDir := by
    intro ht
    refine hfull ⟨ht, ?_⟩
    have hname : e.name = name := (of_decide_eq_true
      (find?_some (p := fun e : Nlink.Entry => e.dir = d ∧ e.name = name) he)).2
    rw [h.dirs _ ht, Bool.not_eq_true', Nlink.State.isdirempty, List.all_eq_false]
    exact ⟨e, hmem, by rw [h.entries e hmem, hname]; simpa using hdots⟩
  have hne : e.inum ≠ 1 := by rintro he1; rw [he1] at hfile; exact hfile hroot
  rw [if_neg hfile]
  refine OnlyRoot.iput ⟨fun x hx => h.entries x (mem_of_mem_erase hx), fun i hi => h.dirs i ?_, ?_⟩ ..
  · by_cases hie : i = e.inum
    · simpa [Nlink.State.setNlink, hie] using hi
    · simpa [Nlink.State.setNlink, update_of_ne hie] using hi
  · exact (congrArg Nlink.Inode.nlink (update_of_ne hne.symm ..)).trans h.nlink

theorem OnlyRoot.namedKept (h : OnlyRoot t) : NamedKept t := by
  intro t' hrun e _ ht
  have h' : OnlyRoot t' := by
    refine hrun.invariant h fun t a t' h hok ha => ?_
    cases a with
    | link a => cases hok
    | unlink => obtain ⟨_, hs⟩ := Nlink.returned_eq_some ha; exact h.sysUnlink hs
    | put i => cases ha; exact h.iput ..
  rw [h'.dirs _ ht, h'.nlink]
  decide

theorem Follows.onlyRoot (h : Follows s P) (hdirs : P.dirs = [⟨[slash], 1⟩]) (hdir : ∀ i, P.isDir i = true → i = 1)
    (hnext : 1 < P.next) : OnlyRoot (tree s P) := by
  refine ⟨fun e he => ?_, fun i hi => ?_, ?_⟩
  · obtain ⟨d, hd, he⟩ := mem_flatMap.mp he
    obtain ⟨k, -, hk⟩ := mem_filterMap.mp he
    obtain ⟨x, -, rfl⟩ := map_eq_some_iff.mp hk
    rw [hdirs, mem_singleton] at hd
    exact congrArg Named.ino hd
  · simp only [tree] at hi
    split at hi
    · next hin =>
      rw [h.type i hin.1 hin.2] at hi
      cases hd : P.isDir i with
      | true => exact hdir i hd
      | false => rw [hd] at hi; cases hi
    · cases hi
  · simp only [tree]; rw [if_pos ⟨by decide, hnext⟩]; exact h.nlink 1 (by decide) hnext

def oneDir : List Entry := [.direct [97] [slash] 0 0]

def oneDirTree : Nlink.State where
  inode i := if 0 < i ∧ i < 3 then ⟨tDir, 1⟩ else ⟨0, 0⟩
  entries := [⟨1, dot, 1⟩, ⟨1, dotdot, 1⟩, ⟨1, [97], 2⟩, ⟨2, dot, 2⟩, ⟨2, dotdot, 1⟩]

theorem oneDir_total : ∃ s, (proto oneDir).exec (Fs.new [] 1000 logsize (1000 / 10)) = .ok () s := by
  refine proto_one (l := [.ialloc true 0 0, .iappend 1 (entryBytes [97] 2), .iappend 2 (entryBytes dot 2),
    .iappend 2 (entryBytes dotdot 1)]) nofun ⟨by decide, by decide, by decide, by decide, by decide, by decide, trivial⟩
    (by decide) (by decide +kernel) (fun i => ?_) fun s s' h hsb he => ?_
  · by_cases h1 : i = 1
    · subst h1; decide
    by_cases h2 : i = 2
    · subst h2; decide
    · simp [Plan.ops, Plan.op, Plan.append, Plan.alloc, Plan.root, h1, h2]
  obtain ⟨t, h1, he⟩ := h.alloc_ops (by rw [hsb]; decide) he
  obtain ⟨_, _, h2, he⟩ := bind_ok he
  obtain ⟨_, _, h3, he⟩ := bind_ok he
  obtain ⟨_, t', h4, -⟩ := bind_ok he
  refine ⟨{ t' with dirs := t'.dirs ++ [⟨[97], 2⟩] }, ?_⟩
  rw [doentry, exec_bind, exec_fs, Res.ok_bind, h.dirs]
  exact bind_ok_iff.mpr ⟨_, _, h1, bind_ok_iff.mpr ⟨(), t, rfl, bind_ok_iff.mpr ⟨_, _, h2,
    bind_ok_iff.mpr ⟨_, _, h3, bind_ok_iff.mpr ⟨_, _, h4, rfl⟩⟩⟩⟩⟩

end

end Xv6Vsd.Mkproto
