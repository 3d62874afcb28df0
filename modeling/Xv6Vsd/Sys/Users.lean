import Xv6Vsd.Fs.Blank
import Xv6Vsd.Sys.Lemmas.Identity

/-!
# Users (`users.c`)

Processes are named by their `pid`, which is not used twice.
-/

namespace Xv6Vsd

open Prog Function Kernel

structure Users where
  kernel : Kernel
  sid : Nat → Int
  born : Nat → Bool

namespace Users

def uid (u : Users) (p : Nat) : Int := (u.kernel.proc p).uid

def setUid (u : Users) (p : Nat) (uid : Int) : Users :=
  { u with kernel := u.kernel.setProc p { u.kernel.proc p with uid := uid } }

def chuser (u : Users) (p : Nat) (uid : Int) : Int × Users :=
  -- in single user mode we only allow uid -1
  if u.kernel.singleuser then (if uid = -1 then 0 else -1, u)
  else if u.uid p = -1 ∧ -1 ≤ uid then (0, u.setUid p uid)
  else (-1, u)

def chsystem (u : Users) (p : Nat) (sid : Int) : Int × Users :=
  -- only one system in single user
  if u.kernel.singleuser then (0, u)
  else if u.sid p = -1 ∧ 0 ≤ sid then (0, { u.setUid p (-1) with sid := update u.sid p sid })
  else (-1, u)

def disallow (u : Users) (p : Nat) : Int × Users :=
  if u.kernel.singleuser then (0, { u with kernel := { u.kernel with singleuser := false } })
  else if u.uid p = -1 ∧ u.sid p = -1 then (0, { u with kernel := { u.kernel with singleuser := true } })
  else (-1, u)

end Users

inductive UserCall where
  | chuser (uid : Int)
  | chsystem (sid : Int)
  | disallow
  | fork (child : Nat)
  | exec (path : Path) (vm : Vm)
  | chroot (path : Path)

inductive UserStep : Users → Nat → UserCall → Users → Prop
  | chuser (u : Users) (p : Nat) (uid : Int) : UserStep u p (.chuser uid) (u.chuser p uid).2
  | chsystem (u : Users) (p : Nat) (sid : Int) : UserStep u p (.chsystem sid) (u.chsystem p sid).2
  | disallow (u : Users) (p : Nat) : UserStep u p .disallow (u.disallow p).2
  | fork {u p child a k} (hnew : u.born child = false) (he : (fork p child).exec u.kernel = .ok a k) :
    UserStep u p (.fork child)
      { kernel := k, sid := update u.sid child (u.sid p), born := update u.born child true }
  | exec {u p path vm a k} (he : (exec p path vm).exec u.kernel = .ok a k) :
    UserStep u p (.exec path vm) { u with kernel := k }
  | chroot {u p path a k} (he : (chroot p path).exec u.kernel = .ok a k) :
    UserStep u p (.chroot path) { u with kernel := k }

inductive UserRun (ok : Users → Nat → UserCall → Prop) : Users → List (Nat × UserCall) → Users → Prop
  | nil (u : Users) : UserRun ok u [] u
  | cons {u u1 u' l p c} (h : UserRun ok u l u1) (hok : ok u1 p c) (hs : UserStep u1 p c u') :
    UserRun ok u ((p, c) :: l) u'

def family (p : Nat) : List (Nat × UserCall) → List Nat
  | [] => [p]
  | (q, .fork child) :: l => if q ∈ family p l then child :: family p l else family p l
  | _ :: l => family p l

def KeepsSystem (u : Users) (p : Nat) : UserCall → Prop
  | .chsystem _ => u.uid p = -1 ∨ u.sid p ≠ -1
  | _ => True

section

variable {u u' : Users} {p q : Nat} {c : UserCall} {l : List (Nat × UserCall)}

theorem Users.setUid_uid (u : Users) (p : Nat) (v : Int) : (u.setUid p v).uid = update u.uid p v := by
  funext q
  by_cases hq : q = p
  · subst hq; simp [Users.uid, Users.setUid, setProc]
  · simp [Users.uid, Users.setUid, setProc, hq]

theorem filedup_proc (f : Nat) : Keeps Kernel.proc (filedup f) := keeps_act fun s b s' h => by
  split at h
  · split at h <;> cases h
    rfl
  · cases h

theorem fork_uids {child k k' a} (h : (fork p child).exec k = .ok a k') : k'.uids = update k.uids child (k.uids p) := by
  have h := peek_bind h
  obtain ⟨_, k2, h2, h⟩ := bind_ok h
  have hu2 : k2.uids = k.uids := keeps_sameUids (made_loop fun i => made_ifSome filedup_proc) _ _ _ h2
  obtain ⟨root, k3, h3, h⟩ := bind_ok h
  have hu3 : k3.uids = k2.uids := keeps_sameUids plain_proc.idup _ _ _ h3
  obtain ⟨cwd, k4, h4, h⟩ := bind_ok h
  have hu4 : k4.uids = k3.uids := keeps_sameUids plain_proc.idup _ _ _ h4
  obtain ⟨_, k5, h5, h⟩ := bind_ok h
  cases h
  rw [modProc, exec_poke] at h5; cases h5
  rw [← hu2, ← hu3, ← hu4]
  funext q
  by_cases hq : q = child
  · subst hq
    simp only [uids, setProc, update_self]
    exact (congrFun (hu4.trans (hu3.trans hu2)) p).symm
  · simp [uids, setProc, hq]

theorem UserStep.uid_cases (h : UserStep u p c u') (hok : KeepsSystem u p c) :
    (∃ child, c = .fork child ∧ u.born child = false ∧ u'.born = update u.born child true ∧
      u'.uid = update u.uid child (u.uid p)) ∨
    u'.born = u.born ∧ (∀ child, c ≠ .fork child) ∧
      (u'.uid = u.uid ∨ u.uid p = -1 ∧ ∃ v, u'.uid = update u.uid p v) := by
  cases h with
  | chuser uid =>
    refine .inr ?_
    unfold Users.chuser
    split
    · exact ⟨rfl, by simp, .inl rfl⟩
    split
    · rename_i hc
      exact ⟨rfl, by simp, .inr ⟨hc.1, uid, u.setUid_uid p uid⟩⟩
    · exact ⟨rfl, by simp, .inl rfl⟩
  | chsystem sid =>
    refine .inr ?_
    unfold Users.chsystem
    split
    · exact ⟨rfl, by simp, .inl rfl⟩
    split
    · rename_i hc
      exact ⟨rfl, by simp, .inr ⟨hok.resolve_right (not_not.mpr hc.1), -1, u.setUid_uid p (-1)⟩⟩
    · exact ⟨rfl, by simp, .inl rfl⟩
  | disallow =>
    refine .inr ?_
    unfold Users.disallow
    split
    · exact ⟨rfl, by simp, .inl rfl⟩
    split
    · exact ⟨rfl, by simp, .inl rfl⟩
    · exact ⟨rfl, by simp, .inl rfl⟩
  | fork hnew he => exact .inl ⟨_, rfl, hnew, rfl, fork_uids he⟩
  | exec he => exact .inr ⟨rfl, by simp, .inl (sameUids_exec _ _ _ _ _ _ he)⟩
  | chroot he => exact .inr ⟨rfl, by simp, .inl (sameUids_chroot _ _ _ _ _ he)⟩

def Ordinary (u : Users) (ps : List Nat) : Prop := ∀ q ∈ ps, u.born q = true ∧ 0 ≤ u.uid q

theorem Ordinary.step (h : Ordinary u (family p l)) (hs : UserStep u q c u') (hok : KeepsSystem u q c) :
    Ordinary u' (family p ((q, c) :: l)) := by
  obtain ⟨child, rfl, hnew, hborn, huid⟩ | ⟨hborn, hfork, huid⟩ := hs.uid_cases hok
  · have hold : ∀ r ∈ family p l, u'.born r = true ∧ 0 ≤ u'.uid r := fun r hr => by
      obtain ⟨hb, hu⟩ := h r hr
      have hne : r ≠ child := by rintro rfl; simp [hnew] at hb
      rw [hborn, huid, update_of_ne hne, update_of_ne hne]
      exact ⟨hb, hu⟩
    unfold family
    split
    · rename_i hq
      intro r hr
      obtain rfl | hr := List.mem_cons.mp hr
      · rw [hborn, huid, update_self, update_self]; exact ⟨rfl, (h q hq).2⟩
      · exact hold r hr
    · exact hold
  · have hfam : family p ((q, c) :: l) = family p l := by
      cases c with
      | fork child => exact absurd rfl (hfork child)
      | chuser uid | chsystem sid => rfl
      | disallow | exec path vm => rfl
      | chroot path => rfl
    rw [hfam]
    intro r hr
    obtain ⟨hb, hu⟩ := h r hr
    rw [hborn]
    refine ⟨hb, ?_⟩
    obtain huid | ⟨hsys, v, huid⟩ := huid
    · rw [huid]; exact hu
    have hne : r ≠ q := by rintro rfl; omega
    rw [huid, update_of_ne hne]
    exact hu

/-- As long as `chsystem` is called only by the system user or within a system, a process with a
user, and whatever it forks, never becomes the system user. -/
theorem user_stays_user (hp : u.born p = true) (hu : 0 ≤ u.uid p) (h : UserRun KeepsSystem u l u') :
    ∀ q ∈ family p l, u'.uid q ≠ -1 := by
  have hord : Ordinary u' (family p l) := by
    induction h with
    | nil => exact fun q hq => by rw [List.mem_singleton.mp hq]; exact ⟨hp, hu⟩
    | cons _ hok hs ih => exact ih.step hs hok
  intro q hq hsys
  have := (hord q hq).2
  omega

def oneUser (uid : Int) : Users where
  kernel := { blank metaBits with proc := fun _ => { (blank metaBits).proc 0 with uid := uid } }
  sid _ := -1
  born p := p == 0

theorem user_stays_user_fork : ∃ u', UserRun KeepsSystem (oneUser 5) [(0, .fork 1), (0, .chuser (-1))] u' ∧
    ∀ q ∈ [1, 0], u'.uid q ≠ -1 := by
  have hfork : ∃ a k, (fork 0 1).exec (oneUser 5).kernel = .ok a k := ⟨_, _, rfl⟩
  obtain ⟨a, k, he⟩ := hfork
  have hrun : UserRun KeepsSystem (oneUser 5) [(0, .fork 1), (0, .chuser (-1))] _ :=
    .cons (.cons (.nil _) trivial (.chuser _ 0 (-1))) trivial (.fork rfl he)
  exact ⟨_, hrun, user_stays_user (p := 0) rfl (by decide) hrun⟩

/-- A process of user 5 that chooses a system is the system user again. -/
theorem chsystem_makes_system : (oneUser 5).uid 0 = 5 ∧
    UserStep (oneUser 5) 0 (.chsystem 3) ((oneUser 5).chsystem 0 3).2 ∧
    ((oneUser 5).chsystem 0 3).2.uid 0 = -1 :=
  ⟨rfl, .chsystem _ 0 3, rfl⟩

end

end Xv6Vsd
