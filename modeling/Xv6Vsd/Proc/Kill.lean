import Xv6Vsd.Proc.Lemmas.Base

/-!
# `kill`

Which slots `kill` marks, and that a new process is not marked already.
-/

namespace Xv6Vsd.Tasks

open State Function

variable {s s' s1 : State} {a : Act} {p q c np par : Ref} {found failed again : Pc} {stack pid : UInt32}

/-- The slot that `kill` finds holds a process; and so do the slots of the threads that `exit` kills. -/
def Aimed (s : State) : Act → Prop
  | .kill c pid => ∀ p, s.victim c pid = some p → (s.proc p).state.occupied = true
  | .stop c => ∀ i p, (s.proc c).threads i = some p → (s.proc p).state.occupied = true
  | _ => True

instance (s : State) (a : Act) : Decidable (Aimed s a) := by
  apply @Act.casesOn (fun a => Decidable (Aimed s a)) a <;> intros <;> unfold Aimed <;> infer_instance

def Unmarked (s : State) : Prop := ∀ p, (s.proc p).state.occupied = false → (s.proc p).killed = false

variable (h : Unmarked s)

include h

theorem Unmarked.update {y} (hproc : s'.proc = update s.proc p y)
    (hy : y.state.occupied = false → y.killed = false) : Unmarked s' := by
  intro q hq
  rw [hproc] at hq ⊢
  by_cases hqp : q = p
  · subst hqp; rw [update_self] at hq ⊢; exact hy hq
  · rw [update_of_ne hqp] at hq ⊢; exact h q hq

theorem Unmarked.mild (hm : Mild s s') : Unmarked s' := fun p hp => by
  rw [hm.occupied] at hp
  rw [hm.killed]
  exact h p hp

theorem Unmarked.waits (hw : Waits s c found failed again s') : Unmarked s' := by
  cases hw with
  | reap child dead process clean => exact h.update rfl fun _ => rfl
  | crash child dead process crashed | again => exact h.update rfl nofun
  | childless none => exact h

theorem Unmarked.killThreads
    (hok : ∀ i p, (s.proc c).threads i = some p → (s.proc p).state.occupied = true) : Unmarked (s.killThreads c) := by
  intro p hp
  obtain ⟨b, heq, hb⟩ := killThreads_proc s c p
  rw [heq] at hp ⊢
  rcases hb with rfl | ⟨-, i, hi⟩
  · exact h p hp
  · simp [hok i p hi] at hp

theorem Unmarked.leave (c : Ref) : Unmarked (s.leave c) := by
  intro p hp
  rw [leave_field Proc.killed fun _ _ _ _ _ _ _ => rfl]
  by_cases hpc : p = c
  · subst hpc; rw [leave_state_self] at hp; cases hp
  · rw [(leave_state hpc).occupied] at hp; exact h p hp

theorem Unmarked.step (hb : Base s) (hok : Aimed s a) (hs : Step s a s') : Unmarked s' := by
  cases hs with
  | mild hm => exact h.mild hm
  | @fork c np here free | @clone c np stack here may free =>
    exact h.update (p := np) rfl fun _ => h np (by rw [free]; rfl)
  | @failed _ c np dir runs here => exact h.update (p := np) rfl fun _ => h np (by rw [hb.made c np here]; rfl)
  | forked runs here | cloned runs here => exact h.update rfl nofun
  | @added c np par runs here leader =>
    obtain ⟨th, n, heq⟩ := addchild_eq s par np
    rw [heq]
    exact h.update (p := par) rfl fun ho => h par ho
  | @kill c p pid here victim =>
    refine h.update (p := p) rfl fun ho => ?_
    have hocc := hok p victim
    unfold killProc at ho
    split at ho
    · cases ho
    · simp [hocc] at ho
  | wait here hw => exact h.waits hw
  | exit here notInit | stopping here process | noThreads here none => exact h
  | @trap c here notInit =>
    refine h.update (p := c) rfl fun ho => ?_
    simp [occupied_of_live here.live] at ho
  | stop here some hw => exact (h.killThreads hok).waits hw
  | stopped here none => exact h.killThreads hok
  | join here hw | rejoin here hw => exact h.waits hw
  | leave here => exact h.leave _
  | @cull p par thread dead parent =>
    obtain ⟨th, n, heq⟩ := removechild_eq s par p
    rw [heq]
    have hr : Unmarked (s.mod par fun x => { x with threads := th, threadi := n }) :=
      h.update (p := par) rfl fun ho => h par ho
    exact hr.update (p := p) rfl fun _ => rfl

omit h

theorem unmarked_of_reachable {th cl su} (h : Reachable Aimed (boot th cl su) s) : Base s ∧ Unmarked s := by
  refine h.base (fun p _ => ?_) fun hb hun hok hs _ => (hun.step hb hok hs :)
  simp only [boot]
  split
  · rfl
  · split <;> rfl

def Named (s : State) (c : Ref) (pid : UInt32) (q : Ref) : Prop :=
  (s.proc q).state ≠ .unused ∧ (s.proc q).pid = pid ∧ s.checksysperms (s.proc q) (s.proc c) = true

instance (s : State) (c : Ref) (pid : UInt32) (q : Ref) : Decidable (Named s c pid q) :=
  inferInstanceAs (Decidable (_ ∧ _))

/-- `kill` marks one slot at most, and only a slot in use that has the number and that the caller may act on; it returns
0
exactly when there is one. -/
structure KillsNamed (s : State) (c : Ref) (pid : UInt32) : Prop where
  one : ∃ p, ∀ q, q ≠ p → ((s.kill c pid).2.proc q).state = (s.proc q).state ∧
    ((s.kill c pid).2.proc q).killed = (s.proc q).killed
  named : ∀ q, ¬Named s c pid q → ((s.kill c pid).2.proc q).state = (s.proc q).state ∧
    ((s.kill c pid).2.proc q).killed = (s.proc q).killed
  zero : (s.kill c pid).1 = 0 ↔ ∃ q, Named s c pid q

theorem victim_some (h : s.victim c pid = some p) :
    (s.proc p).pid = pid ∧ s.checksysperms (s.proc p) (s.proc c) = true := by
  simpa using first_some h

theorem victim_none (h : s.victim c pid = none) (q : Ref) : ¬Named s c pid q := by
  have := first_none h q
  rintro ⟨-, h2, h3⟩
  simp [h2, h3] at this

theorem killsNamed_of_aimed (hok : Aimed s (.kill c pid)) : KillsNamed s c pid := by
  cases hv : s.victim c pid with
  | none =>
    have hkill : s.kill c pid = (-1, s) := by rw [kill, hv]
    refine ⟨⟨c, fun q _ => ?_⟩, fun q _ => ?_, ?_⟩
    · rw [hkill]; exact ⟨rfl, rfl⟩
    · rw [hkill]; exact ⟨rfl, rfl⟩
    · rw [hkill]; simp [victim_none hv]
  | some p =>
    have hkill : s.kill c pid = (0, s.mod p killProc) := by rw [kill, hv]
    have hnamed : Named s c pid p := by
      refine ⟨fun hu => ?_, victim_some hv⟩
      have := hok p hv
      rw [hu] at this; cases this
    have hother : ∀ q, q ≠ p → ((s.kill c pid).2.proc q).state = (s.proc q).state ∧
      ((s.kill c pid).2.proc q).killed = (s.proc q).killed := fun q hq => by
      rw [hkill]
      simp [hq]
    refine ⟨⟨p, hother⟩, fun q hq => hother q ?_, ?_⟩
    · rintro rfl; exact hq hnamed
    · rw [hkill]; exact ⟨fun _ => ⟨p, hnamed⟩, fun _ => rfl⟩

/-- As long as `kill` finds only slots with a process in them it marks what it names and nothing
else, and no new process is marked already. -/
theorem kill_only_named {th cl su : Bool} (h : Reachable Aimed (boot th cl su) s) :
    (∀ c pid, Aimed s (.kill c pid) → KillsNamed s c pid) ∧
    ∀ np s', s.allocproc = some (np, s') → (s'.proc np).killed = false := by
  refine ⟨fun c pid hok => killsNamed_of_aimed hok, fun np s' ha => ?_⟩
  obtain ⟨hfree, rfl⟩ := allocproc_some ha
  have := (unmarked_of_reachable h).2 np (by rw [hfree]; rfl)
  simpa [taken] using this

theorem kill_child_named : ∃ s, (s.victim 1 2 = some 2 ∧ (s.proc 2).state = .runnable) ∧ KillsNamed s 1 2 := by
  obtain ⟨s, h, hv, hst, hok⟩ : ∃ s, Reachable Aimed (boot true true false) s ∧ s.victim 1 2 = some 2 ∧
      (s.proc 2).state = .runnable ∧ Aimed s (.kill 1 2) :=
    exists_run [.run 1, .fork 1, .forked 1 true true] (by decide +kernel)
  exact ⟨s, ⟨hv, hst⟩, (kill_only_named h).1 1 2 hok⟩

/-- A `fork` fails for lack of memory, and `kill` marks the slot that it has given back; the next new process gets
it. -/
theorem kill_marks_unused : ∃ s, Reachable (fun _ _ => True) (boot true true false) s ∧
    (s.proc 2).state = .unused ∧ (s.kill 1 2).1 = 0 ∧ ((s.kill 1 2).2.proc 2).killed = true ∧
    ((s.kill 1 2).2.allocproc.map Prod.fst) = some 2 ∧ ∀ q, ¬Named s 1 2 q :=
      exists_run [.run 1, .fork 1, .forked 1 false false] (by decide +kernel)

end Xv6Vsd.Tasks
