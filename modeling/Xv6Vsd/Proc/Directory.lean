import Xv6Vsd.Proc.Lemmas.Base

/-! # Page directories that threads share -/

namespace Xv6Vsd.Tasks

open State Function

variable {s s' s1 : State} {a : Act} {p q c np par t : Ref} {k found failed again : Pc} {stack : UInt32}

def Thread (s : State) (c t : Ref) : Prop :=
  (s.proc t).type = .thread ∧ (s.proc t).state.live = true ∧ (s.proc t).parent = some c

instance (s : State) (c t : Ref) : Decidable (Thread s c t) := inferInstanceAs (Decidable (_ ∧ _))

def Joins (s : State) (c : Ref) : Prop := (∃ t, Thread s c t) → (s.proc c).killed = false ∧ (s.proc c).threadi ≠ 0

instance (s : State) (c : Ref) : Decidable (Joins s c) := inferInstanceAs (Decidable (_ → _))

/-- A child that `wait1` can take out of the table is not found while a slot is being filled in. -/
def Reaps (s : State) (c : Ref) : Prop :=
  (∃ p, (s.proc p).parent = some c ∧ (s.proc p).state = .zombie ∧ (s.proc p).type = .process) →
    ∀ p, (s.proc p).state ≠ .embryo

instance (s : State) (c : Ref) : Decidable (Reaps s c) := inferInstanceAs (Decidable (_ → _))

/-- An exiting process that still has threads is not killed and has not lost count of them; and no child is taken out of
the table while a slot is being filled in. -/
def Orderly (s : State) : Act → Prop
  | .look c => Joins s c
  | .stop c => Joins (s.killThreads c) c ∧ Reaps s c
  | .join c => Joins s c ∧ Reaps s c
  | .wait c => Reaps s c
  | _ => True

instance (s : State) (a : Act) : Decidable (Orderly s a) := by
  apply @Act.casesOn (fun a => Decidable (Orderly s a)) a <;> intros <;> unfold Orderly <;> infer_instance

/-- Threads have the directory of their process, which has not exited; two processes have two directories. -/
structure Shared (s : State) : Prop where
  leader : ∀ t, (s.proc t).type = .thread → (s.proc t).state.live = true →
    ∃ c, (s.proc t).parent = some c ∧ (s.proc c).type = .process ∧ (s.proc c).pgdir = (s.proc t).pgdir
  left : ∀ c, s.pc c = .leaving → (s.proc c).type = .process → ∀ t, ¬Thread s c t
  known : ∀ p, (s.proc p).state.occupied = true → ∃ d, (s.proc p).pgdir = some d ∧ d < s.nextdir
  own : ∀ p q, (s.proc p).state.occupied = true → (s.proc q).state.occupied = true → (s.proc p).type = .process →
    (s.proc q).type = .process → (s.proc p).pgdir = (s.proc q).pgdir → p = q

variable (h : Shared s)

include h

variable (hb : Base s)

include hb

theorem Shared.fewer (hlive : ∀ p, (s'.proc p).state.live = (s.proc p).state.live)
    (hocc : ∀ p, (s'.proc p).state.occupied = true → (s.proc p).state.occupied = true ∧
      (s'.proc p).type = (s.proc p).type ∧ (s'.proc p).parent = (s.proc p).parent ∧
      (s'.proc p).pgdir = (s.proc p).pgdir)
    (hdir : s'.nextdir = s.nextdir)
    (hpc : ∀ c, s'.pc c = .leaving → s.pc c = .leaving ∨ (s.proc c).state.live = true ∧
      ((s.proc c).type = .process → ∀ t, ¬Thread s c t)) : Shared s' := by
  have hthread : ∀ c t, Thread s' c t → Thread s c t := by
    rintro c t ⟨h1, h2, h3⟩
    obtain ⟨-, htype, hpar, -⟩ := hocc t (occupied_of_live h2)
    exact ⟨htype ▸ h1, hlive t ▸ h2, hpar ▸ h3⟩
  have hsame : ∀ p, (s.proc p).state.live = true → (s'.proc p).type = (s.proc p).type ∧
    (s'.proc p).pgdir = (s.proc p).pgdir := fun p hp => by
    obtain ⟨-, h1, -, h2⟩ := hocc p (occupied_of_live ((hlive p).trans hp))
    exact ⟨h1, h2⟩
  constructor
  · intro t htype ht
    obtain ⟨-, htype', hpar, hdir'⟩ := hocc t (occupied_of_live ht)
    rw [hlive] at ht
    obtain ⟨c, h1, h2, h3⟩ := h.leader t (htype' ▸ htype) ht
    obtain ⟨htc, hdc⟩ := hsame c (hb.parent t c h1)
    exact ⟨c, hpar.trans h1, htc.trans h2, hdc.trans (h3.trans hdir'.symm)⟩
  · intro c hc htype t ht
    rcases hpc c hc with hl | ⟨hl, hno⟩
    · have hcl : (s.proc c).state.live = true := hb.busy c (by rw [hl]; exact Pc.noConfusion)
      exact h.left c hl ((hsame c hcl).1 ▸ htype) t (hthread c t ht)
    · exact hno ((hsame c hl).1 ▸ htype) t (hthread c t ht)
  · intro p hp
    obtain ⟨ho, -, -, hd⟩ := hocc p hp
    rw [hd, hdir]
    exact h.known p ho
  · intro p q hp hq htp htq hd
    obtain ⟨hop, h1, -, h2⟩ := hocc p hp
    obtain ⟨hoq, h3, -, h4⟩ := hocc q hq
    exact h.own p q hop hoq (h1 ▸ htp) (h3 ▸ htq) (h2 ▸ h4 ▸ hd)

theorem Shared.soft (hstate : ∀ p, Lives (s.proc p).state (s'.proc p).state)
    (hsame : ∀ p, (s'.proc p).type = (s.proc p).type ∧ (s'.proc p).parent = (s.proc p).parent ∧
      (s'.proc p).pgdir = (s.proc p).pgdir)
    (hdir : s'.nextdir = s.nextdir)
    (hpc : ∀ c, s'.pc c = .leaving → s.pc c = .leaving ∨ (s.proc c).state.live = true ∧
      ((s.proc c).type = .process → ∀ t, ¬Thread s c t)) : Shared s' :=
  h.fewer hb (fun p => (hstate p).live) (fun p hp => ⟨(hstate p).occupied ▸ hp, hsame p⟩) hdir hpc

theorem Shared.goto (hk : k = .leaving → (s.proc c).state.live = true ∧
    ((s.proc c).type = .process → ∀ t, ¬Thread s c t)) : Shared (s.goto c k) := by
  refine h.soft hb (fun p => .inl rfl) (fun p => ⟨rfl, rfl, rfl⟩) rfl fun d hd => ?_
  by_cases hdc : d = c
  · subst hdc; exact .inr (hk (by simpa using hd))
  · exact .inl (by simpa [hdc] using hd)

theorem Shared.mild (hm : Mild s s') : Shared s' := h.soft hb hm.state
  (fun p => ⟨hm.type p, hm.parent p, hm.pgdir p⟩) hm.nextdir fun c hc => .inl (by rwa [hm.pc] at hc)

theorem Shared.mod {f} (hlive : (f (s.proc p)).state.live = (s.proc p).state.live)
    (hocc : (f (s.proc p)).state.occupied = true → (s.proc p).state.occupied = true ∧
      (f (s.proc p)).type = (s.proc p).type ∧ (f (s.proc p)).parent = (s.proc p).parent ∧
      (f (s.proc p)).pgdir = (s.proc p).pgdir) : Shared (s.mod p f) := by
  refine h.fewer hb (fun q => ?_) (fun q hq => ?_) rfl fun c hc => .inl hc
  · by_cases hqp : q = p
    · subst hqp; simpa using hlive
    · simp [hqp]
  by_cases hqp : q = p
  · subst hqp; simpa using hocc (by simpa using hq)
  · simpa [hqp] using hq

theorem Shared.killThreads (c : Ref) : Shared (s.killThreads c) := by
  refine h.soft hb (fun p => .inl ?_) (fun p => ?_) rfl fun d hd => .inl hd
  · obtain ⟨b, hp, -⟩ := killThreads_proc s c p; rw [hp]
  · obtain ⟨b, hp, -⟩ := killThreads_proc s c p; rw [hp]; exact ⟨rfl, rfl, rfl⟩

theorem Shared.taken (hnp : (s.proc np).state = .unused) : Shared (s.taken np) := by
  have hm : Shared (s.mod np fun x => { x with state := .embryo, pid := s.nextpid, sid := -1, uid := -2 }) := by
    refine h.mod hb ?_ fun ho => by cases ho
    rw [hnp]
    rfl
  exact { hm with }

theorem Shared.fill {y} (hemb : (s.proc np).state = .embryo)
    (hproc : s'.proc = update s.proc np y) (hdir : s.nextdir ≤ s'.nextdir)
    (hpc : ∀ d, s'.pc d = .leaving → s.pc d = .leaving)
    (hleader : y.type = .thread → ∃ d, d ≠ np ∧ y.parent = some d ∧ (s.proc d).type = .process ∧
      (s.proc d).pgdir = y.pgdir ∧ s'.pc d ≠ .leaving) (hknown : ∃ d, y.pgdir = some d ∧ d < s'.nextdir)
    (hown : y.type = .process → ∀ p, (s.proc p).state.occupied = true → (s.proc p).pgdir ≠ y.pgdir) : Shared s' := by
  have hself : s'.proc np = y := by rw [hproc, update_self]
  have hother : ∀ q, q ≠ np → s'.proc q = s.proc q := fun q hq => by rw [hproc, update_of_ne hq]
  have hnp : ∀ t d, (s.proc t).parent = some d → d ≠ np := fun t d ht =>
    ne_of_live (hb.parent t d ht) (by rw [hemb]; rfl)
  constructor
  · intro t htype ht
    by_cases htnp : t = np
    · subst htnp
      rw [hself] at htype ⊢
      obtain ⟨d, hd, h1, h2, h3, -⟩ := hleader htype
      refine ⟨d, h1, ?_⟩
      rw [hother d hd]; exact ⟨h2, h3⟩
    · rw [hother t htnp] at htype ht ⊢
      obtain ⟨d, h1, h2⟩ := h.leader t htype ht
      refine ⟨d, h1, ?_⟩
      rw [hother d (hnp t d h1)]; exact h2
  · rintro d hd htype t ⟨h1, h2, h3⟩
    by_cases htnp : t = np
    · subst htnp
      rw [hself] at h1 h3
      obtain ⟨e, -, he, -, -, hne⟩ := hleader h1
      rw [he] at h3; cases h3
      exact hne hd
    · rw [hother t htnp] at h1 h2 h3
      rw [hother d (hnp t d h3)] at htype
      exact h.left d (hpc d hd) htype t ⟨h1, h2, h3⟩
  · intro p hp
    by_cases hpn : p = np
    · subst hpn; rw [hself]; exact hknown
    · rw [hother p hpn] at hp ⊢; exact (h.known p hp).imp fun d hd => ⟨hd.1, hd.2.trans_le hdir⟩
  · intro p q hp hq htp htq hd
    by_cases hpn : p = np <;> by_cases hqn : q = np
    · exact hpn.trans hqn.symm
    · subst hpn; rw [hself] at htp hd; rw [hother q hqn] at hq hd; exact absurd hd.symm (hown htp q hq)
    · subst hqn; rw [hself] at htq hd; rw [hother p hpn] at hp hd; exact absurd hd (hown htq p hp)
    · rw [hother p hpn] at hp htp hd; rw [hother q hqn] at hq htq hd; exact h.own p q hp hq htp htq hd

omit hb

omit h in
theorem leaving_of_goto {d} (hd : (s.goto c k).pc d = .leaving) (hk : k ≠ .leaving) : d ≠ c ∧ s.pc d = .leaving := by
  by_cases hdc : d = c
  · subst hdc; exact absurd (by simpa using hd) hk
  · exact ⟨hdc, by simpa [hdc] using hd⟩

variable (hb : Base s)

include hb

theorem Shared.forkInto (hc : s.pc c = .forking np) : Shared ((s.forkInto c np).goto c .user) := by
  have hemb := hb.made c np (by rw [hc]; rfl)
  refine h.fill (y := forkProc (s.proc c) c s.nextdir (s.proc np)) hb hemb rfl (Nat.le_succ _)
    (fun d hd => (leaving_of_goto hd nofun).2) nofun ⟨s.nextdir, rfl, Nat.lt_succ_self _⟩ fun _ p hp hd => ?_
  obtain ⟨d, h1, h2⟩ := h.known p hp
  rw [h1] at hd; cases hd
  exact lt_irrefl _ h2

theorem Shared.cloneInto (hr : (s.proc c).state.live = true)
    (hc : s.pc c = .cloning np stack) : Shared ((s.cloneInto c np stack).goto c (.adding np)) := by
  have hemb := hb.made c np (by rw [hc]; rfl)
  -- the process whose thread is made has not left
  have hlead : ∃ d, s.leader c = some d ∧ (s.proc d).state.live = true ∧ (s.proc d).type = .process ∧
    (s.proc d).pgdir = (s.proc c).pgdir ∧ (d = c ∨ Thread s d c) := by
    unfold State.leader
    cases htype : (s.proc c).type with
    | process => exact ⟨c, if_pos rfl, hr, htype, rfl, .inl rfl⟩
    | thread =>
      obtain ⟨d, h1, h2, h3⟩ := h.leader c htype hr
      exact ⟨d, h1, hb.parent c d h1, h2, h3, .inr ⟨htype, hr, h1⟩⟩
  obtain ⟨d, hd, hlive, htype, hdir, hthread⟩ := hlead
  refine h.fill (y := cloneProc (s.proc c) (s.leader c) stack (s.proc np)) hb hemb rfl le_rfl
    (fun d hd => (leaving_of_goto hd nofun).2) (fun _ => ⟨d, ne_of_live hlive (by rw [hemb]; rfl), hd, htype, hdir, ?_⟩)
    (h.known c (occupied_of_live hr)) nofun
  intro hl
  obtain ⟨hdc, hl⟩ := leaving_of_goto hl nofun
  rcases hthread with rfl | ht
  · exact hdc rfl
  · exact h.left d hl htype c ht

theorem Shared.leave (hc : s.pc c = .leaving) : Shared (s.leave c) := by
  have htype := leave_field Proc.type (fun _ _ _ _ _ _ _ => rfl) s c
  have hdir := leave_field Proc.pgdir (fun _ _ _ _ _ _ _ => rfl) s c
  have hno : ∀ t, ¬Thread s c t := by
    rintro t ⟨h1, h2, h3⟩
    obtain ⟨d, hd, hdt, -⟩ := h.leader t h1 h2
    rw [hd] at h3; cases h3
    exact h.left c hc hdt t ⟨h1, h2, hd⟩
  have hocc : ∀ t, ((s.leave c).proc t).state.occupied = true → (s.proc t).state.occupied = true := by
    intro t ht
    by_cases htc : t = c
    · subst htc; exact occupied_of_live (hb.busy t (by rw [hc]; exact Pc.noConfusion))
    · exact (leave_state htc).occupied ▸ ht
  -- a live thread keeps its parent
  have hpar : ∀ t, (s.proc t).type = .thread → (s.proc t).state.live = true →
    ((s.leave c).proc t).parent = (s.proc t).parent := by
    intro t h1 h2
    rw [leave_parent, if_neg fun h3 => hno t ⟨h1, h2, h3⟩]
  constructor
  · intro t ht hl
    rw [htype] at ht
    obtain ⟨-, hl⟩ := leave_live hl
    obtain ⟨d, h1, h2, h3⟩ := h.leader t ht hl
    refine ⟨d, (hpar t ht hl).trans h1, ?_⟩
    rw [htype, hdir, hdir]
    exact ⟨h2, h3⟩
  · rintro d hd hdt t ⟨h1, h2, h3⟩
    rw [htype] at hdt h1
    obtain ⟨-, h2⟩ := leave_live h2
    rw [hpar t h1 h2] at h3
    have hdl : s.pc d = .leaving := by
      rw [leave_pc] at hd
      by_cases hdc : d = c
      · subst hdc; exact hc
      · rwa [update_of_ne hdc] at hd
    exact h.left d hdl hdt t ⟨h1, h2, h3⟩
  · intro p hp; rw [hdir, leave_nextdir]; exact h.known p (hocc p hp)
  · intro p q hp hq htp htq hd
    rw [htype] at htp htq
    rw [hdir, hdir] at hd
    exact h.own p q (hocc p hp) (hocc q hq) htp htq hd

omit hb in
theorem Shared.tell (c : Ref) (n : UInt32) : Shared (s.tell c n) := { h with }

theorem Shared.reap (dead : (s.proc p).state = .zombie) : Shared (s.mod p clearProc) := by
  refine h.mod hb ?_ fun ho => by cases ho
  rw [dead]
  rfl

theorem Shared.crash (dead : (s.proc p).state = .zombie) :
    Shared (s.mod p fun x => { x with state := .crashed }) := by
  refine h.mod hb ?_ fun _ => ⟨?_, rfl, rfl, rfl⟩
  · rw [dead]; rfl
  · rw [dead]; rfl

theorem Shared.waits (hw : Waits s c found failed again s')
    (hc : (s.proc c).state.live = true) (hf : found ≠ .leaving) (ha : again ≠ .leaving)
    (hk : failed = .leaving → Joins s c) : Shared s' := by
  cases hw with
  | reap child dead process clean =>
    exact ((h.reap hb dead).tell c _).goto ((hb.reap dead).tell c _) fun hk => absurd hk hf
  | crash child dead process crashed =>
    exact ((h.crash hb dead).tell c _).goto ((hb.crash dead process).tell c _) fun hk => absurd hk hf
  | childless none =>
    refine h.goto hb fun hl => ⟨hc, fun _ t ht => ?_⟩
    obtain ⟨hkill, -⟩ := hk hl ⟨t, ht⟩
    rcases none with hno | hyes
    · exact hno t ht.2.2
    · simp [hkill] at hyes
  | again =>
    have hm : Mild s (s.mod c fun x => { x with state := .wait, waitrounds := Tasks.waitrounds }) :=
      .mod (.live _ _ hc rfl)
    exact (h.mild hb hm).goto (hb.mild hm) fun hk => absurd hk ha

theorem Shared.step (hok : Orderly s a) (hs : Step s a s') : Shared s' := by
  cases hs with
  | mild hm => exact h.mild hb hm
  | fork here free | clone here may free => exact (h.taken hb free).goto (hb.taken free) nofun
  | @failed _ c np dir runs here =>
    have hemb := hb.made c np here
    have hm : Shared (s.mod np fun x => { x with state := .unused, pgdir := dir }) := by
      refine h.mod hb ?_ fun ho => by cases ho
      rw [hemb]
      rfl
    exact ⟨hm.leader, fun d hd => hm.left d (leaving_of_goto hd nofun).2, hm.known, hm.own⟩
  | forked runs here => exact h.forkInto hb here
  | cloned runs here => exact h.cloneInto hb (by rw [runs]; rfl) here
  | added runs here leader =>
    obtain ⟨th, n, heq⟩ := addchild_eq s _ _
    rw [heq]
    exact (h.mod hb rfl fun ho => ⟨ho, rfl, rfl, rfl⟩).goto (hb.rewrite (.inl rfl) rfl rfl) nofun
  | kill here victim =>
    exact h.soft hb (mod_lives (killProc_lives _)) (fun q => ⟨mod_field Proc.type rfl q, mod_field Proc.parent rfl q,
      mod_field Proc.pgdir rfl q⟩) rfl fun d hd => .inl hd
  | wait here hw => exact h.waits hb hw (here.elim At.live At.live) nofun nofun nofun
  | exit here notInit | stopping here process => exact h.goto hb nofun
  | trap here notInit =>
    exact (h.mod hb rfl fun ho => ⟨ho, rfl, rfl, rfl⟩).goto (hb.rewrite (.inl rfl) rfl rfl) nofun
  | noThreads here none =>
    refine h.goto hb fun _ => ⟨here.live, fun hp t ht => ?_⟩
    exact (hok ⟨t, ht⟩).2 (none hp)
  | @stop c s' here some hw =>
    exact (h.killThreads hb c).waits (hb.killThreads c) hw (killThreads_live here.live) nofun nofun fun _ => hok.1
  | @stopped c here none =>
    obtain ⟨b, hp, -⟩ := killThreads_proc s c c
    refine (h.killThreads hb c).goto (hb.killThreads c) fun _ => ⟨killThreads_live here.live, fun _ t ht => ?_⟩
    exact (hok.1 ⟨t, ht⟩).2 (by rw [hp]; exact none)
  | join here hw => exact h.waits hb hw here.live nofun nofun fun _ => hok.1
  | rejoin here hw => exact h.waits hb hw here.live nofun nofun nofun
  | leave here => exact h.leave hb here.2
  | @cull p par thread dead parent =>
    obtain ⟨th, n, heq⟩ := removechild_eq s par p
    rw [heq]
    have hm : Shared (s.mod par fun x => { x with threads := th, threadi := n }) :=
      h.mod hb rfl fun ho => ⟨ho, rfl, rfl, rfl⟩
    exact hm.reap (hb.rewrite (.inl rfl) rfl rfl) ((mod_field Proc.state rfl p).trans dead)

omit hb

omit h

theorem shared_boot (th cl su : Bool) : Shared (boot th cl su) where
  leader t ht hl := by
    simp only [boot] at ht hl
    split at ht
    · cases ht
    · split at ht <;> cases ht
  left c hc := by cases hc
  known p hp := by
    simp only [boot] at hp ⊢
    split at hp
    · exact ⟨0, by simp [*, Proc.boot], by decide⟩
    split at hp
    · exact ⟨1, by simp [*, Proc.boot], by decide⟩
    · cases hp
  own p q hp hq _ _ hd := by
    simp only [boot] at hp hq hd
    split at hp
    · split at hq
      · exact (‹p = 0›).trans (‹q = 0›).symm
      split at hq
      · simp [*, Proc.boot] at hd
      · cases hq
    split at hp
    · split at hq
      · simp [*, Proc.boot] at hd
      split at hq
      · exact (‹p = 1›).trans (‹q = 1›).symm
      · cases hq
    · cases hp

theorem shared_of_reachable {th cl su} (h : Reachable Orderly (boot th cl su) s) : Base s ∧ Shared s :=
  h.base (shared_boot th cl su) fun hb hsh hok hs _ => { hsh.step hb hok hs with }

theorem Shared.of_zombie (h : Shared s) (hb : Base s) (dead : (s.proc p).state = .zombie)
    (process : (s.proc p).type = .process) (hq : (s.proc q).state.occupied = true) (hz : (s.proc q).state ≠ .zombie) :
    (s.proc q).pgdir ≠ (s.proc p).pgdir := by
  have hp : (s.proc p).state.occupied = true := by rw [dead]; rfl
  intro heq
  cases htype : (s.proc q).type with
  | process => have hqp := h.own q p hq hp htype process heq; rw [hqp] at hz; exact hz dead
  | thread =>
    have hl : (s.proc q).state.live = true := by
      have hcr : (s.proc q).state ≠ .crashed := fun hcr => by
        have := hb.corpse q hcr
        rw [htype] at this; cases this
      cases hst : (s.proc q).state <;> simp_all [Procstate.live, Procstate.occupied]
    obtain ⟨c, h1, h2, h3⟩ := h.leader q htype hl
    have hcl := hb.parent q c h1
    have hcp := h.own c p (occupied_of_live hcl) hp h2 process (h3.trans heq)
    rw [hcp, dead] at hcl; cases hcl

theorem reaped_some {d} (h : s.reaped c = some d) : ∃ p, (s.proc p).parent = some c ∧
    (s.proc p).state = .zombie ∧ (s.proc p).type = .process ∧ (s.proc p).pgdir = some d := by
  unfold reaped at h
  split at h
  · rename_i p hs
    have hspec := scan_spec s c
    rw [hs] at hspec
    obtain ⟨⟨h1, h2, h3⟩, -⟩ := hspec
    exact ⟨p, h1, h2, h3, h⟩
  · cases h

theorem freed_some {d} (h : s.freed a = some d) (hok : Orderly s a) :
    (∃ p, (s.proc p).state = .zombie ∧ (s.proc p).type = .process ∧ (s.proc p).pgdir = some d) ∧
      ∀ q, (s.proc q).state ≠ .embryo := by
  have key : ∀ c, Reaps s c → (∃ p, (s.proc p).parent = some c ∧ (s.proc p).state = .zombie ∧
    (s.proc p).type = .process ∧ (s.proc p).pgdir = some d) →
    (∃ p, (s.proc p).state = .zombie ∧ (s.proc p).type = .process ∧ (s.proc p).pgdir = some d) ∧
      ∀ q, (s.proc q).state ≠ .embryo := by
    rintro c hr ⟨p, h1, h2, h3, h4⟩
    exact ⟨⟨p, h2, h3, h4⟩, hr ⟨p, h1, h2, h3⟩⟩
  cases a with
  | wait c => exact key c hok (reaped_some h)
  | join c => exact key c hok.2 (reaped_some h)
  | stop c =>
    simp only [freed] at h
    split at h
    · obtain ⟨p, hp⟩ := reaped_some h
      obtain ⟨b, hpe, -⟩ := killThreads_proc s c p
      rw [hpe] at hp
      exact key c hok.2 ⟨p, hp⟩
    · cases h
  | _ => cases h

/-- In orderly runs a page directory is given to `freevm` only when no process that is left has
it. -/
theorem freevm_after_threads {th cl su : Bool} (h : Reachable Orderly (boot th cl su) s) :
    (∀ a d, Orderly s a → s.freed a = some d → ∀ q, (s.proc q).state ≠ .unused → (s.proc q).state ≠ .zombie →
      (s.proc q).pgdir ≠ some d) ∧
    ∀ p q, (s.proc p).state = .zombie → (s.proc p).type = .process → (s.proc q).state.live = true →
      (s.proc q).pgdir ≠ (s.proc p).pgdir := by
  obtain ⟨hb, hsh⟩ := shared_of_reachable h
  refine ⟨fun a d hok hf q hu hz => ?_, fun p q dead process hq => ?_⟩
  · obtain ⟨⟨p, h1, h2, h3⟩, hemb⟩ := freed_some hf hok
    have hocc : (s.proc q).state.occupied = true := by
      have := hemb q
      cases hst : (s.proc q).state <;> simp_all [Procstate.occupied]
    rw [← h3]
    exact hsh.of_zombie hb h1 h2 hocc hz
  · refine hsh.of_zombie hb dead process (occupied_of_live hq) fun hz => ?_
    rw [hz] at hq; cases hq

def withThread : List Act := [.run 1, .fork 1, .forked 1 true true, .run 2, .clone 2 0x8000, .cloned 2 true, .added 2]

def joinsThread : List Act :=
  withThread ++ [.exit 2, .look 2, .stop 2, .run 3, .exit 3, .look 3, .leave 3, .cull 3, .tick 2, .tick 2, .tick 2,
    .tick 2,
    .tick 2, .tick 2, .run 2, .join 2, .leave 2]

theorem freevm_after_join : ∃ s, Reachable Orderly (boot true true false) s ∧ s.freed (.wait 1) = some 2 ∧
    ∀ q, (s.proc q).state ≠ .unused → (s.proc q).state ≠ .zombie → (s.proc q).pgdir ≠ some 2 := by
  obtain ⟨s, h, hfreed, hok⟩ : ∃ s, Reachable Orderly (boot true true false) s ∧ s.freed (.wait 1) = some 2 ∧
      Orderly s (.wait 1) := exists_run joinsThread (by decide +kernel)
  exact ⟨s, h, hfreed, (freevm_after_threads h).1 _ _ hok hfreed⟩

/-- A process is killed that has a thread. It does not wait for the thread, and its directory is freed under it. -/
theorem freevm_under_thread : ∃ s, Reachable (fun _ _ => True) (boot true true false) s ∧
    s.freed (.wait 1) = some 2 ∧ (s.act (.wait 1)).isSome ∧ (s.proc 3).state = .runnable ∧
    (s.proc 3).pgdir = some 2 :=
  exists_run (withThread ++ [.kill 1 2, .exit 2, .look 2, .stop 2, .leave 2]) (by decide +kernel)

end Xv6Vsd.Tasks
