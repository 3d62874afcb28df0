import Xv6Vsd.Proc.Model

/-!
# What a step does to the process table
-/

namespace Xv6Vsd.Tasks

open State

def Procstate.live : Procstate → Bool
  | .sleeping | .wait | .msgwait | .runnable | .running => true
  | _ => false

def Procstate.occupied : Procstate → Bool
  | .unused | .embryo => false
  | _ => true

theorem occupied_of_live {st : Procstate} (h : st.live = true) : st.occupied = true := by
  cases st <;> first | rfl | cases h

def Lives (st st' : Procstate) : Prop := st' = st ∨ st'.live = true ∧ st.live = true

namespace Lives

variable {st st' st0 : Procstate} (h : Lives st st')
include h

theorem live : st'.live = st.live := by
  rcases h with rfl | ⟨h1, h2⟩
  · rfl
  · rw [h1, h2]

theorem occupied : st'.occupied = st.occupied := by
  rcases h with rfl | ⟨h1, h2⟩
  · rfl
  · rw [occupied_of_live h1, occupied_of_live h2]

theorem eq_iff (h0 : st0.live = false) : st' = st0 ↔ st = st0 := by
  rcases h with rfl | ⟨h1, h2⟩
  · rfl
  constructor <;> rintro rfl
  · simp [h0] at h1
  · simp [h0] at h2

end Lives

theorem killProc_lives (x : Proc) : Lives x.state (killProc x).state := by
  unfold killProc
  split
  · next hsl => refine .inr ⟨rfl, ?_⟩; rcases hsl with hsl | hsl <;> rw [hsl] <;> rfl
  · exact .inl rfl

def Pc.makes : Pc → Option Ref
  | .forking np | .cloning np _ => some np
  | _ => none

def Pc.exits : Pc → Bool
  | .exiting | .stopping | .joining | .rejoining | .leaving => true
  | _ => false

variable {s s' s1 : State} {a : Act} {p q c np par : Ref} {k found failed again : Pc} {stack : UInt32}

/-! ## The table -/

theorem first_some {f} (h : first f = some p) : f p = true := List.find?_some h

theorem first_none {f} (h : first f = none) (p : Ref) : f p = false := by
  have := List.find?_eq_none.mp h p (List.mem_finRange p); simpa using this

namespace State

variable (f : Proc → Proc)

@[simp] theorem mod_pc : (s.mod p f).pc = s.pc := rfl
@[simp] theorem mod_initproc : (s.mod p f).initproc = s.initproc := rfl
@[simp] theorem mod_proc : (s.mod p f).proc = Function.update s.proc p (f (s.proc p)) := rfl
@[simp] theorem mod_born : (s.mod p f).born = s.born := rfl
@[simp] theorem mod_told : (s.mod p f).told = s.told := rfl
@[simp] theorem mod_nextdir : (s.mod p f).nextdir = s.nextdir := rfl

@[simp] theorem goto_pc : (s.goto c k).pc = Function.update s.pc c k := rfl
@[simp] theorem goto_proc : (s.goto c k).proc = s.proc := rfl
@[simp] theorem goto_initproc : (s.goto c k).initproc = s.initproc := rfl
@[simp] theorem goto_born : (s.goto c k).born = s.born := rfl
@[simp] theorem goto_told : (s.goto c k).told = s.told := rfl
@[simp] theorem goto_nextdir : (s.goto c k).nextdir = s.nextdir := rfl

@[simp] theorem tell_pc (n) : (s.tell c n).pc = s.pc := rfl
@[simp] theorem tell_proc (n) : (s.tell c n).proc = s.proc := rfl

theorem mod_field {α} (g : Proc → α) {f} (h : g (f (s.proc p)) = g (s.proc p)) (q) :
    g ((s.mod p f).proc q) = g (s.proc q) := by
  by_cases hq : q = p
  · subst hq; simpa using h
  · simp [hq]

theorem mod_lives {f} (h : Lives (s.proc p).state (f (s.proc p)).state) (q : Ref) :
    Lives (s.proc q).state ((s.mod p f).proc q).state := by
  by_cases hq : q = p
  · subst hq; simpa using h
  · exact .inl (by simp [hq])

theorem At.live (h : s.At c k) : (s.proc c).state.live = true := by rw [h.1]; rfl

end State

/-! ## Steps that only schedule -/

def Turned (x y : Proc) : Prop :=
  ∃ st ch w u g, y = { x with state := st, chan := ch, waitrounds := w, uid := u, sid := g } ∧
    (st = x.state ∨ st.live = true ∧ x.state.live = true)

theorem Turned.refl (x) : Turned x x := ⟨x.state, x.chan, x.waitrounds, x.uid, x.sid, rfl, .inl rfl⟩

theorem Turned.live {x st} (ch w) (hx : x.state.live = true) (hst : st.live = true) :
    Turned x { x with state := st, chan := ch, waitrounds := w } :=
  ⟨st, ch, w, x.uid, x.sid, rfl, .inr ⟨hst, hx⟩⟩

structure Mild (s s' : State) : Prop where
  proc : ∀ p, Turned (s.proc p) (s'.proc p)
  pc : s'.pc = s.pc
  initproc : s'.initproc = s.initproc
  nextdir : s'.nextdir = s.nextdir
  born : s'.born = s.born
  told : s'.told = s.told

namespace Mild

theorem refl (s) : Mild s s := ⟨fun p => .refl (s.proc p), rfl, rfl, rfl, rfl, rfl⟩

theorem mod {f} (hf : Turned (s.proc p) (f (s.proc p))) : Mild s (s.mod p f) where
  proc q := by
    by_cases hq : q = p
    · subst hq; simpa using hf
    · simpa [hq] using Turned.refl (s.proc q)
  pc := rfl
  initproc := rfl
  nextdir := rfl
  born := rfl
  told := rfl

theorem wakeup1 (chan) : Mild s (s.wakeup1 chan) where
  proc p := by
    by_cases h : (s.proc p).state = .sleeping ∧ (s.proc p).chan = chan
    · simp only [State.wakeup1, h, and_self, if_true]; exact .live _ _ (by rw [h.1]; rfl) rfl
    · simp only [State.wakeup1, h, if_false]; exact .refl _
  pc := rfl
  initproc := rfl
  nextdir := rfl
  born := rfl
  told := rfl

variable (h : Mild s s')
include h

theorem state (p) : Lives (s.proc p).state (s'.proc p).state := by
  obtain ⟨st, ch, w, u, g, hp, hst⟩ := h.proc p; rw [hp]; exact hst

theorem live (p) : (s'.proc p).state.live = (s.proc p).state.live := (h.state p).live

theorem occupied (p) : (s'.proc p).state.occupied = (s.proc p).state.occupied := (h.state p).occupied

theorem parent (p) : (s'.proc p).parent = (s.proc p).parent := by
  obtain ⟨st, ch, w, u, g, hp, -⟩ := h.proc p; rw [hp]

theorem type (p) : (s'.proc p).type = (s.proc p).type := by
  obtain ⟨st, ch, w, u, g, hp, -⟩ := h.proc p; rw [hp]

theorem pgdir (p) : (s'.proc p).pgdir = (s.proc p).pgdir := by
  obtain ⟨st, ch, w, u, g, hp, -⟩ := h.proc p; rw [hp]

theorem pid (p) : (s'.proc p).pid = (s.proc p).pid := by
  obtain ⟨st, ch, w, u, g, hp, -⟩ := h.proc p; rw [hp]

theorem killed (p) : (s'.proc p).killed = (s.proc p).killed := by
  obtain ⟨st, ch, w, u, g, hp, -⟩ := h.proc p; rw [hp]

theorem crashed (p) : (s'.proc p).crashed = (s.proc p).crashed := by
  obtain ⟨st, ch, w, u, g, hp, -⟩ := h.proc p; rw [hp]

theorem threads (p) : (s'.proc p).threads = (s.proc p).threads := by
  obtain ⟨st, ch, w, u, g, hp, -⟩ := h.proc p; rw [hp]

theorem threadi (p) : (s'.proc p).threadi = (s.proc p).threadi := by
  obtain ⟨st, ch, w, u, g, hp, -⟩ := h.proc p; rw [hp]

end Mild

/-! ## `wait1` -/

inductive Waits (s : State) (c : Ref) (found failed again : Pc) : State → Prop
  | reap {p : Ref} (child : (s.proc p).parent = some c) (dead : (s.proc p).state = .zombie)
    (process : (s.proc p).type = .process) (clean : (s.proc p).crashed = false) :
    Waits s c found failed again (((s.mod p clearProc).tell c (s.proc p).pid).goto c found)
  | crash {p : Ref} (child : (s.proc p).parent = some c) (dead : (s.proc p).state = .zombie)
    (process : (s.proc p).type = .process) (crashed : (s.proc p).crashed = true) :
    Waits s c found failed again (((s.mod p fun x => { x with state := .crashed }).tell c (s.proc p).pid).goto c found)
  | childless (none : (∀ p, (s.proc p).parent ≠ some c) ∨ (s.proc c).killed = true) :
    Waits s c found failed again (s.goto c failed)
  | again : Waits s c found failed again
    ((s.mod c fun x => { x with state := .wait, waitrounds := Tasks.waitrounds }).goto c again)

def Dead (s : State) (c p : Ref) : Prop :=
  (s.proc p).parent = some c ∧ (s.proc p).state = .zombie ∧ (s.proc p).type = .process

theorem scan_spec (s : State) (c : Ref) : match s.scan c with
    | .reap p => Dead s c p ∧ (s.proc p).crashed = false
    | .crash p => Dead s c p ∧ (s.proc p).crashed = true
    | .childless => (∀ p, ¬Dead s c p) ∧ ((∀ p, (s.proc p).parent ≠ some c) ∨ (s.proc c).killed = true)
    | .again => (∀ p, ¬Dead s c p) ∧ (∃ p, (s.proc p).parent = some c) ∧ (s.proc c).killed = false := by
  unfold scan
  cases hf : first fun p => (s.proc p).parent = some c ∧ (s.proc p).state = .zombie ∧ (s.proc p).type = .process with
  | some p =>
    have hp : Dead s c p := by simpa [Dead] using first_some hf
    dsimp only
    cases hcr : (s.proc p).crashed
    · exact ⟨hp, hcr⟩
    · exact ⟨hp, hcr⟩
  | none =>
    have hno : ∀ p, ¬Dead s c p := fun p => by simpa [Dead] using first_none hf p
    dsimp only
    split_ifs with hend
    · exact ⟨hno, hend⟩
    · push Not at hend; exact ⟨hno, hend.1, by simpa using hend.2⟩

theorem wait1_waits (s : State) (c : Ref) (found failed again : Pc) :
    Waits s c found failed again (s.wait1 c found failed again) := by
  have hspec := scan_spec s c
  unfold wait1
  cases hs : s.scan c with rw [hs] at hspec
  | reap p => obtain ⟨⟨h1, h2, h3⟩, hclean⟩ := hspec; exact .reap h1 h2 h3 hclean
  | crash p => obtain ⟨⟨h1, h2, h3⟩, hcr⟩ := hspec; exact .crash h1 h2 h3 hcr
  | childless => exact .childless hspec.2
  | again => exact .again

/-! ## Steps -/

inductive Step (s : State) : Act → State → Prop
  | mild {a : Act} {s' : State} (h : Mild s s') : Step s a s'
  | fork {c np : Ref} (here : s.At c .user) (free : (s.proc np).state = .unused) :
    Step s (.fork c) ((s.taken np).goto c (.forking np))
  | clone {c np : Ref} {stack : UInt32} (here : s.At c .user) (may : s.MayClone c)
    (free : (s.proc np).state = .unused) : Step s (.clone c stack) ((s.taken np).goto c (.cloning np stack))
  | failed {a : Act} {c np : Ref} (dir : Option Nat) (runs : (s.proc c).state = .running)
    (here : (s.pc c).makes = some np) :
    Step s a ((s.mod np fun x => { x with state := .unused, pgdir := dir }).goto c .user)
  | forked {c np : Ref} (runs : (s.proc c).state = .running) (here : s.pc c = .forking np) :
    Step s (.forked c true true) ((s.forkInto c np).goto c .user)
  | cloned {c np : Ref} {stack : UInt32} (runs : (s.proc c).state = .running) (here : s.pc c = .cloning np stack) :
    Step s (.cloned c true) ((s.cloneInto c np stack).goto c (.adding np))
  | added {c np par : Ref} (runs : (s.proc c).state = .running) (here : s.pc c = .adding np)
    (leader : s.leader c = some par) : Step s (.added c) ((s.addchild par np).goto c .user)
  | kill {c p : Ref} {pid : UInt32} (here : s.At c .user) (victim : s.victim c pid = some p) :
    Step s (.kill c pid) (s.mod p killProc)
  | wait {c : Ref} {s' : State} (here : s.At c .user ∨ s.At c .waiting) (h : Waits s c .user .user .waiting s') :
    Step s (.wait c) s'
  | exit {c : Ref} (here : s.At c .user) (notInit : c ≠ s.initproc) : Step s (.exit c) (s.goto c .exiting)
  | trap {c : Ref} (here : s.At c .user) (notInit : c ≠ s.initproc) :
    Step s (.trap c) ((s.mod c fun x => { x with killed := true, crashed := true }).goto c .exiting)
  | stopping {c : Ref} (here : s.At c .exiting) (process : (s.proc c).type = .process) :
    Step s (.look c) (s.goto c .stopping)
  | noThreads {c : Ref} (here : s.At c .exiting) (none : (s.proc c).type = .process → (s.proc c).threadi = 0) :
    Step s (.look c) (s.goto c .leaving)
  | stop {c : Ref} {s' : State} (here : s.At c .stopping) (some : (s.proc c).threadi ≠ 0)
    (h : Waits (s.killThreads c) c .rejoining .leaving .joining s') : Step s (.stop c) s'
  | stopped {c : Ref} (here : s.At c .stopping) (none : (s.proc c).threadi = 0) :
    Step s (.stop c) ((s.killThreads c).goto c .leaving)
  | join {c : Ref} {s' : State} (here : s.At c .joining) (h : Waits s c .rejoining .leaving .joining s') :
    Step s (.join c) s'
  | rejoin {c : Ref} {s' : State} (here : s.At c .rejoining) (h : Waits s c .user .user .user s') : Step s (.join c) s'
  | leave {c : Ref} (here : s.At c .leaving) : Step s (.leave c) (s.leave c)
  | cull {p par : Ref} (thread : (s.proc p).type = .thread) (dead : (s.proc p).state = .zombie)
    (parent : (s.proc p).parent = some par) : Step s (.cull p) ((s.removechild par p).mod p clearProc)

theorem guarded_some {b} [Decidable b] {t} (h : guarded b t = some s') : b ∧ t = s' := by
  unfold guarded at h
  split at h <;> cases h
  exact ⟨‹b›, rfl⟩

theorem allocproc_some (h : s.allocproc = some (np, s')) : (s.proc np).state = .unused ∧ s' = s.taken np := by
  unfold allocproc at h
  obtain ⟨p, hp, heq⟩ := Option.map_eq_some_iff.mp h
  cases heq
  exact ⟨by simpa using first_some hp, rfl⟩

def Upto (s' s1 : State) : Prop := ∃ b, s' = { s1 with panicked := b }

theorem Upto.rfl : Upto s s := ⟨s.panicked, by cases s; exact Eq.refl _⟩

theorem panic_upto (s) : Upto { s with panicked := true } s := ⟨true, Eq.refl _⟩

theorem act_step (h : s.act a = some s') : ∃ s1, Upto s' s1 ∧ Step s a s1 := by
  unfold act at h
  split at h
  · cases h
  cases a with try obtain ⟨hb, rfl⟩ := guarded_some h
  | run p =>
    exact ⟨_, .rfl, .mild (.mod (.live _ _ (by rw [hb.1]; rfl) rfl))⟩
  | tick p =>
    refine ⟨_, .rfl, .mild (.mod ?_)⟩
    split
    · exact ⟨_, _, _, _, _, rfl, .inl rfl⟩
    · exact .live _ _ (by rw [hb]; rfl) rfl
  | cull p =>
    unfold State.cull
    split
    · next hpar => exact ⟨_, .rfl, .cull hb.1 hb.2 hpar⟩
    · exact ⟨s, panic_upto s, .mild (.refl s)⟩
  | yield c | sleep c chan | msgwait c | psendmsg p =>
    exact ⟨_, .rfl, .mild (.mod (.live _ _ (by rw [hb]; rfl) rfl))⟩
  | wakeup chan => cases h; exact ⟨_, .rfl, .mild (.wakeup1 chan)⟩
  | fork c =>
    split
    · next ha => obtain ⟨hfree, rfl⟩ := allocproc_some ha; exact ⟨_, .rfl, .fork hb hfree⟩
    · exact ⟨_, .rfl, .mild (.refl s)⟩
  | forked c kstack copied =>
    dsimp only at h
    split at h
    · rename_i np hpc
      obtain ⟨hb, rfl⟩ := guarded_some h
      have hmakes : (s.pc c).makes = some np := by rw [hpc]; rfl
      cases kstack with
      | false => exact ⟨_, .rfl, .failed (s.proc np).pgdir hb hmakes⟩
      | true =>
        cases copied with
        | false =>
          refine ⟨_, .rfl, ?_⟩
          have := Step.failed (s := s) (a := .forked c true false) none hb hmakes
          simpa [giveUp, mod] using this
        | true => exact ⟨_, .rfl, .forked hb hpc⟩
    · cases h
  | clone c stack =>
    split
    · rename_i hmay
      split
      · rename_i ha
        obtain ⟨hfree, rfl⟩ := allocproc_some ha
        exact ⟨_, .rfl, .clone hb hmay hfree⟩
      · exact ⟨_, .rfl, .mild (.refl s)⟩
    · exact ⟨_, .rfl, .mild (.refl s)⟩
  | cloned c kstack =>
    dsimp only at h
    split at h
    · rename_i np stack hpc
      obtain ⟨hb, rfl⟩ := guarded_some h
      have hmakes : (s.pc c).makes = some np := by rw [hpc]; rfl
      cases kstack with
      | false => exact ⟨_, .rfl, .failed (s.proc np).pgdir hb hmakes⟩
      | true => exact ⟨_, .rfl, .cloned hb hpc⟩
    · cases h
  | added c =>
    dsimp only at h
    split at h
    · rename_i np hpc
      obtain ⟨hb, rfl⟩ := guarded_some h
      split
      · next hl => exact ⟨_, .rfl, .added hb hpc hl⟩
      · exact ⟨s, panic_upto s, .mild (.refl s)⟩
    · cases h
  | kill c pid =>
    unfold State.kill
    split
    · next hv => exact ⟨_, .rfl, .kill hb hv⟩
    · exact ⟨_, .rfl, .mild (.refl s)⟩
  | chuser c uid | chsystem c sid => exact ⟨_, .rfl, .mild (.mod ⟨_, _, _, _, _, rfl, .inl rfl⟩)⟩
  | disallow c => exact ⟨_, .rfl, .mild ⟨fun p => .refl _, rfl, rfl, rfl, rfl, rfl⟩⟩
  | wait c => exact ⟨_, .rfl, .wait hb (wait1_waits s c _ _ _)⟩
  | exit c =>
    split
    · exact ⟨s, panic_upto s, .mild (.refl s)⟩
    · next hne => exact ⟨_, .rfl, .exit hb hne⟩
  | trap c =>
    split
    · exact ⟨s, panic_upto s, .mild (.refl s)⟩
    · next hne => exact ⟨_, .rfl, .trap hb hne⟩
  | look c =>
    split
    · next hth => exact ⟨_, .rfl, .stopping hb hth.1⟩
    next hth =>
    refine ⟨_, .rfl, .noThreads hb fun htype => ?_⟩
    by_contra hne
    exact hth ⟨htype, hne⟩
  | stop c =>
    split
    · next hth => exact ⟨_, .rfl, .stop hb hth (wait1_waits _ c _ _ _)⟩
    · next hth => exact ⟨_, .rfl, .stopped hb (not_not.mp hth)⟩
  | join c =>
    dsimp only at h
    split at h
    · next hb => cases h; exact ⟨_, .rfl, .join hb (wait1_waits s c _ _ _)⟩
    · obtain ⟨hb, rfl⟩ := guarded_some h
      exact ⟨_, panic_upto _, .rejoin hb (wait1_waits s c _ _ _)⟩
  | leave c => exact ⟨_, .rfl, .leave hb⟩

end Xv6Vsd.Tasks
