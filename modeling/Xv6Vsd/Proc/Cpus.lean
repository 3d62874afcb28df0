import Xv6Vsd.Proc.Model

/-!
# Processes and processors (`proc.c`)

Any number of processors in `scheduler`, each with the process whose kernel context it executes. A write to `p->state`
is
one step; what is done under `ptable.lock` is done by the processor that holds it. `psendmsg` tests and writes without
the
lock, and `precvwait` and `precvmsg` write `MSGWAIT` before they take it.
-/

namespace Xv6Vsd.Cpus

open Option
open Function (update update_of_ne update_self)
open Tasks (Procstate waitrounds)

inductive Ctl (ι : Type) where
  | run
  | send (q : ι)
  /-- in `precvwait` or `precvmsg`, before `acquire(&ptable.lock)` -/
  | window
  /-- in a section of `ptable.lock`; `k` is the receiver of a `psendmsg` that an interrupt has cut short -/
  | locked (k : Option ι)
  | parting (k : Option ι)
  | off (k : Option ι)
  deriving DecidableEq

def Ctl.back {ι : Type} : Option ι → Ctl ι
  | none => .run
  | some q => .send q

def Ctl.saved {ι : Type} : Ctl ι → Option ι
  | .off k => k
  | _ => none

structure State (γ ι χ : Type) where
  state : ι → Procstate
  chan : ι → Option χ
  rounds : ι → Nat
  thread : ι → Bool
  on : γ → Option ι
  /-- the processor that holds `ptable.lock` -/
  lock : Option γ
  ctl : ι → Ctl ι

inductive Act (γ ι χ : Type) where
  | acquire (c : γ)
  | release (c : γ)
  | pick (c : γ) (p : ι)
  | tick (c : γ) (p : ι)
  | cull (c : γ) (p : ι)
  | swtch (c : γ)
  | yield (c : γ)
  | sleep (c : γ) (chan : χ)
  /-- `proc->state = WAIT` of `wait1` -/
  | wait (c : γ)
  | exit (c : γ)
  | wakeup (c : γ) (chan : χ)
  | kill (c : γ) (q : ι)
  | reap (c : γ) (q : ι) (crashed : Bool)
  /-- `p->state = EMBRYO` of `allocproc` -/
  | alloc (c : γ) (q : ι)
  /-- `np->state = UNUSED` of a `fork` that fails -/
  | unalloc (c : γ) (q : ι)
  /-- `np->state = RUNNABLE` of `fork` and `clone` -/
  | ready (c : γ) (q : ι)
  /-- `proc->state = MSGWAIT` -/
  | recv (c : γ)
  /-- a trap, from the kernel too, finds a killed process in `MSGWAIT` and calls `exit` -/
  | trap (c : γ)
  | test (c : γ) (q : ι)
  | store (c : γ)
  | interrupt (c : γ) (chan : χ)

variable {γ ι χ : Type}

namespace State

variable [DecidableEq γ] [DecidableEq ι] [DecidableEq χ]

def set (s : State γ ι χ) (p : ι) (x : Procstate) : State γ ι χ := { s with state := update s.state p x }

def goto (s : State γ ι χ) (p : ι) (k : Ctl ι) : State γ ι χ := { s with ctl := update s.ctl p k }

def wakeup1 (s : State γ ι χ) (chan : χ) : State γ ι χ :=
  { s with state := fun p => if s.state p = .sleeping ∧ s.chan p = some chan then .runnable else s.state p }

def scanning (s : State γ ι χ) (c : γ) : Bool := s.lock = some c ∧ s.on c = none

def at? (s : State γ ι χ) (c : γ) (k : Ctl ι → Bool) : Option ι := (s.on c).filter fun p => k (s.ctl p)

def inside (s : State γ ι χ) (c : γ) : Option (ι × Option ι) := match s.on c with
  | none => none
  | some p =>
    match s.ctl p with
    | .locked k => some (p, k)
    | _ => none

def acquire (s : State γ ι χ) (c : γ) : Option (State γ ι χ) := if s.lock = none then
    match s.on c with
    | none => some { s with lock := some c }
    | some p =>
      match s.ctl p with
      | .run => some { s.goto p (.locked none) with lock := some c }
      | .send q => some { s.goto p (.locked (some q)) with lock := some c }
      | .window => some { s.goto p (.parting none) with lock := some c }
      | _ => none
  else none

def release (s : State γ ι χ) (c : γ) : Option (State γ ι χ) :=
  if s.scanning c then some { s with lock := none }
  else
    match s.inside c with
    | some (p, k) => some { s.goto p (.back k) with lock := none }
    | none => none

/-- The process that `c` executes in a section of `ptable.lock` writes its state and calls `sched`. -/
def part (s : State γ ι χ) (c : γ) (x : Procstate) : Option (ι × State γ ι χ) := match s.inside c with
  | some (p, k) => some (p, (s.set p x).goto p (.parting k))
  | none => none

def swtch (s : State γ ι χ) (c : γ) : Option (State γ ι χ) := match s.on c with
  | none => none
  | some p =>
    match s.ctl p with
    | .parting k => some { s.goto p (.off k) with on := update s.on c none }
    | _ => none

def pick (s : State γ ι χ) (c : γ) (p : ι) : Option (State γ ι χ) := if s.scanning c ∧ s.state p = .runnable then
    some { (s.set p .running).goto p (.locked (s.ctl p).saved) with
        on := update s.on c (some p)
        chan := update s.chan p none }
  else none

def tick (s : State γ ι χ) (c : γ) (p : ι) : Option (State γ ι χ) := if s.scanning c ∧ s.state p = .wait then
    if 0 < s.rounds p then some { s with rounds := update s.rounds p (s.rounds p - 1) }
    else some (s.set p .runnable)
  else none

def killProc (s : State γ ι χ) (q : ι) : State γ ι χ :=
  if s.state q = .sleeping ∨ s.state q = .msgwait then s.set q .runnable else s

def act (s : State γ ι χ) : Act γ ι χ → Option (State γ ι χ)
  | .acquire c => s.acquire c
  | .release c => s.release c
  | .pick c p => s.pick c p
  | .tick c p => s.tick c p
  | .cull c p => if s.scanning c ∧ s.thread p ∧ s.state p = .zombie then some (s.set p .unused) else none
  | .swtch c => s.swtch c
  | .yield c => (s.part c .runnable).map Prod.snd
  | .sleep c chan =>
    (s.part c .sleeping).map fun x => { x.2 with chan := update s.chan x.1 (some chan) }
  | .wait c => (s.part c .wait).map fun x => { x.2 with rounds := update s.rounds x.1 waitrounds }
  | .exit c => (s.part c .zombie).map Prod.snd
  | .wakeup c chan => (s.inside c).map fun _ => s.wakeup1 chan
  | .kill c q => (s.inside c).map fun _ => s.killProc q
  | .reap c q crashed =>
    if s.state q = .zombie then (s.inside c).map fun _ => s.set q (if crashed then .crashed else .unused) else none
  | .alloc c q =>
    if s.state q = .unused then (s.inside c).map fun _ => (s.set q .embryo).goto q (.off none) else none
  | .unalloc c q =>
    if (s.on c).isSome ∧ s.state q = .embryo then some (s.set q .unused) else none
  | .ready c q => if s.state q = .embryo then (s.inside c).map fun _ => s.set q .runnable else none
  | .recv c => (s.at? c (· = .run)).map fun p => (s.set p .msgwait).goto p .window
  | .trap c => (s.at? c (· = .window)).map fun p => s.goto p .run
  | .test c q => (s.at? c (· = .run)).map fun p => if s.state q = .msgwait then s.goto p (.send q) else s
  | .store c =>
    match s.on c with
    | none => none
    | some p =>
      match s.ctl p with
      | .send q => some ((s.set q .runnable).goto p .run)
      | _ => none
  | .interrupt _ chan => if s.lock = none then some (s.wakeup1 chan) else none

end State

def start (γ : Type) (state : ι → Procstate) (thread : ι → Bool) : State γ ι χ where
  state := state
  chan _ := none
  rounds _ := 0
  thread := thread
  on _ := none
  lock := none
  ctl _ := .off none

/-- A process that can be picked has left its processor, but for the `swtch` that this processor is about to do with
`ptable.lock`; and no process is on two processors. -/
structure Exclusive (s : State γ ι χ) : Prop where
  left : ∀ p c, s.state p = .runnable → s.on c = some p → s.lock = some c ∧ ∃ k, s.ctl p = .parting k
  one : ∀ p c c', s.on c = some p → s.on c' = some p → c = c'

/-- A message or a kill that makes a receiver runnable finds it off its processor. -/
def Settled (s : State γ ι χ) : Act γ ι χ → Prop
  | .store c => ∀ p q, s.on c = some p → s.ctl p = .send q → ∀ c', s.on c' ≠ some q
  | .kill _ q => s.state q = .msgwait → ∀ c', s.on c' ≠ some q
  | _ => True

/-! ## The invariant -/

def On (s : State γ ι χ) (c : γ) (p : ι) : Prop := match s.ctl p with
  | .run | .send _ | .window => s.lock ≠ some c ∧ (s.state p = .running ∨ s.state p = .msgwait)
  | .locked _ => s.lock = some c ∧ (s.state p = .running ∨ s.state p = .msgwait)
  | .parting _ => s.lock = some c
  | .off _ => False

structure Inv (s : State γ ι χ) : Prop where
  one : ∀ p c c', s.on c = some p → s.on c' = some p → c = c'
  on : ∀ c p, s.on c = some p → On s c p

variable {s s' : State γ ι χ} {c : γ} {p q : ι} {k : Option ι}

theorem Inv.exclusive (h : Inv s) : Exclusive s where
  left p c hp hc := by
    have hon := h.on c p hc
    unfold On at hon
    cases hk : s.ctl p with
    | parting k => simp only [hk] at hon; exact ⟨hon, k, rfl⟩
    | _ => simp [hk, hp] at hon
  one := h.one

theorem inv_start (state : ι → Procstate) (thread : ι → Bool) : Inv (start γ state thread : State γ ι χ) where
  one _ _ _ h := by cases h
  on _ _ h := by cases h

theorem Inv.mark (h : Inv s) (hon : s'.on = s.on) (hlock : s'.lock = s.lock)
    (hstate : ∀ q, s'.state q = s.state q ∨ (s.state q ≠ .running ∧ s.state q ≠ .msgwait) ∨ ∀ c, s.on c ≠ some q)
    (hctl : ∀ q c, s.on c = some q → s'.ctl q = s.ctl q) : Inv s' where
  one := by rw [hon]; exact h.one
  on c p hp := by
    rw [hon] at hp
    have hbefore := h.on c p hp
    unfold On at hbefore ⊢
    rw [hctl p c hp, hlock]
    obtain heq | ⟨hrun, hmsg⟩ | hoff := hstate p
    · rwa [heq]
    · cases hk : s.ctl p with
      | parting k => simpa only [hk] using hbefore
      | _ => simp [hk, hrun, hmsg] at hbefore
    · exact absurd hp (hoff c)

def Locks (s s' : State γ ι χ) (c : γ) : Prop :=
  s'.lock = s.lock ∨ (s.lock = none ∨ s.lock = some c) ∧ (s'.lock = none ∨ s'.lock = some c)

theorem On.other {c'} (h : On s c' q) (hc : c' ≠ c) (hlock : Locks s s' c) (hstate : s'.state q = s.state q)
    (hctl : s'.ctl q = s.ctl q) : On s' c' q := by
  unfold On at h ⊢
  rw [hstate, hctl]
  obtain heq | ⟨hl, hl'⟩ := hlock
  · rwa [heq]
  have hne : s.lock ≠ some c' := by obtain hl | hl := hl <;> simp [hl, hc.symm]
  have hne' : s'.lock ≠ some c' := by obtain hl' | hl' := hl' <;> simp [hl', hc.symm]
  cases hk : s.ctl q with simp only [hk] at h
  | run | send | window => exact ⟨hne', h.2⟩
  | locked k => exact absurd h.1 hne
  | parting k => exact absurd h hne

theorem Inv.own (h : Inv s) (hc : s.on c = some p) (hon : s'.on = s.on) (hlock : Locks s s' c)
    (hother : ∀ q, q ≠ p → s'.state q = s.state q ∧ s'.ctl q = s.ctl q) (hp : On s' c p) : Inv s' where
  one := by rw [hon]; exact h.one
  on c' q hq := by
    rw [hon] at hq
    by_cases hqp : q = p
    · subst hqp; obtain rfl := h.one q c c' hc hq; exact hp
    · have hcc : c' ≠ c := by rintro rfl; rw [hc] at hq; exact hqp (Option.some.inj hq).symm
      exact (h.on c' q hq).other hcc hlock (hother q hqp).1 (hother q hqp).2

theorem Inv.scheduler (h : Inv s) (hc : s.on c = none) {l} (hlock : Locks s { s with lock := l } c) :
    Inv { s with lock := l } where
  one := h.one
  on c' q hq := by
    have hcc : c' ≠ c := by rintro rfl; simp [hc] at hq
    exact (h.on c' q hq).other hcc hlock rfl rfl

theorem inside_eq (h : s.inside c = some (p, k)) : s.on c = some p ∧ s.ctl p = .locked k := by
  unfold State.inside at h
  split at h
  · cases h
  next x hx =>
  split at h <;> cases h
  next k' hk => exact ⟨hx, hk⟩

theorem Inv.inside (h : Inv s) (hc : s.inside c = some (p, k)) :
    s.lock = some c ∧ (s.state p = .running ∨ s.state p = .msgwait) := by
  obtain ⟨hon, hctl⟩ := inside_eq hc
  simpa [On, hctl] using h.on c p hon

theorem Inv.wakeup1 [DecidableEq χ] (h : Inv s) (chan : χ) : Inv (s.wakeup1 chan) := by
  refine h.mark rfl rfl (fun p => ?_) fun _ _ _ => rfl
  simp only [State.wakeup1]
  split
  · next hp => exact .inr (.inl (by simp [hp.1]))
  · exact .inl rfl

theorem at?_eq {k} (h : s.at? c k = some p) : s.on c = some p ∧ k (s.ctl p) = true := by
  unfold State.at? at h
  rw [filter_eq_some_iff] at h
  exact h

def Ctl.outside : Ctl ι → Bool
  | .run | .send _ | .window => true
  | _ => false

attribute [local simp] State.goto State.set Ctl.outside

theorem Inv.outside (h : Inv s) (hc : s.on c = some p) (hk : (s.ctl p).outside = true) :
    s.lock ≠ some c ∧ (s.state p = .running ∨ s.state p = .msgwait) := by
  have hon := h.on c p hc
  unfold On at hon
  cases hctl : s.ctl p with
  | run | send | window => simpa only [hctl] using hon
  | _ => simp [hctl] at hk

section Step

variable [DecidableEq ι]

theorem update_other {α} (f : ι → α) (x : α) : ∀ q, q ≠ p → update f p x q = f q := fun _ hq => update_of_ne hq _ _

variable (h : Inv s)

include h

theorem Inv.acquire (ha : s.acquire c = some s') : Inv s' := by
  unfold State.acquire at ha
  split at ha
  · next hl =>
    split at ha
    · next hc => cases ha; exact h.scheduler hc (.inr ⟨.inl hl, .inr rfl⟩)
    next p hc =>
    have hon := h.on c p hc
    have hother := update_other (p := p) s.ctl
    unfold On at hon
    cases hk : s.ctl p with
    | run | send | window =>
      simp only [hk] at ha hon
      cases ha
      refine h.own hc rfl (.inr ⟨.inl hl, .inr rfl⟩) (fun q hq => ⟨rfl, hother _ q hq⟩) ?_
      simp [On, hon.2]
    | _ => simp [hk] at ha
  · cases ha

theorem Inv.part {x r} (ha : s.part c x = some r) : Inv r.2 := by
  unfold State.part at ha
  split at ha <;> cases ha
  next p k hc =>
    refine h.own (inside_eq hc).1 rfl (.inl rfl) (fun q hq => ⟨update_other _ _ q hq, update_other _ _ q hq⟩) ?_
    simp [On, (h.inside hc).1]

theorem Inv.set {x} (hq : (s.state q ≠ .running ∧ s.state q ≠ .msgwait) ∨ ∀ c, s.on c ≠ some q) : Inv (s.set q x) := by
  refine h.mark rfl rfl (fun p => ?_) fun _ _ _ => rfl
  by_cases hpq : p = q
  · subst hpq; exact .inr hq
  · exact .inl (update_of_ne hpq _ _)

theorem Inv.killProc (hq : s.state q = .msgwait → ∀ c, s.on c ≠ some q) : Inv (s.killProc q) := by
  unfold State.killProc
  split
  · next hs =>
    obtain hs | hs := hs
    · exact h.set (.inl (by simp [hs]))
    · exact h.set (.inr (hq hs))
  · exact h

theorem Inv.alloc (hq : s.state q = .unused) (hc : s.inside c = some (p, k)) :
    Inv ((s.set q .embryo).goto q (.off none)) := by
  obtain ⟨hl, hp⟩ := h.inside hc
  have hoff : ∀ c', s.on c' ≠ some q := by
    intro c' hc'
    have hon := h.on c' q hc'
    unfold On at hon
    cases hk : s.ctl q with
    | parting k' =>
      -- it would have the lock, which is with `p`
      simp only [hk, hl, Option.some.injEq] at hon
      subst hon
      obtain ⟨hon, hctl⟩ := inside_eq hc
      rw [hon] at hc'; cases hc'
      simp [hctl] at hk
    | _ => simp [hk, hq] at hon
  have hset : Inv (s.set q .embryo) := h.set (.inr hoff)
  refine hset.mark rfl rfl (fun _ => .inl rfl) fun x c' hx => ?_
  refine update_of_ne ?_ _ _
  rintro rfl
  exact hoff c' hx

theorem Inv.goto {k} (hc : s.on c = some p) (hp : (s.ctl p).outside = true) (hk : k.outside = true) :
    Inv (s.goto p k) := by
  refine h.own hc rfl (.inl rfl) (fun q hq => ⟨rfl, update_other _ _ q hq⟩) ?_
  have hout := h.outside hc hp
  cases k with
  | run | send | window => simpa [On] using hout
  | _ => cases hk

theorem Inv.recv (hc : s.on c = some p) (hp : (s.ctl p).outside = true) : Inv ((s.set p .msgwait).goto p .window) := by
  refine h.own hc rfl (.inl rfl) (fun q hq => ⟨update_other _ _ q hq, update_other _ _ q hq⟩) ?_
  simpa [On] using (h.outside hc hp).1

theorem Inv.store (hc : s.on c = some p) (hp : s.ctl p = .send q) (hq : ∀ c', s.on c' ≠ some q) :
    Inv ((s.set q .runnable).goto p .run) := by
  have hset : Inv (s.set q .runnable) := h.set (.inr hq)
  exact hset.goto hc (by simp [hp]) rfl

end Step

section Act

variable [DecidableEq γ] [DecidableEq ι]

theorem Inv.release (h : Inv s) (ha : s.release c = some s') : Inv s' := by
  unfold State.release at ha
  split at ha
  · next hs =>
    cases ha
    simp only [State.scanning, decide_eq_true_eq] at hs
    exact h.scheduler hs.2 (.inr ⟨.inr hs.1, .inl rfl⟩)
  · split at ha <;> cases ha
    next p k hc =>
      obtain ⟨hl, hstate⟩ := h.inside hc
      refine h.own (inside_eq hc).1 rfl (.inr ⟨.inr hl, .inl rfl⟩) (fun q hq => ⟨rfl, update_other _ _ q hq⟩) ?_
      cases k <;> simp [On, Ctl.back, hstate]

theorem Inv.swtch (h : Inv s) (ha : s.swtch c = some s') : Inv s' := by
  unfold State.swtch at ha
  split at ha
  · cases ha
  next p hc =>
  split at ha <;> cases ha
  next k hk =>
    -- the other processors execute other processes
    have hback : ∀ {c' q}, update s.on c none c' = some q → s.on c' = some q ∧ q ≠ p := by
      intro c' q hq
      by_cases hcc : c' = c
      · subst hcc; simp at hq
      rw [update_of_ne hcc] at hq
      refine ⟨hq, ?_⟩
      rintro rfl
      exact hcc (h.one q c' c hq hc)
    exact {
      one := fun q c1 c2 h₁ h₂ => h.one q c1 c2 (hback h₁).1 (hback h₂).1
      on := by
        intro c' q hq
        obtain ⟨hq, hqp⟩ := hback hq
        have hbefore := h.on c' q hq
        unfold On at hbefore ⊢
        simpa only [State.goto, update_of_ne hqp] using hbefore }

theorem Inv.pick (h : Inv s) (ha : s.pick c p = some s') : Inv s' := by
  unfold State.pick at ha
  split at ha <;> cases ha
  next hs =>
    simp only [State.scanning, decide_eq_true_eq] at hs
    obtain ⟨⟨hl, hc⟩, hp⟩ := hs
    have hoff : ∀ c', s.on c' ≠ some p := by
      intro c' hc'
      obtain ⟨hl', -⟩ := h.exclusive.left p c' hp hc'
      rw [hl] at hl'; cases hl'
      simp [hc] at hc'
    have hback : ∀ {c' q}, update s.on c (some p) c' = some q → (c' = c ∧ q = p) ∨ (s.on c' = some q ∧ q ≠ p) := by
      intro c' q hq
      by_cases hcc : c' = c
      · subst hcc; rw [update_self] at hq; exact .inl ⟨rfl, (Option.some.inj hq).symm⟩
      rw [update_of_ne hcc] at hq
      refine .inr ⟨hq, ?_⟩
      rintro rfl
      exact hoff c' hq
    exact {
      one := by
        intro q c1 c2 h₁ h₂
        obtain ⟨rfl, hq⟩ | ⟨h₁, hq⟩ := hback h₁
        · obtain ⟨rfl, -⟩ | ⟨-, hne⟩ := hback h₂
          · rfl
          · exact absurd hq hne
        obtain ⟨-, heq⟩ | ⟨h₂, -⟩ := hback h₂
        · exact absurd heq hq
        · exact h.one q c1 c2 h₁ h₂
      on := by
        intro c' q hq
        obtain ⟨rfl, rfl⟩ | ⟨hq, hqp⟩ := hback hq
        · simp [On, hl]
        have hbefore := h.on c' q hq
        unfold On at hbefore ⊢
        simpa only [State.goto, State.set, update_of_ne hqp] using hbefore }

theorem Inv.act [DecidableEq χ] (h : Inv s) {a} (hok : Settled s a) (ha : s.act a = some s') : Inv s' := by
  cases a with
  | acquire c => exact h.acquire ha
  | release c => exact h.release ha
  | pick c p => exact h.pick ha
  | tick c p =>
    simp only [State.act, State.tick] at ha
    obtain ⟨hs, ha⟩ := ite_none_right_eq_some.mp ha
    split at ha
    · cases ha; exact h.mark rfl rfl (fun _ => .inl rfl) fun _ _ _ => rfl
    · cases ha; exact h.set (.inl (by simp [hs.2]))
  | cull c p =>
    obtain ⟨hs, ha⟩ := ite_none_right_eq_some.mp ha
    cases ha
    exact h.set (.inl (by simp [hs.2.2]))
  | swtch c => exact h.swtch ha
  | yield c | exit c =>
    obtain ⟨r, hr, rfl⟩ := map_eq_some_iff.mp ha
    exact h.part hr
  | sleep c | wait c =>
    obtain ⟨r, hr, rfl⟩ := map_eq_some_iff.mp ha
    exact (h.part hr).mark rfl rfl (fun _ => .inl rfl) fun _ _ _ => rfl
  | wakeup c chan => obtain ⟨-, -, rfl⟩ := map_eq_some_iff.mp ha; exact h.wakeup1 chan
  | kill c q => obtain ⟨-, -, rfl⟩ := map_eq_some_iff.mp ha; exact h.killProc hok
  | reap c q | ready c q =>
    obtain ⟨hq, ha⟩ := ite_none_right_eq_some.mp ha
    obtain ⟨-, -, rfl⟩ := map_eq_some_iff.mp ha
    exact h.set (.inl (by simp [hq]))
  | alloc c q =>
    obtain ⟨hq, ha⟩ := ite_none_right_eq_some.mp ha
    obtain ⟨⟨p, k⟩, hc, rfl⟩ := map_eq_some_iff.mp ha
    exact h.alloc hq hc
  | unalloc c q =>
    obtain ⟨hq, ha⟩ := ite_none_right_eq_some.mp ha
    cases ha
    exact h.set (.inl (by simp [hq.2]))
  | recv c =>
    obtain ⟨p, hp, rfl⟩ := map_eq_some_iff.mp ha
    obtain ⟨hc, hk⟩ := at?_eq hp
    exact h.recv hc (by simp_all)
  | trap c =>
    obtain ⟨p, hp, rfl⟩ := map_eq_some_iff.mp ha
    obtain ⟨hc, hk⟩ := at?_eq hp
    exact h.goto hc (by simp_all) rfl
  | test c q =>
    obtain ⟨p, hp, rfl⟩ := map_eq_some_iff.mp ha
    obtain ⟨hc, hk⟩ := at?_eq hp
    split
    · exact h.goto hc (by simp_all) rfl
    · exact h
  | store c =>
    simp only [State.act] at ha
    split at ha
    · cases ha
    next p hc =>
    split at ha <;> cases ha
    next q hk => exact h.store hc hk (hok p q hc hk)
  | interrupt c chan => obtain ⟨-, ha⟩ := ite_none_right_eq_some.mp ha; cases ha; exact h.wakeup1 chan

/-- In every run in which messages and kills find the receivers off their processors. -/
theorem one_processor [DecidableEq χ] {state : ι → Procstate} {thread : ι → Bool}
    (h : Run State.act Settled (start γ state thread) s) : Exclusive s :=
  (h.invariant (inv_start state thread) fun _ _ _ hinv hok ha => hinv.act hok ha).exclusive

instance (s : State Bool Bool Unit) (a : Act Bool Bool Unit) : Decidable (Settled s a) := by
  cases a <;> (unfold Settled; infer_instance)

def bothRun : List (Act Bool Bool Unit) :=
  [.acquire false, .pick false false, .release false, .acquire true, .pick true true, .release true]

theorem one_processor_message :
    ∃ s : State Bool Bool Unit, Run State.act Settled (start Bool (fun _ => .runnable) fun _ => false) s ∧
      s.on false = some false ∧ s.on true = some true ∧ s.state false = .running ∧ Exclusive s := by
  obtain ⟨s, hrun, hfalse, htrue, hs⟩ :
      ∃ s : State Bool Bool Unit, Run State.act Settled (start Bool (fun _ => .runnable) fun _ => false) s ∧
        s.on false = some false ∧ s.on true = some true ∧ s.state false = .running :=
    exists_run (bothRun ++ [.recv false, .acquire false, .swtch false, .release false, .test true false, .store true,
      .acquire false, .pick false false]) (by decide +kernel)
  exact ⟨s, hrun, hfalse, htrue, hs, one_processor hrun⟩

/-- A message for a receiver that has written `MSGWAIT` and not yet left: it is runnable on its processor, and the other
processor runs it too. -/
theorem receiver_on_two_processors :
    (∃ s : State Bool Bool Unit, Run State.act (fun _ _ => True) (start Bool (fun _ => .runnable) fun _ => false) s ∧
      s.state false = .runnable ∧ s.on false = some false ∧ s.lock = none) ∧
    ∃ s : State Bool Bool Unit, Run State.act (fun _ _ => True) (start Bool (fun _ => .runnable) fun _ => false) s ∧
      s.on false = some false ∧ s.on true = some false :=
  ⟨exists_run (bothRun ++ [.recv false, .test true false, .store true]) (by decide +kernel),
    exists_run (bothRun ++ [.recv false, .test true false, .store true, .acquire true, .yield true, .swtch true,
      .pick true false]) (by decide +kernel)⟩

end Act

end Xv6Vsd.Cpus
