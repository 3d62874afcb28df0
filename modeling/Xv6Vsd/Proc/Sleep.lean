import Xv6Vsd.Proc.Model

/-!
# `sleep` and `wakeup` (`proc.c`)

Any number of processes that wait for a condition in a loop around `sleep(chan, lk)`, and any number that establish it
under `lk` and then call `wakeup(chan)`. `same` tells if `lk` is `&ptable.lock`. A scheduler takes and releases
`ptable.lock`, and a process that it runs goes on in `sched` with the lock.
-/

namespace Xv6Vsd.Sleep

open Function Option

open Tasks (Procstate)

inductive Lock where
  | lk
  | ptable
  deriving DecidableEq

inductive Holder (ι : Type) where
  | proc (p : ι)
  | sched
  deriving DecidableEq

inductive Pc where
  | out
  | enter
  | test
  /-- `acquire(&ptable.lock)` of `sleep` -/
  | lock
  /-- `release(lk)` of `sleep` -/
  | unlk
  /-- `proc->chan = chan; proc->state = SLEEPING` -/
  | mark
  | sched
  | off
  | tidy
  /-- `release(&ptable.lock)` of `sleep` -/
  | unlock
  /-- `acquire(lk)` of `sleep` -/
  | relk
  | done
  | wenter
  | establish
  /-- the condition is established; with `lk` -/
  | pending
  /-- the condition is established; without `lk` -/
  | released
  /-- `wakeup1(chan)`; `held` tells if `lk` is held as well -/
  | wakeup1 (held : Bool)
  | wunlock (held : Bool)
  | wleave
  deriving DecidableEq

structure State (ι : Type) where
  pc : ι → Pc
  state : ι → Procstate
  lock : Lock → Option (Holder ι)
  cond : Bool

inductive Act (ι : Type) where
  | wait (p : ι)
  | wake (p : ι)
  | step (p : ι)
  /-- `p` releases `lk` before its `wakeup` -/
  | letgo (p : ι)
  /-- `p`, which has waited for the condition, makes it false -/
  | consume (p : ι)
  | kill (p : ι)
  | acquire
  | release
  | run (p : ι)

variable {ι : Type}

namespace State

variable [DecidableEq ι]

def goto (s : State ι) (p : ι) (k : Pc) : State ι := { s with pc := update s.pc p k }

def take (s : State ι) (p : ι) (l : Lock) (k : Pc) : Option (State ι) :=
  if s.lock l = none then some { s.goto p k with lock := update s.lock l (some (.proc p)) } else none

def drop (s : State ι) (p : ι) (l : Lock) (k : Pc) : State ι :=
  { s.goto p k with lock := update s.lock l none }

def wakeup1 (s : State ι) : State ι :=
  { s with state := fun p => if s.state p = .sleeping then .runnable else s.state p }

def lk (same : Bool) : Lock := if same then .ptable else .lk

def step (same : Bool) (s : State ι) (p : ι) : Option (State ι) := match s.pc p with
  | .enter => s.take p (lk same) .test
  | .test => some (s.goto p (if s.cond then .done else if same then .mark else .lock))
  | .lock => s.take p .ptable .unlk
  | .unlk => some (s.drop p (lk same) .mark)
  | .mark => some { s.goto p .sched with state := update s.state p .sleeping }
  | .sched => some { s.goto p .off with lock := update s.lock .ptable (some .sched) }
  | .tidy => some (s.goto p (if same then .test else .unlock))
  | .unlock => some (s.drop p .ptable .relk)
  | .relk => s.take p (lk same) .test
  | .done => some (s.drop p (lk same) .out)
  | .wenter => s.take p (lk same) .establish
  | .establish => some { s.goto p .pending with cond := true }
  | .pending => if same then some (s.wakeup1.goto p .wleave) else s.take p .ptable (.wakeup1 true)
  | .released => s.take p .ptable (.wakeup1 false)
  | .wakeup1 held => some (s.wakeup1.goto p (.wunlock held))
  | .wunlock held => some (s.drop p .ptable (if held then .wleave else .out))
  | .wleave => some (s.drop p (lk same) .out)
  | .out | .off => none

def act (same : Bool) (s : State ι) : Act ι → Option (State ι)
  | .wait p => if s.pc p = .out then some (s.goto p .enter) else none
  | .wake p => if s.pc p = .out then some (s.goto p .wenter) else none
  | .step p => s.step same p
  | .letgo p => if s.pc p = .pending then some (s.drop p (lk same) .released) else none
  | .consume p => if s.pc p = .done then some { s with cond := false } else none
  | .kill p =>
    if s.lock .ptable = none then
      some { s with state := update s.state p (if s.state p = .sleeping then .runnable else s.state p) }
    else none
  | .acquire =>
    if s.lock .ptable = none then some { s with lock := update s.lock .ptable (some .sched) } else none
  | .release =>
    if s.lock .ptable = some .sched then some { s with lock := update s.lock .ptable none } else none
  | .run p =>
    if s.lock .ptable = some .sched ∧ s.pc p = .off ∧ s.state p = .runnable then
      some { s.goto p .tidy with
          state := update s.state p .running
          lock := update s.lock .ptable (some (.proc p)) }
    else none

end State

def start (ι : Type) (cond : Bool) : State ι where
  pc _ := .out
  state _ := .running
  lock _ := none
  cond := cond

/-- Between establishing the condition and the end of `wakeup1`. -/
def Pc.wakes : Pc → Bool
  | .pending | .released | .wakeup1 _ => true
  | _ => false

/-- A process sleeps although the condition holds and nobody is going to wake it. -/
def Lost (same : Bool) (s : State ι) (p : ι) : Prop :=
  s.state p = .sleeping ∧ s.cond = true ∧ s.lock (State.lk same) = none ∧ ∀ q, (s.pc q).wakes = false

/-! ## The invariant -/

def Pc.holds (same : Bool) : Pc → Lock → Bool
  | .test, l | .done, l | .establish, l | .pending, l | .wleave, l => l = State.lk same
  | .lock, l => l = .lk
  | .unlk, _ => true
  | .mark, l | .sched, l | .tidy, l | .unlock, l => l = .ptable
  | .wakeup1 held, l | .wunlock held, l => l = .ptable || (held && l = .lk)
  | _, _ => false

def Pc.sleepy (same : Bool) : Pc → Bool
  | .lock | .unlk => true
  | .mark => same
  | _ => false

def Pc.split : Pc → Bool
  | .lock | .unlk | .unlock | .relk | .wakeup1 true | .wunlock true => true
  | _ => false

structure Inv (same : Bool) (s : State ι) : Prop where
  held : ∀ p l, (s.pc p).holds same l = true → s.lock l = some (.proc p)
  sane : ∀ p, (s.pc p).split = true → same = false
  tested : ∀ p, (s.pc p).sleepy same = true → s.cond = false
  woken : ∀ p, s.pc p = .mark ∨ s.state p = .sleeping → s.cond = true → ∃ q, (s.pc q).wakes = true

variable {same : Bool} {s s' : State ι} {p q : ι} {k : Pc}

theorem Inv.not_lost (h : Inv same s) (p : ι) : ¬Lost same s p := by
  rintro ⟨hsleep, hcond, -, hnone⟩
  obtain ⟨q, hq⟩ := h.woken p (.inr hsleep) hcond
  simp [hnone q] at hq

theorem inv_start (same cond : Bool) : Inv same (start ι cond) where
  held p l h := by simp [start, Pc.holds] at h
  sane p h := by simp [start, Pc.split] at h
  tested p h := by simp [start, Pc.sleepy] at h
  woken p h := by simp [start] at h

theorem Inv.unique (h : Inv same s) {l} (hp : (s.pc p).holds same l = true) (hq : (s.pc q).holds same l = true) :
    q = p := by
  have := (h.held p l hp).symm.trans (h.held q l hq)
  simpa using this.symm

theorem holds_of_sleepy (h : Inv same s) (hq : (s.pc q).sleepy same = true) :
    (s.pc q).holds same (State.lk same) = true := by
  have hsane := h.sane q
  cases hk : s.pc q with
  | lock | unlk => simp only [hk, Pc.split, forall_const] at hsane; simp [Pc.holds, State.lk, hsane]
  | mark => simp only [hk, Pc.sleepy] at hq; simp [Pc.holds, State.lk, hq]
  | _ => simp [hk, Pc.sleepy] at hq

section Step

variable [DecidableEq ι] (h : Inv same s)

include h

theorem Inv.moved (hpc : s'.pc = update s.pc p k)
    (hlock : ∀ q l, q ≠ p → s.lock l = some (.proc q) → s'.lock l = some (.proc q))
    (hheld : ∀ l, k.holds same l = true → s'.lock l = some (.proc p)) (hsane : k.split = true → same = false)
    (htested : k.sleepy same = true → s'.cond = false)
    (hothers : ∀ q, q ≠ p → (s.pc q).sleepy same = true → s'.cond = false)
    (hwoken : ∀ q, s'.pc q = .mark ∨ s'.state q = .sleeping → s'.cond = true → ∃ x, (s'.pc x).wakes = true) :
    Inv same s' where
  held q l hq := by
    simp only [hpc, update_apply] at hq
    split at hq
    · next he => subst he; exact hheld l hq
    · next hne => exact hlock q l hne (h.held q l hq)
  sane q hq := by
    simp only [hpc, update_apply] at hq
    split at hq
    · exact hsane hq
    · exact h.sane q hq
  tested q hq := by
    simp only [hpc, update_apply] at hq
    split at hq
    · exact htested hq
    · next hne => exact hothers q hne hq
  woken := hwoken

structure Pc.Leads (same cond : Bool) (k0 k : Pc) : Prop where
  sane : k.split = true → same = false
  mark : k = .mark ∨ k.sleepy same = true → cond = false
  wakes : k0.wakes = true → k.wakes = true

theorem Inv.move (hpc : s'.pc = update s.pc p k)
    (hlock : ∀ q l, q ≠ p → s.lock l = some (.proc q) → s'.lock l = some (.proc q)) (hcond : s'.cond = s.cond)
    (hstate : ∀ q, s'.state q = .sleeping → s.state q = .sleeping ∨ (q = p ∧ s.pc p = .mark))
    (hheld : ∀ l, k.holds same l = true → s'.lock l = some (.proc p)) (hk : Pc.Leads same s.cond (s.pc p) k) :
    Inv same s' := by
  refine h.moved hpc hlock hheld hk.sane (fun hs => hcond.trans (hk.mark (.inr hs)))
    (fun q _ hq => hcond.trans (h.tested q hq)) fun q hq hc => ?_
  rw [hcond] at hc
  have hbefore : s.pc q = .mark ∨ s.state q = .sleeping := by
    obtain hq | hq := hq
    · simp only [hpc, update_apply] at hq
      split at hq
      · simp [hk.mark (.inl hq)] at hc
      · exact .inl hq
    · obtain hq | ⟨rfl, hq⟩ := hstate q hq
      · exact .inr hq
      · exact .inl hq
  obtain ⟨x, hx⟩ := h.woken q hbefore hc
  refine ⟨x, ?_⟩
  simp only [hpc, update_apply]
  split
  · next he => subst he; exact hk.wakes hx
  · exact hx

theorem Inv.goto (hheld : ∀ l, k.holds same l = true → (s.pc p).holds same l = true)
    (hk : Pc.Leads same s.cond (s.pc p) k) : Inv same (s.goto p k) :=
  h.move rfl (fun _ _ _ hl => hl) rfl (fun _ hq => .inl hq) (fun l hl => h.held p l (hheld l hl)) hk

theorem Inv.take {l} (ha : s.take p l k = some s')
    (hheld : ∀ l', l' ≠ l → k.holds same l' = true → (s.pc p).holds same l' = true)
    (hk : Pc.Leads same s.cond (s.pc p) k) : Inv same s' := by
  unfold State.take at ha
  split at ha <;> cases ha
  next hfree =>
    refine h.move rfl ?_ rfl (fun _ hq => .inl hq) ?_ hk
    · intro q l' _ hl
      by_cases hll : l' = l
      · subst hll; simp [hfree] at hl
      · simpa only [update_of_ne hll] using hl
    · intro l' hl
      by_cases hll : l' = l
      · subst hll; simp
      · simp only [update_of_ne hll]; exact h.held p l' (hheld l' hll hl)

theorem Inv.drop {l} (hl : (s.pc p).holds same l = true) (hnot : k.holds same l = false)
    (hheld : ∀ l', k.holds same l' = true → (s.pc p).holds same l' = true) (hk : Pc.Leads same s.cond (s.pc p) k) :
    Inv same (s.drop p l k) := by
  refine h.move rfl ?_ rfl (fun _ hq => .inl hq) ?_ hk
  · intro q l' hqp hl'
    have hll : l' ≠ l := by
      rintro rfl
      rw [h.held p l' hl] at hl'
      simp only [some.injEq, Holder.proc.injEq] at hl'
      exact hqp hl'.symm
    simpa only [State.drop, update_of_ne hll] using hl'
  · intro l' hl'
    have hll : l' ≠ l := by rintro rfl; simp [hnot] at hl'
    simp only [State.drop, update_of_ne hll]
    exact h.held p l' (hheld l' hl')

theorem Inv.wakeup (hp : (s.pc p).holds same .ptable = true)
    (hheld : ∀ l, k.holds same l = true → (s.pc p).holds same l = true) (hsane : k.split = true → same = false)
    (hk : k.sleepy same = false) (hne : k ≠ .mark) : Inv same (s.wakeup1.goto p k) := by
  refine h.moved rfl (fun _ _ _ hl => hl) (fun l hl => h.held p l (hheld l hl)) hsane (by simp [hk])
    (fun q _ hq => h.tested q hq) fun q hq _ => ?_
  obtain hq | hq := hq
  · simp only [State.goto, State.wakeup1, update_apply] at hq
    split at hq
    · exact absurd hq hne
    · -- `q` would have `ptable.lock`
      next hqp => exact absurd (h.unique hp (by rw [hq]; rfl)) hqp
  · simp only [State.goto, State.wakeup1] at hq
    split at hq
    · cases hq
    · next hs => exact absurd hq hs

attribute [local simp] Pc.holds Pc.split Pc.sleepy Pc.wakes State.lk

theorem Inv.establish (hp : s.pc p = .establish) : Inv same { s.goto p .pending with cond := true } := by
  have hlk : (s.pc p).holds same (State.lk same) = true := by simp [hp]
  -- a process that has tested the condition has the lock that `p` has
  exact h.moved rfl (fun _ _ _ hl => hl) (fun l hl => h.held p l (by rwa [hp])) nofun nofun
    (fun q hqp hq => absurd (h.unique hlk (holds_of_sleepy h hq)) hqp) fun _ _ _ => ⟨p, by simp [State.goto]⟩

omit h

omit [DecidableEq ι] in
theorem Inv.sched (h : Inv same s) {o} (hl : ∀ q, s.lock .ptable ≠ some (.proc q)) :
    Inv same { s with lock := update s.lock .ptable o } where
  held q l hq := by
    have hbefore := h.held q l hq
    have hll : l ≠ .ptable := by rintro rfl; exact hl q hbefore
    simpa only [update_of_ne hll] using hbefore
  sane := h.sane
  tested := h.tested
  woken := h.woken

theorem Inv.step (h : Inv same s) (ha : s.step same p = some s') : Inv same s' := by
  have hsane := h.sane p
  have htested := h.tested p
  unfold State.step at ha
  cases hk : s.pc p with simp only [hk] at ha
  | out | off => cases ha
  | enter | relk | wenter =>
    refine h.take ha (fun l hne hl => ?_) (by constructor <;> simp [hk])
    simp only [Pc.holds, decide_eq_true_eq] at hl
    exact absurd hl hne
  | test =>
    cases ha
    cases hc : s.cond <;> cases same <;> exact h.goto (by simp [hk]) (by constructor <;> simp [hk, hc])
  | lock =>
    obtain rfl := hsane (by simp [hk])
    refine h.take ha (fun l hne _ => ?_) ⟨by simp, fun _ => htested (by rw [hk]; rfl), by simp [hk]⟩
    cases l <;> simp_all
  | unlk =>
    cases ha
    obtain rfl := hsane (by simp [hk])
    exact h.drop (by simp [hk]) (by simp) (by simp [hk]) ⟨by simp, fun _ => htested (by rw [hk]; rfl), by simp [hk]⟩
  | mark =>
    cases ha
    refine h.move rfl (fun _ _ _ hl => hl) rfl (fun q hq => ?_) (fun l hl => h.held p l (by rwa [hk]))
      (by constructor <;> simp [hk])
    by_cases hqp : q = p
    · exact .inr ⟨hqp, hk⟩
    · simp only [update_of_ne hqp] at hq; exact .inl hq
  | sched =>
    cases ha
    have hlock := h.held p .ptable (by simp [hk])
    refine h.move rfl (fun q l hqp hl => ?_) rfl (fun _ hq => .inl hq) (by simp) (by constructor <;> simp [hk])
    have hll : l ≠ .ptable := by
      rintro rfl
      simp only [hlock, some.injEq, Holder.proc.injEq] at hl
      exact hqp hl.symm
    simpa only [update_of_ne hll] using hl
  | tidy =>
    cases ha
    cases same <;> exact h.goto (by simp [hk]) (by constructor <;> simp [hk])
  | unlock =>
    cases ha
    obtain rfl := hsane (by simp [hk])
    exact h.drop (by simp [hk]) (by simp) (by simp) (by constructor <;> simp [hk])
  | done | wleave =>
    cases ha
    exact h.drop (by simp [hk]) (by simp) (by simp) (by constructor <;> simp [hk])
  | establish => cases ha; exact h.establish hk
  | pending =>
    cases same with
    | true =>
      simp only [↓reduceIte] at ha
      cases ha
      exact h.wakeup (by simp [hk]) (by simp [hk]) nofun rfl nofun
    | false =>
      simp only [Bool.false_eq_true, ↓reduceIte] at ha
      refine h.take ha (fun l hne _ => ?_) (by constructor <;> simp)
      cases l <;> simp_all
  | released =>
    refine h.take ha (fun l hne hl => ?_) (by constructor <;> simp)
    cases l <;> simp_all
  | wakeup1 held =>
    cases ha
    rw [hk] at hsane
    exact h.wakeup (by simp [hk]) (by simp [hk]) (by cases held <;> exact hsane) rfl nofun
  | wunlock held =>
    cases ha
    rw [hk] at hsane
    cases held with
    | true =>
      obtain rfl := hsane rfl
      exact h.drop (by simp [hk]) (by simp) (by simp [hk]) (by constructor <;> simp [hk])
    | false =>
      exact h.drop (by simp [hk]) (by simp) (by simp) (by constructor <;> simp [hk])

theorem Inv.act (h : Inv same s) {a} (ha : s.act same a = some s') : Inv same s' := by
  cases a with simp only [State.act] at ha
  | wait p | wake p =>
    split at ha <;> cases ha
    next hk =>
      exact h.goto (by simp) (by constructor <;> simp [hk])
  | step p => exact h.step ha
  | letgo p =>
    split at ha <;> cases ha
    next hk =>
      exact h.drop (by simp [hk]) (by simp) (by simp) (by constructor <;> simp)
  | consume p =>
    split at ha <;> cases ha
    exact ⟨h.held, h.sane, fun _ _ => rfl, fun _ _ hc => by cases hc⟩
  | kill p =>
    split at ha <;> cases ha
    refine ⟨h.held, h.sane, h.tested, fun q hq => h.woken q (hq.imp_right fun hs => ?_)⟩
    by_cases hqp : q = p
    · subst hqp
      simp only [update_self] at hs
      split at hs
      · cases hs
      · exact hs
    · simpa only [update_of_ne hqp] using hs
  | acquire | release =>
    split at ha <;> cases ha
    next hl => exact h.sched (by simp [hl])
  | run p =>
    split at ha
    · next hs =>
      obtain ⟨hl, hk, -⟩ := hs
      cases ha
      refine h.move rfl (fun q l _ hq => ?_) rfl (fun q hq => ?_) (fun l hq => ?_) (by constructor <;> simp [hk])
      · have hll : l ≠ .ptable := by rintro rfl; simp [hl] at hq
        simpa only [update_of_ne hll] using hq
      · by_cases hqp : q = p
        · subst hqp; simp at hq
        · simp only [update_of_ne hqp] at hq; exact .inl hq
      · simp only [Pc.holds, decide_eq_true_eq] at hq; simp [hq]
    · cases ha

/-- No wake-up is lost, also when `lk` is `&ptable.lock`, when sleepers are killed, and with
`wakeup` called with `lk` or without. -/
theorem sleepers_are_woken {cond : Bool} (h : Run (State.act same) (fun _ _ => True) (start ι cond) s) (p : ι) :
    ¬Lost same s p := by
  have hinv : Inv same s := h.invariant (inv_start same cond) fun _ _ _ hinv _ ha => hinv.act ha
  exact hinv.not_lost p

theorem sleepers_are_woken_race :
    ∃ s : State Bool, Run (State.act false) (fun _ _ => True) (start Bool false) s ∧ s.state false = .sleeping ∧
      s.cond = true ∧ ¬Lost false s false := by
  obtain ⟨s, hrun, hst, hc⟩ : ∃ s : State Bool, Run (State.act false) (fun _ _ => True) (start Bool false) s ∧
      s.state false = .sleeping ∧ s.cond = true :=
    exists_run [.wait false, .step false, .step false, .step false, .step false, .wake true, .step true, .step true,
      .step false, .step false, .letgo true] (by decide +kernel)
  exact ⟨s, hrun, hst, hc, sleepers_are_woken hrun false⟩

end Step

end Xv6Vsd.Sleep
