import Mathlib.Logic.Function.Basic
import Xv6Vsd.Lib.Run

/-!
# Calls under one lock that sleep and wake each other

Calls of any number of parties work on one shared state under one lock. A turn of a call ends with the lock kept, with
a sleep that gives the lock up, or with the release of the lock and the return of the call. A party that sleeps goes on
after a wake-up on its channel, or after it has been killed, when it has the lock again.
-/

namespace Xv6Vsd.Monitor

open Function Option

variable {ι σ κ χ : Type}

inductive Pc (κ χ : Type) where
  | out
  | acquire (k : κ)
  | inside (k : κ)
  | asleep (chan : χ) (k : κ)

inductive Next (κ χ : Type) where
  | go (k : κ)
  | sleep (chan : χ) (k : κ)
  | leave

structure Turn (σ κ χ : Type) where
  shared : σ
  wakes : List χ := []
  next : Next κ χ

/-- The calls that can be made, and a turn of a call that the killed flag of its caller is given to. -/
structure Code (σ κ χ : Type) where
  entry : σ → κ → Bool
  turn : σ → Bool → κ → Turn σ κ χ

structure State (ι σ κ χ : Type) where
  shared : σ
  pc : ι → Pc κ χ
  lock : Option ι
  killed : ι → Bool

inductive Act (ι κ : Type) where
  | call (i : ι) (k : κ)
  | step (i : ι)
  | kill (i : ι)

def Pc.wake [DecidableEq χ] (chans : List χ) : Pc κ χ → Pc κ χ
  | .asleep c k => if c ∈ chans then .acquire k else .asleep c k
  | pc => pc

def Pc.kill : Pc κ χ → Pc κ χ
  | .asleep _ k => .acquire k
  | pc => pc

def Next.pc : Next κ χ → Pc κ χ
  | .go k => .inside k
  | .sleep c k => .asleep c k
  | .leave => .out

def Next.holding : Next κ χ → Option κ
  | .go k => some k
  | _ => none

namespace State

variable [DecidableEq ι] [DecidableEq χ]

def after (s : State ι σ κ χ) (i : ι) (t : Turn σ κ χ) : State ι σ κ χ where
  shared := t.shared
  pc := update (fun j => (s.pc j).wake t.wakes) i t.next.pc
  lock := t.next.holding.map fun _ => i
  killed := s.killed

def act (c : Code σ κ χ) (s : State ι σ κ χ) : Act ι κ → Option (State ι σ κ χ)
  | .call i k =>
    match s.pc i with
    | .out => if c.entry s.shared k then some { s with pc := update s.pc i (.acquire k) } else none
    | _ => none
  | .step i =>
    match s.pc i with
    | .acquire k =>
      if s.lock.isNone then some { s with lock := some i, pc := update s.pc i (.inside k) } else none
    | .inside k => some (s.after i (c.turn s.shared (s.killed i) k))
    | _ => none
  | .kill i =>
    some { s with killed := update s.killed i true, pc := update s.pc i (s.pc i).kill }

end State

def start (ι : Type) (s : σ) : State ι σ κ χ where
  shared := s
  pc _ := .out
  lock := none
  killed _ := false

/-- `J` holds of the shared state and of the frame that has the lock, and `Q` of every frame that is without the
lock. -/
structure Kept (c : Code σ κ χ) (J : σ → Option κ → Prop) (Q : κ → Prop) : Prop where
  entry : ∀ s k, c.entry s k = true → Q k
  acquire : ∀ s k, J s none → Q k → J s (some k)
  turn : ∀ s b k, J s (some k) → J (c.turn s b k).shared (c.turn s b k).next.holding
  sleep : ∀ s b k ch k', J s (some k) → (c.turn s b k).next = .sleep ch k' → Q k'

structure Good (J : σ → Option κ → Prop) (Q : κ → Prop) (s : State ι σ κ χ) : Prop where
  inside : ∀ i k, s.pc i = .inside k → s.lock = some i
  free : s.lock = none → J s.shared none
  held : ∀ i, s.lock = some i → ∃ k, s.pc i = .inside k ∧ J s.shared (some k)
  acquire : ∀ i k, s.pc i = .acquire k → Q k
  asleep : ∀ i ch k, s.pc i = .asleep ch k → Q k

variable {c : Code σ κ χ} {J : σ → Option κ → Prop} {Q : κ → Prop} {s s' : State ι σ κ χ} {s0 : σ}

theorem good_start (h : J s0 none) : Good J Q (start ι s0 : State ι σ κ χ) where
  inside _ _ h := by cases h
  free _ := h
  held _ h := by cases h
  acquire _ _ h := by cases h
  asleep _ _ _ h := by cases h

section Step

variable [DecidableEq ι] [DecidableEq χ] {i : ι} {k : κ}
variable {pc : Pc κ χ} {chans : List χ}

omit [DecidableEq χ] in
theorem Good.move (h : Good J Q s) (hout : ∀ k, s.pc i ≠ .inside k) {killed : ι → Bool} (hpc : ∀ k, pc ≠ .inside k)
    (hacq : ∀ k, pc = .acquire k → Q k) (hsleep : ∀ ch k, pc = .asleep ch k → Q k) :
    Good J Q { s with pc := update s.pc i pc, killed := killed } where
  inside j k hj := by
    by_cases hij : j = i
    · subst hij; simp only [update_self] at hj; exact absurd hj (hpc k)
    · simp only [update_of_ne hij] at hj; exact h.inside j k hj
  free := h.free
  held j hj := by
    obtain ⟨k, hk, hJ⟩ := h.held j hj
    have hij : j ≠ i := by rintro rfl; exact hout k hk
    exact ⟨k, by simpa only [update_of_ne hij] using hk, hJ⟩
  acquire j k hj := by
    by_cases hij : j = i
    · subst hij; simp only [update_self] at hj; exact hacq k hj
    · simp only [update_of_ne hij] at hj; exact h.acquire j k hj
  asleep j ch k hj := by
    by_cases hij : j = i
    · subst hij; simp only [update_self] at hj; exact hsleep ch k hj
    · simp only [update_of_ne hij] at hj; exact h.asleep j ch k hj

omit [DecidableEq χ] in
theorem Good.take (h : Good J Q s) (hc : Kept c J Q) (hi : s.pc i = .acquire k) (hfree : s.lock = none) :
    Good J Q { s with lock := some i, pc := update s.pc i (.inside k) } where
  inside j k' hj := by
    by_cases hij : j = i
    · rw [hij]
    · simp only [update_of_ne hij] at hj; have := h.inside j k' hj; simp [hfree] at this
  free hl := by cases hl
  held j hj := by cases hj; exact ⟨k, by simp, hc.acquire _ _ (h.free hfree) (h.acquire i k hi)⟩
  acquire j k' hj := by
    by_cases hij : j = i
    · subst hij; simp at hj
    · simp only [update_of_ne hij] at hj; exact h.acquire j k' hj
  asleep j ch k' hj := by
    by_cases hij : j = i
    · subst hij; simp at hj
    · simp only [update_of_ne hij] at hj; exact h.asleep j ch k' hj

omit [DecidableEq ι] in
theorem wake_inside (h : pc.wake chans = .inside k) : pc = .inside k := by
  cases pc with
  | asleep ch k' =>
    simp only [Pc.wake] at h
    split at h <;> cases h
  | _ => exact h

omit [DecidableEq ι] in
theorem wake_acquire (h : pc.wake chans = .acquire k) : pc = .acquire k ∨ ∃ ch, pc = .asleep ch k := by
  cases pc with
  | asleep ch k' =>
    simp only [Pc.wake] at h
    split at h <;> cases h
    exact .inr ⟨ch, rfl⟩
  | _ => exact .inl h

omit [DecidableEq ι] in
theorem wake_asleep {ch} (h : pc.wake chans = .asleep ch k) : pc = .asleep ch k := by
  cases pc with
  | asleep ch' k' =>
    simp only [Pc.wake] at h
    split at h
    · cases h
    · exact h
  | _ => exact h

theorem Good.after (h : Good J Q s) (hc : Kept c J Q) (hi : s.pc i = .inside k) :
    Good J Q (s.after i (c.turn s.shared (s.killed i) k)) := by
  have hlock := h.inside i k hi
  obtain ⟨k', hk', hJ⟩ := h.held i hlock
  obtain rfl : k' = k := by rw [hi] at hk'; cases hk'; rfl
  have hturn := hc.turn _ (s.killed i) _ hJ
  have hsleep := fun ch k'' => hc.sleep _ (s.killed i) _ ch k'' hJ
  generalize c.turn s.shared (s.killed i) k' = t at hturn hsleep ⊢
  -- nobody else is inside, since the lock is with `i`
  have hother : ∀ j k'', j ≠ i → (s.pc j).wake t.wakes ≠ .inside k'' := by
    intro j k'' hij hj
    have := h.inside j k'' (wake_inside hj)
    simp only [hlock, Option.some.injEq] at this
    exact hij this.symm
  constructor
  · intro j k'' hj
    by_cases hij : j = i
    · subst hij
      simp only [State.after, update_self] at hj ⊢
      cases hn : t.next <;> simp_all [Next.pc, Next.holding]
    · simp only [State.after, update_of_ne hij] at hj; exact absurd hj (hother j k'' hij)
  · intro hl; simp only [State.after, map_eq_none_iff] at hl ⊢; rwa [hl] at hturn
  · intro j hj
    simp only [State.after, map_eq_some_iff] at hj ⊢
    obtain ⟨k'', hk'', rfl⟩ := hj
    refine ⟨k'', ?_, by rwa [hk''] at hturn⟩
    cases hn : t.next <;> simp_all [Next.pc, Next.holding]
  · intro j k'' hj
    by_cases hij : j = i
    · subst hij
      simp only [State.after, update_self] at hj
      cases hn : t.next <;> simp_all [Next.pc]
    simp only [State.after, update_of_ne hij] at hj
    obtain hj | ⟨ch, hj⟩ := wake_acquire hj
    · exact h.acquire j k'' hj
    · exact h.asleep j ch k'' hj
  · intro j ch k'' hj
    by_cases hij : j = i
    · subst hij
      simp only [State.after, update_self] at hj
      cases hn : t.next <;> simp_all [Next.pc]
    · simp only [State.after, update_of_ne hij] at hj; exact h.asleep j ch k'' (wake_asleep hj)

attribute [local simp] Pc.kill

theorem Good.act (h : Good J Q s) (hc : Kept c J Q) {a : Act ι κ} (ha : s.act c a = some s') : Good J Q s' := by
  cases a with
  | call i k =>
    simp only [State.act] at ha
    split at ha
    · next hpc =>
      split at ha <;> cases ha
      next hentry =>
        apply h.move (by simp [hpc]) (by simp) _ (by simp)
        rintro k' ⟨⟩
        exact hc.entry _ _ hentry
    · cases ha
  | step i =>
    simp only [State.act] at ha
    split at ha
    · next k hpc =>
      split at ha <;> cases ha
      next hfree => exact h.take hc hpc (isNone_iff_eq_none.mp hfree)
    · next k hpc => cases ha; exact h.after hc hpc
    · cases ha
  | kill i =>
    cases ha
    cases hpc : s.pc i with
    | inside k =>
      -- a party that has the lock stays where it is
      have hself : update s.pc i (Pc.inside k).kill = s.pc := by
        simp only [Pc.kill, ← hpc, update_eq_self]
      rw [hself]
      exact { h with }
    | asleep ch k =>
      apply h.move (by simp [hpc]) (by simp) _ (by simp)
      rintro k' ⟨⟩
      exact h.asleep i ch k hpc
    | acquire k =>
      apply h.move (by simp [hpc]) (by simp) _ (by simp)
      rintro k' ⟨⟩
      exact h.acquire i k hpc
    | out => exact h.move (by simp [hpc]) (by simp) (by simp) (by simp)

theorem good_of_run {ok : State ι σ κ χ → Act ι κ → Prop} (hc : Kept c J Q) (h0 : J s0 none)
    (h : Run (State.act c) ok (start ι s0) s) : Good J Q s :=
  h.invariant (good_start h0) fun _ _ _ hg _ ha => hg.act hc ha

end Step

theorem Good.shared (h : Good J Q s) {P : σ → Prop} (hP : ∀ s k, J s k → P s) : P s.shared := by
  cases hl : s.lock with
  | none => exact hP _ _ (h.free hl)
  | some i => obtain ⟨k, -, hJ⟩ := h.held i hl; exact hP _ _ hJ

theorem Good.frame (h : Good J Q s) {i : ι} {k : κ} (hi : s.pc i = .inside k) : J s.shared (some k) := by
  obtain ⟨k', hk', hJ⟩ := h.held i (h.inside i k hi)
  rw [hi] at hk'; cases hk'
  exact hJ

end Xv6Vsd.Monitor
