import Mathlib.Tactic.Common

/-!
# Routines as sequences of atomic steps

A routine either has returned or takes one atomic step on a shared state and goes on with the
answer of the step. A step can also block (the caller sleeps) or panic. The same routine is run
without interference by `exec`, cut at any step by `Reach`, and interleaved with other routines.
-/

namespace Xv6Vsd

open List

universe u v w

inductive Res (σ : Type u) (α : Type v) where
  | ok (a : α) (s : σ)
  | block
  | panic (msg : String)

/-- A routine over the state `σ` whose steps carry labels `ι`. The label of a step may depend on
the state in which the step is taken. -/
inductive Prog (σ ι α : Type) : Type 1 where
  | ret (a : α)
  | step {β : Type} (lab : σ → ι) (f : σ → Res σ β) (k : β → Prog σ ι α)

namespace Res

variable {σ : Type u} {τ : Type w} {α β : Type v}

def bind : Res σ α → (α → σ → Res τ β) → Res τ β
  | .ok a s, k => k a s
  | .block, _ => .block
  | .panic m, _ => .panic m

@[simp] theorem ok_bind (a : α) (s : σ) (k : α → σ → Res τ β) : (Res.ok a s).bind k = k a s := rfl
@[simp] theorem block_bind (k : α → σ → Res τ β) : (Res.block : Res σ α).bind k = .block := rfl
@[simp] theorem panic_bind (m : String) (k : α → σ → Res τ β) : (Res.panic m : Res σ α).bind k = .panic m := rfl

theorem bind_eq_ok {r : Res σ α} {k : α → σ → Res τ β} {b : β} {s' : τ} :
    r.bind k = .ok b s' ↔ ∃ a s, r = .ok a s ∧ k a s = .ok b s' := by
  cases r with
  | ok a s | block => simp
  | panic m => simp

theorem bind_eq_panic {r : Res σ α} {k : α → σ → Res τ β} {m : String} :
    r.bind k = .panic m ↔ r = .panic m ∨ ∃ a s, r = .ok a s ∧ k a s = .panic m := by
  cases r with
  | ok a s | block => simp
  | panic m => simp

def yields (check : α → σ → Bool) : Res σ α → Bool
  | .ok a s => check a s
  | _ => false

theorem yields_ok {r : Res σ α} {check : α → σ → Bool} (h : r.yields check = true) :
    ∃ a s, r = .ok a s ∧ check a s = true := by
  cases r with
  | ok a s => exact ⟨a, s, rfl, h⟩
  | block | panic => cases h

def panics (msg : String) : Res σ α → Bool
  | .panic m => m = msg
  | _ => false

theorem panics_eq {r : Res σ α} {msg : String} (h : r.panics msg = true) : r = .panic msg := by
  cases r with
  | panic m => rw [of_decide_eq_true h]
  | ok | block => cases h

end Res

namespace Prog

variable {σ ι α β γ : Type}

protected def bind : Prog σ ι α → (α → Prog σ ι β) → Prog σ ι β
  | .ret a, q => q a
  | .step lab f k, q => .step lab f (fun b => (k b).bind q)

instance : Monad (Prog σ ι) where
  pure := .ret
  bind := Prog.bind

variable (p : Prog σ ι α) (q : α → Prog σ ι β) (s : σ) (a : α)

@[simp] theorem pure_def : (pure a : Prog σ ι α) = .ret a := rfl
@[simp] theorem ret_bind : (Prog.ret a : Prog σ ι α) >>= q = q a := rfl
@[simp] theorem step_bind {δ : Type} (lab : σ → ι) (f : σ → Res σ δ) (k : δ → Prog σ ι α) :
    (Prog.step lab f k) >>= q = .step lab f (fun b => k b >>= q) := rfl

theorem map_id : id <$> p = p := by
  induction p with
  | ret a => rfl
  | step lab f k ih => exact congrArg _ (funext ih)

theorem assoc (r : β → Prog σ ι γ) : p >>= q >>= r = p >>= fun a => q a >>= r := by
  induction p with
  | ret a => rfl
  | step lab f k ih => exact congrArg _ (funext ih)

instance : LawfulMonad (Prog σ ι) := LawfulMonad.mk' _ map_id (fun _ _ => rfl) assoc

/-! ## Running a routine alone -/

def exec : Prog σ ι α → σ → Res σ α
  | .ret a, s => .ok a s
  | .step _ f k, s => (f s).bind (fun b s' => (k b).exec s')

def trace : Prog σ ι α → σ → List ι
  | .ret _, _ => []
  | .step lab f k, s => lab s :: match f s with
    | .ok b s' => (k b).trace s'
    | _ => []

@[simp] theorem exec_ret : (Prog.ret a : Prog σ ι α).exec s = .ok a s := rfl

theorem exec_pure : (pure a : Prog σ ι α).exec s = .ok a s := rfl

theorem exec_step {δ : Type} (lab : σ → ι) (f : σ → Res σ δ) (k : δ → Prog σ ι α) :
    (Prog.step lab f k).exec s = (f s).bind (fun b s' => (k b).exec s') := rfl

theorem exec_bind : (p >>= q).exec s = (p.exec s).bind (fun a s' => (q a).exec s') := by
  induction p generalizing s with
  | ret a => rfl
  | step lab f k ih =>
    simp only [step_bind, exec_step]
    cases f s with
    | ok b s' => simp only [Res.ok_bind]; exact ih b s'
    | block | panic m => rfl

@[simp] theorem exec_map (f : α → β) : (f <$> p).exec s = (p.exec s).bind fun a s => .ok (f a) s := by
  rw [← bind_pure_comp, exec_bind]
  rfl

variable {p q s a} {s' : σ} {F : ι → Prop}

theorem bind_ok_iff {s'' : σ} {b : β} :
    (p >>= q).exec s = .ok b s'' ↔ ∃ a s', p.exec s = .ok a s' ∧ (q a).exec s' = .ok b s'' := by
  rw [exec_bind, Res.bind_eq_ok]

theorem bind_ok {s''} {b} (h : (p >>= q).exec s = .ok b s'') :
    ∃ a s', p.exec s = .ok a s' ∧ (q a).exec s' = .ok b s'' :=
  bind_ok_iff.mp h

theorem trace_bind (h : p.exec s = .ok a s') : (p >>= q).trace s = p.trace s ++ (q a).trace s' := by
  induction p generalizing s with
  | ret b => cases h; rfl
  | step lab f k ih =>
    simp only [exec_step] at h
    obtain ⟨b, s1, hf, hk⟩ := Res.bind_eq_ok.mp h
    simp only [step_bind, trace, hf, cons_append]
    rw [ih b hk]

theorem trace_sub_bind (p : Prog σ ι α) (q : α → Prog σ ι β) (s : σ) : p.trace s <+: (p >>= q).trace s := by
  induction p generalizing s with
  | ret a => exact nil_prefix
  | step lab f k ih =>
    simp only [step_bind, trace]
    cases f s with
    | ok b s' => simpa using ih b s'
    | block | panic m => exact prefix_rfl

theorem trace_bind_stop (q : α → Prog σ ι β) (h : ∀ a s', p.exec s ≠ .ok a s') : (p >>= q).trace s = p.trace s := by
  induction p generalizing s with
  | ret a => exact absurd rfl (h a s)
  | step lab f k ih =>
    simp only [step_bind, trace]
    simp only [exec_step] at h
    cases hf : f s with
    | ok b s' => simp only [hf, Res.ok_bind] at h; exact congrArg _ (ih b h)
    | block | panic m => rfl

def Always (F : ι → Prop) (p : Prog σ ι α) (s : σ) : Prop := ∀ e ∈ p.trace s, F e

theorem always_pure (a : α) (s : σ) : Always F (pure a : Prog σ ι α) s := by intro e he; cases he

theorem Always.bind (hp : Always F p s) (hq : ∀ a s', p.exec s = .ok a s' → Always F (q a) s') :
    Always F (p >>= q) s := by
  by_cases h : ∃ a s', p.exec s = .ok a s'
  · obtain ⟨a, s', h⟩ := h
    intro e he
    rw [trace_bind h] at he
    rcases mem_append.mp he with he | he
    · exact hp e he
    · exact hq a s' h e he
  · intro e he; rw [trace_bind_stop q fun a s' hs => h ⟨a, s', hs⟩] at he; exact hp e he

theorem Always.start (h : Always F (p >>= q) s) : Always F p s := fun e he => h e ((trace_sub_bind p q s).subset he)

theorem Always.rest (h : Always F (p >>= q) s) (he : p.exec s = .ok a s') : Always F (q a) s' := by
  intro e hmem
  apply h
  rw [trace_bind he]
  exact mem_append_right _ hmem

/-! ## What a run ends in -/

def Post (Q : α → σ → Prop) (p : Prog σ ι α) (s : σ) : Prop := ∀ a s', p.exec s = .ok a s' → Q a s'

section Post

variable {p : Prog σ ι α} {q : α → Prog σ ι β} {Q R : α → σ → Prop} {S : β → σ → Prop} {s : σ}

theorem Post.bind (hp : Post Q p s) (hq : ∀ a s', Q a s' → Post S (q a) s') : Post S (p >>= q) s := by
  intro b s'' h
  obtain ⟨a, s', h1, h2⟩ := bind_ok h
  exact hq a s' (hp a s' h1) b s'' h2

theorem post_pure {a} (h : Q a s) : Post Q (pure a : Prog σ ι α) s := by
  intro b s' he
  cases he
  exact h

theorem Post.mono (hp : Post Q p s) (h : ∀ a s', Q a s' → R a s') : Post R p s := fun a s' he => h a s' (hp a s' he)

theorem Post.and (hp : Post Q p s) (hr : Post R p s) : Post (fun a s' => Q a s' ∧ R a s') p s :=
  fun a s' he => ⟨hp a s' he, hr a s' he⟩

end Post

/-! ## How a run can stop -/

def Ends (E : String → Prop) (p : Prog σ ι α) (s : σ) : Prop := p.exec s ≠ .block ∧ ∀ m, p.exec s = .panic m → E m

section Ends

variable {E : String → Prop} {p : Prog σ ι α} {q : α → Prog σ ι β} {s : σ}

theorem ends_ok {a} {s'} (h : p.exec s = .ok a s') : Ends E p s := by simp [Ends, h]

theorem ends_panic {m} (h : p.exec s = .panic m) (hm : E m) : Ends E p s := by
  simp [Ends, h, hm]

theorem Ends.bind (hp : Ends E p s) (hq : ∀ a s', p.exec s = .ok a s' → Ends E (q a) s') : Ends E (p >>= q) s := by
  cases h : p.exec s with
  | ok a s' => simp only [Ends, exec_bind, h, Res.ok_bind]; exact hq a s' h
  | block => exact absurd h hp.1
  | panic m =>
    refine ends_panic ?_ (hp.2 m h)
    rw [exec_bind, h, Res.panic_bind]

theorem Ends.ok (h : Ends (fun _ => False) p s) : ∃ a s', p.exec s = .ok a s' := by
  cases he : p.exec s with
  | ok a s' => exact ⟨a, s', rfl⟩
  | block => exact absurd he h.1
  | panic m => exact (h.2 m he).elim

end Ends

/-! ## A routine of one step -/

def act (lab : σ → ι) (f : σ → Res σ α) : Prog σ ι α := .step lab f .ret

@[simp] theorem exec_act (lab : σ → ι) (f : σ → Res σ α) (s : σ) : (act lab f : Prog σ ι α).exec s = f s := by
  unfold act
  rw [exec_step]
  cases f s <;> rfl

@[simp] theorem trace_act (lab : σ → ι) (f : σ → Res σ α) (s : σ) : (act lab f : Prog σ ι α).trace s = [lab s] := by
  unfold act trace; cases f s <;> rfl

/-! ## Runs whose labels are of one kind -/

/-- If all labels of the run of `p` alone from `s` satisfy `F`, it does not block, panics only with a message in `E`,
and its labels, answer and last state satisfy `Q`. -/
def Meets (F : ι → Prop) (E : String → Prop) (Q : List ι → α → σ → Prop) (p : Prog σ ι α) (s : σ) : Prop :=
  Always F p s → Ends E p s ∧ ∀ a s', p.exec s = .ok a s' → Q (p.trace s) a s'

section Meets

variable {F : ι → Prop} {E : String → Prop} {Q R : List ι → α → σ → Prop} {S : List ι → β → σ → Prop}
  {p : Prog σ ι α} {q : α → Prog σ ι β} {s : σ}

theorem meets_ret {a} (h : Q [] a s) : Meets F E Q (.ret a : Prog σ ι α) s := by
  refine fun _ => ⟨ends_ok rfl, fun b s' he => ?_⟩
  cases he
  exact h

theorem meets_pure {a} (h : Q [] a s) : Meets F E Q (pure a : Prog σ ι α) s := meets_ret h

theorem meets_act {lab : σ → ι} {f : σ → Res σ α} (hE : F (lab s) → f s ≠ .block ∧ ∀ m, f s = .panic m → E m)
    (hQ : ∀ a s', F (lab s) → f s = .ok a s' → Q [lab s] a s') : Meets F E Q (act lab f) s := by
  intro hF
  have hl : F (lab s) := hF _ (by simp)
  simp only [Ends, exec_act, trace_act]
  exact ⟨hE hl, fun a s' he => hQ a s' hl he⟩

theorem Meets.mono (hp : Meets F E Q p s) (h : ∀ t a s', Q t a s' → R t a s') : Meets F E R p s :=
  fun hF => ⟨(hp hF).1, fun a s' he => h _ a s' ((hp hF).2 a s' he)⟩

theorem Meets.panics {E' : String → Prop} (hp : Meets F E Q p s) (h : ∀ m, E m → E' m) : Meets F E' Q p s :=
  fun hF => ⟨⟨(hp hF).1.1, fun m hm => h m ((hp hF).1.2 m hm)⟩, (hp hF).2⟩

theorem Meets.bind (hp : Meets F E Q p s)
    (hq : ∀ t a s', Q t a s' → Meets F E (fun t' => S (t ++ t')) (q a) s') : Meets F E S (p >>= q) s := by
  intro hF
  have hp' := hp fun e he => hF e ((trace_sub_bind p q s).subset he)
  have hrest : ∀ a s', p.exec s = .ok a s' → Always F (q a) s' := fun a s' he => hF.rest he
  refine ⟨hp'.1.bind fun a s' he => (hq _ a s' (hp'.2 a s' he) (hrest a s' he)).1, ?_⟩
  intro b s'' he
  obtain ⟨a, s', h1, h2⟩ := bind_ok he
  rw [trace_bind h1]
  exact (hq _ a s' (hp'.2 a s' h1) (hrest a s' h1)).2 b s'' h2

end Meets

/-! ## A routine on a part of the state -/

def zoom {τ κ : Type} (lift : {δ : Type} → (τ → Res τ δ) → σ → Res σ δ) (lab : (τ → κ) → σ → ι) :
    Prog τ κ α → Prog σ ι α
  | .ret a => .ret a
  | .step l f k => .step (lab l) (lift f) (fun b => zoom lift lab (k b))

/-! ## Stopping a routine between two steps -/

/-- `Reach p s s'`: the run of `p` from `s` passes through `s'`, or ends there. -/
inductive Reach : Prog σ ι α → σ → σ → Prop
  | here (p : Prog σ ι α) (s : σ) : Reach p s s
  | next {δ : Type} {lab : σ → ι} {f : σ → Res σ δ} {k : δ → Prog σ ι α} {s s1 s' : σ} {b : δ}
    (hf : f s = .ok b s1) (h : Reach (k b) s1 s') : Reach (.step lab f k) s s'

theorem Reach.bind_cases (h : Reach (p >>= q) s s') :
    Reach p s s' ∨ ∃ a s1, p.exec s = .ok a s1 ∧ Reach (q a) s1 s' := by
  induction p generalizing s with
  | ret a => exact .inr ⟨a, s, rfl, h⟩
  | step lab f k ih =>
    cases h with
    | here => exact .inl (.here _ _)
    | next hf h =>
      rcases ih _ h with h | ⟨a, s2, he, h⟩
      · exact .inl (.next hf h)
      · exact .inr ⟨a, s2, by rw [exec_step, hf]; exact he, h⟩

theorem Reach.act_cases {lab : σ → ι} {f : σ → Res σ α} (h : Reach (act lab f) s s') :
    s' = s ∨ ∃ a, f s = .ok a s' := by
  cases h with
  | here => exact .inl rfl
  | next hf h => cases h; exact .inr ⟨_, hf⟩

theorem Reach.of_exec (h : p.exec s = .ok a s') : Reach p s s' := by
  induction p generalizing s with
  | ret b => cases h; exact .here _ _
  | step lab f k ih => obtain ⟨b, s1, hf, hk⟩ := Res.bind_eq_ok.mp h; exact .next hf (ih b hk)

/-! ## Counting loops -/

def turns (body : Nat → Prog σ ι Unit) : (k m : Nat) → Prog σ ι Unit
  | _, 0 => .ret ()
  | k, m + 1 => body k >>= fun _ => turns body (k + 1) m

def loop (n : Nat) (body : Nat → Prog σ ι Unit) : Prog σ ι Unit := turns body 0 n

section Loop

variable {body : Nat → Prog σ ι Unit} {I : Nat → σ → Prop} {n : Nat}
variable {s : σ}

theorem exec_loop (hstep : ∀ i < n, ∀ s s', I i s → (body i).exec s = .ok () s' → I (i + 1) s') {s'} (h0 : I 0 s)
    (h : (loop n body).exec s = .ok () s') : I n s' := by
  suffices aux : ∀ m k, k + m = n → ∀ s, I k s → (turns body k m).exec s = .ok () s' → I n s' from
    aux n 0 (Nat.zero_add n) s h0 h
  intro m
  induction m with
  | zero => intro k hk s hI h; cases h; simpa using hk ▸ hI
  | succ m ih =>
    intro k hk s hI h
    obtain ⟨_, s1, h1, h2⟩ := bind_ok h
    exact ih (k + 1) (by omega) s1 (hstep k (by omega) s s1 hI h1) h2

theorem loop_total (hstep : ∀ i < n, ∀ s, I i s → ∃ s', (body i).exec s = .ok () s' ∧ I (i + 1) s') (h0 : I 0 s) :
    ∃ s', (loop n body).exec s = .ok () s' ∧ I n s' := by
  suffices aux : ∀ m k, k + m = n → ∀ s, I k s → ∃ s', (turns body k m).exec s = .ok () s' ∧ I n s' from
    aux n 0 (Nat.zero_add n) s h0
  intro m
  induction m with
  | zero => intro k hk s hI; exact ⟨s, rfl, by simpa using hk ▸ hI⟩
  | succ m ih =>
    intro k hk s hI
    obtain ⟨s1, h1, hI'⟩ := hstep k (by omega) s hI
    obtain ⟨s', h2, hn⟩ := ih (k + 1) (by omega) s1 hI'
    exact ⟨s', bind_ok_iff.mpr ⟨(), s1, h1, h2⟩, hn⟩

theorem meets_loop {F : ι → Prop} {E : String → Prop}
    (hstep : ∀ i < n, ∀ s, I i s → Meets F E (fun _ _ s' => I (i + 1) s') (body i) s) (h0 : I 0 s) :
    Meets F E (fun _ _ s' => I n s') (loop n body) s := by
  suffices aux : ∀ m k, k + m = n → ∀ s, I k s → Meets F E (fun _ _ s' => I n s') (turns body k m) s from
    aux n 0 (Nat.zero_add n) s h0
  intro m
  induction m with
  | zero => intro k hk s hI; exact meets_ret (by simpa using hk ▸ hI)
  | succ m ih =>
    intro k hk s hI
    exact (hstep k (by omega) s hI).bind fun _ _ s' hI' => ih (k + 1) (by omega) s' hI'

theorem Reach.loop (hstep : ∀ i < n, ∀ s s', I i s → (body i).exec s = .ok () s' → I (i + 1) s') {s' : σ} (h0 : I 0 s)
    (h : Reach (loop n body) s s') : (∃ i ≤ n, I i s') ∨ ∃ i < n, ∃ s1, I i s1 ∧ Reach (body i) s1 s' := by
  suffices aux : ∀ m k, k + m = n → ∀ s, I k s → Reach (turns body k m) s s' →
    (∃ i ≤ n, I i s') ∨ ∃ i < n, ∃ s1, I i s1 ∧ Reach (body i) s1 s' from
    aux n 0 (Nat.zero_add n) s h0 h
  intro m
  induction m with
  | zero => intro k hk s hI h; cases h; exact .inl ⟨k, by omega, hI⟩
  | succ m ih =>
    intro k hk s hI h
    rcases h.bind_cases with h | ⟨_, s1, h1, h⟩
    · exact .inr ⟨k, by omega, s, hI, h⟩
    · exact ih (k + 1) (by omega) s1 (hstep k (by omega) s s1 hI h1) h

theorem Reach.loop_act {lab : Nat → σ → ι} {f : Nat → σ → Res σ Unit}
    (hstep : ∀ i < n, ∀ s s', I i s → f i s = .ok () s' → I (i + 1) s') {s'} (h0 : I 0 s)
    (h : Reach (Prog.loop n fun i => act (lab i) (f i)) s s') : ∃ i ≤ n, I i s' := by
  have hturn : ∀ i < n, ∀ s s', I i s → (act (lab i) (f i)).exec s = .ok () s' → I (i + 1) s' := by
    intro i hi s s' hI hs
    rw [exec_act] at hs
    exact hstep i hi s s' hI hs
  obtain hdone | ⟨i, hi, s1, hI, hs⟩ := h.loop hturn h0
  · exact hdone
  obtain rfl | ⟨_, ha⟩ := hs.act_cases
  · exact ⟨i, Nat.le_of_lt hi, hI⟩
  · exact ⟨i + 1, hi, hstep i hi s1 s' hI ha⟩

end Loop

/-! ## Routines made of steps of one kind -/

/-- All steps of the routine, whatever the earlier steps answer, are of the kind `P`. -/
def Made (P : {δ : Type} → (σ → ι) → (σ → Res σ δ) → Prop) : Prog σ ι α → Prop
  | .ret _ => True
  | .step lab f k => P lab f ∧ ∀ b, Made P (k b)

section Made

variable {P Q : {δ : Type} → (σ → ι) → (σ → Res σ δ) → Prop}

@[simp] theorem made_ret (a : α) : Made P (.ret a : Prog σ ι α) := trivial

theorem made_pure (a : α) : Made P (pure a : Prog σ ι α) := trivial

theorem made_act {lab : σ → ι} {f : σ → Res σ α} (h : P lab f) : Made P (act lab f) := ⟨h, fun _ => trivial⟩

variable {p : Prog σ ι α}

theorem Made.bind {q : α → Prog σ ι β} (hp : Made P p) (hq : ∀ a, Made P (q a)) : Made P (p >>= q) := by
  induction p with
  | ret a => exact hq a
  | step lab f k ih => exact ⟨hp.1, fun b => ih b (hp.2 b)⟩

theorem Made.map {f : α → β} (hp : Made P p) : Made P (f <$> p) := hp.bind fun _ => trivial

theorem made_loop {n} {body : Nat → Prog σ ι Unit} (h : ∀ i, Made P (body i)) : Made P (loop n body) := by
  suffices aux : ∀ m k, Made P (turns body k m) from aux n 0
  intro m
  induction m with
  | zero => intro k; trivial
  | succ m ih => intro k; exact (h k).bind fun _ => ih (k + 1)

end Made

/-! ## What no step changes -/

def Spares (g : σ → γ) {δ : Type} (_ : σ → ι) (f : σ → Res σ δ) : Prop := ∀ s b s', f s = .ok b s' → g s' = g s

abbrev Keeps (g : σ → γ) (p : Prog σ ι α) : Prop := Made (Spares g) p

section Keeps

variable {g : σ → γ}

theorem keeps_act {lab : σ → ι} {f : σ → Res σ α} (h : ∀ s b s', f s = .ok b s' → g s' = g s) :
    Keeps g (act lab f) := made_act h

variable {p : Prog σ ι α}

theorem Keeps.reach {s s' : σ} (hp : Keeps g p) (h : Reach p s s') : g s' = g s := by
  induction h with
  | here => rfl
  | next hf _ ih => exact (ih (hp.2 _)).trans (hp.1 _ _ _ hf)

theorem Keeps.exec {s s' : σ} {a : α} (hp : Keeps g p) (h : p.exec s = .ok a s') : g s' = g s := hp.reach (.of_exec h)

end Keeps

abbrev Calm (p : Prog σ ι α) : Prop := Made (fun _ f => ∀ s m, f s ≠ .panic m) p

end Prog

end Xv6Vsd
