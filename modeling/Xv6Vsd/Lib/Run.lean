import Mathlib.Logic.Basic

/-! # Runs -/

namespace Xv6Vsd

variable {σ α : Type} {act : σ → α → Option σ} {ok : σ → α → Prop} {s s0 : σ}

inductive Run (act : σ → α → Option σ) (ok : σ → α → Prop) (s0 : σ) : σ → Prop
  | start : Run act ok s0 s0
  | step {s s' : σ} {a : α} (h : Run act ok s0 s) (hok : ok s a) (ha : act s a = some s') : Run act ok s0 s'

theorem Run.invariant {P : σ → Prop} (h : Run act ok s0 s) (h0 : P s0)
    (hstep : ∀ s a s', P s → ok s a → act s a = some s' → P s') : P s := by
  induction h with
  | start => exact h0
  | step h hok ha ih => exact hstep _ _ _ ih hok ha

/-- The steps `as` can be taken one after the other, each of them meets `ok`, and they lead to a state with `P`. -/
def plays (act : σ → α → Option σ) (ok : σ → α → Bool) (P : σ → Bool) : List α → σ → Bool
  | [], s => P s
  | a :: as, s =>
    ok s a && match act s a with
      | some s => plays act ok P as s
      | none => false

theorem plays_run (ok' : σ → α → Bool) (P : σ → Bool) (as : List α) (hok : ∀ s a, ok' s a = true → ok s a)
    (h : Run act ok s0 s) (hp : plays act ok' P as s = true) : ∃ s', Run act ok s0 s' ∧ P s' = true := by
  induction as generalizing s with
  | nil => exact ⟨s, h, hp⟩
  | cons a as ih =>
    rw [plays, Bool.and_eq_true] at hp
    obtain ⟨hgood, hp⟩ := hp
    split at hp
    · next s' ha => exact ih (h.step (hok s a hgood) ha) hp
    · cases hp

theorem exists_run [∀ s a, Decidable (ok s a)] {P : σ → Prop} [DecidablePred P] (as : List α)
    (hp : plays act (fun s a => ok s a) (fun s => P s) as s0 = true) : ∃ s, Run act ok s0 s ∧ P s := by
  obtain ⟨s, h, hs⟩ := plays_run _ _ as (fun _ _ => of_decide_eq_true) .start hp
  exact ⟨s, h, of_decide_eq_true hs⟩

end Xv6Vsd
