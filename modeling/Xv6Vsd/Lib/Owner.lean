import Mathlib.Tactic.Common

/-!
# Tables that own numbered things

A table assigns to every place a number, where 0 stands for nothing.
-/

namespace Xv6Vsd

variable {P : Type} {own own' : P → Nat} {good good' : Nat → Prop}

structure Owned (own : P → Nat) (good : Nat → Prop) : Prop where
  good : ∀ p, own p ≠ 0 → good (own p)
  once : ∀ p q, own p ≠ 0 → own p = own q → p = q

namespace Owned

theorem mono (h : Owned own good) (hg : ∀ p, own p ≠ 0 → good' (own p)) : Owned own good' := ⟨hg, h.once⟩

theorem sub (h : Owned own good) (hs : ∀ p, own' p = 0 ∨ own' p = own p) : Owned own' good := by
  have heq : ∀ p, own' p ≠ 0 → own' p = own p := fun p hp => (hs p).resolve_left hp
  refine ⟨fun p hp => ?_, fun p q hp hpq => ?_⟩
  · have hp' : own p ≠ 0 := heq p hp ▸ hp; rw [heq p hp]; exact h.good p hp'
  have hq : own' q ≠ 0 := hpq ▸ hp
  rw [heq p hp, heq q hq] at hpq
  exact h.once p q (heq p hp ▸ hp) hpq

theorem grant [DecidableEq P] (h : Owned own good) {p} {b} (hb : good b)
    (hfresh : ∀ q, own q ≠ b) (hown : ∀ q, own' q = if q = p then b else own q) : Owned own' good := by
  refine ⟨fun q hq => ?_, fun q q' hq hqq => ?_⟩
  · rw [hown] at hq ⊢
    by_cases hp : q = p
    · simpa [hp] using hb
    · simp only [hp, ↓reduceIte] at hq ⊢; exact h.good q hq
  rw [hown q, hown q'] at hqq
  rw [hown] at hq
  by_cases hp : q = p <;> by_cases hp' : q' = p
  · rw [hp, hp']
  · simp only [hp, hp', ↓reduceIte] at hqq; exact absurd hqq.symm (hfresh q')
  · simp only [hp, hp', ↓reduceIte] at hqq; exact absurd hqq (hfresh q)
  · simp only [hp, hp', ↓reduceIte] at hq hqq; exact h.once q q' hq hqq

end Owned

end Xv6Vsd
