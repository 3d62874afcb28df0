import Mathlib.Tactic.Common

/-!
# Tables of keys and values

As long as no key is in two slots, the table is a finite map, and filling or emptying a slot changes
the map at one key.
-/

namespace Xv6Vsd.Table

open Function

variable {κ ν : Type} {T : Nat → Option (κ × ν)} {n n' k i fuel : Nat} {x : κ} {v w : ν}

def Distinct (T : Nat → Option (κ × ν)) : Prop := ∀ i j x v w, T i = some (x, v) → T j = some (x, w) → i = j

theorem Distinct.put (hd : Distinct T) (hx : ∀ i v, T i ≠ some (x, v)) : Distinct (update T k (some (x, w))) := by
  intro i j y v v' hi hj
  simp only [update_apply] at hi hj
  split at hi <;> split at hj
  · next h1 h2 => exact h1.trans h2.symm
  · cases hi; exact absurd hj (hx j v')
  · cases hj; exact absurd hi (hx i v)
  · exact hd i j y v v' hi hj

theorem Distinct.clear (hd : Distinct T) : Distinct (update T k none) := by
  intro i j y v v' hi hj
  simp only [update_apply] at hi hj
  split at hi
  · cases hi
  split at hj
  · cases hj
  · exact hd i j y v v' hi hj

variable [DecidableEq κ]

def find (T : Nat → Option (κ × ν)) (x : κ) : (fuel k : Nat) → Option (ν × Nat)
  | 0, _ => none
  | fuel + 1, k =>
    match T k with
    | some (y, v) => if y = x then some (v, k) else find T x fuel (k + 1)
    | none => find T x fuel (k + 1)

def lookup (T : Nat → Option (κ × ν)) (n : Nat) (x : κ) : Option (ν × Nat) := find T x n 0

theorem find_skip (h : ∀ v, T k ≠ some (x, v)) : find T x (fuel + 1) k = find T x fuel (k + 1) := by
  rw [find]
  split
  · next y v hk => rw [if_neg]; rintro rfl; exact h v hk
  · rfl

theorem find_here (h : T k = some (x, v)) : find T x (fuel + 1) k = some (v, k) := by
  rw [find, h]; simp

theorem find_eq_some (hd : Distinct T) : find T x fuel k = some (v, i) ↔ k ≤ i ∧ i < k + fuel ∧ T i = some (x, v) := by
  induction fuel generalizing k with
  | zero => simp only [find, reduceCtorEq, Nat.add_zero, false_iff]; omega
  | succ fuel ih =>
    by_cases hk : ∃ w, T k = some (x, w)
    · obtain ⟨w, hk⟩ := hk
      rw [find_here hk]
      constructor
      · intro he; cases he; exact ⟨Nat.le_refl _, by omega, hk⟩
      rintro ⟨-, -, hi⟩
      obtain rfl := hd k i x w v hk hi
      rw [hk] at hi; cases hi
      rfl
    · rw [not_exists] at hk
      rw [find_skip hk, ih]
      constructor
      · rintro ⟨h1, h2, hi⟩; exact ⟨by omega, by omega, hi⟩
      rintro ⟨h1, h2, hi⟩
      have hne : i ≠ k := by rintro rfl; exact hk v hi
      exact ⟨by omega, by omega, hi⟩

theorem lookup_eq_some (hd : Distinct T) : lookup T n x = some (v, i) ↔ i < n ∧ T i = some (x, v) := by
  rw [lookup, find_eq_some hd]; simp

section

variable (hd : Distinct T)
include hd

theorem not_mem_of_lookup (hn : ∀ i, n ≤ i → T i = none) (hx : lookup T n x = none) (i : Nat) (v : ν) :
    T i ≠ some (x, v) := by
  intro hi
  by_cases hlt : i < n
  · simp [(lookup_eq_some hd).mpr ⟨hlt, hi⟩] at hx
  · simp [hn i (by omega)] at hi

theorem lookup_put (hn : ∀ i, n ≤ i → T i = none) (hx : lookup T n x = none) (hk : T k = none) (hlt : k < n')
    (hle : n ≤ n') :
    lookup (update T k (some (x, v))) n' = update (lookup T n) x (some (v, k)) := by
  have habs := not_mem_of_lookup hd hn hx
  funext y
  ext ⟨w, i⟩
  rw [lookup_eq_some (hd.put habs)]
  by_cases hy : y = x
  · subst hy
    rw [update_self]
    by_cases hi : i = k
    · subst hi; simp only [update_self, Option.some.injEq, Prod.mk.injEq, true_and, and_true, hlt]
    rw [update_of_ne hi]
    constructor
    · rintro ⟨-, h⟩; exact absurd h (habs i w)
    · intro h; cases h; exact absurd rfl hi
  · rw [update_of_ne hy, lookup_eq_some hd]
    by_cases hi : i = k
    · subst hi
      rw [update_self, hk]
      constructor
      · rintro ⟨-, h⟩; cases h; exact absurd rfl hy
      · rintro ⟨-, h⟩; cases h
    rw [update_of_ne hi]
    constructor
    · rintro ⟨-, h⟩
      refine ⟨?_, h⟩
      by_contra hge
      simp [hn i (by omega)] at h
    · rintro ⟨h1, h2⟩; exact ⟨by omega, h2⟩

theorem lookup_clear (hk : T k = some (x, w)) : lookup (update T k none) n = update (lookup T n) x none := by
  funext y
  ext ⟨v, i⟩
  rw [lookup_eq_some hd.clear]
  by_cases hi : i = k
  · subst hi
    rw [update_self]
    by_cases hy : y = x
    · simp [hy]
    rw [update_of_ne hy, lookup_eq_some hd, hk]
    constructor
    · rintro ⟨-, h⟩; cases h
    · rintro ⟨-, h⟩; cases h; exact absurd rfl hy
  · rw [update_of_ne hi]
    by_cases hy : y = x
    · subst hy
      rw [update_self]
      constructor
      · rintro ⟨-, h⟩; exact absurd (hd i k y v w h hk) hi
      · intro h; cases h
    · rw [update_of_ne hy, lookup_eq_some hd]

end

end Xv6Vsd.Table
