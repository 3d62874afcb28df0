import Mathlib.Data.List.Nodup

/-! # Things that are taken once and given back once -/

namespace Xv6Vsd

open Function List

variable {ι η : Type} {own : ι → Option η} {taken : η → Prop} {released : List η} {i : ι} {h : η}

/-- A thing that was taken is owned by one entry until it is given back, and it is given back at most once. -/
structure Ledger (own : ι → Option η) (taken : η → Prop) (released : List η) : Prop where
  held : ∀ i h, own i = some h → taken h ∧ h ∉ released
  once : ∀ i j h, own i = some h → own j = some h → i = j
  kept : ∀ h, taken h → h ∉ released → ∃ i, own i = some h
  nodup : released.Nodup
  back : ∀ h ∈ released, taken h

namespace Ledger

variable (hl : Ledger own taken released)

include hl

theorem released_iff (ht : taken h) : h ∈ released ↔ ∀ i, own i ≠ some h := by
  constructor
  · intro hr i hi; exact (hl.held i h hi).2 hr
  intro hno
  by_contra hr
  obtain ⟨i, hi⟩ := hl.kept h ht hr
  exact hno i hi

theorem take [DecidableEq ι] (hi : own i = none) (hh : ¬ taken h) :
    Ledger (update own i (some h)) (fun x => taken x ∨ x = h) released := by
  have hout : ∀ j x, own j = some x → update own i (some h) j = some x := by
    intro j x hj
    rw [update_of_ne, hj]
    rintro rfl
    simp [hi] at hj
  refine ⟨fun j x hj => ?_, fun j k x hj hk => ?_, fun x hx hr => ?_, hl.nodup, fun x hx => .inl (hl.back x hx)⟩
  · rw [update_apply] at hj
    split at hj
    · cases hj; exact ⟨.inr rfl, fun hr => hh (hl.back _ hr)⟩
    · obtain ⟨ht, hr⟩ := hl.held j x hj; exact ⟨.inl ht, hr⟩
  · rw [update_apply] at hj hk
    split at hj <;> split at hk
    · next h1 h2 => exact h1.trans h2.symm
    · cases hj; exact absurd (hl.held k _ hk).1 hh
    · cases hk; exact absurd (hl.held j _ hj).1 hh
    · exact hl.once j k x hj hk
  · obtain hx | rfl := hx
    · obtain ⟨j, hj⟩ := hl.kept x hx hr; exact ⟨j, hout j x hj⟩
    · exact ⟨i, update_self ..⟩

theorem release [DecidableEq ι] (hi : own i = some h) : Ledger (update own i none) taken (released ++ [h]) := by
  obtain ⟨ht, hr⟩ := hl.held i h hi
  refine ⟨fun j x hj => ?_, fun j k x hj hk => ?_, fun x hx hx' => ?_, ?_, fun x hx => ?_⟩
  · rw [update_apply] at hj
    split at hj
    · cases hj
    next hne =>
    obtain ⟨ht', hr'⟩ := hl.held j x hj
    refine ⟨ht', ?_⟩
    rw [mem_append, mem_singleton, not_or]
    refine ⟨hr', ?_⟩
    rintro rfl
    exact hne (hl.once j i x hj hi)
  · rw [update_apply] at hj hk
    split at hj
    · cases hj
    split at hk
    · cases hk
    · exact hl.once j k x hj hk
  · rw [mem_append, mem_singleton, not_or] at hx'
    obtain ⟨j, hj⟩ := hl.kept x hx hx'.1
    refine ⟨j, ?_⟩
    rw [update_of_ne, hj]
    rintro rfl
    rw [hi] at hj; cases hj
    exact hx'.2 rfl
  · rw [nodup_append]
    simp [hl.nodup]
    rintro x hx rfl
    exact hr hx
  · rw [mem_append, mem_singleton] at hx
    obtain hx | rfl := hx
    · exact hl.back x hx
    · exact ht

theorem pass (hh : ¬ taken h) : Ledger own (fun x => taken x ∨ x = h) (released ++ [h]) := by
  refine ⟨fun j x hj => ?_, hl.once, fun x hx hx' => ?_, ?_, fun x hx => ?_⟩
  · obtain ⟨ht, hr⟩ := hl.held j x hj
    refine ⟨.inl ht, ?_⟩
    rw [mem_append, mem_singleton, not_or]
    refine ⟨hr, ?_⟩
    rintro rfl
    exact hh ht
  · rw [mem_append, mem_singleton, not_or] at hx'; exact hl.kept x (hx.resolve_right hx'.2) hx'.1
  · rw [nodup_append]
    simp [hl.nodup]
    rintro x hx rfl
    exact hh (hl.back x hx)
  · rw [mem_append, mem_singleton] at hx; exact hx.imp_left (hl.back x)

end Ledger

end Xv6Vsd
