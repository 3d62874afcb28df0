import Mathlib.Data.List.Basic
import Mathlib.Data.Nat.ModEq

/-!
# Counters that run free over a ring of cells

A ring of `cap` cells is filled and emptied through 32-bit counters that only move on and that wrap. What has gone
through the ring is a list `l`, and the counter of position `k` of that list is `k` modulo `2 ^ 32`.
-/

namespace Xv6Vsd.Counter

open List

def cell (cap : Nat) (c : UInt32) : Nat := c.toNat % cap

variable {α : Type} {cap : Nat} {data : Nat → α} {l : List α} {a b : Nat}

def span (cap : Nat) (data : Nat → α) (r w : UInt32) : List α :=
  (List.range (w - r).toNat).map fun k => data (cell cap (r + .ofNat k))

@[simp] theorem cell_ofNat (h : cap ∣ 2 ^ 32) (n : Nat) : cell cap (.ofNat n) = n % cap := by
  rw [cell, UInt32.toNat_ofNat']; exact Nat.mod_mod_of_dvd n h

@[simp] theorem ofNat_succ (n : Nat) : UInt32.ofNat n + 1 = .ofNat (n + 1) := by simp

theorem ofNat_pred (h : 0 < a) : UInt32.ofNat a - 1 = .ofNat (a - 1) := by
  have heq : UInt32.ofNat (a - 1) + 1 = .ofNat a := by rw [ofNat_succ, Nat.sub_add_cancel h]
  rw [← heq, UInt32.add_sub_cancel]

theorem toNat_sub (hle : a ≤ b) (hlt : b - a < 2 ^ 32) : (UInt32.ofNat b - UInt32.ofNat a).toNat = b - a := by
  obtain ⟨k, rfl⟩ := Nat.exists_eq_add_of_le hle
  rw [UInt32.ofNat_add, UInt32.add_comm, UInt32.add_sub_cancel, UInt32.toNat_ofNat']
  simp only [Nat.add_sub_cancel_left] at hlt ⊢
  exact Nat.mod_eq_of_lt hlt

theorem ofNat_eq_iff (hle : a ≤ b) (hlt : b - a < 2 ^ 32) : UInt32.ofNat a = .ofNat b ↔ a = b := by
  constructor
  · intro h
    have hd := toNat_sub hle hlt
    rw [h, UInt32.sub_self, UInt32.toNat_zero] at hd
    omega
  · rintro rfl; rfl

def Stored (cap : Nat) (data : Nat → α) (l : List α) (a : Nat) : Prop :=
  ∀ k, a ≤ k → (h : k < l.length) → data (k % cap) = l[k]

theorem Stored.mono (h : Stored cap data l a) (hab : a ≤ b) : Stored cap data l b :=
  fun k hk hl => h k (Nat.le_trans hab hk) hl

theorem Stored.take (h : Stored cap data l a) (n : Nat) : Stored cap data (l.take n) a := by
  intro k hk hl
  simp only [getElem_take]
  exact h k hk _

theorem mod_ne_of_lt {i k} (hik : i < k) (hk : k < i + cap) : i % cap ≠ k % cap := by
  intro heq
  have hdvd : cap ∣ k - i := (Nat.modEq_iff_dvd' hik.le).mp heq
  have hle := Nat.le_of_dvd (by omega) hdvd
  omega

theorem Stored.push (h : Stored cap data l a) (hroom : l.length < a + cap) (x : α) :
    Stored cap (Function.update data (l.length % cap) x) (l ++ [x]) a := by
  intro k hk hl
  rw [length_append, length_singleton] at hl
  obtain hlt | rfl : k < l.length ∨ k = l.length := by omega
  · rw [Function.update_of_ne (mod_ne_of_lt hlt (by omega)), getElem_append_left hlt]
    exact h k hk hlt
  · simp

theorem Stored.span (h : Stored cap data l a) (hcap : cap ∣ 2 ^ 32) {b c} (hab : a ≤ b) (hbc : b ≤ c)
    (hcl : c ≤ l.length) (hlt : c - b < 2 ^ 32) :
    Counter.span cap data (.ofNat b) (.ofNat c) = (l.take c).drop b := by
  rw [Counter.span, toNat_sub hbc hlt]
  apply ext_getElem
  · simp only [length_map, length_range, length_drop, length_take]; omega
  intro k h1 h2
  simp only [length_map, length_range] at h1
  simp only [getElem_map, getElem_range, getElem_drop, getElem_take, ← UInt32.ofNat_add, cell_ofNat hcap]
  exact h (b + k) (by omega) (by omega)

end Xv6Vsd.Counter
