import Mathlib.Algebra.Group.Nat.Defs
import Mathlib.Tactic.Common

/-!
# Memory with a record of what is touched

A memory of 2^32 bytes that remembers which addresses have been loaded from and stored to, and the routines
`memset` and `memmove` on it. Addresses wrap around.
-/

namespace Xv6Vsd

open Function

structure Memory where
  byte : UInt32 → UInt8
  loaded : List UInt32
  stored : List UInt32

namespace Memory

variable {m : Memory} {a d s : UInt32} {c v : UInt8} {n : Nat}

def fresh (byte : UInt32 → UInt8) : Memory := ⟨byte, [], []⟩

def store (m : Memory) (a : UInt32) (v : UInt8) : Memory :=
  { m with byte := update m.byte a v, stored := a :: m.stored }

def copy (m : Memory) (d s : UInt32) : Memory := { m.store d (m.byte s) with loaded := s :: m.loaded }

/-- `stosb`; `stosl` stores the same bytes four at a time. -/
def memset (m : Memory) (d : UInt32) (c : UInt8) : Nat → Memory
  | 0 => m
  | n + 1 => memset (m.store d c) (d + 1) c n

def copyUp (m : Memory) (d s : UInt32) : Nat → Memory
  | 0 => m
  | n + 1 => copyUp (m.copy d s) (d + 1) (s + 1) n

def copyDown (m : Memory) (d s : UInt32) : Nat → Memory
  | 0 => m
  | n + 1 => copyDown (m.copy (d - 1) (s - 1)) (d - 1) (s - 1) n

def memmove (m : Memory) (d s n : UInt32) : Memory :=
  if s < d ∧ d < s + n then m.copyDown (d + n) (s + n) n.toNat else m.copyUp d s n.toNat

/-! ## Addresses -/

def Among (a d : UInt32) (n : Nat) : Prop := (a - d).toNat < n

instance : Decidable (Among a d n) := inferInstanceAs (Decidable (_ < _))

theorem among_zero : ¬ Among a d 0 := Nat.not_lt_zero _

theorem sub_toNat_eq_zero : (a - d).toNat = 0 ↔ a = d := by
  have ha := a.toNat_lt
  have hd := d.toNat_lt
  rw [UInt32.toNat_sub, ← UInt32.toNat_inj]
  omega

theorem toNat_sub_succ (a d : UInt32) :
    (a - (d + 1)).toNat = if (a - d).toNat = 0 then 2 ^ 32 - 1 else (a - d).toNat - 1 := by
  have hd := d.toNat_lt
  rw [UInt32.toNat_sub, UInt32.toNat_sub, UInt32.toNat_add, UInt32.toNat_one]
  split <;> omega

theorem among_succ (hn : n + 1 < 2 ^ 32) : Among a d (n + 1) ↔ a = d ∨ Among a (d + 1) n := by
  rw [Among, Among, toNat_sub_succ, ← sub_toNat_eq_zero]
  split <;> omega

theorem among_add (hi : n < 2 ^ 32) {k} : Among (d + UInt32.ofNat n) d k ↔ n < k := by
  have h : d + UInt32.ofNat n - d = UInt32.ofNat n := by rw [UInt32.add_comm, UInt32.add_sub_cancel]
  rw [Among, h, UInt32.toNat_ofNat_of_lt' hi]

/-! ## Filling -/

theorem memset_byte (hn : n < 2 ^ 32) : (m.memset d c n).byte a = if Among a d n then c else m.byte a := by
  induction n generalizing m d with
  | zero => rw [memset, if_neg among_zero]
  | succ n ih =>
    rw [memset, ih (by omega)]
    simp only [among_succ hn, store, update_apply]
    by_cases h : a = d
    · simp [h]
    · simp [h]

theorem memset_loaded : (m.memset d c n).loaded = m.loaded := by
  induction n generalizing m d with
  | zero => rfl
  | succ n ih => rw [memset, ih, store]

theorem mem_memset_stored (hn : n < 2 ^ 32) : a ∈ (m.memset d c n).stored ↔ a ∈ m.stored ∨ Among a d n := by
  induction n generalizing m d with
  | zero => simp [memset, among_zero]
  | succ n ih => rw [memset, ih (by omega), among_succ hn, store, List.mem_cons]; tauto

/-! ## Copying -/

theorem copy_byte_self : (m.copy d s).byte d = m.byte s := update_self ..

theorem copy_byte_of_ne (h : a ≠ d) : (m.copy d s).byte a = m.byte a := update_of_ne h ..

theorem copyUp_last : m.copyUp d s (n + 1) = (m.copyUp d s n).copy (d + UInt32.ofNat n) (s + UInt32.ofNat n) := by
  induction n generalizing m d s with
  | zero => simp [copyUp]
  | succ n ih =>
    have hnext : ∀ x : UInt32, x + 1 + UInt32.ofNat n = x + UInt32.ofNat (n + 1) :=
      fun x => by rw [UInt32.ofNat_add]; grind
    rw [copyUp, ih, copyUp, hnext, hnext]

theorem among_last (hn : n < 2 ^ 32) : Among a d (n + 1) ↔ Among a d n ∨ a = d + UInt32.ofNat n := by
  have heq : a = d + UInt32.ofNat n ↔ (a - d).toNat = n := by
    have ha := a.toNat_lt
    have hd := d.toNat_lt
    rw [← UInt32.toNat_inj, UInt32.toNat_add, UInt32.toNat_sub, UInt32.toNat_ofNat_of_lt' hn]
    omega
  rw [heq, Among, Among]
  omega

theorem copyUp_frame (hn : n ≤ 2 ^ 32) (ha : ¬ Among a d n) : (m.copyUp d s n).byte a = m.byte a := by
  induction n with
  | zero => rfl
  | succ n ih =>
    rw [among_last (by omega), not_or] at ha
    rw [copyUp_last, copy_byte_of_ne ha.2, ih (by omega) ha.1]

theorem copyUp_at (hn : n ≤ 2 ^ 32) (ha : Among a d n) : (m.copyUp d s n).byte a =
    if Among (s + (a - d)) d (a - d).toNat then (m.copyUp d s n).byte (s + (a - d)) else m.byte (s + (a - d)) := by
  induction n with
  | zero => exact absurd ha among_zero
  | succ n ih =>
    have hlast : ∀ x, Among x d n → x ≠ d + UInt32.ofNat n := fun x hx he =>
      absurd ((among_add (by omega)).mp (he ▸ hx)) (Nat.lt_irrefl n)
    rw [copyUp_last]
    obtain ha | rfl := (among_last (by omega)).mp ha
    · rw [copy_byte_of_ne (hlast a ha), ih (by omega) ha]
      split
      · next hx => rw [copy_byte_of_ne (hlast _ (Nat.lt_trans hx ha))]
      · rfl
    · have hback : d + UInt32.ofNat n - d = UInt32.ofNat n := by grind
      rw [copy_byte_self, hback, UInt32.toNat_ofNat_of_lt' (by simp only [UInt32.size]; omega)]
      split
      · next hx => rw [copy_byte_of_ne (hlast _ hx)]
      · next hx => exact copyUp_frame (by omega) hx

theorem copyUp_byte (hn : n < 2 ^ 32) (hs : ∀ a, Among a s n → ¬ Among a d n) :
    (m.copyUp d s n).byte a = if Among a d n then m.byte (s + (a - d)) else m.byte a := by
  split
  · next ha =>
    have hback : s + (a - d) - s = a - d := by grind
    have hfar := hs (s + (a - d)) (by rw [Among, hback]; exact ha)
    rw [copyUp_at (Nat.le_of_lt hn) ha, if_neg fun h : Among _ d _ => hfar (Nat.lt_trans h ha)]
  · next ha => exact copyUp_frame (Nat.le_of_lt hn) ha

theorem mem_copyUp_stored (hn : n < 2 ^ 32) : a ∈ (m.copyUp d s n).stored ↔ a ∈ m.stored ∨ Among a d n := by
  induction n generalizing m d s with
  | zero => simp [copyUp, among_zero]
  | succ n ih => rw [copyUp, ih (by omega), among_succ hn, copy, store, List.mem_cons]; tauto

theorem mem_copyUp_loaded (hn : n < 2 ^ 32) : a ∈ (m.copyUp d s n).loaded ↔ a ∈ m.loaded ∨ Among a s n := by
  induction n generalizing m d s with
  | zero => simp [copyUp, among_zero]
  | succ n ih => rw [copyUp, ih (by omega), among_succ hn, copy, List.mem_cons]; tauto

theorem among_pred (hn : n + 1 < 2 ^ 32) :
    Among a (d - UInt32.ofNat (n + 1)) (n + 1) ↔ a = d - 1 ∨ Among a (d - 1 - UInt32.ofNat n) n := by
  have hd : d - 1 - UInt32.ofNat n = d - UInt32.ofNat (n + 1) := by rw [UInt32.ofNat_add]; grind
  have heq : a = d - 1 ↔ (a - (d - UInt32.ofNat (n + 1))).toNat = n := by
    have ha := a.toNat_lt
    rw [← UInt32.toNat_inj, UInt32.toNat_sub, UInt32.toNat_sub, UInt32.toNat_sub, UInt32.toNat_ofNat_of_lt' hn,
      UInt32.toNat_one]
    omega
  rw [hd, heq, Among, Among]
  omega

theorem copyDown_byte (hn : n < 2 ^ 32) (hs : (d - s).toNat + n ≤ 2 ^ 32) :
    (m.copyDown d s n).byte a = if Among a (d - UInt32.ofNat n) n then m.byte (s + (a - d)) else m.byte a := by
  induction n generalizing m d s with
  | zero => rw [copyDown, if_neg among_zero]
  | succ n ih =>
    have hdist : d - 1 - (s - 1) = d - s := by grind
    have hfrom : s - 1 + (a - (d - 1)) = s + (a - d) := by grind
    rw [copyDown, ih (by omega) (by rw [hdist]; omega), hfrom]
    simp only [copy, store, update_apply, among_pred hn]
    by_cases ha : a = d - 1
    · have hout : ¬ Among (d - 1) (d - 1 - UInt32.ofNat n) n := by
        have hoff : d - 1 - (d - 1 - UInt32.ofNat n) = UInt32.ofNat n := by grind
        rw [Among, hoff, UInt32.toNat_ofNat_of_lt' (by simp only [UInt32.size]; omega)]
        exact Nat.lt_irrefl n
      have hsrc : s + (d - 1 - d) = s - 1 := by grind
      simp only [ha, hout, hsrc, true_or, ↓reduceIte]
    by_cases hin : Among a (d - 1 - UInt32.ofNat n) n
    · have hne : s + (a - d) ≠ d - 1 := by
        intro he
        have heq : (a - (d - 1 - UInt32.ofNat n)).toNat < n := hin
        have h2 : a - (d - 1 - UInt32.ofNat n) = UInt32.ofNat n + (d - s) := by grind
        rw [h2, UInt32.toNat_add, UInt32.toNat_ofNat_of_lt' (by simp only [UInt32.size]; omega)] at heq
        omega
      simp [ha, hin, hne]
    · simp [ha, hin]

theorem mem_copyDown_stored (hn : n < 2 ^ 32) :
    a ∈ (m.copyDown d s n).stored ↔ a ∈ m.stored ∨ Among a (d - UInt32.ofNat n) n := by
  induction n generalizing m d s with
  | zero => simp [copyDown, among_zero]
  | succ n ih => rw [copyDown, ih (by omega), among_pred hn, copy, store, List.mem_cons]; tauto

theorem mem_memmove_stored {n} : a ∈ (m.memmove d s n).stored ↔ a ∈ m.stored ∨ Among a d n.toNat := by
  unfold memmove
  split
  · rw [mem_copyDown_stored n.toNat_lt, UInt32.ofNat_toNat]
    have hd : d + n - n = d := by grind
    rw [hd]
  · exact mem_copyUp_stored n.toNat_lt

end Memory

end Xv6Vsd
