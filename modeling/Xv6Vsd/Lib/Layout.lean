import Mathlib.Data.List.Basic

/-!
# Blocks in an array

Lists written into an unbounded array, and a stack of such blocks that grows downwards: each block
ends where the one before it begins, or below.
-/

namespace Xv6Vsd.Layout

open Function List

variable {α : Type} {g : Nat → α} {off : Nat} {xs ys : List α}

def poke (g : Nat → α) (off : Nat) (xs : List α) : Nat → α :=
  fun i => if off ≤ i then (xs[i - off]?).getD (g i) else g i

def Holds (g : Nat → α) (off : Nat) (xs : List α) : Prop := ∀ i x, xs[i]? = some x → g (off + i) = x

theorem poke_out {i} (h : i < off ∨ off + xs.length ≤ i) : poke g off xs i = g i := by
  unfold poke
  split
  · rw [getElem?_eq_none (by omega), Option.getD_none]
  · rfl

theorem holds_poke : Holds (poke g off xs) off xs := by
  intro i x hx; rw [poke, if_pos (by omega), Nat.add_sub_cancel_left, hx, Option.getD_some]

theorem Holds.poke {off'} (h : Holds g off xs) (hd : off' + ys.length ≤ off ∨ off + xs.length ≤ off') :
    Holds (poke g off' ys) off xs := by
  intro i x hx
  have hi : i < xs.length := (List.getElem?_eq_some_iff.mp hx).1
  rw [poke_out (by omega)]
  exact h i x hx

theorem Holds.left (h : Holds g off (xs ++ ys)) : Holds g off xs := by
  intro i x hx
  have hi : i < xs.length := (List.getElem?_eq_some_iff.mp hx).1
  exact h i x (by rw [getElem?_append_left hi, hx])

theorem Holds.right (h : Holds g off (xs ++ ys)) : Holds g (off + xs.length) ys := by
  intro i x hx
  rw [Nat.add_assoc]
  exact h _ x (by rw [getElem?_append_right (Nat.le_add_right _ _), Nat.add_sub_cancel_left, hx])

theorem Holds.piece {β : Type} {f : β → List α} {n : Nat} (hf : ∀ b, (f b).length = n) {bs : List β}
    (h : Holds g off (bs.flatMap f)) {i : Nat} {b : β} (hb : bs[i]? = some b) : Holds g (off + n * i) (f b) := by
  induction bs generalizing off i with
  | nil => simp at hb
  | cons c bs ih =>
    rw [flatMap_cons] at h
    cases i with
    | zero => rw [getElem?_cons_zero, Option.some.injEq] at hb; rw [← hb]; exact h.left
    | succ i =>
      rw [getElem?_cons_succ] at hb
      have hrest := ih h.right hb
      rwa [hf, Nat.add_assoc, Nat.add_comm n, ← Nat.mul_succ] at hrest

/-! ## A stack of blocks -/

abbrev Blocks (α : Type) : Type := List (Nat × List α)

/-- Each block ends at the start of the one before it or below; the first ends at `top` or below, the last starts at
`bottom`. -/
def Descends (top : Nat) : Blocks α → (bottom : Nat) → Prop
  | [], bottom => bottom = top
  | b :: bs, bottom => b.1 + b.2.length ≤ top ∧ Descends b.1 bs bottom

def pokes (g : Nat → α) : Blocks α → Nat → α
  | [] => g
  | b :: bs => pokes (poke g b.1 b.2) bs

variable {bs cs : Blocks α} {top bottom : Nat} {b : Nat × List α}

theorem Descends.le (h : Descends top bs bottom) : bottom ≤ top := by
  induction bs generalizing top with
  | nil => exact Nat.le_of_eq h
  | cons b bs ih => have := ih h.2; have := h.1; omega

theorem Descends.bounds (h : Descends top bs bottom) (hb : b ∈ bs) : bottom ≤ b.1 ∧ b.1 + b.2.length ≤ top := by
  induction bs generalizing top with
  | nil => cases hb
  | cons c bs ih =>
    have h1 := h.1
    rcases mem_cons.mp hb with rfl | hb
    · exact ⟨h.2.le, h1⟩
    · have := ih h.2 hb; omega

theorem Descends.apart (h : Descends top bs bottom) {i j : Nat} {c : Nat × List α} (hi : bs[i]? = some b)
    (hj : bs[j]? = some c) (hij : i < j) : c.1 + c.2.length ≤ b.1 := by
  induction bs generalizing top i j with
  | nil => simp at hi
  | cons a bs ih =>
    obtain _ | j := j
    · omega
    rw [getElem?_cons_succ] at hj
    cases i with
    | zero =>
      rw [getElem?_cons_zero, Option.some.injEq] at hi
      subst hi
      exact (h.2.bounds (mem_of_getElem? hj)).2
    | succ i => rw [getElem?_cons_succ] at hi; exact ih h.2 hi hj (by omega)

theorem Descends.append {mid : Nat} (h : Descends top bs mid) (h' : Descends mid cs bottom) :
    Descends top (bs ++ cs) bottom := by
  induction bs generalizing top with
  | nil => cases h; exact h'
  | cons b bs ih => exact ⟨h.1, ih h.2⟩

theorem pokes_append : pokes g (bs ++ cs) = pokes (pokes g bs) cs := by
  induction bs generalizing g with
  | nil => rfl
  | cons b bs ih => exact ih

theorem Holds.pokes (h : Holds g off xs) (hd : Descends top bs bottom) (hle : top ≤ off) :
    Holds (pokes g bs) off xs := by
  induction bs generalizing g top with
  | nil => exact h
  | cons b bs ih => have h1 := hd.1; exact ih (h.poke (.inl (by omega))) hd.2 (by omega)

theorem Descends.holds (h : Descends top bs bottom) (hb : b ∈ bs) : Holds (pokes g bs) b.1 b.2 := by
  induction bs generalizing g top with
  | nil => cases hb
  | cons c bs ih =>
    rcases mem_cons.mp hb with rfl | hb
    · exact holds_poke.pokes h.2 (Nat.le_refl _)
    · exact ih h.2 hb

/-! ## A copy that goes up -/

section Upwards

variable {L β : Type} [DecidableEq L] {mem : L → β} {dst src : Nat → L} {n i : Nat}

def upwards (mem : L → β) (dst src : Nat → L) : Nat → L → β
  | 0 => mem
  | n + 1 => Function.update (upwards mem dst src n) (dst n) (upwards mem dst src n (src n))

theorem upwards_out {a} (h : ∀ i < n, dst i ≠ a) : upwards mem dst src n a = mem a := by
  induction n with
  | zero => rfl
  | succ n ih => rw [upwards, update_of_ne (h n (by omega)).symm, ih fun i hi => h i (by omega)]

theorem upwards_dst (hinj : ∀ i < n, ∀ j < n, dst i = dst j → i = j) (hi : i < n) :
    upwards mem dst src n (dst i) = upwards mem dst src i (src i) := by
  induction n with
  | zero => omega
  | succ n ih =>
    by_cases hin : i = n
    · rw [hin, upwards, update_self]
    · have hne : dst i ≠ dst n := fun heq => hin (hinj i hi n (by omega) heq)
      rw [upwards, update_of_ne hne, ih (fun i hi j hj => hinj i (by omega) j (by omega)) (by omega)]

theorem upwards_apart (hinj : ∀ i < n, ∀ j < n, dst i = dst j → i = j) (hap : ∀ i < n, ∀ j < i, dst j ≠ src i)
    (hi : i < n) : upwards mem dst src n (dst i) = mem (src i) := by
  rw [upwards_dst hinj hi, upwards_out (hap i hi)]

theorem upwards_shift {o} (ho : 0 < o) (hinj : ∀ i < n, ∀ j < n, dst i = dst j → i = j)
    (hshift : ∀ i < n, ∀ j < n, dst i = src j ↔ j = i + o) (hi : i < n) :
    upwards mem dst src n (dst i) = mem (src (i % o)) := by
  induction i using Nat.strongRecOn with
  | ind i ih =>
    rw [upwards_dst hinj hi]
    by_cases hlt : i < o
    · rw [Nat.mod_eq_of_lt hlt, upwards_out]
      intro j hj heq
      have := (hshift j (by omega) i hi).mp heq
      omega
    · have hback : dst (i - o) = src i := (hshift (i - o) (by omega) i hi).mpr (by omega)
      have hprev := ih (i - o) (by omega) (by omega)
      rw [upwards_dst hinj (by omega)] at hprev
      have hinj' : ∀ a < i, ∀ b < i, dst a = dst b → a = b := fun a ha b hb => hinj a (by omega) b (by omega)
      rw [← hback, upwards_dst hinj' (by omega), hprev, Nat.mod_eq_sub_mod (Nat.le_of_not_lt hlt)]

end Upwards

end Xv6Vsd.Layout
