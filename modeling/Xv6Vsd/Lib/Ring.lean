import Mathlib.Data.List.Nodup

/-!
# Doubly linked rings

`Ring next prev h l` says that `next` leads from the head `h` through the nodes of `l` back to `h`,
and `prev` through the same nodes the other way round.
-/

namespace Xv6Vsd

open Function List

variable {ν : Type} {f next prev : ν → ν} {a b h z : ν} {l xs ys : List ν}

/-! ## Chains -/

def Chain (f : ν → ν) (a : ν) : List ν → ν → Prop
  | [], z => f a = z
  | b :: l, z => f a = b ∧ Chain f b l z

theorem chain_append : Chain f a (xs ++ b :: ys) z ↔ Chain f a xs b ∧ Chain f b ys z := by
  induction xs generalizing a with
  | nil => rfl
  | cons x xs ih => simp only [cons_append, Chain, ih, and_assoc]

theorem Chain.rotate {p} (hc : Chain f a l a) (hp : p ∈ a :: l) :
    ∃ xs, Chain f p xs p ∧ (p :: xs).Perm (a :: l) := by
  obtain rfl | hp := mem_cons.mp hp
  · exact ⟨l, hc, .refl _⟩
  obtain ⟨xs, ys, rfl⟩ := append_of_mem hp
  obtain ⟨h1, h2⟩ := chain_append.mp hc
  have hperm : ((p :: ys) ++ (a :: xs)).Perm ((a :: xs) ++ (p :: ys)) := perm_append_comm
  exact ⟨ys ++ a :: xs, chain_append.mpr ⟨h2, h1⟩, hperm⟩

theorem Chain.start (h : Chain f a l z) : f a = l.headD z := by
  cases l with
  | nil => exact h
  | cons b l => exact h.1

theorem Chain.move (h : Chain f a l z) (hb : f b = f a) : Chain f b l z := by
  cases l with
  | nil => exact hb.trans h
  | cons c l => exact ⟨hb.trans h.1, h.2⟩

theorem ne_getLastD {c} (hn : (a :: c :: l).Nodup) : a ≠ l.getLastD c := by
  rintro rfl; exact (nodup_cons.mp hn).1 getLastD_mem_cons

section Update

variable [DecidableEq ν]

def follow (f : ν → ν) (h : ν) : (n : Nat) → (a : ν) → List ν
  | 0, _ => []
  | n + 1, a => if f a = h then [] else f a :: follow f h n (f a)

theorem Chain.follow_eq {n} (hc : Chain f a l h) (hh : h ∉ l) (hn : l.length ≤ n) : follow f h n a = l := by
  induction l generalizing a n with
  | nil =>
    cases n with
    | zero => rfl
    | succ n => exact if_pos hc
  | cons b l ih =>
    rw [mem_cons, not_or] at hh
    obtain _ | n := n
    · simp at hn
    · rw [follow, hc.1, if_neg (Ne.symm hh.1), ih hc.2 hh.2 (by simpa using hn)]

theorem Chain.update_of_notMem (h : Chain f a l z) (hb : b ∉ a :: l) (v : ν) : Chain (update f b v) a l z := by
  induction l generalizing a with
  | nil => rw [mem_singleton] at hb; rw [Chain, update_of_ne (Ne.symm hb)]; exact h
  | cons c l ih =>
    rw [mem_cons, not_or] at hb
    rw [Chain, update_of_ne (Ne.symm hb.1)]
    exact ⟨h.1, ih h.2 hb.2⟩

theorem Chain.retarget (h : Chain f a l z) (hn : (a :: l).Nodup) (v : ν) : Chain (update f (l.getLastD a) v) a l v := by
  induction l generalizing a with
  | nil => exact update_self a v f
  | cons c l ih =>
    rw [getLastD_cons]
    refine ⟨?_, ih h.2 hn.of_cons⟩
    rw [update_of_ne (ne_getLastD hn), h.1]

theorem Chain.remove (h : Chain f a (xs ++ b :: ys) z) (hn : (a :: (xs ++ b :: ys)).Nodup) :
    Chain (update f (xs.getLastD a) (f b)) a (xs ++ ys) z := by
  induction xs generalizing a with
  | nil =>
    obtain ⟨-, h⟩ := h
    cases ys with
    | nil => rw [getLastD_nil, nil_append, Chain, update_self]; exact h
    | cons y ys =>
      rw [getLastD_nil, nil_append, Chain, update_self]
      refine ⟨h.1, h.2.update_of_notMem ?_ (f b)⟩
      exact fun hmem => (nodup_cons.mp hn).1 (mem_cons_of_mem b hmem)
  | cons x xs ih =>
    rw [getLastD_cons]
    refine ⟨?_, ih h.2 hn.of_cons⟩
    rw [update_of_ne, h.1]
    rintro rfl
    refine (nodup_cons.mp hn).1 ?_
    exact mem_append_left _ getLastD_mem_cons

end Update

theorem headD_reverse (l : List ν) (d : ν) : l.reverse.headD d = l.getLastD d := by
  rw [headD_eq_head?_getD, head?_reverse, getLastD_eq_getLast?]

theorem getLastD_reverse (l : List ν) (d : ν) : l.reverse.getLastD d = l.headD d := by
  rw [← headD_reverse, reverse_reverse]

/-! ## Rings -/

structure Ring (next prev : ν → ν) (h : ν) (l : List ν) : Prop where
  fwd : Chain next h l h
  bwd : Chain prev h l.reverse h
  nodup : (h :: l).Nodup

namespace Ring

theorem next_eq (hr : Ring next prev h (xs ++ b :: ys)) : next b = ys.headD h := (chain_append.mp hr.fwd).2.start

theorem prev_eq (hr : Ring next prev h (xs ++ b :: ys)) : prev b = xs.getLastD h := by
  have hbwd := hr.bwd
  rw [reverse_append, reverse_cons, append_assoc] at hbwd
  rw [← headD_reverse]
  exact (chain_append.mp hbwd).2.start

variable [DecidableEq ν]

theorem unlink (hr : Ring next prev h (xs ++ b :: ys)) :
    Ring (update next (prev b) (next b)) (update prev (next b) (prev b)) h (xs ++ ys) where
  fwd := by rw [hr.prev_eq]; exact hr.fwd.remove hr.nodup
  bwd := by
    have hbwd := hr.bwd
    have hn : (h :: (ys.reverse ++ b :: xs.reverse)).Nodup := by
      have hrev := hr.nodup
      rw [nodup_cons] at hrev ⊢
      rw [← nodup_reverse] at hrev
      simpa [and_comm, and_assoc, or_comm, or_left_comm] using hrev
    rw [reverse_append, reverse_cons, append_assoc] at hbwd
    rw [reverse_append, hr.next_eq, ← getLastD_reverse]
    exact Chain.remove hbwd hn
  nodup := by
    refine hr.nodup.sublist ?_
    simp

theorem insert (hr : Ring next prev h l) (hb : b ∉ h :: l) : Ring (update (update next b (next h)) h b)
      (update (update prev b h) (next h) b) h (b :: l) where
  fwd := by
    have hne : h ≠ b := fun heq => hb (heq ▸ mem_cons_self)
    rw [Chain, update_self]
    refine ⟨rfl, Chain.update_of_notMem ?_ ?_ b⟩
    · refine (hr.fwd.update_of_notMem hb (next h)).move ?_
      rw [update_self, update_of_ne hne]
    · rw [mem_cons, not_or]; exact ⟨hne, (nodup_cons.mp hr.nodup).1⟩
  bwd := by
    have hnext : next h = l.headD h := hr.fwd.start
    have hmem : next h ∈ h :: l := by
      rw [hnext, ← getLastD_reverse]
      have hlast : l.reverse.getLastD h ∈ h :: l.reverse := getLastD_mem_cons
      simpa using hlast
    have hn : (h :: l.reverse).Nodup := by simpa using hr.nodup
    rw [reverse_cons, chain_append]
    refine ⟨?_, ?_⟩
    · rw [hnext, ← getLastD_reverse]
      exact (hr.bwd.update_of_notMem (by simpa using hb) h).retarget hn b
    · have hne : b ≠ next h := by rintro rfl; exact hb hmem
      rw [Chain, update_of_ne hne, update_self]
  nodup := by
    have := hr.nodup
    rw [mem_cons, not_or] at hb
    rw [nodup_cons] at this ⊢
    rw [mem_cons, not_or, nodup_cons]
    exact ⟨⟨Ne.symm hb.1, this.1⟩, hb.2, this.2⟩

end Ring

end Xv6Vsd
