import Mathlib.Data.List.Nodup

/-!
# Queues

`Queue next head tail l` says that the nodes reached from `head` are those of `l`, and that `tail`
is the last of them.
-/

namespace Xv6Vsd

open Function List

/-! ## Runs of a queue -/

inductive Queued (α : Type) where
  | put (a : α)
  | front (a : α)
  | take (a : α)

inductive Fifo {α : Type} : List α → List (Queued α) → List α → Prop
  | nil (q : List α) : Fifo q [] q
  | put {a q q' es} (h : Fifo (q ++ [a]) es q') : Fifo q (.put a :: es) q'
  | front {a q q' es} (h : Fifo (a :: q) es q') : Fifo (a :: q) (.front a :: es) q'
  | take {a q q' es} (h : Fifo q es q') : Fifo (a :: q) (.take a :: es) q'

variable {α : Type} {a b : α} {q q' : List α} {es es1 es2 es3 : List (Queued α)}

def puts : List (Queued α) → List α
  | [] => []
  | .put a :: es => a :: puts es
  | _ :: es => puts es

def takes : List (Queued α) → List α
  | [] => []
  | .take a :: es => a :: takes es
  | _ :: es => takes es

namespace Fifo

theorem takes_append (h : Fifo q es q') : takes es ++ q' = q ++ puts es := by
  induction h with
  | nil q => simp [takes, puts]
  | put h ih => simpa [takes, puts] using ih
  | front h ih => exact ih
  | take h ih => simp [takes, puts, ih]

theorem split (h : Fifo q (es1 ++ es2) q') : ∃ q1, Fifo q es1 q1 ∧ Fifo q1 es2 q' := by
  induction es1 generalizing q with
  | nil => exact ⟨q, .nil q, h⟩
  | cons e es ih =>
    cases h with
    | put h => exact (ih h).imp fun q1 h' => ⟨.put h'.1, h'.2⟩
    | front h => exact (ih h).imp fun q1 h' => ⟨.front h'.1, h'.2⟩
    | take h => exact (ih h).imp fun q1 h' => ⟨.take h'.1, h'.2⟩

theorem append {q1 : List α} (h₁ : Fifo q es1 q1) (h₂ : Fifo q1 es2 q') : Fifo q (es1 ++ es2) q' := by
  induction h₁ with
  | nil q => exact h₂
  | put h ih => exact .put (ih h₂)
  | front h ih => exact .front (ih h₂)
  | take h ih => exact .take (ih h₂)

theorem front_of_takes_nil (h : Fifo (a :: q) es q') (hnil : takes es = []) : ∃ q1, q' = a :: q1 := by
  induction es generalizing q with
  | nil => cases h; exact ⟨q, rfl⟩
  | cons e es ih =>
    cases h with
    | put h | front h => exact ih h hnil
    | take h => simp [takes] at hnil

theorem front_eq_take (h : Fifo q (es1 ++ .front a :: (es2 ++ .take b :: es3)) q') (hnil : takes es2 = []) : a = b := by
  obtain ⟨q1, -, h⟩ := h.split
  cases h with
  | front h =>
    obtain ⟨q2, h, h'⟩ := h.split
    obtain ⟨q3, rfl⟩ := h.front_of_takes_nil hnil
    cases h'
    rfl

end Fifo

/-! ## Linked queues -/

variable {ν : Type} {next : ν → Option ν} {m n t : ν} {o o' head tail : Option ν} {l : List ν}

def Links (next : ν → Option ν) : (o : Option ν) → (l : List ν) → Prop
  | o, [] => o = none
  | o, n :: l => o = some n ∧ Links next (next n) l

theorem Links.eq_head? (h : Links next o l) : o = l.head? := by
  cases l with
  | nil => exact h
  | cons n l => exact h.1

theorem Links.congr {next' : ν → Option ν} (h : Links next o l) (heq : ∀ n ∈ l, next' n = next n) :
    Links next' o l := by
  induction l generalizing o with
  | nil => exact h
  | cons n l ih =>
    refine ⟨h.1, ?_⟩
    rw [heq n mem_cons_self]
    exact ih h.2 fun m hm => heq m (mem_cons_of_mem n hm)

theorem Links.next_mem (h : Links next o l) (hm : m ∈ l) : next m = none ∨ ∃ n ∈ l, next m = some n := by
  induction l generalizing o with
  | nil => cases hm
  | cons a l ih =>
    obtain rfl | hm := mem_cons.mp hm
    · cases l with
      | nil => exact .inl h.2
      | cons b l => exact .inr ⟨b, by simp, h.2.1⟩
    obtain hnil | ⟨n, hn, he⟩ := ih h.2 hm
    · exact .inl hnil
    · exact .inr ⟨n, mem_cons_of_mem a hn, he⟩

theorem Links.after {xs ys : List ν} (h : Links next o (xs ++ m :: ys)) : Links next (next m) ys := by
  induction xs generalizing o with
  | nil => exact h.2
  | cons x xs ih => exact ih h.2

theorem Links.skip [DecidableEq ν] {xs ys}
    (h : Links next o (xs ++ t :: m :: ys)) (hn : (xs ++ t :: m :: ys).Nodup) :
    Links (update (update next t (next m)) m o') o (xs ++ t :: ys) := by
  induction xs generalizing o with
  | nil =>
    obtain ⟨ht, hn⟩ := nodup_cons.mp hn
    obtain ⟨hm, -⟩ := nodup_cons.mp hn
    rw [mem_cons, not_or] at ht
    refine ⟨h.1, ?_⟩
    rw [update_of_ne ht.1, update_self]
    refine h.2.2.congr fun n hin => ?_
    rw [update_of_ne (by rintro rfl; exact hm hin), update_of_ne (by rintro rfl; exact ht.2 hin)]
  | cons x xs ih =>
    obtain ⟨hx, hn⟩ := nodup_cons.mp hn
    refine ⟨h.1, ?_⟩
    rw [update_of_ne (by rintro rfl; exact hx (by simp)), update_of_ne (by rintro rfl; exact hx (by simp))]
    exact ih h.2 hn

structure Queue (next : ν → Option ν) (head tail : Option ν) (l : List ν) : Prop where
  links : Links next head l
  last : tail = l.getLast?
  nodup : l.Nodup

namespace Queue

theorem congr {next' : ν → Option ν} (h : Queue next head tail l) (heq : ∀ n ∈ l, next' n = next n) :
    Queue next' head tail l :=
  ⟨h.links.congr heq, h.last, h.nodup⟩

theorem nil_iff (h : Queue next head tail l) : head = none ↔ tail = none := by
  rw [h.links.eq_head?, h.last, head?_eq_none_iff, getLast?_eq_none_iff]

theorem empty (next : ν → Option ν) : Queue next none none [] := ⟨rfl, rfl, nodup_nil⟩

theorem single (hm : next m = none) : Queue next (some m) (some m) [m] := ⟨⟨rfl, hm⟩, rfl, nodup_singleton m⟩

theorem pop (h : Queue next head tail (m :: l)) : Queue next (next m) (if next m = none then none else tail) l where
  links := h.links.2
  last := by
    rw [h.links.2.eq_head?, h.last]
    cases l with
    | nil => rfl
    | cons n l => simp
  nodup := h.nodup.of_cons

variable [DecidableEq ν]

theorem Links.push (h : Links next o (l ++ [t])) (hn : (l ++ [t]).Nodup) (hm : m ∉ l ++ [t]) (hnil : next m = none) :
    Links (update next t (some m)) o (l ++ [t, m]) := by
  induction l generalizing o with
  | nil =>
    have hne : m ≠ t := fun heq => hm (by simp [heq])
    refine ⟨h.1, ?_, ?_⟩
    · exact update_self t (some m) next
    · rw [update_of_ne hne]; exact hnil
  | cons n l ih =>
    obtain ⟨hnl, hn⟩ := nodup_cons.mp hn
    have hne : n ≠ t := fun heq => hnl (by simp [heq])
    refine ⟨h.1, ?_⟩
    rw [update_of_ne hne]
    exact ih h.2 hn fun hmem => hm (mem_cons_of_mem n hmem)

theorem push (h : Queue next head (some t) l) (hm : m ∉ l) (hnil : next m = none) :
    Queue (update next t (some m)) head (some m) (l ++ [m]) := by
  obtain ⟨l, rfl⟩ : ∃ l1, l = l1 ++ [t] := getLast?_eq_some_iff.mp h.last.symm
  refine ⟨?_, ?_, ?_⟩
  · rw [append_assoc]; exact Links.push h.links h.nodup hm hnil
  · simp
  rw [nodup_append]
  refine ⟨h.nodup, nodup_singleton m, ?_⟩
  rintro n hn x hx rfl
  rw [mem_singleton] at hx
  exact hm (hx ▸ hn)

end Queue

end Xv6Vsd
