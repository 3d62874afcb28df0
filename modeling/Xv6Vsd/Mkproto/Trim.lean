import Mathlib.Algebra.Group.Nat.Defs
import Mathlib.Data.List.DropRight

/-!
# Trimming the fields of a prototype

An access to a byte outside the copy ends in `none`.
-/

namespace Xv6Vsd.Mkproto

open List Option

def isspace (c : UInt8) : Bool := c == 32 || (9 ≤ c && c ≤ 13)

structure Str where
  chars : List UInt8
  nonul : 0 ∉ chars
  deriving DecidableEq

def strdup (s : List UInt8) : Option Str :=
  if 0 ∈ s then some ⟨s.takeWhile (· != 0), fun h => by simpa using mem_takeWhile_imp h⟩ else none

/-- `(int)strlen(s)`; 0 stands for what is negative as well. -/
def lenInt (n : Nat) : Nat := (Int32.ofNat n).toInt.toNat

def trimEnd : (len : Nat) → (p : List UInt8) → Option (Nat × List UInt8)
  | 0, _ => none -- a byte below the string
  | len + 1, p =>
    match p[len]? with
    | none => none
    | some c => if isspace c then trimEnd len (p.set len 0) else some (len + 1, p)

def skipSpace : (p : List UInt8) → Option Nat
  | [] => none
  | c :: p => if c ≠ 0 ∧ isspace c then (skipSpace p).map (· + 1) else some 0

/-- `memmove(s, s + off, n)`; a negative `n` is a huge one. -/
def moveDown (s : List UInt8) (off : Nat) (n : Int) : Option (List UInt8) :=
  if 0 ≤ n ∧ off + n ≤ s.length then some ((s.drop off).take n.toNat ++ s.drop n.toNat) else none

def strtrim (str : Str) : Option Str := do
  let (len, s) ← trimEnd (lenInt str.chars.length) (str.chars ++ [0])
  let p ← skipSpace s
  let s ← moveDown s p (len - p + 1)
  strdup s

def Str.trimmed (str : Str) : Str where
  chars := (str.chars.dropWhile isspace).rdropWhile isspace
  nonul := fun h => str.nonul ((dropWhile_suffix _).subset ((show _ <+: _ from rdropWhile_prefix _ _).subset h))

/-! ## The two loops -/

variable {x y z u v r t : List UInt8}

theorem isspace_zero : isspace 0 = false := by decide

theorem trimEnd_space {c} (hc : isspace c) : trimEnd (x.length + 1) (x ++ c :: t) = trimEnd x.length (x ++ 0 :: t) := by
  simp [trimEnd, hc]

theorem trimEnd_ink {c} (hc : isspace c = false) :
    trimEnd (x.length + 1) (x ++ c :: t) = some (x.length + 1, x ++ c :: t) := by
  simp [trimEnd, hc]

theorem trimEnd_spaces (hv : ∀ c ∈ v, isspace c) :
    trimEnd (x.length + v.length) (x ++ v ++ t) = trimEnd x.length (x ++ replicate v.length 0 ++ t) := by
  induction v using reverseRecOn generalizing t with
  | nil => rfl
  | append_singleton v c ih =>
    have hstep := trimEnd_space (x := x ++ v) (t := t) (hv c (by simp))
    simp only [length_append, append_assoc] at hstep ih
    simp [hstep, ih fun d hd => hv d (by simp [hd]), ← Nat.add_assoc, replicate_succ']

theorem skipSpace_stops {c} (hc : isspace c = false) (hu : ∀ c ∈ u, isspace c) :
    skipSpace (u ++ c :: t) = some u.length := by
  induction u with
  | nil => simp [skipSpace, hc]
  | cons d u ih =>
    have hd : isspace d := hu d (by simp)
    have h0 : d ≠ 0 := fun he => by simp [he, isspace_zero] at hd
    simp [skipSpace, hd, h0, ih fun d hd => hu d (by simp [hd])]

/-! ## A string with something else than white space in it -/

structure Inked (z : List UInt8) : Prop where
  first : ∃ c t, z = c :: t ∧ isspace c = false
  last : ∃ t c, z = t ++ [c] ∧ isspace c = false

structure Framed (x u z v : List UInt8) : Prop where
  eq : x = u ++ z ++ v
  before : ∀ c ∈ u, isspace c
  behind : ∀ c ∈ v, isspace c
  ink : Inked z

theorem exists_ink (h : ∃ c ∈ x, isspace c = false) :
    ∃ u c t, x = u ++ c :: t ∧ (∀ c ∈ u, isspace c) ∧ isspace c = false := by
  induction x with
  | nil => simp at h
  | cons d x ih =>
    cases hd : isspace d with
    | false => exact ⟨[], d, x, rfl, by simp, hd⟩
    | true =>
      obtain ⟨u, c, t, rfl, hu, hc⟩ := ih (by simpa [hd] using h)
      exact ⟨d :: u, c, t, rfl, by simpa [hd] using hu, hc⟩

theorem exists_framed (h : ∃ c ∈ x, isspace c = false) : ∃ u z v, Framed x u z v := by
  obtain ⟨u, c, t, rfl, hu, hc⟩ := exists_ink h
  -- the last such character is the first one of the text read backwards
  obtain ⟨v, d, w, hrev, hv, hd⟩ := exists_ink (x := (c :: t).reverse) ⟨c, by simp, hc⟩
  have heq : c :: t = w.reverse ++ [d] ++ v.reverse := by
    rw [← reverse_reverse (c :: t), hrev]
    simp
  refine ⟨u, w.reverse ++ [d], v.reverse, by rw [heq]; simp, hu, by simpa using hv, ?_, _, _, rfl, hd⟩
  cases hw : w.reverse with
  | nil => exact ⟨d, [], rfl, hd⟩
  | cons e y =>
    rw [hw] at heq
    cases heq
    exact ⟨c, y ++ [d], rfl, hc⟩

/-! ## What comes out -/

theorem Inked.ne_nil (hz : Inked z) : z ≠ [] := by
  obtain ⟨c, t, rfl, -⟩ := hz.first
  simp

theorem Framed.loops {s : List UInt8} (h : Framed x u z v) (hs : s = x ++ r) :
    trimEnd x.length s = some (u.length + z.length, u ++ z ++ (replicate v.length 0 ++ r)) ∧
      skipSpace (u ++ z ++ (replicate v.length 0 ++ r)) = some u.length := by
  obtain ⟨⟨c, t, hc, hink⟩, y, d, hd, hink'⟩ := h.ink
  constructor
  · have hback := trimEnd_spaces (x := u ++ z) (t := r) h.behind
    have hstop := trimEnd_ink (x := u ++ y) (t := replicate v.length 0 ++ r) hink'
    rw [hs, h.eq, length_append, hback, hd]
    simpa [Nat.add_assoc] using hstop
  · have hskip := skipSpace_stops (t := t ++ (replicate v.length 0 ++ r)) hink h.before
    simpa [hc] using hskip

theorem moveDown_text {e} : moveDown (u ++ z ++ e :: t) u.length (z.length + 1) =
    some (z ++ e :: (u ++ z ++ e :: t).drop (z.length + 1)) := by
  have hle : (u.length : Int) + (z.length + 1) ≤ (u ++ z ++ e :: t).length := by
    simp only [length_append, length_cons]; omega
  have hn : (z.length + 1 : Int).toNat = z.length + 1 := rfl
  rw [moveDown, if_pos ⟨by omega, hle⟩, hn, append_assoc, drop_left, take_length_add_append]
  simp

theorem strdup_text {s} (hs : 0 ∉ s) : strdup (s ++ 0 :: t) = some ⟨s, hs⟩ := by
  have hne : ∀ c ∈ s, (c != 0) = true := by
    intro c hc
    simpa using ne_of_mem_of_not_mem hc hs
  have htake : (s ++ 0 :: t).takeWhile (· != 0) = s := by simp [takeWhile_append_of_pos hne]
  simp [strdup, htake]

theorem lenInt_le (n : Nat) : lenInt n ≤ n := by
  simp only [lenInt, Int32.toInt_ofNat', Int32.size, Int.bmod_def]
  omega

variable {str : Str}

def Str.seen (str : Str) : List UInt8 := str.chars.take (lenInt str.chars.length)
def Str.unseen (str : Str) : List UInt8 := str.chars.drop (lenInt str.chars.length)

theorem Str.seen_unseen (str : Str) : str.seen ++ str.unseen = str.chars := take_append_drop ..

theorem Str.length_seen (str : Str) : str.seen.length = lenInt str.chars.length := by
  simp [seen, lenInt_le]

theorem strtrim_framed (h : Framed str.seen u z v) : strtrim str =
      (moveDown (u ++ z ++ (replicate v.length 0 ++ (str.unseen ++ [0]))) u.length (z.length + 1)).bind strdup := by
  have hloops := h.loops (r := str.unseen ++ [0]) (by rw [← append_assoc, str.seen_unseen])
  have hlen : ((u.length + z.length : Nat) : Int) - u.length + 1 = z.length + 1 := by omega
  simp only [strtrim, ← str.length_seen, hloops.1, hloops.2, bind_eq_bind, bind_some, hlen]

theorem strtrim_cut (h : Framed str.seen u z v) (hnul : v ≠ [] ∨ str.unseen = []) :
    (strtrim str).map Str.chars = some z := by
  have hz : 0 ∉ z := fun h0 => str.nonul (by rw [← str.seen_unseen, h.eq]; simp [h0])
  obtain ⟨t, ht⟩ : ∃ t, replicate v.length 0 ++ (str.unseen ++ [0]) = 0 :: t := by
    cases hv : v with
    | nil => exact ⟨[], by simpa [hv] using hnul⟩
    | cons c v => exact ⟨_, rfl⟩
  rw [strtrim_framed h, ht, moveDown_text, bind_some, strdup_text hz]
  rfl

theorem strtrim_uncut (h : Framed str.seen u z []) {e} (hr : str.unseen = e :: r) :
    (strtrim str).map Str.chars = some (z ++ e :: str.chars.drop (z.length + 1)) := by
  have hs : str.chars = u ++ z ++ e :: r := by rw [← str.seen_unseen, h.eq, hr, append_nil]
  have hdrop : (u ++ z ++ e :: (r ++ [0])).drop (z.length + 1) = str.chars.drop (z.length + 1) ++ [0] := by
    rw [hs, ← drop_append_of_le_length (by simp; omega)]
    simp
  have hz : 0 ∉ z ++ e :: str.chars.drop (z.length + 1) := by
    intro h0
    apply str.nonul
    rcases mem_append.mp h0 with h0 | h0
    · rw [hs]; simp [h0]
    rcases mem_cons.mp h0 with h0 | h0
    · rw [hs]; simp [h0]
    · exact mem_of_mem_drop h0
  have hdup := strdup_text (t := []) hz
  rw [append_assoc, cons_append] at hdup
  rw [strtrim_framed h, hr, length_nil, replicate_zero, nil_append, cons_append, moveDown_text, bind_some, hdrop,
    hdup]
  rfl

theorem strtrim_blank (h : ∀ c ∈ str.seen, isspace c) : strtrim str = none := by
  have hback := trimEnd_spaces (x := []) (t := str.unseen ++ [0]) h
  simp only [length_nil, Nat.zero_add, nil_append, ← append_assoc, str.seen_unseen, trimEnd] at hback
  simp [strtrim, ← str.length_seen, hback]

/-! ## When it trims -/

theorem Inked.rdropWhile_iff (hz : Inked z) : (z ++ x).rdropWhile isspace = z ↔ ∀ c ∈ x, isspace c := by
  constructor
  · intro h
    have hsplit := rdropWhile_append_rtakeWhile (p := isspace) (l := z ++ x)
    rw [h, append_cancel_left_eq] at hsplit
    exact fun c hc => mem_rtakeWhile_imp (hsplit.symm ▸ hc)
  intro h
  induction x using reverseRecOn with
  | nil =>
    obtain ⟨y, c, rfl, hc⟩ := hz.last
    simp [hc]
  | append_singleton x c ih =>
    have hc : isspace c := h c (by simp)
    rw [← append_assoc, rdropWhile_concat_pos _ _ _ hc, ih fun d hd => h d (by simp [hd])]

theorem Framed.trimmed (h : Framed str.seen u z v) :
    str.trimmed.chars = (z ++ (v ++ str.unseen)).rdropWhile isspace := by
  obtain ⟨c, t, rfl, hc⟩ := h.ink.first
  have hs : str.chars = u ++ (c :: t ++ (v ++ str.unseen)) := by rw [← str.seen_unseen, h.eq]; simp
  have hdrop : str.chars.dropWhile isspace = c :: t ++ (v ++ str.unseen) := by
    rw [hs, dropWhile_append_of_pos h.before]
    simp [hc]
  rw [← hdrop]
  rfl

/-- The loops see something else than white space, and what they do not see is white space behind a
NUL, or nothing is to be trimmed. -/
structure Str.Trimmable (str : Str) : Prop where
  ink : ∃ c ∈ str.seen, isspace c = false
  rest : str.unseen = [] ∨
    ((∃ c ∈ str.seen.getLast?, isspace c) ∧ ∀ c ∈ str.unseen, isspace c) ∨
    ((∃ c ∈ str.seen.head?, isspace c = false) ∧ (∃ c ∈ str.seen.getLast?, isspace c = false) ∧
      ∃ c ∈ str.unseen.getLast?, isspace c = false)

theorem Str.eq_iff {s t : Str} : s = t ↔ s.chars = t.chars := by
  cases s; cases t; simp

theorem strtrim_eq_iff {t : Str} : strtrim str = some t ↔ (strtrim str).map Str.chars = some t.chars := by
  cases strtrim str with
  | none => simp
  | some s => simp [Str.eq_iff]

theorem rdropWhile_self_iff {e} : (z ++ e :: r).rdropWhile isspace = z ++ e :: r ↔
    ∃ c ∈ (e :: r).getLast?, isspace c = false := by
  rw [rdropWhile_eq_self_iff]
  simp [getLast?_eq_some_getLast]

theorem Framed.uncut_iff (h : Framed str.seen u z []) {e} (hr : str.unseen = e :: r) :
    strtrim str = some str.trimmed ↔ u = [] ∧ ∃ c ∈ str.unseen.getLast?, isspace c = false := by
  have hs : str.chars = u ++ (z ++ e :: r) := by rw [← str.seen_unseen, h.eq, hr]; simp
  have hsame : z ++ e :: (z ++ e :: r).drop (z.length + 1) = z ++ e :: r := by simp
  rw [strtrim_eq_iff, strtrim_uncut h hr, some_inj, h.trimmed, nil_append, hr, hs]
  constructor
  · intro heq
    -- as many characters come out as went in
    have hcut := rdropWhile_prefix isspace (z ++ e :: r)
    have hle := hcut.length_le
    rw [← heq] at hle
    have hu : u = [] := by
      apply length_eq_zero_iff.mp
      simp at hle
      omega
    rw [hu, nil_append, hsame] at heq
    exact ⟨hu, rdropWhile_self_iff.mp heq.symm⟩
  · rintro ⟨rfl, hlast⟩
    rw [nil_append, hsame, rdropWhile_self_iff.mpr hlast]

theorem Framed.head_ink (h : Framed x u z v) : (∃ c ∈ x.head?, isspace c = false) ↔ u = [] := by
  obtain ⟨c, t, rfl, hc⟩ := h.ink.first
  rw [h.eq]
  cases hu : u with
  | nil => simp [hc]
  | cons d u => simp [h.before d (by simp [hu])]

theorem Framed.last_space (h : Framed x u z v) : (∃ c ∈ x.getLast?, isspace c) ↔ v ≠ [] := by
  obtain ⟨t, c, rfl, hc⟩ := h.ink.last
  rw [h.eq]
  cases hv : v using reverseRecOn with
  | nil => simp [hc]
  | append_singleton v d => simp [← append_assoc, h.behind d (by simp [hv])]

theorem Framed.last_ink (h : Framed x u z v) : (∃ c ∈ x.getLast?, isspace c = false) ↔ v = [] := by
  have hspace := h.last_space
  have hne : x ≠ [] := by rw [h.eq]; simp [h.ink.ne_nil]
  rw [getLast?_eq_some_getLast hne] at hspace ⊢
  simpa using not_congr hspace

/-- `strtrim` accesses no byte outside the string and trims it just where there is something else than white space in
it. -/
theorem strtrim_total_iff (str : Str) : strtrim str = some str.trimmed ↔ str.Trimmable := by
  by_cases hblank : ∀ c ∈ str.seen, isspace c
  · rw [strtrim_blank hblank]
    refine iff_of_false (by simp) fun h => ?_
    obtain ⟨c, hc, hink⟩ := h.ink
    simp [hblank c hc] at hink
  have hink : ∃ c ∈ str.seen, isspace c = false := by simpa using hblank
  obtain ⟨u, z, v, h⟩ := exists_framed hink
  have hrest : str.Trimmable ↔ str.unseen = [] ∨ (v ≠ [] ∧ ∀ c ∈ str.unseen, isspace c) ∨
      (u = [] ∧ v = [] ∧ ∃ c ∈ str.unseen.getLast?, isspace c = false) := by
    rw [← h.last_space, ← h.head_ink, ← h.last_ink]
    exact ⟨fun h => h.rest, fun h => ⟨hink, h⟩⟩
  rw [hrest]
  cases hr : str.unseen with
  | nil =>
    have hcut := strtrim_cut h (.inr hr)
    have hz : (z ++ v).rdropWhile isspace = z := h.ink.rdropWhile_iff.mpr h.behind
    rw [strtrim_eq_iff, hcut, h.trimmed, hr, append_nil, hz]
    simp
  | cons e r =>
    by_cases hv : v = []
    · rw [hv] at h
      rw [h.uncut_iff hr, hr]
      simp [hv]
    rw [strtrim_eq_iff, strtrim_cut h (.inl hv), h.trimmed, some_inj, eq_comm, h.ink.rdropWhile_iff, hr]
    rw [forall_mem_append, and_iff_right h.behind]
    simp [hv]

def Str.empty : Str := ⟨[], by simp⟩

/-- The byte below the string is read where there is no character, and where a line is blank. -/
theorem strtrim_reads_below : strtrim .empty = none ∧ strtrim ⟨[32, 10], by decide⟩ = none ∧
    ¬ ∀ str : Str, strtrim str = some str.trimmed := by
  refine ⟨rfl, by decide, fun h => ?_⟩
  have hempty : none = some _ := h .empty
  cases hempty

end Xv6Vsd.Mkproto
