import Mathlib.Data.List.Basic
import Mathlib.Data.List.TakeWhile

/-!
# Searching for a pattern (`grep.c`)

Strings are lists of characters up to the terminator.
-/

namespace Xv6Vsd.Grep

open List

/-! ## The matcher -/

def matchstar (matchhere : List Char → Bool) (c : Char) : List Char → Bool
  | [] => matchhere []
  | t :: text => matchhere (t :: text) || (t = c || c = '.') && matchstar matchhere c text

def matchhere : List Char → List Char → Bool
  | [], _ => true
  | c :: '*' :: re, text => matchstar (matchhere re) c text
  | ['$'], text => text.isEmpty
  | _ :: _, [] => false
  | c :: re, t :: text => (c = '.' || c = t) && matchhere re text

def matchany (re : List Char) : List Char → Bool
  | [] => matchhere re []
  | t :: text => matchhere re (t :: text) || matchany re text

def matchRe : List Char → List Char → Bool
  | '^' :: re, text => matchhere re text
  | re, text => matchany re text

/-! ## What a pattern means -/

inductive Item where
  | one (c : Char)
  | star (c : Char)

def Stands (c t : Char) : Prop := c = '.' ∨ c = t

def Item.Fits : Item → List Char → Prop
  | .one c, w => ∃ t, w = [t] ∧ Stands c t
  | .star c, w => ∀ t ∈ w, Stands c t

def Fits : List Item → List Char → Prop
  | [], w => w = []
  | x :: xs, w => ∃ u v, w = u ++ v ∧ x.Fits u ∧ Fits xs v

structure Pattern where
  start : Bool
  items : List Item
  stop : Bool

def body : List Char → List Item × Bool
  | [] => ([], false)
  | c :: '*' :: re => ((body re).1.cons (.star c), (body re).2)
  | ['$'] => ([], true)
  | c :: re => ((body re).1.cons (.one c), (body re).2)

def pattern : List Char → Pattern
  | '^' :: re => ⟨true, (body re).1, (body re).2⟩
  | re => ⟨false, (body re).1, (body re).2⟩

def Pattern.Found (p : Pattern) (text : List Char) : Prop :=
  ∃ before word after, text = before ++ word ++ after ∧ Fits p.items word ∧ (p.start = true → before = []) ∧
    (p.stop = true → after = [])

def FoundHere (re text : List Char) : Prop :=
  ∃ word after, text = word ++ after ∧ Fits (body re).1 word ∧ ((body re).2 = true → after = [])

theorem matchstar_iff {f : List Char → Bool} {c} {text} :
    matchstar f c text = true ↔ ∃ u v, text = u ++ v ∧ (∀ t ∈ u, Stands c t) ∧ f v = true := by
  induction text with
  | nil =>
    constructor
    · exact fun h => ⟨[], [], rfl, by simp, h⟩
    rintro ⟨u, v, he, -, h⟩
    obtain ⟨rfl, rfl⟩ := nil_eq_append_iff.mp he
    exact h
  | cons t text ih =>
    simp only [matchstar, Bool.or_eq_true, Bool.and_eq_true, decide_eq_true_eq, ih]
    constructor
    · rintro (h | ⟨ht, u, v, rfl, hu, h⟩)
      · exact ⟨[], t :: text, rfl, by simp, h⟩
      refine ⟨t :: u, v, rfl, ?_, h⟩
      rw [forall_mem_cons]
      exact ⟨ht.symm.imp_right Eq.symm, hu⟩
    · rintro ⟨_ | ⟨t', u⟩, v, he, hu, h⟩
      · exact .inl (he ▸ h)
      cases he
      rw [forall_mem_cons] at hu
      exact .inr ⟨hu.1.symm.imp_left Eq.symm, u, v, rfl, hu.2, h⟩

theorem found_cons {x} {xs} {text} {P : List Char → Prop} :
    (∃ word after, text = word ++ after ∧ Fits (x :: xs) word ∧ P after) ↔
      ∃ u rest, text = u ++ rest ∧ x.Fits u ∧ ∃ word after, rest = word ++ after ∧ Fits xs word ∧ P after := by
  constructor
  · rintro ⟨_, after, rfl, ⟨u, v, rfl, hu, hv⟩, h⟩
    exact ⟨u, v ++ after, append_assoc .., hu, v, after, rfl, hv, h⟩
  · rintro ⟨u, _, rfl, hu, v, after, rfl, hv, h⟩
    exact ⟨u ++ v, after, (append_assoc ..).symm, ⟨u, v, rfl, hu, hv⟩, h⟩

theorem matchhere_iff (re text : List Char) : matchhere re text = true ↔ FoundHere re text := by
  unfold FoundHere
  fun_induction body re generalizing text with
  | case1 | case3 => simp [matchhere, Fits]
  | case2 c re ih =>
    rw [matchhere, matchstar_iff, found_cons]
    simp only [ih]
    rfl
  | case4 c re hstar hstop ih =>
    rw [found_cons]
    cases text with
    | nil => simp [matchhere, Item.Fits]
    | cons t text =>
      rw [matchhere, Bool.and_eq_true, Bool.or_eq_true, decide_eq_true_eq, decide_eq_true_eq, ih]
      · constructor
        · exact fun h => ⟨[t], text, rfl, ⟨t, rfl, h.1⟩, h.2⟩
        rintro ⟨_, _, he, ⟨_, rfl, hc⟩, h⟩
        cases he
        exact ⟨hc, h⟩
      · exact hstar
      · exact hstop

theorem matchany_eq (re text : List Char) : matchany re text = matchstar (matchhere re) '.' text := by
  induction text with
  | nil => rfl
  | cons t text ih => simp [matchany, matchstar, ih]

/-- `match` accepts a text if and only if the pattern occurs in it. -/
theorem match_iff (re text : List Char) : matchRe re text = true ↔ (pattern re).Found text := by
  unfold matchRe pattern
  split
  · simp [matchhere_iff, Pattern.Found, FoundHere]
  · simp [matchany_eq, matchstar_iff, matchhere_iff, Pattern.Found, FoundHere, Stands]

/-! ## The lines of a file -/

abbrev NL : Char := '\n'

abbrev NUL : Char := '\x00'

/-- The loop over the lines in the buffer, `line` being what lies between `p` and the rest: what is written, and what is
behind the last newline that `strchr` finds. -/
def scan (f : List Char → Bool) : List Char → List Char → List Char × List Char
  | line, [] => ([], line)
  | line, x :: xs =>
    if x = NL then ((if f line then line ++ [NL] else []) ++ (scan f [] xs).1, (scan f [] xs).2)
    else if x = NUL then ([], line ++ x :: xs)
    else scan f (line ++ [x]) xs

def kept (f : List Char → Bool) (buf : List Char) : List Char :=
  if (scan f [] buf).2.length = buf.length then [] else (scan f [] buf).2

/-- The loop of `grep`. The chunks are what `read` returns when it is asked for the room that is left in `buf`. -/
def grep (f : List Char → Bool) : List Char → List (List Char) → List Char
  | _, [] => []
  | buf, chunk :: chunks =>
    if 1024 - buf.length - 1 = 0 then []
    else (scan f [] (buf ++ chunk)).1 ++ grep f (kept f (buf ++ chunk)) chunks

def text (lines : List (List Char)) : List Char := lines.flatMap (· ++ [NL])

def cstring (line : List Char) : List Char := line.takeWhile (· ≠ NUL)

def Plain (xs : List Char) : Prop := ∀ x ∈ xs, x ≠ NL ∧ x ≠ NUL

abbrev every : List Char → Bool := fun _ => true

variable {f : List Char → Bool} {line xs ys buf out : List Char} {chunks : List (List Char)}

theorem scan_plain (h : Plain xs) : scan f line (xs ++ ys) = scan f (line ++ xs) ys := by
  induction xs generalizing line with
  | nil => simp
  | cons x xs ih =>
    obtain ⟨hx, h⟩ := forall_mem_cons.mp h
    rw [cons_append, scan, if_neg hx.1, if_neg hx.2, ih h, append_assoc, singleton_append]

theorem scan_self (h : Plain xs) : scan f [] xs = ([], xs) := by
  have happend : scan f [] (xs ++ []) = scan f ([] ++ xs) [] := scan_plain h
  simpa [scan] using happend

theorem scan_rest (h : Plain line) : scan f [] (scan f line xs).2 = ([], (scan f line xs).2) := by
  fun_induction scan f line xs with
  | case1 line => exact scan_self h
  | case2 line xs ih => exact ih (by simp [Plain])
  | case3 line xs hx => rw [scan_plain h]; rfl
  | case4 line x xs h1 h2 ih => exact ih (by simpa [Plain, or_imp, forall_and, h1, h2] using h)

theorem nul_mem_rest (h : NUL ∈ xs) : NUL ∈ (scan f line xs).2 := by
  fun_induction scan f line xs with
  | case1 line => cases h
  | case2 line xs ih => exact ih ((mem_cons.mp h).resolve_left (by decide))
  | case3 line xs hx => simp
  | case4 line x xs h1 h2 ih => exact ih ((mem_cons.mp h).resolve_left (Ne.symm h2))

theorem scan_all (line xs : List Char) : (scan every line xs).1 ++ (scan every line xs).2 = line ++ xs := by
  fun_induction scan every line xs with
  | case1 line => simp
  | case2 line xs ih => simpa using ih
  | case3 line xs hx => simp
  | case4 line x xs h1 h2 ih => simpa using ih

theorem length_rest (f : List Char → Bool) (line xs : List Char) : (scan f line xs).2.length ≤ line.length + xs.length ∧
      (NL ∈ xs → NUL ∉ xs → (scan f line xs).2.length < line.length + xs.length) := by
  fun_induction scan f line xs with
  | case1 line => simp
  | case2 line xs ih => grind
  | case3 line xs hx => simp
  | case4 line x xs h1 h2 ih => grind

inductive Left (f : List Char → Bool) : List Char → List Char → List Char → Prop
  | done : Left f [] [] []
  | line {line tail text out} (hline : Plain (line ++ tail)) (hlen : (line ++ tail).length ≤ 1022)
    (h : Left f [] text out) :
    Left f line (tail ++ NL :: text) ((if f (line ++ tail) then line ++ tail ++ [NL] else []) ++ out)

theorem Left.scan (h : Left f line (xs ++ ys) out) :
    ∃ out', out = (scan f line xs).1 ++ out' ∧ Left f (scan f line xs).2 ys out' := by
  induction xs generalizing line out with
  | nil => exact ⟨out, rfl, h⟩
  | cons x xs ih =>
    generalize hs : x :: xs ++ ys = s at h
    cases h with
    | done => cases hs
    | @line _ tail text out hline hlen h =>
      cases tail with
      | nil =>
        cases hs
        obtain ⟨out', rfl, h'⟩ := ih h
        exact ⟨out', by simp [Grep.scan], by simpa [Grep.scan] using h'⟩
      | cons t tail =>
        obtain ⟨rfl, htail⟩ : x = t ∧ xs ++ ys = tail ++ NL :: text := List.cons.inj hs
        rw [append_cons] at hline hlen ⊢
        have hx := hline x (by simp)
        obtain ⟨out', hout, h'⟩ := ih (htail ▸ Left.line hline hlen h)
        rw [Grep.scan, if_neg hx.1, if_neg hx.2]
        exact ⟨out', hout, h'⟩

theorem Left.of_lines {lines} (h : ∀ l ∈ lines, Plain l ∧ l.length ≤ 1022) :
    Left f [] (text lines) (text (lines.filter f)) := by
  induction lines with
  | nil => exact .done
  | cons l lines ih =>
    obtain ⟨hl, h⟩ := forall_mem_cons.mp h
    have hleft : Left f [] _ _ := .line hl.1 hl.2 (ih h)
    cases hf : f l <;> simpa [text, hf] using hleft

theorem Left.plain (h : Left f line ys out) : Plain line ∧ line.length ≤ 1022 := by
  cases h with
  | done => simp [Plain]
  | line hline hlen =>
    rw [length_append] at hlen
    exact ⟨fun x hx => hline x (mem_append_left _ hx), by omega⟩

theorem grep_left (h : Left f buf chunks.flatten out) (hc : ∀ c ∈ chunks, NL ∈ c ∧ NUL ∉ c) :
    grep f buf chunks = out := by
  induction chunks generalizing buf out with
  | nil =>
    generalize hs : List.flatten [] = s at h
    cases h with
    | done => rfl
    | line => simp at hs
  | cons c chunks ih =>
    obtain ⟨⟨hnl, hnul⟩, hc⟩ := forall_mem_cons.mp hc
    obtain ⟨hplain, hlen⟩ := h.plain
    obtain ⟨out', rfl, h'⟩ := Left.scan h
    have hlt := (length_rest f buf c).2 hnl hnul
    have hscan : scan f [] (buf ++ c) = scan f buf c := scan_plain hplain
    rw [grep, if_neg (by omega), kept, hscan, if_neg (by rw [length_append]; omega), ih h' hc]

theorem length_kept (buf : List Char) : (scan every [] buf).1.length + (kept every buf).length ≤ buf.length := by
  have hall := congrArg List.length (scan_all [] buf)
  rw [length_append, nil_append] at hall
  unfold kept
  split
  · rw [length_nil]; omega
  · omega

theorem length_grep (buf : List Char) (chunks : List (List Char)) :
    (grep every buf chunks).length ≤ buf.length + chunks.flatten.length := by
  induction chunks generalizing buf with
  | nil => simp [grep]
  | cons c chunks ih =>
    have hkept := length_kept (buf ++ c)
    have := ih (kept every (buf ++ c))
    rw [grep, flatten_cons, length_append]
    rw [length_append] at hkept
    split
    · simp
    · rw [length_append]; omega

theorem chunks_of_all (hbuf : scan every [] buf = ([], buf)) (hne : ∀ c ∈ chunks, c ≠ [])
    (h : (grep every buf chunks).length = buf.length + chunks.flatten.length) :
    NUL ∉ buf ∧ ∀ c ∈ chunks, NL ∈ c ∧ NUL ∉ c := by
  induction chunks generalizing buf with
  | nil => obtain rfl := length_eq_zero_iff.mp h.symm; simp
  | cons c chunks ih =>
    obtain ⟨hc, hne⟩ := forall_mem_cons.mp hne
    have hpos := length_pos_iff.mpr hc
    have hall := congrArg List.length (scan_all [] (buf ++ c))
    have hle := length_grep (kept every (buf ++ c)) chunks
    rw [grep, flatten_cons, length_append] at h
    rw [length_append, nil_append, length_append] at hall
    split at h
    · rw [length_nil] at h; omega
    rw [length_append] at h
    have hlen : (scan every [] (buf ++ c)).2.length ≠ (buf ++ c).length := by
      intro hlen
      rw [kept, if_pos hlen, length_nil] at hle
      rw [kept, if_pos hlen] at h
      rw [length_append] at hlen
      omega
    rw [kept, if_neg hlen] at h
    have hrest : scan every [] (scan every [] (buf ++ c)).2 = _ := scan_rest (by simp [Plain])
    obtain ⟨hnul, hchunks⟩ := ih hrest hne (by omega)
    have hmem : NUL ∉ buf ++ c := fun hmem => hnul (nul_mem_rest hmem)
    rw [mem_append, not_or] at hmem
    refine ⟨hmem.1, forall_mem_cons.mpr ⟨⟨?_, hmem.2⟩, hchunks⟩⟩
    by_contra hnl
    refine hlen (congrArg (·.2.length) (scan_self fun x hx => ⟨?_, ?_⟩))
    · rintro rfl
      have hlt := (length_rest every [] buf).2 ((mem_append.mp hx).resolve_right hnl) hmem.1
      simp [hbuf] at hlt
    · rintro rfl
      exact (mem_append.mp hx).elim hmem.1 hmem.2

/-- On lines that fit the buffer `grep` prints those that match, whatever the pattern, if and only if every `read` ends
at least one line and brings no zero. -/
theorem grep_complete_iff {lines chunks : List (List Char)} (hlines : ∀ l ∈ lines, NL ∉ l ∧ l.length ≤ 1022)
    (hchunks : ∀ c ∈ chunks, c ≠ []) (hin : chunks.flatten = text lines) :
    (∀ re, grep (matchRe re) [] chunks = text (lines.filter fun l => matchRe re (cstring l))) ↔
      ∀ c ∈ chunks, NL ∈ c ∧ NUL ∉ c := by
  constructor
  · intro h
    have hevery : matchRe [] = every := by funext l; cases l <;> rfl
    have hall := h []
    simp only [hevery, filter_true] at hall
    exact (chunks_of_all rfl hchunks (by rw [hall, ← hin, length_nil, Nat.zero_add])).2
  intro hc re
  have hplain : ∀ l ∈ lines, Plain l ∧ l.length ≤ 1022 := by
    refine fun l hl => ⟨fun x hx => ⟨?_, ?_⟩, (hlines l hl).2⟩
    · rintro rfl
      exact (hlines l hl).1 hx
    rintro rfl
    have hmem : NUL ∈ text lines := mem_flatMap.mpr ⟨l, hl, mem_append_left _ hx⟩
    obtain ⟨c, hcm, hx⟩ := mem_flatten.mp (hin ▸ hmem)
    exact (hc c hcm).2 hx
  have hfilter : (lines.filter fun l => matchRe re (cstring l)) = lines.filter (matchRe re) := by
    refine filter_congr fun l hl => ?_
    rw [cstring, takeWhile_eq_self_iff.mpr fun x hx => decide_eq_true ((hplain l hl).1 x hx).2]
  rw [hfilter]
  exact grep_left (hin ▸ .of_lines hplain) hc

theorem grep_complete_two : [['a', NL, 'b'], ['c', NL]].flatten = text [['a'], ['b', 'c']] ∧
    ∀ re, grep (matchRe re) [] [['a', NL, 'b'], ['c', NL]] =
      text ([['a'], ['b', 'c']].filter fun l => matchRe re (cstring l)) := by
  have hin : [['a', NL, 'b'], ['c', NL]].flatten = text [['a'], ['b', 'c']] := rfl
  exact ⟨hin, (grep_complete_iff (by decide) (by decide) hin).mpr (by decide)⟩

/-- A pipe gives the characters of the line `ab` one by one. -/
theorem grep_drops_begun_line : grep (matchRe []) [] [['a'], ['b'], [NL]] = [NL] ∧
    text ([['a', 'b']].filter fun l => matchRe [] (cstring l)) = ['a', 'b', NL] := by
  decide

end Xv6Vsd.Grep
