import Mathlib.Data.List.Basic

/-!
# Permission fields of a prototype

`parseperms` of `mkproto` joins what its two fields give with `|`, the -1 of a malformed one included.
-/

namespace Xv6Vsd.Mkproto

def letter (c : Char) (bit : UInt32) (x : UInt32 × List Char) : UInt32 × List Char :=
  match x.2 with
  | d :: s => if d = c then (x.1 ||| bit, s) else if d = '-' then (x.1, s) else x
  | [] => x

def parseperms2 (strperms : List Char) (world : Bool) : UInt32 :=
  let bit (k : UInt32) : UInt32 := if world then 1 <<< (k + 4) else 1 <<< k
  let x := letter 'x' (bit 2) (letter 'w' (bit 1) (letter 'r' (bit 0) (0, strperms)))
  if x.2.head? = some 'h' then x.1 ||| bit 3 else x.1

def parseperms1 (strperms : List Char) : UInt32 :=
  if strperms[1]? ≠ some ':' then -1
  else if strperms.head? = some 'u' ∨ strperms.head? = some 'U' then parseperms2 (strperms.drop 2) false
  else if strperms.head? = some 'w' ∨ strperms.head? = some 'W' then parseperms2 (strperms.drop 2) true
  else -1

def parseperms (field1 field2 : List Char) : UInt32 := parseperms1 field1 ||| parseperms1 field2

/-- What `parseentrystring` puts into the entry of a line that has both fields; it accepts every such line. -/
def parseentryperms (field1 field2 : List Char) : Option UInt16 := some (parseperms field1 field2).toUInt16

def field (c : Char) (r w x h : List Char) : List Char := c :: ':' :: (r ++ w ++ x ++ h)

abbrev classes : List Char := ['u', 'U', 'w', 'W']

abbrev choices (c : Char) : List (List Char) := [[], [c], ['-']]

def WellFormed (s : List Char) : Prop :=
  ∃ c ∈ classes, ∃ r ∈ choices 'r', ∃ w ∈ choices 'w', ∃ x ∈ choices 'x', ∃ h ∈ [[], ['h']], s = field c r w x h

def named (s : List Char) : UInt16 :=
  let bit (c : Char) (b : UInt16) := if c ∈ s.drop 2 then b else 0
  let bits := bit 'r' 1 ||| bit 'w' 2 ||| bit 'x' 4 ||| bit 'h' 8
  if s.head? = some 'w' ∨ s.head? = some 'W' then bits <<< 4 else bits

/-- A line is accepted only with fields of the right form, and the entry gets the bits they name. -/
def ParsesPerms (field1 field2 : List Char) : Prop :=
  ∀ perms, parseentryperms field1 field2 = some perms →
    WellFormed field1 ∧ WellFormed field2 ∧ perms = named field1 ||| named field2

theorem parseperms1_field : (classes.all fun c => (choices 'r').all fun r => (choices 'w').all fun w =>
    (choices 'x').all fun x => [[], ['h']].all fun h =>
      parseperms1 (field c r w x h) == (named (field c r w x h)).toUInt32) = true := by decide +kernel

theorem WellFormed.parseperms1 {s} (h : WellFormed s) : parseperms1 s = (named s).toUInt32 := by
  obtain ⟨c, hc, r, hr, w, hw, x, hx, h, hh, rfl⟩ := h
  have hall := parseperms1_field
  simp only [List.all_eq_true, beq_iff_eq] at hall
  exact hall c hc r hr w hw x hx h hh

theorem parses_perms_iff (field1 field2 : List Char) :
    ParsesPerms field1 field2 ↔ WellFormed field1 ∧ WellFormed field2 := by
  constructor
  · intro h; obtain ⟨h1, h2, -⟩ := h _ rfl; exact ⟨h1, h2⟩
  rintro ⟨h1, h2⟩ perms hp
  refine ⟨h1, h2, ?_⟩
  cases hp
  rw [parseperms, h1.parseperms1, h2.parseperms1, UInt32.toUInt16_or, UInt16.toUInt16_toUInt32,
    UInt16.toUInt16_toUInt32]

/-- A field that names no class makes the entry readable, writable and executable for everybody. -/
theorem malformed_grants_all : parseentryperms ['q'] ['w', ':', 'r'] = some 65535 ∧
    ¬ ParsesPerms ['q'] ['w', ':', 'r'] := by
  refine ⟨by decide +kernel, fun h => ?_⟩
  obtain ⟨⟨c, -, r, -, w, -, x, -, h, -, he⟩, -⟩ := h _ rfl
  exact absurd he (by simp [field])

end Xv6Vsd.Mkproto
