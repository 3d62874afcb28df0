import Mathlib.Data.List.Count
import Xv6Vsd.Lib.Counter
import Xv6Vsd.Lib.Monitor

/-!
# The line discipline of the terminals (`console.c`, `uart.c`, `mux.c`)

One input buffer, fed by interrupts and read by any number of processes. The console, the serial ports and the lines of
the mux have the same logic; only `consoleintr` has a key that lists the processes. The echo is left out.
-/

namespace Xv6Vsd.Term

open Counter Monitor List

abbrev INPUT_BUF : Nat := 128

def C (x : Char) : UInt8 := .ofNat (x.toNat - '@'.toNat)

abbrev NL : UInt8 := 10

abbrev CR : UInt8 := 13

abbrev DEL : UInt8 := 0x7f

structure Inputbuf where
  buf : Nat → UInt8
  r : UInt32
  w : UInt32
  e : UInt32

inductive Kind where
  | console
  | uart
  | mux
  deriving DecidableEq

inductive Out where
  | byte (c : UInt8)
  | ret (size result : Int)

/-- The buffer, with the characters that have been committed so far and what the readers have seen. -/
structure Shared where
  input : Inputbuf
  committed : List UInt8
  out : List Out

inductive Call where
  | keys (cs : List UInt8)
  /-- the loop of a read of `target` bytes that has room for `n` more -/
  | read (target n : Int)

inductive Chan where
  | r
  deriving DecidableEq

namespace Inputbuf

def killLine (b : Inputbuf) : Nat → Inputbuf
  | 0 => b
  | n + 1 => if b.e ≠ b.w ∧ b.buf (cell INPUT_BUF (b.e - 1)) ≠ NL then killLine { b with e := b.e - 1 } n else b

def backspace (b : Inputbuf) : Inputbuf := if b.e ≠ b.w then { b with e := b.e - 1 } else b

def put (b : Inputbuf) (c : UInt8) : Inputbuf :=
  { b with buf := Function.update b.buf (cell INPUT_BUF b.e) c, e := b.e + 1 }

def unread (b : Inputbuf) : List UInt8 := span INPUT_BUF b.buf b.r b.w

def pending (b : Inputbuf) : List UInt8 := span INPUT_BUF b.buf b.w b.e

end Inputbuf

namespace Shared

def commit (s : Shared) : Shared :=
  { s with input := { s.input with w := s.input.e }, committed := s.committed ++ s.input.pending }

def store (s : Shared) (c : UInt8) : Shared :=
  let s := { s with input := s.input.put c }
  if c = NL ∨ c = C 'D' ∨ s.input.e = s.input.r + .ofNat INPUT_BUF then s.commit else s

def insert (s : Shared) (c : UInt8) : Shared :=
  if c ≠ 0 ∧ s.input.e - s.input.r < .ofNat INPUT_BUF then s.store (if c = CR then NL else c) else s

/-- The switch on a character; `listing` tells if `^P` lists the processes. -/
def typed (listing : Bool) (s : Shared) (c : UInt8) : Shared :=
  if listing ∧ c = C 'P' then s
  else if c = C 'U' then { s with input := s.input.killLine (s.input.e - s.input.w).toNat }
  else if c = C 'H' ∨ c = DEL then { s with input := s.input.backspace }
  else s.insert c

def consoleintr : Shared → UInt8 → Shared := typed true

def writeline : Shared → UInt8 → Shared := typed false

def ret (s : Shared) (size result : Int) : Turn Shared Call Chan :=
  { shared := { s with out := s.out ++ [.ret size result] }, next := .leave }

def lineread (s : Shared) (killed : Bool) (target n : Int) : Turn Shared Call Chan := if 0 < n then
    if s.input.r = s.input.w then
      if killed then s.ret target (-1) else { shared := s, next := .sleep .r (.read target n) }
    else
      let c := s.input.buf (cell INPUT_BUF s.input.r)
      let s' := { s with input := { s.input with r := s.input.r + 1 } }
      if c = C 'D' then
        -- the `^D` is saved for the next read
        if n < target then s.ret target (target - n) else s'.ret target (target - n)
      else
        let s' := { s' with out := s'.out ++ [.byte c] }
        if c = NL then s'.ret target (target - (n - 1)) else { shared := s', next := .go (.read target (n - 1)) }
  else s.ret target (target - n)

def consoleread : Shared → Bool → Int → Int → Turn Shared Call Chan := lineread

def uartRead : Shared → Bool → Int → Int → Turn Shared Call Chan := lineread

def muxread : Shared → Bool → Int → Int → Turn Shared Call Chan := lineread

end Shared

namespace Kind

def key : Kind → Shared → UInt8 → Shared
  | .console | .uart => Shared.consoleintr
  | .mux => Shared.writeline

def read : Kind → Shared → Bool → Int → Int → Turn Shared Call Chan
  | .console => Shared.consoleread
  | .uart => Shared.uartRead
  | .mux => Shared.muxread

/-- A character of `^D`, of a newline or of a full buffer wakes the readers. -/
def turn (k : Kind) (s : Shared) (killed : Bool) : Call → Turn Shared Call Chan
  | .keys [] => { shared := s, next := .leave }
  | .keys (c :: cs) =>
    { shared := k.key s c, wakes := if (k.key s c).input.w = s.input.w then [] else [.r], next := .go (.keys cs) }
  | .read target n => k.read s killed target n

def code (k : Kind) : Code Shared Call Chan where
  entry _
    | .keys cs => k ≠ .mux || cs.length == 1
    | .read target n => target == n
  turn := k.turn

end Kind

def empty (buf : Nat → UInt8) : Shared where
  input := { buf := buf, r := 0, w := 0, e := 0 }
  committed := []
  out := []

inductive Mark where
  | byte (c : UInt8)
  | eof
  deriving DecidableEq

def mark (c : UInt8) : Mark := if c = C 'D' then .eof else .byte c

def Out.mark : Out → Option Mark
  | .byte c => some (.byte c)
  | .ret size result => if 0 < size ∧ result = 0 then some .eof else none

def Out.byte? : Out → Option UInt8
  | .byte c => some c
  | .ret _ _ => none

def Out.isZero : Out → Bool
  | .byte _ => false
  | .ret size result => 0 < size && result == 0

structure Disciplined (k : Kind) (s : Shared) : Prop where
  commitPoint : (s.input.w - s.input.r).toNat ≤ (s.input.e - s.input.r).toNat
  room : (s.input.e - s.input.r).toNat ≤ INPUT_BUF
  editing : ∀ c, s.input.unread <+: (k.key s c).input.unread
  delivered : s.out.filterMap Out.byte? ++ s.input.unread.filter (· ≠ C 'D') = s.committed.filter (· ≠ C 'D')
  eofs : s.out.countP Out.isZero + s.input.unread.count (C 'D') = s.committed.count (C 'D')
  order : s.out.filterMap Out.mark ++ s.input.unread.map mark = s.committed.map mark

/-! ## The invariant -/

/-- Of the committed characters `R` have been read, and `l` can still be edited. -/
structure Line (s : Shared) (R : Nat) (l : List UInt8) : Prop where
  r : s.input.r = .ofNat R
  w : s.input.w = .ofNat s.committed.length
  e : s.input.e = .ofNat (s.committed ++ l).length
  le : R ≤ s.committed.length
  room : (s.committed ++ l).length ≤ R + INPUT_BUF
  stored : Stored INPUT_BUF s.input.buf (s.committed ++ l) R
  marks : s.out.filterMap Out.mark = (s.committed.take R).map mark

def Call.Fair : Call → Prop
  | .keys _ => True
  | .read target n => n ≤ target

def Inv (s : Shared) (k : Option Call) : Prop := (∃ R l, Line s R l) ∧ ∀ c ∈ k, c.Fair

theorem input_buf_dvd : INPUT_BUF ∣ 2 ^ 32 := by decide

namespace Line

variable {s : Shared} {R : Nat} {l : List UInt8}

theorem length_lt (h : Line s R l) : (s.committed ++ l).length - R < 2 ^ 32 := by
  have := h.room
  simp only [INPUT_BUF] at this
  omega

theorem le_length (_ : Line s R l) : s.committed.length ≤ (s.committed ++ l).length := by simp

variable (h : Line s R l)

include h

theorem toNat_e : (s.input.e - s.input.r).toNat = (s.committed ++ l).length - R := by
  rw [h.r, h.e, toNat_sub (h.le.trans h.le_length) h.length_lt]

theorem toNat_w : (s.input.w - s.input.r).toNat = s.committed.length - R := by
  have := h.le_length
  have := h.length_lt
  rw [h.r, h.w, toNat_sub h.le (by omega)]

theorem unread : s.input.unread = s.committed.drop R := by
  have hle := h.le_length
  have hlt := h.length_lt
  rw [Inputbuf.unread, h.r, h.w, h.stored.span input_buf_dvd (Nat.le_refl _) h.le hle (by omega), take_left]

theorem pending : s.input.pending = l := by
  have hle := h.le
  have hlt := h.length_lt
  rw [Inputbuf.pending, h.w, h.e, h.stored.span input_buf_dvd h.le h.le_length (Nat.le_refl _) (by omega),
    take_length, drop_left]

theorem edited_iff : s.input.e = s.input.w ↔ l = [] := by
  have hle := h.le
  have hlt := h.length_lt
  rw [h.e, h.w, eq_comm, ofNat_eq_iff h.le_length (by omega)]
  simp

theorem empty_iff : s.input.r = s.input.w ↔ R = s.committed.length := by
  have hlt := h.length_lt
  have hle := h.le_length
  rw [h.r, h.w, ofNat_eq_iff h.le (by omega)]

/-! ### Editing -/

theorem back (hl : l ≠ []) : Line { s with input := { s.input with e := s.input.e - 1 } } R l.dropLast := { h with
  e := by
    have hpos := length_pos_iff.mpr hl
    have hlen : (s.committed ++ l).length - 1 = (s.committed ++ l.dropLast).length := by
      simp only [length_append, length_dropLast]
      omega
    rw [h.e, ofNat_pred (by rw [length_append]; omega), hlen]
  room := by have := h.room; simp only [length_append, length_dropLast] at this ⊢; omega
  stored := by
    have htake : s.committed ++ l.dropLast = (s.committed ++ l).take (s.committed.length + (l.length - 1)) := by
      rw [take_append, take_of_length_le (by omega), Nat.add_sub_cancel_left, dropLast_eq_take]
    simp only [htake]
    exact h.stored.take _ }

theorem backspace : ∃ l', Line { s with input := s.input.backspace } R l' := by
  unfold Inputbuf.backspace
  split
  · next hne => exact ⟨_, h.back (by rwa [Ne, h.edited_iff] at hne)⟩
  · exact ⟨l, h⟩

theorem killLine (n : Nat) : ∃ l', Line { s with input := s.input.killLine n } R l' := by
  induction n generalizing s l with
  | zero => exact ⟨l, h⟩
  | succ n ih =>
    unfold Inputbuf.killLine
    split
    · next hne =>
      have hl : l ≠ [] := by simpa only [ne_eq, h.edited_iff] using hne.1
      exact ih (h.back hl)
    · exact ⟨l, h⟩

theorem lt_of_room (hroom : s.input.e - s.input.r < .ofNat INPUT_BUF) : (s.committed ++ l).length < R + INPUT_BUF := by
  have hlt : (s.committed ++ l).length - R < INPUT_BUF := by
    rw [← h.toNat_e]
    exact UInt32.lt_iff_toNat_lt.mp hroom
  omega

theorem put (hroom : s.input.e - s.input.r < .ofNat INPUT_BUF) (c : UInt8) :
    Line { s with input := s.input.put c } R (l ++ [c]) := { h with
  e := by simp only [Inputbuf.put, h.e, ofNat_succ, ← append_assoc, length_append, length_singleton]
  room := by
    have hlt := h.lt_of_room hroom
    rw [← append_assoc, length_append, length_singleton]
    exact hlt
  stored := by
    simp only [Inputbuf.put, h.e, cell_ofNat input_buf_dvd, ← append_assoc]
    exact h.stored.push (h.lt_of_room hroom) c }

theorem commit : Line s.commit R [] where
  r := h.r
  w := by simp only [Shared.commit, h.pending, h.e]
  e := by simp only [Shared.commit, h.pending, h.e, append_nil]
  le := by simp only [Shared.commit, h.pending]; exact h.le.trans h.le_length
  room := by simp only [Shared.commit, h.pending, append_nil]; exact h.room
  stored := by simp only [Shared.commit, h.pending, append_nil]; exact h.stored
  marks := by simp only [Shared.commit, take_append_of_le_length h.le]; exact h.marks

theorem insert (c : UInt8) : ∃ l', Line (s.insert c) R l' := by
  unfold Shared.insert
  split
  · next hroom =>
    have hput := h.put hroom.2 (if c = CR then NL else c)
    generalize (if c = CR then NL else c) = c' at hput ⊢
    unfold Shared.store
    dsimp only
    split
    · exact ⟨[], hput.commit⟩
    · exact ⟨_, hput⟩
  · exact ⟨l, h⟩

theorem typed (listing : Bool) (c : UInt8) : ∃ l', Line (s.typed listing c) R l' := by
  unfold Shared.typed
  split
  · exact ⟨l, h⟩
  split
  · exact h.killLine _
  split
  · exact h.backspace
  · exact h.insert c

theorem key (k : Kind) (c : UInt8) : ∃ l', Line (k.key s c) R l' := by
  cases k with
  | mux => exact h.typed false c
  | _ => exact h.typed true c

end Line

theorem committed_insert (s : Shared) (c : UInt8) : s.committed <+: (s.insert c).committed := by
  unfold Shared.insert
  split
  · generalize (if c = CR then NL else c) = c'
    unfold Shared.store
    dsimp only
    split
    · exact prefix_append _ _
    · exact prefix_refl _
  · exact prefix_refl _

theorem committed_key (k : Kind) (s : Shared) (c : UInt8) : s.committed <+: (k.key s c).committed := by
  have htyped : ∀ listing, s.committed <+: (s.typed listing c).committed := by
    intro listing
    unfold Shared.typed
    split
    · exact prefix_refl _
    split
    · exact prefix_refl _
    split
    · exact prefix_refl _
    · exact committed_insert s c
  cases k with
  | mux => exact htyped false
  | _ => exact htyped true

/-! ## Reading -/

namespace Line

variable {s : Shared} {R : Nat} {l : List UInt8}

theorem ret (h : Line s R l) {size result} (hne : ¬(0 < size ∧ result = 0)) :
    Line { s with out := s.out ++ [.ret size result] } R l :=
  { h with marks := by simp [h.marks, Out.mark, hne] }

theorem next (h : Line s R l) (hne : s.input.r ≠ s.input.w) :
    ∃ hR : R < s.committed.length, s.input.buf (cell INPUT_BUF s.input.r) = s.committed[R] := by
  have hR : R < s.committed.length := by rw [Ne, h.empty_iff] at hne; have := h.le; omega
  have hle := h.le_length
  have hbyte := h.stored R (Nat.le_refl _) (by omega)
  refine ⟨hR, ?_⟩
  rw [h.r, cell_ofNat input_buf_dvd, hbyte, getElem_append_left hR]

theorem advance (h : Line s R l) (hR : R < s.committed.length) {o} (ho : o.mark = some (mark s.committed[R])) :
    Line { s with input := { s.input with r := s.input.r + 1 }, out := s.out ++ [o] } (R + 1) l := { h with
  r := by simp only [h.r, ofNat_succ]
  le := hR
  room := by have := h.room; dsimp only; omega
  stored := h.stored.mono (Nat.le_succ R)
  marks := by
    rw [take_succ_eq_append_getElem hR, filterMap_append, map_append, h.marks]
    simp [ho] }

theorem lineread (h : Line s R l) {killed target n} (hn : n ≤ target) :
    Inv (s.lineread killed target n).shared (s.lineread killed target n).next.holding := by
  have hnone : ∀ {s : Shared}, (∃ R l, Line s R l) → Inv s none := fun h => ⟨h, by simp⟩
  unfold Shared.lineread
  split
  · next hpos =>
    split
    · split
      · exact hnone ⟨R, l, h.ret (by simp)⟩
      · exact hnone ⟨R, l, h⟩
    next hne =>
    obtain ⟨hR, hbyte⟩ := h.next hne
    simp only [hbyte]
    split
    · next hD =>
      split
      · next hlt => exact hnone ⟨R, l, h.ret (by omega)⟩
      next hge =>
      obtain rfl : n = target := by omega
      exact hnone ⟨R + 1, l, h.advance hR (by simp [Out.mark, mark, hD, hpos])⟩
    next hD =>
    have hadv := h.advance hR (show (Out.byte s.committed[R]).mark = _ by simp [Out.mark, mark, hD])
    split
    · exact hnone ⟨R + 1, l, hadv.ret (by omega)⟩
    refine ⟨⟨R + 1, l, hadv⟩, ?_⟩
    rintro _ ⟨⟩
    simp only [Call.Fair]
    omega
  · next hle => exact hnone ⟨R, l, h.ret (by omega)⟩

end Line

theorem read_kept {k : Kind} {s : Shared} {b : Bool} {target n : Int} (h : Inv s (some (.read target n))) :
    Inv (k.read s b target n).shared (k.read s b target n).next.holding := by
  obtain ⟨⟨R, l, hline⟩, hfair⟩ := h
  cases k <;> exact hline.lineread (hfair _ rfl)

theorem sleep_fair {s : Shared} {b : Bool} {target n : Int} {ch : Chan} {c : Call} (hn : n ≤ target)
    (h : (s.lineread b target n).next = .sleep ch c) : c.Fair := by
  unfold Shared.lineread at h
  split at h
  · split at h
    · split at h <;> cases h
      exact hn
    dsimp only at h
    split at h
    · split at h <;> cases h
    · split at h <;> cases h
  · cases h

theorem code_kept (k : Kind) : Kept k.code Inv Call.Fair where
  entry s c hc := by
    cases c with
    | keys cs => trivial
    | read target n => simp only [Kind.code, beq_iff_eq] at hc; simp [Call.Fair, hc]
  acquire s c h hc := ⟨h.1, by rintro _ ⟨⟩; exact hc⟩
  turn s b c h := by
    cases c with
    | keys cs =>
      obtain ⟨⟨R, l, hline⟩, -⟩ := h
      cases cs with
      | nil => exact ⟨⟨R, l, hline⟩, by simp [Kind.code, Kind.turn, Next.holding]⟩
      | cons c cs =>
        obtain ⟨l', hline'⟩ := hline.key k c
        refine ⟨⟨R, l', hline'⟩, ?_⟩
        rintro _ ⟨⟩
        trivial
    | read target n => exact read_kept h
  sleep s b c ch c' h hs := by
    cases c with
    | keys cs => cases cs <;> cases hs
    | read target n => have hn : n ≤ target := h.2 _ rfl; cases k <;> exact sleep_fair hn hs

theorem inv_empty (buf : Nat → UInt8) : Inv (empty buf) none := by
  refine ⟨⟨0, [], ?_⟩, by simp⟩
  exact {
    r := rfl
    w := rfl
    e := rfl
    le := Nat.le_refl _
    room := by simp [empty]
    stored := fun k _ h => by simp [empty] at h
    marks := rfl }

/-! ## The discipline -/

def Mark.byte? : Mark → Option UInt8
  | .byte c => some c
  | .eof => none

theorem filterMap_byte (out : List Out) : (out.filterMap Out.mark).filterMap Mark.byte? = out.filterMap Out.byte? := by
  rw [filterMap_filterMap]
  congr 1
  funext o
  cases o with
  | byte c => rfl
  | ret size result =>
    simp only [Out.mark, Out.byte?]
    split <;> rfl

theorem count_eof (out : List Out) : (out.filterMap Out.mark).count .eof = out.countP Out.isZero := by
  induction out with
  | nil => rfl
  | cons o out ih =>
    cases o with
    | byte c => simpa [Out.mark, Out.isZero] using ih
    | ret size result =>
      by_cases h : 0 < size ∧ result = 0 <;> simp [Out.mark, Out.isZero, h, ih]

theorem map_mark_byte (l : List UInt8) : (l.map mark).filterMap Mark.byte? = l.filter (· ≠ C 'D') := by
  induction l with
  | nil => rfl
  | cons c l ih =>
    by_cases hc : c = C 'D'
    · simp only [map_cons, mark, hc, ↓reduceIte, filterMap_cons, Mark.byte?]; simpa using ih
    · simpa [mark, Mark.byte?, hc] using ih

theorem map_mark_eof (l : List UInt8) : (l.map mark).count .eof = l.count (C 'D') := by
  induction l with
  | nil => rfl
  | cons c l ih =>
    by_cases hc : c = C 'D'
    · simpa [mark, hc] using ih
    · simpa [mark, hc] using ih

theorem Line.disciplined {s R l} (h : Line s R l) (k : Kind) : Disciplined k s := by
  have horder : s.out.filterMap Out.mark ++ s.input.unread.map mark = s.committed.map mark := by
    rw [h.marks, h.unread, ← map_append, take_append_drop]
  have hle := h.le_length
  exact {
    commitPoint := by rw [h.toNat_w, h.toNat_e]; omega
    room := by have := h.room; rw [h.toNat_e]; omega
    editing := by
      intro c
      obtain ⟨l', hkey⟩ := h.key k c
      obtain ⟨new, hnew⟩ := committed_key k s c
      rw [h.unread, hkey.unread, ← hnew, drop_append_of_le_length h.le]
      exact prefix_append _ _
    delivered := by
      rw [← filterMap_byte, ← map_mark_byte, ← map_mark_byte, ← filterMap_append, horder]
    eofs := by rw [← count_eof, ← map_mark_eof, ← map_mark_eof, ← count_append, horder]
    order := horder }

/-- Whatever is typed and read, and however old the counters are. -/
theorem terminal_disciplined {ι : Type} [DecidableEq ι] (k : Kind) (buf : Nat → UInt8)
    {m : State ι Shared Call Chan} (h : Run (State.act k.code) (fun _ _ => True) (start ι (empty buf)) m) :
    Disciplined k m.shared := by
  have hgood := good_of_run (code_kept k) (inv_empty buf) h
  obtain ⟨R, l, hline⟩ := hgood.shared fun _ _ hJ => hJ.1
  exact hline.disciplined k

theorem terminal_disciplined_eof : ∃ m : State Bool Shared Call Chan,
      Run (State.act Kind.console.code) (fun _ _ => True) (start Bool (empty fun _ => 0)) m ∧
        m.shared.out.filterMap Out.mark = [.byte 97, .eof] ∧ Disciplined .console m.shared := by
  obtain ⟨m, hrun, hm⟩ : ∃ m : State Bool Shared Call Chan,
      Run (State.act Kind.console.code) (fun _ _ => True) (start Bool (empty fun _ => 0)) m ∧
        m.shared.out.filterMap Out.mark = [.byte 97, .eof] :=
    exists_run [.call false (.keys [97, 4]), .step false, .step false, .step false, .step false,
      .call true (.read 5 5), .step true, .step true, .step true,
      .call true (.read 5 5), .step true, .step true] (by decide +kernel)
  exact ⟨m, hrun, hm, terminal_disciplined _ _ hrun⟩

end Xv6Vsd.Term
