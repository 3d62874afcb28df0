import Mathlib.Data.List.Basic

/-!
# Input of the terminal multiplexer (`mux.c`)

The bytes at the serial port, the frame in progress, the buffered frames and the calls of `writeline`. The locks are
left
out.
-/

namespace Xv6Vsd.Mux

abbrev MUXBUFMAX : Nat := 64

structure Muxbuf where
  filled : UInt8
  header : UInt8
  data : UInt8
  deriving DecidableEq

structure State where
  mux : Bool
  port : List UInt8
  cur : Muxbuf
  muxbuf : Nat → Muxbuf
  muxbufi : Nat
  /-- the line and the character of each call of `writeline` -/
  written : List (UInt8 × UInt8)

namespace State

def muxgetc (s : State) : Int × State :=
  if !s.mux then (-1, s)
  else match s.port with
    | [] => (-1, s)
    | c :: port => (c.toNat, { s with port := port })

def process (s : State) (bf : Muxbuf) : State :=
  if bf.header &&& 0x0f = 0xd then { s with written := s.written ++ [((bf.header &&& 0xf0) >>> 4, bf.data)] } else s

def mbprocess (s : State) : State :=
  { (List.range s.muxbufi).foldl (fun s i => s.process (s.muxbuf i)) s with muxbufi := 0 }

def take (s : State) (c : UInt8) : State :=
  match s.cur.filled with
  | 0 => { s with cur := { s.cur with header := c, filled := s.cur.filled + 1 } }
  | 1 =>
    let cur := { s.cur with data := c, filled := s.cur.filled + 2 }
    let s := { s with
      muxbuf := fun i => if i = s.muxbufi then cur else s.muxbuf i, muxbufi := s.muxbufi + 1, cur := ⟨0, 0, 0⟩ }
    if s.muxbufi ≥ MUXBUFMAX then s.mbprocess else s
  | _ => s

/-- `while((c = muxgetc()) != -1)`, of which `fuel` turns are allowed. What is compared is the `uchar`. -/
def drain : Nat → State → Option State
  | 0, _ => none
  | fuel + 1, s =>
    let (r, s) := s.muxgetc
    let c := UInt8.ofInt r
    if (c.toNat : Int) ≠ -1 then drain fuel (s.take c) else some s

def muxintr (fuel : Nat) (s : State) : Option State :=
  if !s.mux then some s
  else (s.drain fuel).map fun s => if s.muxbufi > 0 then s.mbprocess else s

def interrupts (fuel : Nat) (s : State) : List (List UInt8) → Option State
  | [] => some s
  | bytes :: chunks => ({ s with port := s.port ++ bytes }.muxintr fuel).bind fun s => s.interrupts fuel chunks

end State

def start (mux : Bool) : State := ⟨mux, [], ⟨0, 0, 0⟩, fun _ => ⟨0, 0, 0⟩, 0, []⟩

def dataFrames : List UInt8 → List (UInt8 × UInt8)
  | header :: data :: bytes =>
    if header &&& 0x0f = 0xd then (header >>> 4, data) :: dataFrames bytes else dataFrames bytes
  | _ => []

/-- Every interrupt returns with the port empty, and the data frames have been written. -/
def Demultiplexes (mux : Bool) (chunks : List (List UInt8)) : Prop :=
  ∃ fuel s, (start mux).interrupts fuel chunks = some s ∧ s.port = [] ∧ s.written = dataFrames chunks.flatten

theorem drain_none (fuel : Nat) (s : State) : s.drain fuel = none := by
  induction fuel generalizing s with
  | zero => rfl
  | succ fuel ih =>
    have hne : ((UInt8.ofInt s.muxgetc.1).toNat : Int) ≠ -1 := by omega
    simp only [State.drain, hne, ne_eq, not_false_eq_true, if_true]
    exact ih _

theorem interrupts_off {s : State} (hoff : s.mux = false) (fuel : Nat) (chunks : List (List UInt8)) :
    s.interrupts fuel chunks = some { s with port := s.port ++ chunks.flatten } := by
  induction chunks generalizing s with
  | nil => simp [State.interrupts]
  | cons bytes chunks ih => simp [State.interrupts, State.muxintr, hoff, ih]

theorem muxintr_demultiplexes_iff (mux : Bool) (chunks : List (List UInt8)) :
    Demultiplexes mux chunks ↔ chunks = [] ∨ mux = false ∧ chunks.flatten = [] := by
  cases mux with
  | false =>
    constructor
    · rintro ⟨fuel, s, hrun, hport, -⟩
      rw [interrupts_off rfl] at hrun
      cases hrun
      exact .inr ⟨rfl, hport⟩
    intro h
    have hnone : chunks.flatten = [] := by
      obtain rfl | ⟨-, h⟩ := h
      · rfl
      · exact h
    refine ⟨0, _, interrupts_off rfl 0 chunks, hnone, ?_⟩
    rw [hnone]
    rfl
  | true =>
    cases chunks with
    | nil => exact iff_of_true ⟨0, _, rfl, rfl, rfl⟩ (.inl rfl)
    | cons bytes chunks =>
      refine iff_of_false ?_ (by simp)
      rintro ⟨fuel, s, hrun, -⟩
      simp [State.interrupts, State.muxintr, start, drain_none] at hrun

/-- The data frame of an `A` for line 2 arrives. -/
theorem muxintr_hangs :
    (∀ fuel, { start true with port := [0x2d, 65] }.muxintr fuel = none) ∧ ¬Demultiplexes true [[0x2d, 65]] := by
  constructor
  · intro fuel
    simp [State.muxintr, start, drain_none]
  · rintro ⟨fuel, s, hrun, -⟩
    simp [State.interrupts, State.muxintr, start, drain_none] at hrun

end Xv6Vsd.Mux
