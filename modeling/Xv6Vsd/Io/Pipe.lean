import Xv6Vsd.Lib.Counter
import Xv6Vsd.Lib.Monitor

/-!
# Pipes (`pipe.c`)

Any number of processes in `pipewrite`, `piperead` and `pipeclose` of one pipe.
-/

namespace Xv6Vsd.Pipes

open Counter Monitor List

abbrev PIPESIZE : Nat := 512

structure Pipe where
  data : Nat → UInt8
  nread : UInt32
  nwrite : UInt32
  readopen : Bool
  writeopen : Bool

inductive Chan where
  | nread
  | nwrite
  deriving DecidableEq

inductive Call where
  | write (addr : Nat → UInt8) (n : Int) (i : Nat)
  | wait (n : Int)
  /-- the second loop of `piperead`, with the bytes that it has put into `addr` -/
  | copy (n : Int) (addr : List UInt8)
  | done (n : Int) (addr : List UInt8)
  | close (writable : Bool)

/-- The pipe, with the bytes that the writes have stored in it and those that the reads have returned. -/
structure Shared where
  pipe : Pipe
  stored : List UInt8
  returned : List UInt8

namespace Shared

def pipewrite (s : Shared) (killed : Bool) (addr : Nat → UInt8) (n : Int) (i : Nat) : Turn Shared Call Chan :=
  if i < n then
    if s.pipe.nwrite = s.pipe.nread + .ofNat PIPESIZE then
      if !s.pipe.readopen || killed then { shared := s, next := .leave }
      else { shared := s, wakes := [.nread], next := .sleep .nwrite (.write addr n i) }
    else
      { shared := { s with
          pipe := { s.pipe with
              data := Function.update s.pipe.data (cell PIPESIZE s.pipe.nwrite) (addr i)
              nwrite := s.pipe.nwrite + 1 }
          stored := s.stored ++ [addr i] }
        next := .go (.write addr n (i + 1)) }
  else { shared := s, wakes := [.nread], next := .leave }

def piperead (s : Shared) (killed : Bool) (n : Int) : Turn Shared Call Chan :=
  if s.pipe.nread = s.pipe.nwrite ∧ s.pipe.writeopen then
    if killed then { shared := s, next := .leave }
    else { shared := s, next := .sleep .nread (.wait n) }
  else { shared := s, next := .go (.copy n []) }

def pipecopy (s : Shared) (n : Int) (addr : List UInt8) : Turn Shared Call Chan := if addr.length < n then
    if s.pipe.nread = s.pipe.nwrite then { shared := s, wakes := [.nwrite], next := .go (.done n addr) }
    else
      { shared := { s with pipe := { s.pipe with nread := s.pipe.nread + 1 } }
        next := .go (.copy n (addr ++ [s.pipe.data (cell PIPESIZE s.pipe.nread)])) }
  else { shared := s, wakes := [.nwrite], next := .go (.done n addr) }

def pipeclose (s : Shared) (writable : Bool) : Turn Shared Call Chan := if writable then
    { shared := { s with pipe := { s.pipe with writeopen := false } }, wakes := [.nread], next := .leave }
  else { shared := { s with pipe := { s.pipe with readopen := false } }, wakes := [.nwrite], next := .leave }

def turn (s : Shared) (killed : Bool) : Call → Turn Shared Call Chan
  | .write addr n i => s.pipewrite killed addr n i
  | .wait n => s.piperead killed n
  | .copy n addr => s.pipecopy n addr
  | .done _ addr => { shared := { s with returned := s.returned ++ addr }, next := .leave }
  | .close writable => s.pipeclose writable

end Shared

def code : Code Shared Call Chan where
  entry _
    | .write _ _ i => i == 0
    | .wait _ => true
    | .copy _ _ | .done _ _ => false
    | .close _ => true
  turn := Shared.turn

def pipealloc (data : Nat → UInt8) : Shared where
  pipe := { data := data, nread := 0, nwrite := 0, readopen := true, writeopen := true }
  stored := []
  returned := []

def Pipe.contents (p : Pipe) : List UInt8 := span PIPESIZE p.data p.nread p.nwrite

def Call.inHand : Call → List UInt8
  | .copy _ addr | .done _ addr => addr
  | _ => []

def inHand {ι : Type} (s : State ι Shared Call Chan) : List UInt8 := match s.lock with
  | none => []
  | some i =>
    match s.pc i with
    | .inside k => k.inHand
    | _ => []

/-- What the reads return is a beginning of what the writes stored; the rest is in the hands of a
read or in the buffer. -/
structure Fifo {ι : Type} (s : State ι Shared Call Chan) : Prop where
  order : s.shared.returned <+: s.shared.stored
  rest : s.shared.returned ++ inHand s ++ s.shared.pipe.contents = s.shared.stored
  room : (s.shared.pipe.nwrite - s.shared.pipe.nread).toNat ≤ PIPESIZE
  eof : ∀ i n addr, s.pc i = .inside (.done n addr) → addr.length = 0 →
    n ≤ 0 ∨ (s.shared.pipe.nread = s.shared.pipe.nwrite ∧ s.shared.pipe.writeopen = false)

/-! ## The invariant -/

def Call.Fair (p : Pipe) : Call → Prop
  | .copy _ addr => addr.length = 0 → p.nread = p.nwrite → p.writeopen = false
  | .done n addr => addr.length = 0 → n ≤ 0 ∨ (p.nread = p.nwrite ∧ p.writeopen = false)
  | _ => True

structure Queue (s : Shared) (out : List UInt8) : Prop where
  order : out <+: s.stored
  nread : s.pipe.nread = .ofNat out.length
  nwrite : s.pipe.nwrite = .ofNat s.stored.length
  room : s.stored.length ≤ out.length + PIPESIZE
  stored : Stored PIPESIZE s.pipe.data s.stored out.length

def Inv (s : Shared) : Option Call → Prop
  | none => Queue s s.returned
  | some k => Queue s (s.returned ++ k.inHand) ∧ k.Fair s.pipe

variable {s : Shared} {out : List UInt8}

theorem pipesize_dvd : PIPESIZE ∣ 2 ^ 32 := by decide

variable (h : Queue s out)

include h

theorem Queue.empty_iff : s.pipe.nread = s.pipe.nwrite ↔ out.length = s.stored.length := by
  have hroom := h.room
  rw [h.nread, h.nwrite, ofNat_eq_iff h.order.length_le (by simp only [PIPESIZE] at hroom; omega)]

theorem Queue.full_iff : s.pipe.nwrite = s.pipe.nread + .ofNat PIPESIZE ↔ s.stored.length = out.length + PIPESIZE := by
  have hle := h.order.length_le
  have hroom := h.room
  rw [h.nread, h.nwrite, ← UInt32.ofNat_add, ofNat_eq_iff hroom (by simp only [PIPESIZE] at hroom ⊢; omega)]

theorem Queue.contents : out ++ s.pipe.contents = s.stored := by
  have hroom := h.room
  have hlt : s.stored.length - out.length < 2 ^ 32 := by simp only [PIPESIZE] at hroom; omega
  rw [Pipe.contents, h.nread, h.nwrite, h.stored.span pipesize_dvd (Nat.le_refl _) h.order.length_le
    (Nat.le_refl _) hlt,
    take_length]
  exact prefix_iff_eq_append.mp h.order

theorem Queue.toNat_le : (s.pipe.nwrite - s.pipe.nread).toNat ≤ PIPESIZE := by
  have hroom := h.room
  rw [h.nread, h.nwrite, toNat_sub h.order.length_le (by simp only [PIPESIZE] at hroom; omega)]
  omega

theorem Queue.store (hfull : s.stored.length ≠ out.length + PIPESIZE) (b : UInt8) : Queue { s with
        pipe := { s.pipe with
            data := Function.update s.pipe.data (cell PIPESIZE s.pipe.nwrite) b
            nwrite := s.pipe.nwrite + 1 }
        stored := s.stored ++ [b] } out where
  order := h.order.trans (prefix_append _ _)
  nread := h.nread
  nwrite := by simp only [h.nwrite, ofNat_succ, length_append, length_singleton]
  room := by have hroom := h.room; simp only [length_append, length_singleton]; omega
  stored := by
    have hroom := h.room
    simp only [h.nwrite, cell_ofNat pipesize_dvd]
    exact h.stored.push (by omega) b

theorem Queue.take (hne : out.length ≠ s.stored.length) :
    Queue { s with pipe := { s.pipe with nread := s.pipe.nread + 1 } }
      (out ++ [s.pipe.data (cell PIPESIZE s.pipe.nread)]) where
  order := by
    have hle := h.order.length_le
    have hlt : out.length < s.stored.length := by omega
    have hbyte := h.stored out.length (Nat.le_refl _) hlt
    rw [h.nread, cell_ofNat pipesize_dvd, hbyte]
    obtain ⟨rest, hrest⟩ := h.order
    cases rest with
    | nil => rw [append_nil] at hrest; exact absurd (congrArg length hrest) hne
    | cons b rest =>
      simp only [← hrest, getElem_append_right (Nat.le_refl _), Nat.sub_self, getElem_cons_zero]
      exact ⟨rest, by simp⟩
  nread := by simp only [h.nread, ofNat_succ, length_append, length_singleton]
  nwrite := h.nwrite
  room := by have hroom := h.room; simp only [length_append, length_singleton]; omega
  stored := h.stored.mono (by simp)

omit h

/-! ## The turns -/

theorem pipewrite_kept {killed addr n i} (h : Queue s s.returned) :
    Inv (s.pipewrite killed addr n i).shared (s.pipewrite killed addr n i).next.holding := by
  unfold Shared.pipewrite
  split
  · split
    · split
      · exact h
      · exact h
    next hfull =>
    rw [h.full_iff] at hfull
    refine ⟨?_, trivial⟩
    simp only [Call.inHand, append_nil]
    exact h.store hfull _
  · exact h

theorem piperead_kept {killed n} (h : Queue s s.returned) :
    Inv (s.piperead killed n).shared (s.piperead killed n).next.holding := by
  unfold Shared.piperead
  split
  · split
    · exact h
    · exact h
  next hwait =>
  simp only [not_and, Bool.not_eq_true] at hwait
  refine ⟨?_, fun _ => hwait⟩
  simpa only [Call.inHand, append_nil] using h

theorem pipecopy_kept {n addr} (h : Inv s (some (.copy n addr))) :
    Inv (s.pipecopy n addr).shared (s.pipecopy n addr).next.holding := by
  obtain ⟨hqueue, hfair⟩ := h
  unfold Shared.pipecopy
  split
  · split
    · next hempty => exact ⟨hqueue, fun h0 => .inr ⟨hempty, hfair h0 hempty⟩⟩
    next hne =>
    rw [hqueue.empty_iff] at hne
    refine ⟨?_, fun h0 => by simp at h0⟩
    simp only [Call.inHand, ← append_assoc]
    exact hqueue.take hne
  · next hn =>
    refine ⟨hqueue, fun h0 => .inl ?_⟩
    simpa [h0] using hn

theorem pipeclose_kept {writable} (h : Queue s s.returned) :
    Inv (s.pipeclose writable).shared (s.pipeclose writable).next.holding := by
  unfold Shared.pipeclose
  split
  · exact { h with }
  · exact { h with }

def Call.Empty (k : Call) : Prop := k.inHand = [] ∧ ∀ p, k.Fair p

theorem code_kept : Kept code Inv Call.Empty where
  entry s k hk := by
    cases k with
    | copy n addr | done n addr => cases hk
    | _ => exact ⟨rfl, fun _ => trivial⟩
  acquire s k h hk := by
    have hq : Queue s s.returned := h
    exact ⟨by rwa [hk.1, append_nil], hk.2 _⟩
  turn s b k h := by
    cases k with
    | write addr n i => exact pipewrite_kept (by simpa only [Call.inHand, append_nil] using h.1)
    | wait n => exact piperead_kept (by simpa only [Call.inHand, append_nil] using h.1)
    | copy n addr => exact pipecopy_kept h
    | done n addr => obtain ⟨hq, -⟩ := h; exact { hq with }
    | close writable => exact pipeclose_kept (by simpa only [Call.inHand, append_nil] using h.1)
  sleep s b k ch k' h hs := by
    cases k with
    | write addr n i =>
      simp only [code, Shared.turn, Shared.pipewrite] at hs
      split at hs
      · split at hs
        · split at hs <;> cases hs
          exact ⟨rfl, fun _ => trivial⟩
        · cases hs
      · cases hs
    | wait n =>
      simp only [code, Shared.turn, Shared.piperead] at hs
      split at hs
      · split at hs <;> cases hs
        exact ⟨rfl, fun _ => trivial⟩
      · cases hs
    | copy n addr =>
      simp only [code, Shared.turn, Shared.pipecopy] at hs
      split at hs
      · split at hs <;> cases hs
      · cases hs
    | done n addr => cases hs
    | close writable =>
      simp only [code, Shared.turn, Shared.pipeclose] at hs
      split at hs <;> cases hs

theorem inv_pipealloc (data : Nat → UInt8) : Inv (pipealloc data) none where
  order := prefix_refl _
  nread := rfl
  nwrite := rfl
  room := by simp [pipealloc]
  stored k _ h := by simp [pipealloc] at h

variable {ι : Type} {m : State ι Shared Call Chan}

theorem Good.queue (h : Good Inv Call.Empty m) : Queue m.shared (m.shared.returned ++ inHand m) := by
  cases hl : m.lock with
  | none =>
    have hq : Queue m.shared m.shared.returned := h.free hl
    simpa only [inHand, hl, append_nil] using hq
  | some i => obtain ⟨k, hk, hq, -⟩ := h.held i hl; simpa only [inHand, hl, hk] using hq

/-- A pipe is a queue whatever the age of its counters: in any interleaving of writes, reads and closes. -/
theorem pipe_fifo [DecidableEq ι] (data : Nat → UInt8)
    (h : Run (State.act code) (fun _ _ => True) (start ι (pipealloc data)) m) : Fifo m := by
  have hgood := good_of_run code_kept (inv_pipealloc data) h
  have hqueue := Good.queue hgood
  exact {
    order := (prefix_append _ _).trans hqueue.order
    rest := hqueue.contents
    room := hqueue.toNat_le
    eof := fun i n addr hi => (hgood.frame hi).2 }

theorem pipe_fifo_two : ∃ m : State Bool Shared Call Chan,
      Run (State.act code) (fun _ _ => True) (start Bool (pipealloc fun _ => 0)) m ∧ m.shared.returned = [7, 8] ∧
        Fifo m := by
  obtain ⟨m, hrun, hm⟩ : ∃ m : State Bool Shared Call Chan,
      Run (State.act code) (fun _ _ => True) (start Bool (pipealloc fun _ => 0)) m ∧ m.shared.returned = [7, 8] :=
    exists_run [.call true (.wait 5), .step true, .step true,
      .call false (.write (fun i => if i = 0 then 7 else 8) 2 0), .step false, .step false, .step false, .step false,
      .step true, .step true, .step true, .step true, .step true, .step true] (by decide +kernel)
  exact ⟨m, hrun, hm, pipe_fifo _ hrun⟩

end Xv6Vsd.Pipes
