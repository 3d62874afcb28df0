import Xv6Vsd.Bio.Model

/-! # The steps of a process, case by case -/

namespace Xv6Vsd.Bio

variable {s s' : State} {b c : Buf} {p q i : Nat}

open Function State List

/-! ## Fields after a step -/

namespace State

variable (s) (rest : List Instr)

theorem got_buf : (s.got p b rest).buf = update s.buf b { s.buf b with busy := true } := rfl

theorem got_proc : (s.got p b rest).proc = update s.proc p { s.proc p with
      holds := b :: (s.proc p).holds, code := if (s.buf b).valid then rest else .iderw b :: rest } := by
  simp [got, setProc, modBuf]

theorem recycled_buf (key : Key) : (s.recycled p b key rest).buf =
    update s.buf b { s.buf b with key := key, busy := true, valid := false, dirty := false } := by
  simp [recycled, got_buf, modBuf]

theorem recycled_proc (key : Key) : (s.recycled p b key rest).proc =
    update s.proc p { s.proc p with holds := b :: (s.proc p).holds, code := .iderw b :: rest } := by
  simp [recycled, got_proc, modBuf]

theorem appended_buf : (s.appended p b rest).buf = update s.buf b { s.buf b with dirty := true } := rfl

theorem appended_log : (s.appended p b rest).log = update s.log (s.buf b).key.dev { s.log (s.buf b).key.dev with
      lh := if (s.buf b).key.blockno ∈ (s.log (s.buf b).key.dev).lh then (s.log (s.buf b).key.dev).lh
        else (s.log (s.buf b).key.dev).lh ++ [(s.buf b).key.blockno] } := rfl

theorem endCommit_notMem_body {dev dev'} (f : Fn) : .endCommit dev ∉ s.body dev' f := by
  cases f with
  | writeHead => simp [body]
  | commit | writeLog | installTrans =>
    rw [body]
    split <;> simp

theorem written_buf (w : Writer) : (s.written p b w rest).buf = update s.buf b { s.buf b with dirty := true } := by
  unfold written
  split <;> rfl

theorem written_proc (w : Writer) :
    (s.written p b w rest).proc = update s.proc p { s.proc p with code := .iderw b :: rest } := by
  unfold written
  split <;> rfl

theorem written_log (w : Writer) : (s.written p b w rest).log = s.log := by
  unfold written
  split <;> rfl

theorem released_buf : (s.released p i b rest).buf = update s.buf b { s.buf b with busy := false } := rfl

theorem released_proc (q : Nat) : (s.released p i b rest).proc q =
    let x := if q = p then { s.proc p with holds := (s.proc p).holds.eraseIdx i, code := rest } else s.proc q
    if x.asleep = some b then { x with asleep := none } else x := by
  simp only [released, wakeup, setProc, update_apply]
  rfl

theorem served_buf (queue : List Buf) : (s.served b queue).buf = update s.buf b { s.buf b with
      data := if (s.buf b).dirty then (s.buf b).data else s.disk (s.buf b).key, valid := true, dirty := false } := by
  unfold served
  split <;> simp [modBuf, wakeup]

theorem served_proc (queue : List Buf) (q : Nat) : (s.served b queue).proc q =
    if (s.proc q).asleep = some b then { s.proc q with asleep := none } else s.proc q := by
  unfold served
  split <;> rfl

theorem served_log (queue : List Buf) : (s.served b queue).log = s.log := by
  unfold served
  split <;> rfl

variable {s}

end State

/-! ## `bget` -/

def Full (s : State) : Prop := ∀ b, b ∈ s.forward

variable {key : Key}

theorem scan_hit (h : s.scan key = .hit b) : (s.buf b).key = key ∧ (s.buf b).busy = false := by
  unfold scan at h
  split at h
  · rename_i c hc
    split at h <;> cases h
    next hbusy => exact ⟨by simpa using find?_some hc, by simpa using hbusy⟩
  · split at h <;> cases h

theorem scan_wait (h : s.scan key = .wait b) : (s.buf b).key = key ∧ (s.buf b).busy = true := by
  unfold scan at h
  split at h
  · rename_i c hc
    split at h <;> cases h
    next hbusy => exact ⟨by simpa using find?_some hc, hbusy⟩
  · split at h <;> cases h

theorem scan_recycle (hl : Full s) (h : s.scan key = .recycle b) :
    (∀ c, (s.buf c).key ≠ key) ∧ (s.buf b).busy = false ∧ (s.buf b).dirty = false := by
  unfold scan at h
  split at h
  · split at h <;> cases h
  next hno =>
  split at h <;> cases h
  next c hc =>
      refine ⟨fun c => ?_, by simpa using find?_some hc⟩
      simpa using find?_eq_none.mp hno c (hl c)

theorem scan_full (hl : ∀ b, b ∈ s.backward) (h : s.scan key = .full) (b : Buf) :
    (s.buf b).busy = true ∨ (s.buf b).dirty = true := by
  unfold scan at h
  split at h
  · split at h <;> cases h
  split at h
  · cases h
  · next hno => have := find?_eq_none.mp hno b (hl b); cases hb : (s.buf b).busy <;> simp_all

/-! ## `go` -/

inductive Goes (s : State) (p : Nat) : State → Prop
  | hit {key rest b} (code : (s.proc p).code = .bread key :: rest)
    (named : (s.buf b).key = key) (free : (s.buf b).busy = false) : Goes s p (s.got p b rest)
  | sleep {key rest b} (code : (s.proc p).code = .bread key :: rest)
    (named : (s.buf b).key = key) (busy : (s.buf b).busy = true) :
    Goes s p (s.setProc p { s.proc p with asleep := some b })
  | recycle {key rest b} (code : (s.proc p).code = .bread key :: rest)
    (new : ∀ c, (s.buf c).key ≠ key) (free : (s.buf b).busy = false) (clean : (s.buf b).dirty = false) :
    Goes s p (s.recycled p b key rest)
  | iderw {b rest} (code : (s.proc p).code = .iderw b :: rest)
    (todo : (s.buf b).valid = true → (s.buf b).dirty = true) :
    Goes s p { s.goOn p (.await b :: rest) with idequeue := s.idequeue ++ [b] }
  | await {b rest} (code : (s.proc p).code = .await b :: rest) (valid : (s.buf b).valid = true)
    (clean : (s.buf b).dirty = false) : Goes s p (s.goOn p rest)
  | store {i v rest b} (code : (s.proc p).code = .store i v :: rest) (at_i : (s.proc p).holds[i]? = some b) :
    Goes s p ((s.modBuf b fun y => { y with data := v }).goOn p rest)
  | unlogged {i rest b} (code : (s.proc p).code = .logWrite i :: rest)
    (at_i : (s.proc p).holds[i]? = some b) (size : (s.log (s.buf b).key.dev).size = 0) :
    Goes s p (s.goOn p (.bwrite i .process :: rest))
  | logWrite {i rest b} (code : (s.proc p).code = .logWrite i :: rest)
    (at_i : (s.proc p).holds[i]? = some b) (size : (s.log (s.buf b).key.dev).size ≠ 0) :
    Goes s p (s.goOn p (.logAppend i :: rest))
  | logAppend {i rest b} (code : (s.proc p).code = .logAppend i :: rest) (at_i : (s.proc p).holds[i]? = some b) :
    Goes s p (s.appended p b rest)
  | bwrite {i w rest b} (code : (s.proc p).code = .bwrite i w :: rest) (at_i : (s.proc p).holds[i]? = some b) :
    Goes s p (s.written p b w rest)
  | brelse {i rest b} (code : (s.proc p).code = .brelse i :: rest) (at_i : (s.proc p).holds[i]? = some b) :
    Goes s p (s.released p i b rest)
  | noBegin {dev rest} (code : (s.proc p).code = .beginOp dev :: rest) (size : (s.log dev).size = 0) :
    Goes s p (s.goOn p rest)
  | beginOp {dev rest} (code : (s.proc p).code = .beginOp dev :: rest)
    (size : (s.log dev).size ≠ 0) (open_ : (s.log dev).committing = false)
    (admitted : ((s.log dev).lh.length : Int) + ((s.log dev).outstanding + 1) * maxopblocks ≤ logsize) :
    Goes s p ((s.modLog dev fun l => { l with outstanding := l.outstanding + 1 }).setProc p
      { s.proc p with code := rest, op := some dev, used := ∅ })
  | noEnd {dev rest} (code : (s.proc p).code = .endOp dev :: rest) (size : (s.log dev).size = 0) :
    Goes s p (s.goOn p rest)
  | endLast {dev rest} (code : (s.proc p).code = .endOp dev :: rest)
    (size : (s.log dev).size ≠ 0) (open_ : (s.log dev).committing = false) (last : (s.log dev).outstanding = 1) :
    Goes s p ((s.modLog dev fun l => { l with outstanding := l.outstanding - 1, committing := true }).setProc p
      { s.proc p with code := .enter .commit dev :: .endCommit dev :: rest, op := none, used := ∅ })
  | endOp {dev rest} (code : (s.proc p).code = .endOp dev :: rest)
    (size : (s.log dev).size ≠ 0) (open_ : (s.log dev).committing = false) (more : (s.log dev).outstanding ≠ 1) :
    Goes s p ((s.modLog dev fun l => { l with outstanding := l.outstanding - 1 }).setProc p
      { s.proc p with code := rest, op := none, used := ∅ })
  | enter {f dev rest} (code : (s.proc p).code = .enter f dev :: rest) :
    Goes s p (s.goOn p (s.body dev f ++ rest))
  | copy {dst src rest b c} (code : (s.proc p).code = .copy dst src :: rest)
    (at_dst : (s.proc p).holds[dst]? = some b) (at_src : (s.proc p).holds[src]? = some c) :
    Goes s p ((s.modBuf b fun y => { y with data := (s.buf c).data }).goOn p rest)
  | header {dev rest b} (code : (s.proc p).code = .header dev :: rest) (at_0 : (s.proc p).holds[0]? = some b) :
    Goes s p ((s.modBuf b fun y => { y with data := y.data.setHeader (s.log dev).lh }).goOn p rest)
  | clear {dev rest} (code : (s.proc p).code = .clear dev :: rest) :
    Goes s p ((s.modLog dev fun l => { l with lh := [] }).goOn p rest)
  | endCommit {dev rest} (code : (s.proc p).code = .endCommit dev :: rest) :
    Goes s p ((s.modLog dev fun l => { l with committing := false }).goOn p rest)

section Inversion

variable {rest : List Instr} (h : Goes s p s')
include h

theorem Goes.bwrite_inv {w} (hcode : (s.proc p).code = .bwrite i w :: rest) :
    ∃ b, (s.proc p).holds[i]? = some b ∧ s' = s.written p b w rest := by
  cases h with
  | bwrite code at_i => rw [hcode] at code; cases code; exact ⟨_, at_i, rfl⟩
  | _ => simp_all

theorem Goes.logAppend_inv (hcode : (s.proc p).code = .logAppend i :: rest) :
    ∃ b, (s.proc p).holds[i]? = some b ∧ s' = s.appended p b rest := by
  cases h with
  | logAppend code at_i => rw [hcode] at code; cases code; exact ⟨_, at_i, rfl⟩
  | _ => simp_all

theorem Goes.endCommit_inv {dev} (hcode : (s.proc p).code = .endCommit dev :: rest) :
    s' = (s.modLog dev fun l => { l with committing := false }).goOn p rest := by
  cases h with
  | endCommit code => rw [hcode] at code; cases code; rfl
  | _ => simp_all

end Inversion

theorem go_goes (hl : Full s) (h : s.go p = .ok () s') : (s.proc p).asleep = none ∧ Goes s p s' := by
  unfold go at h
  dsimp only at h
  split at h
  · cases h
  next hasleep =>
  refine ⟨by simpa using hasleep, ?_⟩
  split at h
  · cases h
  · rename_i key rest hcode
    split at h <;> cases h
    · next hs => exact .hit hcode (scan_hit hs).1 (scan_hit hs).2
    · next hs => exact .sleep hcode (scan_wait hs).1 (scan_wait hs).2
    rename_i hs
    obtain ⟨hnew, hfree, hclean⟩ := scan_recycle hl hs
    exact .recycle hcode hnew hfree hclean
  · rename_i hcode
    split at h
    · cases h
    · split at h <;> cases h
      next htodo => exact .iderw hcode (by simpa using htodo)
  · rename_i hcode
    split at h <;> cases h
    next hdone =>
      simp only [Bool.and_eq_true, Bool.not_eq_true'] at hdone
      exact .await hcode hdone.1 hdone.2
  · rename_i hcode
    split at h <;> cases h
    next hi => exact .store hcode hi
  · rename_i hcode
    split at h
    · cases h
    next hi =>
    split at h
    · next hsize => cases h; exact .unlogged hcode hi hsize
    next hsize =>
    split at h
    · cases h
    · split at h <;> cases h
      exact .logWrite hcode hi hsize
  · rename_i hcode
    split at h <;> cases h
    next hi => exact .logAppend hcode hi
  · rename_i hcode
    split at h
    · cases h
    rename_i hi
    split at h <;> cases h
    exact .bwrite hcode hi
  · rename_i hcode
    split at h
    · cases h
    rename_i hi
    split at h <;> cases h
    exact .brelse hcode hi
  · rename_i hcode
    split at h
    · next hsize => cases h; exact .noBegin hcode hsize
    next hsize =>
    split at h
    · cases h
    rename_i hopen
    split at h <;> cases h
    next hadm => exact .beginOp hcode hsize (by simpa using hopen) (by simpa using hadm)
  · rename_i hcode
    split at h
    · next hsize => cases h; exact .noEnd hcode hsize
    next hsize =>
    split at h
    · cases h
    next hopen =>
    split at h <;> cases h
    · next hlast => exact .endLast hcode hsize (by simpa using hopen) (by omega)
    · next hmore => exact .endOp hcode hsize (by simpa using hopen) (by omega)
  · next hcode => cases h; exact .enter hcode
  · rename_i hcode
    split at h <;> cases h
    next hdst hsrc => exact .copy hcode hdst hsrc
  · rename_i hcode
    split at h <;> cases h
    next hi => exact .header hcode hi
  · next hcode => cases h; exact .clear hcode
  · next hcode => cases h; exact .endCommit hcode

theorem go_full (h : s.go p = .panic "bget: no buffers") :
    ∃ key rest, (s.proc p).code = .bread key :: rest ∧ s.scan key = .full := by
  unfold go at h
  dsimp only at h
  split at h
  · cases h
  split at h
  case h_2 key rest hcode =>
    split at h
    case h_4 hfull => exact ⟨key, rest, hcode, hfull⟩
    all_goals cases h
  all_goals
    repeat' split at h
    all_goals simp at h

inductive Acts (s : State) : Act → State → Prop
  | call {p : Nat} {c : Call} (idle : (s.proc p).code = []) : Acts s (.call p c) (s.goOn p c.code)
  | go {p : Nat} {s' : State} (awake : (s.proc p).asleep = none) (goes : Goes s p s') : Acts s (.go p) s'
  | intr {b queue} (first : s.idequeue = b :: queue) : Acts s .intr (s.served b queue)

theorem act_acts {a} (hl : Full s) (h : s.act a = .ok () s') : Acts s a s' := by
  cases a with
  | call p c =>
    unfold act at h
    dsimp only at h
    split at h <;> cases h
    next hidle => exact .call hidle
  | go p => obtain ⟨hawake, hgoes⟩ := go_goes hl h; exact .go hawake hgoes
  | intr =>
    unfold act ideintr at h
    dsimp only at h
    split at h <;> cases h
    next hfirst => exact .intr hfirst

/-! ## Runs from a fixed state -/

def plays (ok : State → Act → Bool) (P : State → Bool) : List Act → State → Bool
  | [], s => P s
  | a :: as, s =>
    ok s a &&
      match s.act a with
      | .ok _ s => plays ok P as s
      | _ => false

theorem plays_reachable {good} [∀ s a, Decidable (good s a)] {P} [DecidablePred P]
    {s0} (as : List Act) (h : Reachable good s0 s) (hp : plays (fun s a => good s a) (fun s => P s) as s = true) : ∃ s',
      Reachable good s0 s' ∧ P s' := by
  induction as generalizing s with
  | nil => exact ⟨s, h, of_decide_eq_true hp⟩
  | cons a as ih =>
    rw [plays, Bool.and_eq_true] at hp
    obtain ⟨hgood, hp⟩ := hp
    split at hp
    · next s' ha => exact ih (h.step (of_decide_eq_true hgood) ha) hp
    · cases hp

end Xv6Vsd.Bio
