import Xv6Vsd.Bio.Unique

/-!
# What a process has still to do

The instructions a process has before it are those of a call, or those of `commit`.
-/

namespace Xv6Vsd.Bio

open Function Nat

variable {s : State} {b : Buf} {p q i : Nat} {dev : UInt32}

/-! ## Waiting for the disk -/

def waiting : List Instr → Option Buf
  | .iderw b :: _ => some b
  | .await b :: _ => some b
  | _ => none

def todo : List Instr → List Instr
  | .iderw _ :: code => code
  | .await _ :: code => code
  | code => code

theorem todo_await (code : List Instr) : todo (.await b :: code) = code := rfl

variable {code : List Instr}

theorem todo_of_waiting (h : waiting code = none) : todo code = code := by
  unfold waiting at h
  unfold todo
  split at h <;> simp_all

def Pinned (s : State) (b : Buf) : Prop := (s.buf b).dirty = true ∧ ∀ q, waiting (s.proc q).code ≠ some b

/-! ## Calls -/

/-- The `i`-th buffer is of a disk without a log, or of the disk of the running operation. -/
def MayLog (s : State) (x : Proc) (i : Nat) : Prop :=
  ∀ b, x.holds[i]? = some b → (s.log (s.buf b).key.dev).size = 0 ∨ x.op = some (s.buf b).key.dev

/-- Processes read real disks, call `log_write` between `begin_op` and `end_op` of the disk, and these two in turn. -/
def Proper (s : State) : Act → Prop
  | .call _ (.bread key) => key.dev ≠ nodev
  | .call p (.logged i _) => MayLog s (s.proc p) i
  | .call p (.beginOp dev) => dev ≠ nodev ∧ (s.proc p).op = none
  | .call p (.endOp dev) => (s.log dev).size = 0 ∨ (s.proc p).op = some dev
  | _ => True

inductive Plain (s : State) (x : Proc) : List Instr → Prop
  | idle : Plain s x []
  | bread {key} (real : key.dev ≠ nodev) : Plain s x [.bread key]
  | logged {i v} (may : MayLog s x i) : Plain s x [.store i v, .logWrite i]
  | logWrite {i : Nat} (may : MayLog s x i) : Plain s x [.logWrite i]
  | logAppend {i : Nat} (op : ∀ b, x.holds[i]? = some b → x.op = some (s.buf b).key.dev) : Plain s x [.logAppend i]
  | direct {i v} : Plain s x [.store i v, .bwrite i .process]
  | bwrite {i : Nat} : Plain s x [.bwrite i .process]
  | brelse {i : Nat} : Plain s x [.brelse i]
  | beginOp {dev : UInt32} (real : dev ≠ nodev) (op : x.op = none) : Plain s x [.beginOp dev]
  | endOp {dev : UInt32} (op : (s.log dev).size = 0 ∨ x.op = some dev) : Plain s x [.endOp dev]

theorem Plain.waiting_eq {x} (h : Plain s x code) : waiting code = none := by cases h <;> rfl

theorem Plain.not_mem_endCommit {x} (h : Plain s x code) : .endCommit dev ∉ code := by
  cases h <;> simp

theorem plain_call {a} (h : Proper s (.call p a)) : Plain s (s.proc p) a.code := by
  cases a with
  | bread key => exact .bread h
  | logged i x => exact .logged h
  | direct i x => exact .direct
  | brelse i => exact .brelse
  | beginOp dev => exact .beginOp h.1 h.2
  | endOp dev => exact .endOp h

/-! ## `commit` -/

def home (dev : UInt32) (lh : List UInt32) (t : Nat) : Key := ⟨dev, lh.getD t 0⟩

def slot (dev : UInt32) (start t : Nat) : Key := ⟨dev, UInt32.ofNat (start + t + 1)⟩

/-- Code of the process that commits the blocks `lh`: `out` of them are in the log, `back` at their
place, and buffers are held for the blocks `keys`, for those of `base` since before `end_op`. -/
inductive Plan (dev : UInt32) (start : Nat) (base : List Key) :
    (lh : List UInt32) → (out back : Nat) → (keys : List Key) → List Instr → Prop
  | commit {lh code} (rest : Plan dev start base [] 0 0 base code) :
    Plan dev start base lh 0 0 base (.enter .commit dev :: code)
  | writeLog {lh out code} (le : out ≤ lh.length) (rest : Plan dev start base lh lh.length 0 base code) :
    Plan dev start base lh out 0 base (.enter (.writeLog out) dev :: code)
  | writeHead {lh out back code} (rest : Plan dev start base lh out back base code) :
    Plan dev start base lh out back base (.enter .writeHead dev :: code)
  | installTrans {lh out back code} (all : out = lh.length) (le : back ≤ lh.length)
    (rest : Plan dev start base lh lh.length lh.length base code) :
    Plan dev start base lh out back base (.enter (.installTrans back) dev :: code)
  | bread {lh out back key keys code} (same : key.dev = dev)
    (few : keys.length ≤ base.length + 1) (rest : Plan dev start base lh out back (key :: keys) code) :
    Plan dev start base lh out back keys (.bread key :: code)
  | copyOut {lh out back keys code} (lt : out < lh.length)
    (none_back : back = 0) (holds : keys = home dev lh out :: slot dev start out :: base)
    (rest : Plan dev start base lh (out + 1) back keys code) :
    Plan dev start base lh out back keys (.copy 1 0 :: .bwrite 1 .log :: code)
  | writeOut {lh out back keys code} (lt : out < lh.length)
    (none_back : back = 0) (holds : keys = home dev lh out :: slot dev start out :: base)
    (rest : Plan dev start base lh (out + 1) back keys code) :
    Plan dev start base lh out back keys (.bwrite 1 .log :: code)
  | copyBack {lh out back keys code} (all : out = lh.length)
    (lt : back < lh.length) (holds : keys = home dev lh back :: slot dev start back :: base)
    (rest : Plan dev start base lh out (back + 1) keys code) :
    Plan dev start base lh out back keys (.copy 0 1 :: .bwrite 0 .install :: code)
  | writeBack {lh out back keys code} (all : out = lh.length)
    (lt : back < lh.length) (holds : keys = home dev lh back :: slot dev start back :: base)
    (rest : Plan dev start base lh out (back + 1) keys code) :
    Plan dev start base lh out back keys (.bwrite 0 .install :: code)
  | header {lh out back keys code}
    (holds : keys = ⟨dev, UInt32.ofNat start⟩ :: base) (rest : Plan dev start base lh out back keys code) :
    Plan dev start base lh out back keys (.header dev :: .bwrite 0 .log :: code)
  | writeHeader {lh out back keys code}
    (holds : keys = ⟨dev, UInt32.ofNat start⟩ :: base) (rest : Plan dev start base lh out back keys code) :
    Plan dev start base lh out back keys (.bwrite 0 .log :: code)
  | brelse {lh out back i keys code} (rest : Plan dev start base lh out back (keys.eraseIdx i) code) :
    Plan dev start base lh out back keys (.brelse i :: code)
  | clear {lh out back code} (all : back = lh.length) (rest : Plan dev start base [] 0 0 base code) :
    Plan dev start base lh out back base (.clear dev :: code)
  | endCommit {lh out back} (empty : lh = []) :
    Plan dev start base lh out back base [.endCommit dev]

section Plan

variable {start out back : Nat} {base keys : List Key} {lh : List UInt32} {code : List Instr}

theorem Plan.waiting_eq (h : Plan dev start base lh out back keys code) : waiting code = none := by
  cases h <;> rfl

theorem Plan.mem_endCommit {dev'} (h : Plan dev start base lh out back keys code) :
    .endCommit dev' ∈ code ↔ dev' = dev := by
  induction h with
  | endCommit => simp
  | _ => simp_all

theorem Plan.enter {f dev'} (h : Plan dev (s.log dev).start base (s.log dev).lh out back keys (.enter f dev' :: code)) :
    Plan dev (s.log dev).start base (s.log dev).lh out back keys (s.body dev' f ++ code) := by
  cases h with
  | commit rest =>
    rw [State.body]
    split
    · exact .writeLog (zero_le _) (.writeHead (.installTrans rfl (zero_le _) (.clear rfl (.writeHead rest))))
    next hn =>
    have hnil : (s.log dev).lh = [] := List.eq_nil_of_length_eq_zero (by omega)
    rw [hnil]
    exact rest
  | writeLog le rest =>
    rw [State.body]
    split
    · rename_i hlt
      exact .bread rfl (le_succ _) (.bread rfl (le_refl _)
        (.copyOut hlt rfl rfl (.brelse (.brelse (.writeLog hlt rest)))))
    next hn =>
    have hall : out = (s.log dev).lh.length := by omega
    rw [hall]
    exact rest
  | writeHead rest => rw [State.body]; exact .bread rfl (le_succ _) (.header rfl (.brelse rest))
  | installTrans all le rest =>
    rw [State.body]
    split
    · rename_i hlt
      exact .bread rfl (le_succ _) (.bread rfl (le_refl _)
        (.copyBack all hlt rfl (.brelse (.brelse (.installTrans all hlt rest)))))
    next hn =>
    have hall : back = (s.log dev).lh.length := by omega
    rw [hall, all]
    exact rest

end Plan

end Xv6Vsd.Bio
