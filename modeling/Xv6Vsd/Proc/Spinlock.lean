import Mathlib.Data.Finset.Card
import Xv6Vsd.Lib.Run

/-!
# Spin locks (`spinlock.c`)

Processors that call `acquire` and `release` on any locks. Each access to a lock is a step between those of the others;
`holding` is one step, since no other processor changes its answer.
-/

namespace Xv6Vsd.Spinlock

open Finset

open Function (update)

inductive Pc (ι : Type) where
  | out
  /-- `holding(lk)` of `acquire`, after `pushcli` -/
  | test (l : ι)
  | spin (l : ι)
  /-- `lk->cpu = cpu` -/
  | record (l : ι)
  /-- `holding(lk)` of `release` -/
  | check (l : ι)
  /-- `lk->cpu = 0` -/
  | clear (l : ι)
  /-- `xchg(&lk->locked, 0)` -/
  | swap (l : ι)
  | popcli
  deriving DecidableEq

structure Cpu (ι : Type) where
  pc : Pc ι
  /-- `FL_IF` -/
  fl : Bool
  ncli : Nat
  intena : Bool
  /-- the locks that its `xchg` has won and not given back -/
  mine : Finset ι

structure State (ι κ : Type) where
  locked : ι → Bool
  cpu : ι → Option κ
  cpus : κ → Cpu ι
  panicked : Option String

inductive Act (ι κ : Type) where
  | acquire (c : κ) (l : ι)
  | release (c : κ) (l : ι)
  | step (c : κ)
  /-- `sti` or `cli` outside `pushcli` and `popcli` -/
  | flag (c : κ) (fl : Bool)

variable {ι κ : Type} [DecidableEq ι] [DecidableEq κ] {s s' : State ι κ}

def init : State ι κ := ⟨fun _ => false, fun _ => none, fun _ => ⟨.out, true, 0, true, ∅⟩, none⟩

namespace State

abbrev set (s : State ι κ) (c : κ) (x : Cpu ι) : State ι κ := { s with cpus := update s.cpus c x }

def panic (s : State ι κ) (msg : String) : State ι κ := { s with panicked := some msg }

def holding (s : State ι κ) (c : κ) (l : ι) : Bool := s.locked l && s.cpu l = some c

def popcli (s : State ι κ) (c : κ) : State ι κ :=
  let x := s.cpus c
  if x.fl then s.panic "popcli - interruptible"
  else if x.ncli = 0 then s.panic "popcli"
  else s.set c { x with pc := .out, ncli := x.ncli - 1, fl := x.ncli = 1 && x.intena }

def step (s : State ι κ) (c : κ) : Option (State ι κ) :=
  let x := s.cpus c
  match x.pc with
  | .out => none
  | .test l => some (if s.holding c l then s.panic "acquire" else s.set c { x with pc := .spin l })
  | .spin l => some (
    if s.locked l then s
    else { s with locked := update s.locked l true }.set c { x with pc := .record l, mine := insert l x.mine })
  | .record l => some ({ s with cpu := update s.cpu l (some c) }.set c { x with pc := .out })
  | .check l => some (if s.holding c l then s.set c { x with pc := .clear l } else s.panic "release")
  | .clear l => some ({ s with cpu := update s.cpu l none }.set c { x with pc := .swap l })
  | .swap l =>
    some ({ s with locked := update s.locked l false }.set c { x with pc := .popcli, mine := x.mine.erase l })
  | .popcli => some (s.popcli c)

def act (s : State ι κ) (a : Act ι κ) : Option (State ι κ) :=
  if s.panicked.isSome then none else match a with
  | .acquire c l =>
    let x := s.cpus c
    if x.pc ≠ .out then none
    else
      -- `pushcli`
      let intena := if x.ncli = 0 then x.fl else x.intena
      some (s.set c { x with pc := .test l, fl := false, ncli := x.ncli + 1, intena })
  | .release c l => if (s.cpus c).pc ≠ .out then none else some (s.set c { s.cpus c with pc := .check l })
  | .step c => s.step c
  | .flag c fl => if (s.cpus c).pc ≠ .out ∨ (s.cpus c).ncli ≠ 0 then none else some (s.set c { s.cpus c with fl })

end State

/-! ## The invariant -/

/-- One `pushcli` for a lock that is not there yet or no longer. -/
def Pc.extra : Pc ι → Nat
  | .test _ | .spin _ | .popcli => 1
  | _ => 0

/-- The lock is taken and does not name its processor. -/
def Pc.blank : Pc ι → ι → Bool
  | .record m, l | .swap m, l => m = l
  | _, _ => false

def State.Misuse (s : State ι κ) (msg : String) : Prop := ∃ c l,
  (s.cpus c).pc = .test l ∧ l ∈ (s.cpus c).mine ∧ msg = "acquire" ∨
  (s.cpus c).pc = .check l ∧ l ∉ (s.cpus c).mine ∧ msg = "release"

/-- `o` tells who has a lock. -/
structure Inv (s : State ι κ) (o : ι → Option κ) : Prop where
  mine : ∀ l c, l ∈ (s.cpus c).mine ↔ o l = some c
  locked : ∀ l, s.locked l = (o l).isSome
  cpu : ∀ l c, s.cpu l = some c ↔ o l = some c ∧ (s.cpus c).pc.blank l = false
  has : ∀ c l, (s.cpus c).pc.blank l = true ∨ (s.cpus c).pc = .clear l → o l = some c
  depth : ∀ c, (s.cpus c).ncli = #(s.cpus c).mine + (s.cpus c).pc.extra
  off : ∀ c, 0 < (s.cpus c).ncli → (s.cpus c).fl = false
  stop : ∀ msg, s.panicked = some msg → s.Misuse msg

variable {o : ι → Option κ}

theorem Inv.holding (h : Inv s o) {c : κ} {l : ι} (hb : (s.cpus c).pc.blank l = false) :
    s.holding c l = true ↔ o l = some c := by
  rw [State.holding, Bool.and_eq_true, decide_eq_true_iff, h.cpu, h.locked]
  exact ⟨fun ho => ho.2.1, fun ho => ⟨by rw [ho]; rfl, ho, hb⟩⟩

omit [DecidableEq κ] in
theorem Inv.panic (h : Inv s o) {msg : String} (hm : s.Misuse msg) : Inv (s.panic msg) o :=
  { h with stop := fun _ hmsg => Option.some.inj hmsg ▸ hm }

attribute [local grind =] Pc.extra Pc.blank Function.update_apply

theorem Inv.step {c : κ} (h : Inv s o) (hp : s.panicked = none) (ha : s.step c = some s') : ∃ o, Inv s' o := by
  obtain ⟨hmine, hlocked, hcpu, hhas, hdepth, hoff, -⟩ := id h
  have hh l := h.holding (c := c) (l := l)
  rw [State.step] at ha
  cases hpc : (s.cpus c).pc with simp only [hpc, Option.some.injEq, reduceCtorEq] at ha hh <;> cases ha
  | test l =>
    split
    · exact ⟨o, h.panic ⟨c, l, by grind⟩⟩
    · exact ⟨o, by constructor <;> grind -ring -linarith⟩
  | spin l =>
    split
    · exact ⟨o, h⟩
    -- `xchg` has found 0: no processor had the lock
    · exact ⟨update o l (some c), by constructor <;> grind -ring -linarith⟩
  | record l => exact ⟨o, by constructor <;> grind -ring -linarith⟩
  | check l =>
    split
    · exact ⟨o, by constructor <;> grind -ring -linarith⟩
    · exact ⟨o, h.panic ⟨c, l, by grind⟩⟩
  | clear l =>
    have ho := hhas c l (.inr hpc)
    exact ⟨o, by constructor <;> grind -ring -linarith⟩
  | swap l =>
    have ho := hhas c l (.inl (by simp [hpc, Pc.blank]))
    exact ⟨update o l none, by constructor <;> grind -ring -linarith⟩
  | popcli =>
    have hn : (s.cpus c).ncli = #(s.cpus c).mine + 1 := by rw [hdepth, hpc]; rfl
    simp only [State.popcli, hoff c (by omega), hn]
    exact ⟨o, by constructor <;> grind -ring -linarith⟩

theorem Inv.act {a : Act ι κ} (h : Inv s o) (ha : s.act a = some s') : ∃ o, Inv s' o := by
  obtain ⟨hmine, hlocked, hcpu, hhas, hdepth, hoff, -⟩ := id h
  unfold State.act at ha
  split at ha
  · cases ha
  next hp =>
  have hp := Option.not_isSome_iff_eq_none.mp hp
  cases a with dsimp only at ha
  | step c => exact h.step hp ha
  | _ c =>
    split at ha <;> cases ha
    exact ⟨o, by constructor <;> grind -ring -linarith⟩

/-- Whatever the processors call: a lock has one holder at most, its words tell who, a processor with a lock has its
interrupts off, and only a processor that takes a lock twice or gives back another's can panic. -/
theorem spinlock_exclusive (h : Run State.act (fun _ _ => True) init s) :
    (∀ l c d, l ∈ (s.cpus c).mine → l ∈ (s.cpus d).mine → c = d) ∧
    (∀ l, s.locked l = true ↔ ∃ c, l ∈ (s.cpus c).mine) ∧
    (∀ c l, (s.cpus c).pc.blank l = false → (s.holding c l = true ↔ l ∈ (s.cpus c).mine)) ∧
    (∀ c, (s.cpus c).ncli = #(s.cpus c).mine + (s.cpus c).pc.extra ∧ (0 < (s.cpus c).ncli → (s.cpus c).fl = false)) ∧
    ∀ msg, s.panicked = some msg → s.Misuse msg := by
  obtain ⟨o, hi⟩ : ∃ o, Inv s o := by
    refine h.invariant (P := fun s => ∃ o, Inv s o) ⟨fun _ => none, ?_⟩ fun s a s' ⟨o, hi⟩ _ ha => hi.act ha
    constructor <;> simp [init, Pc.blank, Pc.extra]
  refine ⟨fun l c d hc hd => ?_, fun l => ?_, fun c l hb => ?_, fun c => ⟨hi.depth c, hi.off c⟩, hi.stop⟩
  · exact Option.some.inj (((hi.mine l c).mp hc).symm.trans ((hi.mine l d).mp hd))
  · simp only [hi.locked, Option.isSome_iff_exists, hi.mine]
  · rw [hi.holding hb, hi.mine]

theorem spinlock_exclusive_spinning : ∃ s : State Unit Bool, Run State.act (fun _ _ => True) init s ∧
    (s.cpus true).pc = .spin () ∧ s.locked () = true := by
  obtain ⟨s, h, hpc, hmine⟩ : ∃ s : State Unit Bool, Run State.act (fun _ _ => True) init s ∧
      (s.cpus true).pc = .spin () ∧ () ∈ (s.cpus false).mine :=
    exists_run [.acquire false (), .acquire true (), .step false, .step true, .step false] (by decide +kernel)
  exact ⟨s, h, hpc, ((spinlock_exclusive h).2.1 ()).mpr ⟨false, hmine⟩⟩

end Xv6Vsd.Spinlock
