import Mathlib.Algebra.Group.Int.Defs
import Mathlib.Data.Int.Order.Basic
import Xv6Vsd.Lib.Run

/-!
# Sleeping for a time (`sys_sleep` of `sysproc.c`, the timer interrupt of `trap.c`)

One call of `sys_sleep`. A section under `tickslock` is one step.
-/

namespace Xv6Vsd.Ticks

inductive Pc where
  | enter
  | yielded
  | asleep (ticks0 n : UInt32)
  | woken (ticks0 n : UInt32)
  | ret (r : Int)
  deriving DecidableEq

structure State where
  ticks : UInt32
  killed : Bool
  pc : Pc
  elapsed : Nat

inductive Act where
  | tick
  | kill
  | wakeup
  | go

def Pc.awake : Pc → Pc
  | .asleep ticks0 n => .woken ticks0 n
  | pc => pc

def loop (s : State) (ticks0 n : UInt32) : Pc :=
  if s.ticks - ticks0 < n then if s.killed then .ret (-1) else .asleep ticks0 n else .ret 0

/-- The argument is `none` when it cannot be fetched. -/
def sysSleep (arg : Option Int32) (s : State) : Option Pc :=
  match s.pc with
  | .enter =>
    match arg with
    | none => some (.ret (-1))
    | some n => if n = 0 then some .yielded else some (loop s s.ticks (if 0 < n then n * 100 else 5).toUInt32)
  | .yielded => some (.ret (if s.killed then -1 else 0))
  | .woken ticks0 n => some (loop s ticks0 n)
  | .asleep _ _ | .ret _ => none

-- a call that has returned has no more steps
def act (arg : Option Int32) (s : State) (a : Act) : Option State :=
  if s.pc matches .ret _ then none else match a with
    | .tick => some { s with ticks := s.ticks + 1, pc := s.pc.awake, elapsed := s.elapsed + 1 }
    | .kill => some { s with killed := true, pc := s.pc.awake }
    | .wakeup => some { s with pc := s.pc.awake }
    | .go => (sysSleep arg s).map fun pc => { s with pc := pc }

def call (ticks : UInt32) : State := ⟨ticks, false, .enter, 0⟩

/-- The call returns 0 when `n` hundred ticks have passed, and else only because the process has been killed. -/
def Waits (n : Int32) (s : State) : Prop :=
  ∀ r, s.pc = .ret r → r = 0 ∧ 100 * n.toInt ≤ s.elapsed ∨ r = -1 ∧ s.killed = true

variable {n : Int32} {s s' : State} {a : Act} {ticks ticks0 m : UInt32}

def hundred (n : Int32) : UInt32 := (n * 100).toUInt32

theorem toNat_hundred (hn : 0 < n) : ((hundred n).toNat : Int) = 100 * n.toInt % 2 ^ 32 := by
  have hpos := Int32.lt_iff_toInt_lt.mp hn
  have hcond := n.toBitVec.toInt_eq_toNat_cond
  have hmul : (hundred n).toNat = n.toBitVec.toNat * 100 % 2 ^ 32 := BitVec.toNat_mul ..
  have heq : n.toInt = n.toBitVec.toInt := rfl
  have hzero : (0 : Int32).toInt = 0 := rfl
  split at hcond <;> omega

theorem go_enter (hn : 0 < n) (hpc : s.pc = .enter) :
    act (some n) s .go = some { s with pc := loop s s.ticks (hundred n) } := by
  have hne : n ≠ 0 := by rintro rfl; exact absurd hn (by decide)
  simp only [act, sysSleep, hpc, hn, hne, if_true, if_false]
  rfl

/-! ## Long enough -/

def Pc.Inv (m : UInt32) (s : State) : Pc → Prop
  | .enter => True
  | .yielded => False
  | .asleep ticks0 n | .woken ticks0 n => n = m ∧ (s.ticks - ticks0).toNat ≤ s.elapsed
  | .ret r => r = 0 ∧ m.toNat ≤ s.elapsed ∨ r = -1 ∧ s.killed = true

theorem Pc.Inv.awake {pc : Pc} (h : pc.Inv m s) : pc.awake.Inv m s := by
  cases pc <;> exact h

theorem inv_loop (h : (s.ticks - ticks0).toNat ≤ s.elapsed) : (loop s ticks0 m).Inv m s := by
  unfold loop
  split
  · split
    · next hk => exact .inr ⟨rfl, hk⟩
    · exact ⟨rfl, h⟩
  · next hge => exact .inl ⟨rfl, Nat.le_trans (UInt32.le_iff_toNat_le.mp (UInt32.not_lt.mp hge)) h⟩

theorem Pc.Inv.tick {pc : Pc} (h : pc.Inv m s) (hret : ∀ r, pc ≠ .ret r) :
    pc.Inv m { s with ticks := s.ticks + 1, elapsed := s.elapsed + 1 } := by
  have hle : ∀ t : UInt32, (s.ticks + 1 - t).toNat ≤ (s.ticks - t).toNat + 1 := fun t => by
    simp only [UInt32.toNat_sub, UInt32.toNat_add, UInt32.toNat_one]
    omega
  cases pc with
  | enter | yielded => exact h
  | asleep ticks0 | woken ticks0 => exact ⟨h.1, Nat.le_trans (hle ticks0) (Nat.succ_le_succ h.2)⟩
  | ret r => exact absurd rfl (hret r)

theorem inv_act (hn : 0 < n) (h : s.pc.Inv (hundred n) s) (ha : act (some n) s a = some s') :
    s'.pc.Inv (hundred n) s' := by
  obtain ⟨ticks, killed, pc, elapsed⟩ := s
  cases pc with
  | ret => cases ha
  | yielded => exact h.elim
  | enter =>
    cases a with
    | tick | kill | wakeup => cases ha; trivial
    | go => rw [go_enter hn rfl] at ha; cases ha; exact inv_loop (by simp)
  | asleep ticks0 m =>
    cases a with
    | tick => cases ha; exact (h.tick nofun).awake
    | kill | wakeup => cases ha; exact h
    | go => cases ha
  | woken ticks0 m =>
    cases a with
    | tick => cases ha; exact h.tick nofun
    | kill | wakeup => cases ha; exact h
    | go =>
      obtain ⟨rfl, hle⟩ := h
      cases ha
      exact inv_loop hle

/-! ## Too short -/

theorem run_ticks (hn : 0 < n) (hm : 0 < hundred n) (k : Nat) :
    Run (act (some n)) (fun _ _ => True) (call ticks) ⟨ticks + .ofNat k, false, .woken ticks (hundred n), k⟩ := by
  induction k with
  | zero =>
    have hgo := go_enter (s := call ticks) hn rfl
    rw [loop, UInt32.sub_self, if_pos hm] at hgo
    rw [show ticks + .ofNat 0 = ticks from UInt32.add_zero ticks]
    exact (Run.start.step trivial hgo).step (a := .wakeup) trivial rfl
  | succ k ih =>
    have htick := ih.step (a := .tick) trivial rfl
    rwa [UInt32.add_assoc, ← UInt32.ofNat_one, ← UInt32.ofNat_add] at htick

theorem returns_at (hn : 0 < n) (ticks : UInt32) :
    ∃ s, Run (act (some n)) (fun _ _ => True) (call ticks) s ∧ s.pc = .ret 0 ∧ s.elapsed = (hundred n).toNat := by
  by_cases hm : 0 < hundred n
  · refine ⟨_, (run_ticks hn hm (hundred n).toNat).step (a := .go) trivial rfl, ?_, rfl⟩
    rw [loop, UInt32.ofNat_toNat, if_neg (by grind)]
  refine ⟨_, Run.start.step trivial (go_enter hn rfl), ?_, ?_⟩
  · rw [loop, UInt32.sub_self, if_neg hm]
  · exact (Nat.le_zero.mp (UInt32.le_iff_toNat_le.mp (UInt32.not_lt.mp hm))).symm

theorem sleep_waits_iff (n : Int32) (hn : 0 < n) (ticks : UInt32) :
    (∀ s, Run (act (some n)) (fun _ _ => True) (call ticks) s → Waits n s) ↔ 100 * n.toInt < 2 ^ 32 := by
  have hm := toNat_hundred hn
  constructor
  · intro h
    obtain ⟨s, hrun, hpc, he⟩ := returns_at hn ticks
    rcases h s hrun 0 hpc with ⟨-, hle⟩ | ⟨hr, -⟩
    · omega
    · cases hr
  · intro hlt s hrun r hr
    have hinv : s.pc.Inv (hundred n) s := hrun.invariant trivial fun _ _ _ h _ ha => inv_act hn h ha
    rw [hr] at hinv
    exact hinv.imp_left fun h => ⟨h.1, by omega⟩

theorem sleep_waits_iff_second : (0 : Int32) < 1 ∧
    ∀ s, Run (act (some 1)) (fun _ _ => True) (call 0) s → Waits 1 s :=
  ⟨by decide, (sleep_waits_iff 1 (by decide) 0).mpr (by decide)⟩

/-- 42949673 hundred ticks are 4 more than 2^32. -/
theorem sleep_early :
    ∃ s, Run (act (some 42949673)) (fun _ _ => True) (call 0) s ∧ s.elapsed = 4 ∧ ¬Waits 42949673 s := by
  obtain ⟨s, hrun, hpc, he⟩ :
      ∃ s, Run (act (some 42949673)) (fun _ _ => True) (call 0) s ∧ s.pc = .ret 0 ∧ s.elapsed = 4 :=
    exists_run [.go, .tick, .tick, .tick, .tick, .go] (by decide +kernel)
  refine ⟨s, hrun, he, fun h => ?_⟩
  rcases h 0 hpc with ⟨-, hle⟩ | ⟨hr, -⟩
  · rw [he] at hle
    exact absurd hle (by decide)
  · cases hr

end Xv6Vsd.Ticks
