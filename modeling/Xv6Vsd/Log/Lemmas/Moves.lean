import Mathlib.Tactic.Linarith
import Xv6Vsd.Log.Group

/-!
# What a step of a process can do

Every step that succeeds is one of ten moves, each with the tests it has passed. The invariants of
the group of processes are proved from this list, not from the routines.
-/

namespace Xv6Vsd

open Prog Disk

namespace Disk

def setOut (d : Disk) (n : Int) : Disk := { d with log := { d.log with outstanding := n } }

def setCommitting (d : Disk) (c : Bool) : Disk := { d with log := { d.log with committing := c } }

def ctl (d : Disk) : Nat × Int × Bool := (d.log.size, d.log.outstanding, d.log.committing)

variable (d : Disk) (n : Int) (c : Bool)

@[simp] theorem setOut_size : (d.setOut n).log.size = d.log.size := rfl
@[simp] theorem setOut_outstanding : (d.setOut n).log.outstanding = n := rfl
@[simp] theorem setOut_committing : (d.setOut n).log.committing = d.log.committing := rfl
@[simp] theorem setOut_lh : (d.setOut n).log.lh = d.log.lh := rfl
@[simp] theorem setCommitting_size : (d.setCommitting c).log.size = d.log.size := rfl
@[simp] theorem setCommitting_outstanding : (d.setCommitting c).log.outstanding = d.log.outstanding := rfl
@[simp] theorem setCommitting_committing : (d.setCommitting c).log.committing = c := rfl
@[simp] theorem setCommitting_lh : (d.setCommitting c).log.lh = d.log.lh := rfl
@[simp] theorem store_log (d : Disk) (b : Nat) (x : Block) : (d.store b x).log = d.log := rfl

theorem logAppend_lh (d : Disk) (b : UInt32) :
    (d.logAppend b).log.lh = if b ∈ d.log.lh then d.log.lh else d.log.lh ++ [b] := by
  unfold logAppend
  split <;> rfl

@[simp] theorem logAppend_ctl (d : Disk) (b : UInt32) : (d.logAppend b).ctl = d.ctl := by
  unfold logAppend
  split <;> rfl

theorem logAppend_size (d : Disk) (b : UInt32) : (d.logAppend b).log.size = d.log.size :=
  congrArg Prod.fst (d.logAppend_ctl b)

theorem logAppend_outstanding (d : Disk) (b : UInt32) : (d.logAppend b).log.outstanding = d.log.outstanding :=
  congrArg (fun c => c.2.1) (d.logAppend_ctl b)

variable {d d' : Disk}

theorem beginOp_ok (h : d.beginOp = .ok () d') : (d.log.size = 0 ∧ d' = d) ∨
    (d.log.size ≠ 0 ∧ d.log.committing = false ∧ (d.log.lh.length : Int) + (d.log.outstanding + 1) * 10 ≤ 30 ∧
      d' = d.setOut (d.log.outstanding + 1)) := by
  unfold beginOp at h
  split at h
  · cases h; exact .inl ⟨‹_›, rfl⟩
  split at h
  · cases h
  split at h
  · cases h
  rename_i hs hc hn
  cases h
  exact .inr ⟨hs, by simpa using hc, by simpa [logsize] using hn, rfl⟩

theorem logWriteCheck_ok (h : d.logWriteCheck = .ok () d') :
    d' = d ∧ d.log.lh.length < d.log.size - 1 ∧ 1 ≤ d.log.outstanding := by
  unfold logWriteCheck at h
  split at h
  · cases h
  · split at h <;> cases h
    refine ⟨rfl, by omega, by omega⟩

theorem logWriteCheck_panic {msg} (h : d.logWriteCheck = .panic msg) :
    (msg = "too big a transaction" ∧ (30 ≤ d.log.lh.length ∨ d.log.size - 1 ≤ d.log.lh.length)) ∨
      (msg = "log_write outside of trans" ∧ d.log.outstanding < 1) := by
  unfold logWriteCheck at h
  split at h
  · cases h; exact .inl ⟨rfl, by omega⟩
  · split at h <;> cases h
    exact .inr ⟨rfl, ‹_›⟩

theorem endOpLocked_ok {c} (h : d.endOpLocked = .ok c d') : (d.log.size = 0 ∧ c = false ∧ d' = d) ∨
    (d.log.size ≠ 0 ∧ d.log.committing = false ∧ d.log.outstanding ≠ 1 ∧ c = false ∧
      d' = d.setOut (d.log.outstanding - 1)) ∨
    (d.log.size ≠ 0 ∧ d.log.committing = false ∧ d.log.outstanding = 1 ∧ c = true ∧
      d' = (d.setOut 0).setCommitting true) := by
  unfold endOpLocked at h
  split at h
  · cases h; exact .inl ⟨‹_›, rfl, rfl⟩
  split at h
  · cases h
  rename_i hs hc
  split at h
  · rename_i ho
    cases h
    refine .inr (.inr ⟨hs, by simpa using hc, by omega, rfl, ?_⟩)
    rw [ho]; rfl
  · cases h; exact .inr (.inl ⟨hs, by simpa using hc, by omega, rfl, rfl⟩)

theorem endOpLocked_panic {msg} (h : d.endOpLocked = .panic msg) : d.log.size ≠ 0 ∧ d.log.committing = true := by
  unfold endOpLocked at h
  split at h
  · cases h
  split at h
  · exact ⟨‹_›, ‹_›⟩
  · split at h <;> cases h

theorem beginOp_ne_panic (d : Disk) (msg : String) : d.beginOp ≠ .panic msg := by
  unfold beginOp
  split
  · simp
  split
  · simp
  · split <;> simp

end Disk

namespace Log

inductive Moved (may : Finset UInt32 → Prop) (g : Group) (p : Nat) : Phase → Disk → Prop
  | enterNoLog (hp : g.phase p = .outside) (hs : g.disk.log.size = 0) : Moved may g p (.inside ∅) g.disk
  | enter (hp : g.phase p = .outside) (hs : g.disk.log.size ≠ 0) (hc : g.disk.log.committing = false)
    (hn : (g.disk.log.lh.length : Int) + (g.disk.log.outstanding + 1) * 10 ≤ 30) :
    Moved may g p (.inside ∅) (g.disk.setOut (g.disk.log.outstanding + 1))
  | test {used b} (x : Block) (hp : g.phase p = .inside used)
    (hmay : may (insert b used)) (hn : g.disk.log.lh.length < g.disk.log.size - 1) :
    Moved may g p (.logging used b) (g.disk.store b.toNat x)
  | append {used b} (hp : g.phase p = .logging used b) :
    Moved may g p (.inside (insert b used)) (g.disk.logAppend b)
  | bwrite {used b} (x : Block) (hp : g.phase p = .inside used) (hs : g.disk.log.size = 0) :
    Moved may g p (.inside (insert b used)) (g.disk.bwrite b.toNat x)
  | leaveNoLog {used} (hp : g.phase p = .inside used) (hs : g.disk.log.size = 0) :
    Moved may g p .outside g.disk
  | leave {used} (hp : g.phase p = .inside used) (hs : g.disk.log.size ≠ 0)
    (hc : g.disk.log.committing = false) (ho : g.disk.log.outstanding ≠ 1) :
    Moved may g p .outside (g.disk.setOut (g.disk.log.outstanding - 1))
  | last {used} (hp : g.phase p = .inside used) (hs : g.disk.log.size ≠ 0)
    (hc : g.disk.log.committing = false) (ho : g.disk.log.outstanding = 1) :
    Moved may g p (.committing commit) ((g.disk.setOut 0).setCommitting true)
  | commit {β : Type} {lab : Disk → LogEv} {f : Disk → Res Disk β} {k : β → Prog Disk LogEv Unit}
    {b : β} {d : Disk} (hp : g.phase p = .committing (.step lab f k)) (hf : f g.disk = .ok b d) :
    Moved may g p (.committing (k b)) d
  | release (hp : g.phase p = .committing (.ret ())) : Moved may g p .outside (g.disk.setCommitting false)

theorem Step.moved {may g g' p} (hs : Step may g p (.ok () g')) : ∃ ph d, Moved may g p ph d ∧ g' = g.to p ph d := by
  generalize hr : Res.ok () g' = r at hs
  cases hs with try have hr := Res.bind_eq_ok.mp hr.symm
  | beginOp hp =>
    obtain ⟨_, d, hd, ⟨⟩⟩ := hr
    rcases beginOp_ok hd with ⟨hz, rfl⟩ | ⟨hz, hc, hn, rfl⟩
    · exact ⟨_, _, .enterNoLog hp hz, rfl⟩
    · exact ⟨_, _, .enter hp hz hc hn, rfl⟩
  | logWrite x hp hmay hsize =>
    obtain ⟨_, d, hd, ⟨⟩⟩ := hr
    obtain ⟨rfl, hn, -⟩ := logWriteCheck_ok hd
    exact ⟨_, _, .test x hp hmay hn, rfl⟩
  | logAppend hp => cases hr; exact ⟨_, _, .append hp, rfl⟩
  | bwrite x hp hmay hsize => cases hr; exact ⟨_, _, .bwrite x hp hsize, rfl⟩
  | endOp hp =>
    obtain ⟨_, d, hd, ⟨⟩⟩ := hr
    rcases endOpLocked_ok hd with ⟨hz, rfl, rfl⟩ | ⟨hz, hc, ho, rfl, rfl⟩ | ⟨hz, hc, ho, rfl, rfl⟩
    · exact ⟨_, _, .leaveNoLog hp hz, rfl⟩
    · exact ⟨_, _, .leave hp hz hc ho, rfl⟩
    · exact ⟨_, _, .last hp hz hc ho, rfl⟩
  | commit hp => obtain ⟨_, d, hd, ⟨⟩⟩ := hr; exact ⟨_, _, .commit hp hd, rfl⟩
  | release hp => obtain ⟨_, d, ⟨⟩, ⟨⟩⟩ := hr; exact ⟨_, _, .release hp, rfl⟩

theorem Step.panic_cases {may g p msg} (hs : Step may g p (.panic msg)) :
    (∃ used, g.phase p = .inside used ∧ g.disk.log.size ≠ 0 ∧ ((msg = "too big a transaction" ∧
        (30 ≤ g.disk.log.lh.length ∨ g.disk.log.size - 1 ≤ g.disk.log.lh.length)) ∨
        (msg = "log_write outside of trans" ∧ g.disk.log.outstanding < 1))) ∨
    (∃ used, g.phase p = .inside used ∧ g.disk.log.size ≠ 0 ∧ g.disk.log.committing = true) ∨
    ∃ rest, g.phase p = .committing rest ∧ ¬ Calm rest := by
  generalize hr : Res.panic msg = r at hs
  cases hs with try have hr := Res.bind_eq_panic.mp hr.symm
  | beginOp hp => obtain h | ⟨_, _, _, ⟨⟩⟩ := hr; exact absurd h (beginOp_ne_panic _ _)
  | logWrite x hp hmay hsize =>
    obtain h | ⟨_, _, _, ⟨⟩⟩ := hr
    have hmsg := logWriteCheck_panic h
    rw [store_log] at hmsg
    exact .inl ⟨_, hp, hsize, hmsg⟩
  | logAppend hp | bwrite x hp hmay hsize => cases hr
  | endOp hp => obtain h | ⟨_, _, _, ⟨⟩⟩ := hr; exact .inr (.inl ⟨_, hp, endOpLocked_panic h⟩)
  | commit hp => obtain h | ⟨_, _, _, ⟨⟩⟩ := hr; exact .inr (.inr ⟨_, hp, fun hcalm => hcalm.1 _ _ h⟩)
  | release hp => obtain ⟨⟨⟩⟩ | ⟨_, _, _, ⟨⟩⟩ := hr

end Log

end Xv6Vsd
