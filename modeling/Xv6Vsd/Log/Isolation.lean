import Xv6Vsd.Log.Lemmas.Moves
import Xv6Vsd.Log.Lemmas.Replay

/-!
# A commit runs alone

`outstanding` counts the processes between `begin_op` and `end_op`, and `committing` is set while
one process runs `commit` and nobody is between the two.
-/

namespace Xv6Vsd

open Prog Disk Finset

namespace Log

theorem keeps_ctl_commit : Keeps Disk.ctl commit := keeps_commit (fun _ _ _ => rfl) fun _ _ => rfl

theorem calm_commit : Calm commit := by
  refine made_commit (made_act fun d m => by simp) (fun lab a b => made_act fun d m => ?_)
    (made_act fun d m => ?_) (made_act fun d m => by simp)
  · unfold copyBlock
    split <;> simp
  · split <;> simp

structure Isolated (g : Group) (inOp : Finset Nat) : Prop where
  mem : ∀ p, p ∈ inOp ↔ (g.phase p).InOp
  count : g.disk.log.outstanding = if g.disk.log.size = 0 then 0 else (inOp.card : Int)
  rest : ∀ p rest, g.phase p = .committing rest → Keeps Disk.ctl rest ∧ Calm rest
  flag : ∀ p rest, g.phase p = .committing rest → g.disk.log.committing = true
  quiet : g.disk.log.committing = true → g.disk.log.size ≠ 0 ∧ inOp = ∅
  one : ∀ p q r r', g.phase p = .committing r → g.phase q = .committing r' → p = q

theorem Group.to_self (g : Group) (p : Nat) (ph : Phase) (d : Disk) : (g.to p ph d).phase p = ph := by
  simp [Group.to]

theorem Group.to_of_ne (g : Group) {p q} (ph : Phase) (d : Disk) (h : q ≠ p) : (g.to p ph d).phase q = g.phase q := by
  simp [Group.to, Function.update_of_ne h]

@[simp] theorem Group.to_disk (g : Group) (p : Nat) (ph : Phase) (d : Disk) : (g.to p ph d).disk = d := rfl

theorem Group.to_phase_cases {g : Group} {p q : Nat} {ph ph' : Phase} {d : Disk}
    (h : (g.to p ph d).phase q = ph') : (q = p ∧ ph = ph') ∨ (q ≠ p ∧ g.phase q = ph') := by
  by_cases hq : q = p
  · subst hq; rw [Group.to_self] at h; exact .inl ⟨rfl, h⟩
  · rw [Group.to_of_ne _ _ _ hq] at h; exact .inr ⟨hq, h⟩

namespace Isolated

variable {may : Finset UInt32 → Prop} {g : Group} {inOp : Finset Nat} {p : Nat} {ph : Phase} {d : Disk}

variable (h : Isolated g inOp)

include h

theorem mem_insert (hph : ph.InOp) (q : Nat) : q ∈ insert p inOp ↔ ((g.to p ph d).phase q).InOp := by
  by_cases hq : q = p
  · subst hq; simp [Group.to_self, hph]
  · simp [Group.to_of_ne _ _ _ hq, hq, h.mem q]

theorem mem_erase (hph : ¬ ph.InOp) (q : Nat) : q ∈ inOp.erase p ↔ ((g.to p ph d).phase q).InOp := by
  by_cases hq : q = p
  · subst hq; simp [Group.to_self, hph]
  · simp [Group.to_of_ne _ _ _ hq, hq, h.mem q]

theorem mem_within (hp : (g.phase p).InOp) (hph : ph.InOp) (q : Nat) : q ∈ inOp ↔ ((g.to p ph d).phase q).InOp := by
  rw [← h.mem_insert hph q, insert_eq_self.mpr ((h.mem p).mpr hp)]

theorem no_commit (hc : g.disk.log.committing = false) {q rest} : g.phase q ≠ .committing rest := by
  intro hq
  have := h.flag q rest hq
  simp [hc] at this

theorem flag_down (hp : (g.phase p).InOp) : g.disk.log.committing = false := by
  cases hc : g.disk.log.committing with
  | false => rfl
  | true => have := (h.quiet hc).2 ▸ (h.mem p).mpr hp; simp at this

theorem cross {inOp' : Finset Nat} (hmem : ∀ q, q ∈ inOp' ↔ ((g.to p ph d).phase q).InOp)
    (hdown : g.disk.log.committing = false) (hc : d.log.committing = false)
    (hph : ∀ rest, ph ≠ .committing rest)
    (hcount : d.log.outstanding = if d.log.size = 0 then 0 else (inOp'.card : Int)) :
    Isolated (g.to p ph d) inOp' := by
  have hno : ∀ q rest, (g.to p ph d).phase q ≠ .committing rest := by
    intro q rest hq
    rcases Group.to_phase_cases hq with ⟨-, hq⟩ | ⟨-, hq⟩
    · exact hph rest hq
    · exact h.no_commit hdown hq
  refine ⟨hmem, hcount, ?_, ?_, ?_, ?_⟩
  · exact fun q rest hq => absurd hq (hno q rest)
  · exact fun q rest hq => absurd hq (hno q rest)
  · intro hc'; rw [Group.to_disk, hc] at hc'; cases hc'
  · exact fun q _ r _ hq _ => absurd hq (hno q r)

theorem within (hp : (g.phase p).InOp) (hph : ph.InOp) (hd : d.ctl = g.disk.ctl) : Isolated (g.to p ph d) inOp := by
  simp only [ctl, Prod.mk.injEq] at hd
  obtain ⟨hs, ho, hc⟩ := hd
  have hdown := h.flag_down hp
  refine h.cross (h.mem_within hp hph) hdown (hc.trans hdown) ?_ ?_
  · rintro rest rfl; exact hph
  · rw [hs, ho]; exact h.count

theorem last (hp : p ∈ inOp) (hs : g.disk.log.size ≠ 0)
    (hc : g.disk.log.committing = false) (ho : g.disk.log.outstanding = 1) :
    Isolated (g.to p (.committing commit) ((g.disk.setOut 0).setCommitting true)) (inOp.erase p) := by
  have hcard : inOp.card = 1 := by have := h.count; rw [if_neg hs] at this; omega
  have hempty : inOp.erase p = ∅ := by rw [← card_eq_zero, card_erase_of_mem hp, hcard]
  have only : ∀ {q rest}, (g.to p (.committing commit) ((g.disk.setOut 0).setCommitting true)).phase q =
    .committing rest → q = p ∧ commit = rest := by
    intro q rest hq
    rcases Group.to_phase_cases hq with ⟨hqp, hq⟩ | ⟨-, hq⟩
    · cases hq; exact ⟨hqp, rfl⟩
    · exact absurd hq (h.no_commit hc)
  refine ⟨h.mem_erase id, ?_, ?_, fun _ _ _ => rfl, fun _ => ⟨hs, hempty⟩, ?_⟩
  · simp [hempty]
  · intro q rest hq; obtain ⟨-, rfl⟩ := only hq; exact ⟨keeps_ctl_commit, calm_commit⟩
  · exact fun q q' r r' hq hq' => (only hq).1.trans (only hq').1.symm

theorem commit {old rest : Prog Disk LogEv Unit}
    (hp : g.phase p = .committing old) (hrest : Keeps Disk.ctl rest ∧ Calm rest)
    (hd : d.ctl = g.disk.ctl) : Isolated (g.to p (.committing rest) d) inOp := by
  simp only [ctl, Prod.mk.injEq] at hd
  obtain ⟨hs, ho, hc⟩ := hd
  have hpn : inOp.erase p = inOp := erase_eq_of_notMem fun hmem => by
    have := (h.mem p).mp hmem
    rwa [hp] at this
  have before : ∀ {q r}, (g.to p (.committing rest) d).phase q = .committing r → ∃ r, g.phase q = .committing r := by
    intro q r hq
    rcases Group.to_phase_cases hq with ⟨rfl, -⟩ | ⟨-, hq⟩
    · exact ⟨_, hp⟩
    · exact ⟨_, hq⟩
  refine ⟨fun q => by rw [← h.mem_erase id q, hpn], ?_, ?_, ?_, ?_, ?_⟩
  · rw [Group.to_disk, hs, ho]; exact h.count
  · intro q r hq
    rcases Group.to_phase_cases hq with ⟨-, hq⟩ | ⟨-, hq⟩
    · cases hq; exact hrest
    · exact h.rest q r hq
  · exact fun q r _ => hc.trans (h.flag p _ hp)
  · intro hc'; rw [Group.to_disk, hs]; exact h.quiet (hc.symm.trans hc')
  · intro q q' r r' hq hq'
    obtain ⟨r, hq⟩ := before hq
    obtain ⟨r', hq'⟩ := before hq'
    exact h.one q q' r r' hq hq'

theorem release {old : Prog Disk LogEv Unit} (hp : g.phase p = .committing old) :
    Isolated (g.to p .outside (g.disk.setCommitting false)) (inOp.erase p) := by
  obtain ⟨hs, rfl⟩ := h.quiet (h.flag p _ hp)
  have hno : ∀ q rest, (g.to p .outside (g.disk.setCommitting false)).phase q ≠ .committing rest := by
    intro q rest hq
    rcases Group.to_phase_cases hq with ⟨-, hq⟩ | ⟨hne, hq⟩
    · cases hq
    · exact hne (h.one q p _ _ hq hp)
  refine ⟨h.mem_erase id, ?_, ?_, ?_, ?_, ?_⟩
  · simpa using h.count
  · exact fun q rest hq => absurd hq (hno q rest)
  · exact fun q rest hq => absurd hq (hno q rest)
  · intro hc; simp at hc
  · exact fun q _ r _ hq _ => absurd hq (hno q r)

theorem step (hm : Moved may g p ph d) : ∃ inOp', Isolated (g.to p ph d) inOp' := by
  have hin : ∀ {used}, g.phase p = .inside used → p ∈ inOp := fun hp => (h.mem p).mpr (by rw [hp]; trivial)
  have hcount := h.count
  cases hm with
  | enterNoLog hp hs =>
    have hdown : g.disk.log.committing = false := by
      cases hc : g.disk.log.committing with
      | false => rfl
      | true => exact absurd hs (h.quiet hc).1
    refine ⟨_, h.cross (h.mem_insert trivial) hdown hdown (by simp) ?_⟩
    rwa [if_pos hs] at hcount ⊢
  | enter hp hs hc hn =>
    have hout : p ∉ inOp := fun hmem => by
      have := (h.mem p).mp hmem
      rwa [hp] at this
    refine ⟨_, h.cross (h.mem_insert trivial) hc hc (by simp) ?_⟩
    rw [if_neg hs] at hcount
    rw [setOut_outstanding, setOut_size, if_neg hs, card_insert_of_notMem hout]
    push_cast
    omega
  | test x hp _ _ | bwrite x hp _ => exact ⟨_, h.within (by rw [hp]; trivial) trivial rfl⟩
  | append hp => exact ⟨_, h.within (by rw [hp]; trivial) trivial (logAppend_ctl _ _)⟩
  | leaveNoLog hp hs =>
    have hdown := h.flag_down (p := p) (by rw [hp]; trivial)
    refine ⟨_, h.cross (h.mem_erase id) hdown hdown (by simp) ?_⟩
    rwa [if_pos hs] at hcount ⊢
  | leave hp hs hc ho =>
    refine ⟨_, h.cross (h.mem_erase id) hc hc (by simp) ?_⟩
    have hpos := card_pos.mpr ⟨p, hin hp⟩
    rw [if_neg hs] at hcount
    rw [setOut_outstanding, setOut_size, if_neg hs, card_erase_of_mem (hin hp)]
    omega
  | last hp hs hc ho => exact ⟨_, h.last (hin hp) hs hc ho⟩
  | commit hp hf =>
    obtain ⟨hkeeps, hcalm⟩ := h.rest p _ hp
    exact ⟨_, h.commit hp ⟨hkeeps.2 _, hcalm.2 _⟩ (hkeeps.1 _ _ _ hf)⟩
  | release hp => exact ⟨_, h.release hp⟩

end Isolated

theorem isolated_start {d} (hd : Fresh d) : Isolated (.start d) ∅ := by
  refine ⟨fun p => by simp [Group.start, Phase.InOp], ?_, ?_, ?_, ?_, ?_⟩
  · simpa [Group.start] using hd.outstanding
  · intro p rest hp; cases hp
  · intro p rest hp; cases hp
  · intro hc; simp [Group.start, hd.committing] at hc
  · intro p q r r' hp; cases hp

theorem Reachable.isolated {may d} (hd : Fresh d) {g} (h : Reachable may d g) : ∃ inOp, Isolated g inOp := by
  refine h.invariant (I := fun g => ∃ inOp, Isolated g inOp) ⟨∅, isolated_start hd⟩ ?_
  rintro g g' p ⟨inOp, hI⟩ hs
  obtain ⟨ph, d, hm, rfl⟩ := hs.moved
  exact hI.step hm

/-- Isolation of group commits, for a log of any size and operations of any size. -/
theorem commit_isolated {may : Finset UInt32 → Prop} {d : Disk} (hd : Fresh d) {g : Group} (h : Reachable may d g) :
    (∀ p rest, g.phase p = .committing rest → g.disk.log.outstanding = 0) ∧
    (g.disk.log.committing = true → ∀ p, ¬ (g.phase p).InOp) ∧
    (∀ p rest, g.phase p = .committing rest → g.disk.log.committing = true) ∧
    (∀ p, ¬ Step may g p (.panic "log->committing")) ∧
    0 ≤ g.disk.log.outstanding ∧
    (∀ p q r r', g.phase p = .committing r → g.phase q = .committing r' → p = q) := by
  obtain ⟨inOp, hI⟩ := h.isolated hd
  refine ⟨fun p rest hp => ?_, fun hc p hp => ?_, hI.flag, fun p hs => ?_, ?_, hI.one⟩
  · have hcount := hI.count; obtain ⟨-, rfl⟩ := hI.quiet (hI.flag p rest hp); simpa using hcount
  · rw [← hI.mem p, (hI.quiet hc).2] at hp; simp at hp
  · rcases hs.panic_cases with ⟨used, hp, -, hmsg⟩ | ⟨used, hp, -, hc⟩ | ⟨rest, hp, hcalm⟩
    · simp at hmsg
    · have := hI.flag_down (p := p) (by rw [hp]; trivial); simp [hc] at this
    · exact hcalm (hI.rest p rest hp).2
  · rw [hI.count]
    split <;> simp

def idleDisk : Disk where
  present := true
  mounted := true
  sb := ⟨100, 60, 16, 30, 2, 32, 34⟩
  log := ⟨2, 30, 0, false, []⟩
  cache := fun _ => Bytes.zero
  platter := fun _ => Bytes.zero
  busy := fun _ => false

theorem fresh_idleDisk : Fresh idleDisk := ⟨rfl, rfl, rfl⟩

theorem commit_isolated_idleDisk : ∃ g, Reachable (fun _ => True) idleDisk g ∧ g.disk.log.committing = true ∧
      g.disk.log.lh = [50] ∧ ∀ p, ¬ (g.phase p).InOp := by
  have h1 : Reachable (fun _ => True) idleDisk _ := .step .start (.beginOp (p := 7) rfl)
  have h2 := h1.step (.logWrite (b := 50) (fun _ => 1) (p := 7) rfl trivial (by decide))
  have h3 := h2.step (.logAppend (p := 7) rfl)
  have h4 := h3.step (.endOp (p := 7) rfl)
  exact ⟨_, h4, rfl, rfl, (commit_isolated fresh_idleDisk h4).2.1 rfl⟩

end Log

end Xv6Vsd
