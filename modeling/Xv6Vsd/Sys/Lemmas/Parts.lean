import Xv6Vsd.Fs.Lemmas.Spec
import Xv6Vsd.Sys.Exec

/-! # Parts of the system calls -/

namespace Xv6Vsd

open Prog

theorem Flow.isdirempty {J : {α : Type} → K α → Prop} {r} (hJ : Flow J r) : J (isdirempty r) := by
  have hloop : ∀ fuel off, J (isdiremptyFrom r fuel off) := by
    intro fuel
    induction fuel with
    | zero => exact fun off => hJ.done _
    | succ fuel ih =>
      intro off
      refine hJ.bind hJ.inode fun ip => ?_
      split
      · refine hJ.bind hJ.readDirent fun de => ?_
        split
        · exact hJ.done _
        · exact ih _
      · exact hJ.done _
  exact hJ.bind hJ.inode fun ip => hloop _ _

structure Steady (J : {α : Type} → K α → Prop) : Prop where
  done {α : Type} (a : α) : J (pure a : K α)
  bind {α β : Type} {p : K α} {q : α → K β} : J p → (∀ a, J (q a)) → J (p >>= q)
  panic {α : Type} (msg : String) : J (panic msg : K α)
  peek {α : Type} (f : Kernel → α) : J (peek f)
  inode (r : IRef) : J (inode r)
  seterr (p : Nat) (msg : String) : J (seterr p msg)

namespace Steady

variable {J : {α : Type} → K α → Prop} (hJ : Steady J)
include hJ

theorem onlyIf {c} [Decidable c] {p} (hp : J p) : J (onlyIf c p) := by
  unfold Xv6Vsd.onlyIf
  split
  · exact hp
  · exact hJ.done ()

variable {ip : IRef} (hread : ∀ off n, J (readi ip off n))
include hread

theorem loaduvm (vm addr off sz) : J (loaduvm vm ip addr off sz) := by
  have hloop : ∀ fuel i, J (loaduvmFrom vm ip addr off sz.toNat fuel i) := by
    intro fuel
    induction fuel with
    | zero => exact fun i => hJ.done true
    | succ fuel ih =>
      intro i
      unfold loaduvmFrom
      split
      · split
        · exact hJ.panic _
        refine hJ.bind (hread _ _) fun res => ?_
        dsimp only
        split
        · exact hJ.done false
        · exact ih _
      · exact hJ.done true
  unfold Xv6Vsd.loaduvm
  split
  · exact hJ.panic _
  · exact hloop _ _

theorem loadHeaders (p vm left i off sz) : J (loadHeaders p vm ip left i off sz) := by
  induction left generalizing i off sz with
  | zero => exact hJ.done true
  | succ left ih =>
    have hfail : ∀ msg, J (Xv6Vsd.seterr p msg >>= fun _ => (pure false : K Bool)) :=
      fun msg => hJ.bind (hJ.seterr p msg) fun _ => hJ.done false
    refine hJ.bind (hread _ _) fun res => ?_
    dsimp only
    split
    · exact hfail _
    split
    · exact ih _ _ _
    split
    · exact hfail _
    split
    · exact hfail _
    refine hJ.bind (hJ.loaduvm hread vm _ _ _) fun loaded => ?_
    split
    · exact hfail _
    · exact ih _ _ _

theorem loadImage (p vm) : J (loadImage p vm ip) := by
  have hfail : ∀ msg, J (Xv6Vsd.seterr p msg >>= fun _ => (pure false : K Bool)) :=
    fun msg => hJ.bind (hJ.seterr p msg) fun _ => hJ.done false
  refine hJ.bind (hJ.inode ip) fun x => hJ.bind (hJ.peek _) fun denied => hJ.bind (hJ.peek _) fun single => ?_
  split
  · exact hfail _
  refine hJ.bind (hread _ _) fun res => ?_
  dsimp only
  split
  · exact hJ.done false
  split
  · exact hfail _
  split
  · exact hfail _
  · exact hJ.loadHeaders hread p vm _ _ _ _

end Steady

/-! ## The file table -/

section

variable {s s' : Kernel} {p f : Nat}

theorem filealloc_ok {o} (h : filealloc.exec s = .ok o s') : s'.disk = s.disk ∧ s'.icache = s.icache ∧
      ∀ f, o = some f → s'.file f = some ⟨.none, 1, false, false, ⟨0, 0⟩, 0⟩ := by
  rw [filealloc, exec_tau] at h
  split at h
  · cases h
    refine ⟨rfl, rfl, fun f hf => ?_⟩
    cases hf
    simp [Kernel.setFile]
  · cases h; exact ⟨rfl, rfl, by simp⟩

theorem fdalloc_ok {o} (h : (fdalloc p f).exec s = .ok o s') :
    s'.disk = s.disk ∧ s'.icache = s.icache ∧ s'.file = s.file := by
  obtain ⟨fd, s1, h1, h2⟩ := bind_ok h
  obtain ⟨_, s2, h3, h4⟩ := bind_ok h2
  cases h4
  rw [exec_tau] at h1
  have hs : s1.disk = s.disk ∧ s1.icache = s.icache ∧ s1.file = s.file := by
    split at h1
    · cases h1; exact ⟨rfl, rfl, rfl⟩
    · cases h1; exact ⟨rfl, rfl, rfl⟩
  obtain ⟨-, h3⟩ | ⟨-, rfl⟩ := onlyIf_ok h3
  · rw [seterr, modProc, exec_poke] at h3; cases h3; exact hs
  · exact hs

theorem fileclose_fresh {x u} (hf : s.file f = some x) (ht : x.type = .none) (h : (fileclose f).exec s = .ok u s') :
    s'.disk = s.disk ∧ s'.icache = s.icache := by
  obtain ⟨ff, s1, h1, h2⟩ := bind_ok h
  rw [exec_tau, hf] at h1
  dsimp only at h1
  split at h1
  · cases h1
  split at h1
  · cases h1; cases h2; exact ⟨rfl, rfl⟩
  cases h1
  obtain ⟨hc, -⟩ | ⟨-, rfl⟩ := onlyIf_ok h2
  · rw [ht] at hc; cases hc
  · exact ⟨rfl, rfl⟩

end

end Xv6Vsd
