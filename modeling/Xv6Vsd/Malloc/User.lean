import Xv6Vsd.Malloc.Model

/-! # The allocator of the library (`umalloc.c`) -/

namespace Xv6Vsd.Malloc

open FreeList

def morecore (base : Nat) : Source := ⟨base, 4096, fun nu => nu⟩

def malloc (base : Nat) (s : State) (nbytes : UInt32) (answers : List (Option Nat)) : Option (Option Nat × State) :=
  (morecore base).malloc s nbytes answers

def cfree (s : State) (x : Extent × Nat) : Option State := s.free x

def Positive (nbytes : UInt32) : Prop := header * ((nbytes.toNat + 7) / 8 + 1) < 2 ^ 31

def Above (base : Nat) (s : State) (nbytes : UInt32) (q : Nat) : Prop :=
  base + header ≤ q ∧ q + header * (morecore base).asked nbytes ≤ limit ∧ ∀ r ∈ s.memory, r.stop ≤ q

def UserStep (base : Nat) (s : State) : Act → Prop
  | .malloc nbytes answers => Positive nbytes ∧ ∀ q, answers.head? = some (some q) → Above base s nbytes q
  | .free _ => True

structure WellKept (base : Nat) (s : State) : Prop where
  good : Good base s
  mallocs : ∀ nbytes answers, UserStep base s (.malloc nbytes answers) → ∃ r s', malloc base s nbytes answers =
    some (r, s')
  frees : ∀ y ∈ s.live, ∃ s', cfree s y = some s'

section

variable {base : Nat} {s s' : State} {nbytes : UInt32} {answers : List (Option Nat)}

theorem Positive.room (h : Positive nbytes) : nbytes.toNat + 7 < 2 ^ 32 := by
  simp only [Positive, header] at h; omega

theorem Above.fresh {q} (h : Above base s nbytes q) : (morecore base).Fresh s nbytes q := by
  obtain ⟨h1, h2, h3⟩ := h
  refine ⟨h1, h2, fun x hx hc => ?_⟩
  obtain ⟨r, hr, -, hlt⟩ := hc
  have hq : q ≤ x := hx.1
  have := h3 r hr
  omega

theorem Good.user_malloc (h : Good base s) (hbase : 0 < base) (hok : UserStep base s (.malloc nbytes answers)) :
    ∃ r s', malloc base s nbytes answers = some (r, s') ∧ ∃ l', Sound base s' l' :=
  Good.request (morecore base) h hbase hok.1.room rfl fun q hq => (hok.2 q hq).fresh

theorem Good.user_act {a} (h : Good base s) (hbase : 0 < base) (hok : UserStep base s a)
    (he : (morecore base).act s a = some s') : Good base s' :=
  h.act (fun _ _ ha => h.user_malloc hbase (ha ▸ hok)) he

/-- The free blocks are a ring in the order of their addresses, they make up the memory with the
blocks in use, and every call ends. -/
theorem malloc_well_kept (hbase : 0 < base) (h : Run (morecore base).act (UserStep base) start s) :
    WellKept base s := by
  have hgood : Good base s := h.invariant (.inl ⟨rfl, rfl, rfl⟩) fun _ _ _ hg hok ha => hg.user_act hbase hok ha
  refine ⟨hgood, fun nbytes answers hok => ?_, fun y hy => ?_⟩
  · obtain ⟨r, s', he, -⟩ := hgood.user_malloc hbase hok; exact ⟨r, s', he⟩
  · obtain ⟨s', he, -⟩ := hgood.release hy; exact ⟨s', he⟩

end

instance (nbytes : UInt32) : Decidable (Positive nbytes) := inferInstanceAs (Decidable (_ < _))

instance (base : Nat) (s : State) (nbytes : UInt32) (q : Nat) : Decidable (Above base s nbytes q) :=
  inferInstanceAs (Decidable (_ ∧ _ ∧ _))

instance (base : Nat) (s : State) (a : Act) : Decidable (UserStep base s a) := match a with
  | .malloc nbytes (some q :: _) => decidable_of_iff (Positive nbytes ∧ Above base s nbytes q) (by simp [UserStep])
  | .malloc nbytes [] | .malloc nbytes (none :: _) => decidable_of_iff (Positive nbytes) (by simp [UserStep])
  | .free _ => .isTrue trivial

theorem malloc_well_kept_two : ∃ s, 0 < 16 ∧ Run (morecore 16).act (UserStep 16) start s ∧
    s.live = [(⟨36808, 4⟩, 20)] ∧ WellKept 16 s := by
  obtain ⟨s, hrun, hs⟩ : ∃ s, Run (morecore 16).act (UserStep 16) start s ∧ s.live = [(⟨36808, 4⟩, 20)] :=
    exists_run [.malloc 10 [some 4096], .malloc 20 [], .free (⟨36840, 3⟩, 10)] (by decide +kernel)
  exact ⟨s, by decide, hrun, hs, malloc_well_kept (by decide) hrun⟩

end Xv6Vsd.Malloc
