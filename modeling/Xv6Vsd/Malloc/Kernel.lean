import Mathlib.Logic.Function.Iterate
import Xv6Vsd.Malloc.Model

/-!
# The allocator of the kernel (`kalloc.c`)

`mehrader` takes one page, whatever the number of units that it writes into the header.
-/

namespace Xv6Vsd.Malloc

open FreeList List

abbrev pgsize : Nat := 4096

abbrev nalloc : Nat := pgsize / header

/-- `mehrader` writes `NALLOC` units at least into the header of the page that `kalloc` gives. -/
def mehrader (base : Nat) : Source := ⟨base, nalloc, fun _ => nalloc⟩

def kmalloc (base : Nat) (s : State) (nbytes : UInt32) (answers : List (Option Nat)) : Option (Option Nat × State) :=
  (mehrader base).malloc s nbytes answers

def kmfree (s : State) (x : Extent × Nat) : Option State := s.free x

def Unused (base : Nat) (s : State) (q : Nat) : Prop :=
  base + header ≤ q ∧ q % pgsize = 0 ∧ q + pgsize ≤ limit ∧ ∀ r ∈ s.memory, r.stop ≤ q ∨ q + pgsize ≤ r.addr

def KernelStep (base : Nat) (s : State) : Act → Prop
  | .malloc _ answers => ∀ q, answers.head? = some (some q) → Unused base s q
  | .free _ => True

def Modest (base : Nat) (s : State) : Act → Prop
  | .malloc nbytes answers => nbytes.toNat ≤ pgsize - header ∧ KernelStep base s (.malloc nbytes answers)
  | .free _ => True

structure Honest (base : Nat) (s : State) : Prop where
  enough : ∀ y ∈ s.live, y.2 + header ≤ header * y.1.units
  inside : ∀ y ∈ s.live, ∀ x, y.1.Has x → Covers s.memory x
  disjoint : s.live.Pairwise fun y z => ∀ x, y.1.Has x → ¬ z.1.Has x
  headers : ∀ y ∈ s.live, ∀ k x, y.1.Has x → ¬ (⟨s.heap.ptr^[k] s.heap.freep, 1⟩ : Extent).Has x
  ends : ∀ nbytes answers, Modest base s (.malloc nbytes answers) → ∃ r s', kmalloc base s nbytes answers = some (r, s')

section

variable {base : Nat} {s s' : State} {nbytes : UInt32} {answers : List (Option Nat)} {l : List Extent}

theorem Unused.fresh {q} (h : Unused base s q) : (mehrader base).Fresh s nbytes q := by
  obtain ⟨h1, -, h3, h4⟩ := h
  refine ⟨h1, h3, fun x hx hc => ?_⟩
  obtain ⟨r, hr, hle, hlt⟩ := hc
  have hq : q ≤ x ∧ x < q + 4096 := hx
  have := h4 r hr
  simp only [pgsize] at this
  omega

theorem Good.kernel_malloc (h : Good base s) (hbase : 0 < base) (hok : Modest base s (.malloc nbytes answers)) :
    ∃ r s', kmalloc base s nbytes answers = some (r, s') ∧ ∃ l', Sound base s' l' := by
  obtain ⟨hle, hpage⟩ := hok
  simp only [pgsize, header] at hle
  have hroom : nbytes.toNat + 7 < 2 ^ 32 := by omega
  refine Good.request (mehrader base) h hbase hroom ?_ fun q hq => (hpage q hq).fresh
  -- what the header says is what a page has
  have hn : nunits nbytes ≤ 512 := by rw [toNat_nunits hroom]; omega
  exact (Nat.max_eq_left hn).symm

theorem Good.kernel_act {a} (h : Good base s) (hbase : 0 < base) (hok : Modest base s a)
    (he : (mehrader base).act s a = some s') : Good base s' :=
  h.act (fun _ _ ha => h.kernel_malloc hbase (ha ▸ hok)) he

theorem Sound.reached (h : Sound base s l) (k : Nat) : s.heap.ptr^[k] s.heap.freep ∈ base :: l.map Extent.addr := by
  induction k with
  | zero => exact h.ring.freep
  | succ k ih =>
    rw [Function.iterate_succ_apply']
    obtain ⟨c, hc, heq⟩ := mem_map.mp (show _ ∈ (⟨base, 0⟩ :: l).map Extent.addr from ih)
    obtain ⟨A, B, he⟩ := append_of_mem hc
    rw [← heq, h.ring.ptr he]
    cases B with
    | nil => exact mem_cons_self
    | cons e B =>
      have hel : e ∈ ⟨base, 0⟩ :: l := by rw [he]; simp
      exact mem_map_of_mem (f := Extent.addr) hel

theorem Sound.headers (h : Sound base s l) {y} (hy : y ∈ s.live) (k x : Nat) (hx : y.1.Has x) :
    ¬ (⟨s.heap.ptr^[k] s.heap.freep, 1⟩ : Extent).Has x := by
  intro hh
  have hmem := h.reached k
  simp only [Extent.Has, Extent.stop, FreeList.header] at hh
  rw [mem_cons, mem_map] at hmem
  obtain heq | ⟨b, hb, heq⟩ := hmem
  · -- the header `base` is below all memory
    have habove := (h.bounds (h.pos hy) fun x hx => (h.covers x).mp (.inr ⟨y, hy, hx⟩)).1
    have := hx.1
    simp only [FreeList.header] at habove
    omega
  · refine h.apart x ⟨y, hy, hx⟩ ⟨b, hb, ?_⟩
    have := h.ring.pos b hb
    simp only [Extent.Has, Extent.stop, FreeList.header]
    omega

theorem Good.honest (h : Good base s) (hbase : 0 < base) : Honest base s := by
  have hends : ∀ nbytes answers, Modest base s (.malloc nbytes answers) →
    ∃ r s', kmalloc base s nbytes answers = some (r, s') := by
    intro nbytes answers hok
    obtain ⟨r, s', he, -⟩ := h.kernel_malloc hbase hok
    exact ⟨r, s', he⟩
  obtain ⟨-, hlive, -⟩ | ⟨l, hl⟩ := h
  · refine ⟨?_, ?_, ?_, ?_, hends⟩
    · simp [hlive]
    · simp [hlive]
    · simp [hlive]
    · simp [hlive]
  · exact ⟨hl.enough, fun y hy x hx => (hl.covers x).mp (.inr ⟨y, hy, hx⟩), hl.disjoint,
      fun y hy k x hx => hl.headers hy k x hx, hends⟩

/-- As long as every request fits into a page the kernel hands out only memory it has. -/
theorem kmalloc_honest (hbase : 0 < base) (h : Run (mehrader base).act (Modest base) start s) : Honest base s :=
  Good.honest (h.invariant (.inl ⟨rfl, rfl, rfl⟩) fun _ _ _ hg hok ha => hg.kernel_act hbase hok ha) hbase

end

instance (base : Nat) (s : State) (q : Nat) : Decidable (Unused base s q) := inferInstanceAs (Decidable (_ ∧ _ ∧ _ ∧ _))

instance (base : Nat) (s : State) (a : Act) : Decidable (KernelStep base s a) := match a with
  | .malloc _ (some q :: _) => decidable_of_iff (Unused base s q) (by simp [KernelStep])
  | .malloc _ [] | .malloc _ (none :: _) | .free _ => .isTrue (by simp [KernelStep])

instance (base : Nat) (s : State) (a : Act) : Decidable (Modest base s a) := by
  unfold Modest
  split <;> infer_instance

theorem kmalloc_honest_two : ∃ s, 0 < 16 ∧ Run (mehrader 16).act (Modest 16) start s ∧
    s.live = [(⟨8160, 512⟩, 4088), (⟨12256, 4⟩, 20)] ∧ Honest 16 s := by
  obtain ⟨s, hrun, hs⟩ : ∃ s, Run (mehrader 16).act (Modest 16) start s ∧
      s.live = [(⟨8160, 512⟩, 4088), (⟨12256, 4⟩, 20)] :=
    exists_run [.malloc 20 [some 8192], .malloc 4088 [some 4096]] (by decide +kernel)
  exact ⟨s, by decide, hrun, hs, kmalloc_honest (by decide) hrun⟩

/-- A request for 5000 bytes gets a block of 5008 bytes in a page of 4096. -/
theorem kmalloc_beyond_page : ∃ s, Run (mehrader 16).act (KernelStep 16) start s ∧
    s.live = [(⟨4096, 626⟩, 5000)] ∧ s.memory = [⟨4096, 512⟩] ∧ ¬ Honest 16 s := by
  obtain ⟨s, hrun, hlive, hmem⟩ : ∃ s, Run (mehrader 16).act (KernelStep 16) start s ∧
      s.live = [(⟨4096, 626⟩, 5000)] ∧ s.memory = [⟨4096, 512⟩] :=
    exists_run [.malloc 5000 [some 4096]] (by decide +kernel)
  refine ⟨s, hrun, hlive, hmem, fun h => ?_⟩
  obtain ⟨r, hr, hle, hlt⟩ := h.inside (⟨4096, 626⟩, 5000) (by simp [hlive]) 8192 ⟨by decide, by decide⟩
  rw [hmem, mem_singleton] at hr
  subst hr
  exact absurd hlt (by decide)

end Xv6Vsd.Malloc
