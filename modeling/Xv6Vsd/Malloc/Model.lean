import Mathlib.Algebra.Group.Nat.Defs
import Xv6Vsd.Lib.FreeBlocks
import Xv6Vsd.Lib.Run

/-!
# The allocators (`umalloc.c`, `kalloc.c`)

`malloc` of the library and `kmalloc` of the kernel are one piece of code with two sources of memory: `morecore`
takes what it asks `sbrk` for, `mehrader` takes a page from `kalloc` whatever it needs. `limit` bounds the turns of
their loops; a call that runs out of it stands for one that never ends.
-/

namespace Xv6Vsd.Malloc

open FreeList List Function

structure Source where
  base : Nat
  least : Nat
  given : Nat → Nat

abbrev limit : Nat := 2 ^ 32

structure State where
  heap : Heap
  /-- the blocks in use, each with the number of bytes it was requested for -/
  live : List (Extent × Nat)
  memory : List Extent

def nunits (nbytes : UInt32) : Nat := ((nbytes + 7) / 8 + 1).toNat

namespace Source

variable (src : Source)

def ready (h : Heap) : Heap :=
  if h.freep = 0 then ⟨update h.ptr src.base src.base, update h.size src.base 0, src.base⟩ else h

def asked (nbytes : UInt32) : Nat := max src.least (nunits nbytes)

def malloc (s : State) (nbytes : UInt32) (answers : List (Option Nat)) : Option (Option Nat × State) :=
  ((src.ready s.heap).alloc limit (nunits nbytes) (src.asked nbytes) answers).map fun (r, h, got) =>
    (r, { heap := h
          live := r.toList.map (fun a => (⟨a, nunits nbytes⟩, nbytes.toNat)) ++ s.live
          memory := regions (src.given (src.asked nbytes)) got ++ s.memory })

end Source

def State.free (s : State) (x : Extent × Nat) : Option State :=
  (s.heap.free limit x.1.addr).map fun h => { s with heap := h, live := s.live.erase x }

inductive Act where
  | malloc (nbytes : UInt32) (answers : List (Option Nat))
  | free (x : Extent × Nat)

def Source.act (src : Source) (s : State) : Act → Option State
  | .malloc nbytes answers => (src.malloc s nbytes answers).map Prod.snd
  | .free x => if x ∈ s.live then s.free x else none

def start : State := ⟨⟨fun _ => 0, fun _ => 0, 0⟩, [], []⟩

/-! ## What the heap looks like -/

def State.Live (s : State) (x : Nat) : Prop := ∃ y ∈ s.live, y.1.Has x

structure Sound (base : Nat) (s : State) (l : List Extent) : Prop where
  ring : s.heap.Ring base l
  header : ∀ y ∈ s.live, s.heap.size y.1.addr = y.1.units
  enough : ∀ y ∈ s.live, y.2 + FreeList.header ≤ FreeList.header * y.1.units
  disjoint : s.live.Pairwise fun y z => ∀ x, y.1.Has x → ¬ z.1.Has x
  apart : ∀ x, s.Live x → ¬ Covers l x
  covers : ∀ x, Covers l x ∨ s.Live x ↔ Covers s.memory x
  memory : ∀ r ∈ s.memory, base + FreeList.header ≤ r.addr ∧ r.stop ≤ limit

def Good (base : Nat) (s : State) : Prop := (s.heap.freep = 0 ∧ s.live = [] ∧ s.memory = []) ∨ ∃ l, Sound base s l

def Source.Fresh (src : Source) (s : State) (nbytes : UInt32) (q : Nat) : Prop :=
  src.base + header ≤ q ∧ (⟨q, src.given (src.asked nbytes)⟩ : Extent).stop ≤ limit ∧
    ∀ x, (⟨q, src.given (src.asked nbytes)⟩ : Extent).Has x → ¬ Covers s.memory x

section

variable {src : Source} {base : Nat} {s s' : State} {l : List Extent} {b : Extent} {y : Extent × Nat} {x : Nat}

variable (h : Sound base s l)

include h

theorem Sound.pos (hy : y ∈ s.live) : 0 < y.1.units := by
  have := h.enough y hy
  simp only [FreeList.header] at this
  omega

theorem Sound.live (hy : y ∈ s.live) : s.Live y.1.addr := ⟨y, hy, Extent.has_addr (h.pos hy)⟩

theorem Sound.bounds (hpos : 0 < b.units) (hb : ∀ x, b.Has x → Covers s.memory x) :
    base + FreeList.header ≤ b.addr ∧ b.stop ≤ limit := by
  obtain ⟨r, hr, hle, -⟩ := hb b.addr (Extent.has_addr hpos)
  have hlast : b.Has (b.stop - 1) := by simp only [Extent.Has, Extent.stop, FreeList.header]; omega
  obtain ⟨r', hr', -, hlt⟩ := hb _ hlast
  obtain ⟨h1, -⟩ := h.memory r hr
  obtain ⟨-, h2⟩ := h.memory r' hr'
  refine ⟨by omega, ?_⟩
  omega

omit h in
theorem length_le_of_gaps {lo hi} (hg : l.Pairwise Extent.Gap) (hpos : ∀ b ∈ l, 0 < b.units)
    (hlo : ∀ b ∈ l, lo ≤ b.addr)
    (hhi : ∀ b ∈ l, b.stop ≤ hi) (hle : lo ≤ hi) : lo + header * l.length ≤ hi := by
  induction l generalizing lo with
  | nil => simpa using hle
  | cons b l ih =>
      obtain ⟨hb, hg⟩ := pairwise_cons.mp hg
      have hmem : ∀ c ∈ l, c ∈ b :: l := fun c hc => mem_cons_of_mem _ hc
      have hrest := ih hg (fun c hc => hpos c (hmem c hc)) (fun c hc => Nat.le_of_lt (hb c hc))
        (fun c hc => hhi c (hmem c hc))
        (hhi b mem_cons_self)
      have h1 := hpos b mem_cons_self
      have h2 := hlo b mem_cons_self
      simp only [Extent.stop, header, length_cons] at hrest ⊢
      omega

theorem Sound.length : l.length + 1 < limit := by
  have hb : ∀ b ∈ l, base + FreeList.header ≤ b.addr ∧ b.stop ≤ limit := fun b hb =>
    h.bounds (h.ring.pos b hb) fun x hx => (h.covers x).mp (.inl ⟨b, hb, hx⟩)
  cases hl : l with
  | nil => decide
  | cons c l' =>
      have hc : c ∈ l := by rw [hl]; exact mem_cons_self
      have := length_le_of_gaps (pairwise_cons.mp h.ring.gaps).2 h.ring.pos (fun b h => (hb b h).1)
        (fun b h => (hb b h).2)
        (Nat.le_trans (hb c hc).1 (Nat.le_trans c.addr_le_stop (hb c hc).2))
      rw [← hl]
      simp only [FreeList.header, limit] at this ⊢
      omega

/-! ## Freeing -/

theorem Sound.others (hy : y ∈ s.live) :
    (∀ x, s.Live x ↔ y.1.Has x ∨ ∃ z ∈ s.live.erase y, z.1.Has x) ∧
      (∀ z ∈ s.live.erase y, ∀ x, y.1.Has x → ¬ z.1.Has x) ∧
      (s.live.erase y).Pairwise fun y z => ∀ x, y.1.Has x → ¬ z.1.Has x := by
  have hperm : s.live.Perm (y :: s.live.erase y) := perm_cons_erase hy
  have hpair : (y :: s.live.erase y).Pairwise fun y z => ∀ x, y.1.Has x → ¬ z.1.Has x :=
    (hperm.pairwise_iff fun {y z} hyz x hz hy => hyz x hy hz).mp h.disjoint
  obtain ⟨hfirst, hrest⟩ := pairwise_cons.mp hpair
  refine ⟨fun x => ?_, hfirst, hrest⟩
  rw [State.Live]
  simp only [hperm.mem_iff, mem_cons, exists_eq_or_imp]

theorem Sound.free (hy : y ∈ s.live) : ∃ s', s.free y = some s' ∧ ∃ l', Sound base s' l' := by
  have hpos := h.pos hy
  have habove : ∀ z ∈ s.live, base + FreeList.header ≤ z.1.addr := fun z hz =>
    (h.bounds (h.pos hz) fun x hx => (h.covers x).mp (.inr ⟨z, hz, hx⟩)).1
  have hbase := habove y hy
  simp only [FreeList.header] at habove hbase
  obtain ⟨h', l', he, hring, hcov, hframe, -⟩ := h.ring.free (h.header y hy) hpos (by omega)
    (fun x hx => h.apart x ⟨y, hy, hx⟩) (Nat.lt_of_succ_lt h.length)
  obtain ⟨hlive, hfirst, hrest⟩ := h.others hy
  refine ⟨{ s with heap := h', live := s.live.erase y }, by rw [State.free, he]; rfl, l', hring, fun z hz => ?_,
    fun z hz => ?_,
    hrest, fun x hx hc => ?_, fun x => ?_, h.memory⟩
  · have hzl := mem_of_mem_erase hz
    rw [← h.header z hzl]
    have hz0 := habove z hzl
    apply hframe
    · omega
    · intro heq
      have hown := Extent.has_addr (h.pos hzl)
      refine hfirst z hz z.1.addr ?_ hown
      rw [heq]
      exact Extent.has_addr hpos
    · exact h.apart _ (h.live hzl)
  · exact h.enough z (mem_of_mem_erase hz)
  · rw [hcov] at hc
    obtain hc | hc := hc
    · exact h.apart x ((hlive x).mpr (.inr hx)) hc
    · obtain ⟨z, hz, hzx⟩ := hx; exact hfirst z hz x hc hzx
  · rw [← h.covers x, hcov, hlive, or_assoc]; rfl

omit h

/-! ## Allocating -/

theorem Good.ready (h : Good src.base s) (hbase : 0 < src.base) :
    ∃ l, Sound src.base { s with heap := src.ready s.heap } l := by
  obtain ⟨hnil, hlive, hmem⟩ | ⟨l, hl⟩ := h
  · refine ⟨[], ⟨?_, pairwise_singleton .., fun b hb => (by cases hb), ?_⟩, ?_, ?_, ?_, ?_, fun x => ?_, ?_⟩
    · rw [Source.ready, if_pos hnil]
      exact ⟨update_self .., update_self .., trivial⟩
    · rw [Source.ready, if_pos hnil]; exact mem_cons_self
    · simp [hlive]
    · simp [hlive]
    · simp [hlive]
    · simp [State.Live, hlive]
    · simp [State.Live, Covers, hlive, hmem]
    · simp [hmem]
  · refine ⟨l, ?_⟩
    have hne : s.heap.freep ≠ 0 := by
      have hmem := hl.ring.freep
      rw [mem_cons, mem_map] at hmem
      obtain heq | ⟨b, hb, heq⟩ := hmem
      · omega
      · have := hl.ring.base_lt hb; omega
    rw [Source.ready, if_neg hne]
    exact hl

theorem toNat_nunits {nbytes} (h : nbytes.toNat + 7 < 2 ^ 32) : nunits nbytes = (nbytes.toNat + 7) / 8 + 1 := by
  rw [nunits]
  simp
  omega

theorem Sound.served {n nu bytes answers r h' got l'}
    (h : Sound base s l) (hv : Served s.heap base l n nu answers r h' got l')
      (henough : bytes + FreeList.header ≤ FreeList.header * n)
    (hfresh : ∀ q ∈ got, base + FreeList.header ≤ q ∧ (⟨q, nu⟩ : Extent).stop ≤ limit ∧
      ∀ x, (⟨q, nu⟩ : Extent).Has x → ¬ Covers s.memory x) :
    Sound base ⟨h', r.toList.map (fun a => (⟨a, n⟩, bytes)) ++ s.live, regions nu got ++ s.memory⟩ l' := by
  have hnew : ∀ x, Covers (regions nu got) x → ¬ Covers s.memory x := by
    rintro x ⟨c, hc, hx⟩
    obtain ⟨q, hq, rfl⟩ := mem_map.mp hc
    exact (hfresh q hq).2.2 x hx
  -- what is in use was neither free nor is it new
  have hsep : ∀ x, s.Live x → ¬ (Covers l' x ∨ Covers (regions n r.toList) x) := by
    intro x hx hc
    obtain hc | hc := (hv.covers x).mpr hc
    · exact h.apart x hx hc
    · exact hnew x hc ((h.covers x).mp (.inr hx))
  have hlive : ∀ x, State.Live ⟨h', r.toList.map (fun a => (⟨a, n⟩, bytes)) ++ s.live, regions nu got ++ s.memory⟩ x ↔
      Covers (regions n r.toList) x ∨ s.Live x := by
    intro x
    simp [State.Live, Covers, regions, or_and_right, exists_or]
  refine ⟨hv.ring, fun y hy => ?_, fun y hy => ?_, ?_, fun x hx hc => ?_, fun x => ?_, fun c hc => ?_⟩
  · obtain hy | hy := mem_append.mp hy
    · obtain ⟨a, ha, rfl⟩ := mem_map.mp hy; exact (hv.size a (Option.mem_toList.mp ha)).1
    have hx := h.live hy
    have habove := (h.bounds (h.pos hy) fun x hx => (h.covers x).mp (.inr ⟨y, hy, hx⟩)).1
    simp only [FreeList.header] at habove
    rw [← h.header y hy]
    refine hv.frame _ (by omega) (h.apart _ hx) fun hc => ?_
    exact hnew _ hc ((h.covers _).mp (.inr hx))
  · obtain hy | hy := mem_append.mp hy
    · obtain ⟨a, -, rfl⟩ := mem_map.mp hy; exact henough
    · exact h.enough y hy
  · refine pairwise_append.mpr ⟨?_, h.disjoint, fun y hy z hz x hyx hzx => ?_⟩
    · cases r <;> simp
    · obtain ⟨a, ha, rfl⟩ := mem_map.mp hy
      exact hsep x ⟨z, hz, hzx⟩ (.inr ⟨⟨a, n⟩, mem_map_of_mem ha, hyx⟩)
  · obtain hx | hx := (hlive x).mp hx
    · exact hv.alone x hx hc
    · exact hsep x hx (.inl hc)
  · rw [hlive, ← or_assoc, ← hv.covers, covers_append, ← h.covers x]; tauto
  · obtain hc | hc := mem_append.mp hc
    · obtain ⟨q, hq, rfl⟩ := mem_map.mp hc; exact ⟨(hfresh q hq).1, (hfresh q hq).2.1⟩
    · exact h.memory c hc

/-- A request that does not overflow ends and leaves the heap sound, if the system gives what it is asked for. -/
theorem Good.request (src : Source) {nbytes answers} (h : Good src.base s) (hbase : 0 < src.base)
    (hroom : nbytes.toNat + 7 < 2 ^ 32) (hgiven : src.given (src.asked nbytes) = src.asked nbytes)
    (hfresh : ∀ q, answers.head? = some (some q) → src.Fresh s nbytes q) :
    ∃ r s', src.malloc s nbytes answers = some (r, s') ∧ ∃ l', Sound src.base s' l' := by
  obtain ⟨l, hl⟩ := h.ready hbase
  have hn := toNat_nunits hroom
  simp only [Source.Fresh, hgiven, FreeList.header] at hfresh
  have hapart : ∀ q, answers.head? = some (some q) →
      src.base < q ∧ ∀ x, (⟨q, src.asked nbytes⟩ : Extent).Has x → ¬ Covers l x := by
    intro q hq
    obtain ⟨h1, -, h3⟩ := hfresh q hq
    exact ⟨by omega, fun x hx hc => h3 x hx ((hl.covers x).mp (.inl hc))⟩
  have hnu : nunits nbytes ≤ src.asked nbytes := Nat.le_max_right ..
  obtain ⟨r, h', got, l', he, hv⟩ := hl.ring.alloc answers (by omega) hnu hapart hl.length
  refine ⟨r, _, by rw [Source.malloc]; exact congrArg (Option.map _) he, l', ?_⟩
  rw [hgiven]
  refine hl.served hv ?_ fun q hq => ?_
  · simp only [FreeList.header]; omega
  obtain rfl | ⟨q', hq', rfl⟩ := hv.asked
  · cases hq
  · obtain rfl := mem_singleton.mp hq; exact hfresh q hq'

theorem Good.release (h : Good base s) (hy : y ∈ s.live) : ∃ s', s.free y = some s' ∧ ∃ l', Sound base s' l' := by
  obtain ⟨-, hlive, -⟩ | ⟨l, hl⟩ := h
  · simp [hlive] at hy
  · exact hl.free hy

theorem Good.act {src : Source} {a} (h : Good base s) (hmalloc : ∀ nbytes answers, a = .malloc nbytes answers →
    ∃ r s', src.malloc s nbytes answers = some (r, s') ∧ ∃ l', Sound base s' l')
    (he : src.act s a = some s') : Good base s' := by
  cases a with
  | malloc nbytes answers =>
    obtain ⟨r, s1, hm, hl⟩ := hmalloc nbytes answers rfl
    obtain ⟨⟨r', s2⟩, hm', rfl⟩ := Option.map_eq_some_iff.mp he
    cases hm'.symm.trans hm
    exact .inr hl
  | free y =>
    obtain ⟨hy, he⟩ := Option.ite_none_right_eq_some.mp he
    obtain ⟨s1, hf, hl⟩ := h.release hy
    cases he.symm.trans hf
    exact .inr hl

end

end Xv6Vsd.Malloc
