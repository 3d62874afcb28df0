import Xv6Vsd.Paging.Lemmas.Spec

/-!
# Making and freeing a directory
-/

namespace Xv6Vsd.Paging

open Prog Multiset Option

variable {F : Ev → Prop} {E : String → Prop} {d : Dir} {m : Kmem}

/-! ## The kernel's part -/

structure Kernel (S : Nat → Prop) (d : Dir) : Prop where
  mapped : ∀ q, S q → ∃ x, d.pte q = some x ∧ x.user = false
  unmapped : ∀ q, ¬ S q → d.pte q = none
  has : ∀ q, d.Has q ↔ ∃ p, S p ∧ q / 1024 = p / 1024

theorem kernel_empty (f : Nat) : Kernel (fun _ => False) ⟨f, fun _ => none⟩ :=
  ⟨fun _ h => h.elim, fun _ _ => rfl, fun q => by simp [Dir.Has]⟩

variable {S : Nat → Prop} {l : Link}

theorem Kernel.mapped_range {d' m' page n frame write t} (hd : Kernel S d)
    (h : Mapped d m page n frame false write t d' m') :
    Kernel (fun q => S q ∨ page ≤ q ∧ q < page + n) d' where
  mapped := fun q hq => by
    rw [h.pte]
    split
    · exact ⟨_, rfl, rfl⟩
    · next hout => exact hd.mapped q (hq.resolve_right hout)
  unmapped := fun q hq => by
    rw [not_or] at hq
    rw [h.pte, if_neg hq.2, hd.unmapped q hq.1]
  has := fun q => by
    rw [h.has, hd.has]
    constructor
    · rintro (⟨p, hp, hq⟩ | ⟨k, hk, hq⟩)
      · exact ⟨p, .inl hp, hq⟩
      · exact ⟨page + k, .inr ⟨by omega, by omega⟩, hq⟩
    rintro ⟨p, hp | hp, hq⟩
    · exact .inl ⟨p, hp, hq⟩
    · exact .inr ⟨p - page, by omega, by rw [hq, Nat.add_sub_cancel' hp.1]⟩

theorem Kernel.congr {S'} (hd : Kernel S d) (h : ∀ q, S q ↔ S' q) : Kernel S' d := by
  rwa [← funext fun q => propext (h q)]

variable (hF : ∀ e, F e → Granted e)

include hF

theorem meets_mapRange {va size frame write} (hd : Kernel S d)
    (hva : va.toNat % 4096 = 0) (hsize : size.toNat % 4096 = 0) (hpos : 0 < size.toNat)
    (hend : va.toNat + size.toNat ≤ 4294967296)
      (hS : ∀ q, S q → q * 4096 < va.toNat ∨ va.toNat + size.toNat ≤ q * 4096) :
    Meets F E (fun t r m' => r.1 = true ∧ Tables d m t r.2 m' ∧
      Kernel (fun q => S q ∨ va.toNat / 4096 ≤ q ∧ q < va.toNat / 4096 + size.toNat / 4096) r.2)
      (mappages d va size frame false write) m := by
  rw [mappages_eq hva hsize hpos hend]
  refine (meets_mappagesFrom hF (by simp only [npages]; omega) (.inr fun k hk => hd.unmapped _ fun h => ?_)).mono ?_
  · have := hS _ h; omega
  · rintro t ⟨ok, d'⟩ m' ⟨hok, hmap⟩; exact ⟨hok, hmap.tables, hd.mapped_range hmap⟩

def KernelPage (q : Nat) : Prop := 524288 ≤ q ∧ q < 581632 ∨ 1040384 ≤ q ∧ q < 1048576

theorem meets_mapKernel (hd : Kernel (fun _ => False) d) :
    Meets F E (fun t r m' => r.1 = true ∧ Tables d m t r.2 m' ∧ Kernel KernelPage r.2) (mapKernel (kmap l) d) m := by
  have hdata := l.aligned
  have habove := UInt32.lt_iff_toNat_lt.mp l.above
  have hbelow := UInt32.lt_iff_toNat_lt.mp l.below
  have hbase := toNat_kernbase
  have hphys : phystop.toNat = 234881024 := rfl
  have hext : (extmem - 0).toNat = 1048576 := rfl
  have hdev : devspace.toNat = 4261412864 := rfl
  have hdevs : (0 - devspace).toNat = 33554432 := rfl
  have hlink : kernlink.toNat = 2148532224 := rfl
  have hstop : (kernbase + phystop).toNat = 2382364672 := rfl
  rw [hlink] at habove
  rw [hstop] at hbelow
  have htext : (v2p l.data - v2p kernlink).toNat = l.data.toNat - 2148532224 := by
    simp only [v2p, UInt32.toNat_sub, hlink, hbase, Nat.reducePow]
    omega
  have hmem : (phystop - v2p l.data).toNat = 2382364672 - l.data.toNat := by
    simp only [v2p, UInt32.toNat_sub, hbase, hphys, Nat.reducePow]
    omega
  simp only [kmap, mapKernel]
  refine (meets_mapRange hF hd (by decide) (by decide) (by decide) (by decide) fun _ h => h.elim).bind ?_
  rintro t1 ⟨_, d1⟩ m1 ⟨rfl, ht1, hk1⟩
  rw [if_pos rfl]
  refine (meets_mapRange hF hk1 (by decide) (by omega) (by omega) (by omega) fun q hq => ?_).bind ?_
  · simp only [false_or] at hq; omega
  rintro t2 ⟨_, d2⟩ m2 ⟨rfl, ht2, hk2⟩
  rw [if_pos rfl]
  refine (meets_mapRange hF hk2 hdata (by omega) (by omega) (by omega) fun q hq => ?_).bind ?_
  · simp only [false_or] at hq; omega
  rintro t3 ⟨_, d3⟩ m3 ⟨rfl, ht3, hk3⟩
  rw [if_pos rfl]
  refine (meets_mapRange hF hk3 (by decide) (by decide) (by decide) (by decide) fun q hq => ?_).bind ?_
  · simp only [false_or] at hq; omega
  rintro t4 ⟨_, d4⟩ m4 ⟨rfl, ht4, hk4⟩
  rw [if_pos rfl]
  apply meets_pure
  refine ⟨rfl, ?_, hk4.congr fun q => ?_⟩
  · exact ht1.trans (ht2.trans (ht3.trans (ht4.trans (Tables.refl d4 m4))))
  · simp only [false_or, KernelPage]; omega

omit hF in
theorem Kernel.users (hd : Kernel KernelPage d) : d.users = 0 := by
  refine Dir.users_eq_zero fun q hq => hd.unmapped q fun h => ?_
  simp only [userpages] at hq
  unfold KernelPage at h
  omega

structure Built (m : Kmem) (r : Option Dir) (m' : Kmem) : Prop where
  kend : m'.kend = m.kend
  pages : (m'.freelist : Multiset Nat) + r.elim 0 Dir.pages = m.freelist

theorem meets_setupkvm : Meets F E (fun _ r m' => Built m r m' ∧ (r = none → F (.kalloc .dir none)) ∧
      ∀ d, r = some d → m'.refuses = m.refuses ∧ Kernel KernelPage d) (setupkvm l) m := by
  refine meets_kalloc.bind ?_
  rintro t r m1 ⟨rfl, hF1, htaken⟩
  have hfree := htaken.free
  cases r with
  | none => exact meets_pure ⟨⟨htaken.kend, by simp [hfree]⟩, fun _ => hF1, fun d h => by cases h⟩
  | some f =>
    dsimp only
    rw [if_neg (by decide)]
    refine (meets_mapKernel hF (kernel_empty f)).bind ?_
    rintro t ⟨_, d⟩ m' ⟨rfl, htab, hd⟩
    apply meets_pure
    refine ⟨⟨htab.kend.trans htaken.kend, ?_⟩, nofun, fun d' h => by
      cases h; exact ⟨htab.refuses.trans htaken.refuses, hd⟩⟩
    have hframe : d.frame = f := htab.frame
    have hpages := htab.pages
    rw [Dir.tables_empty, add_zero] at hpages
    ext c
    have hc := congrArg (Multiset.count c) hpages
    simp only [if_true, elim_some, Dir.pages, hframe, hd.users, hfree, toList_some,
      List.singleton_append, ← cons_coe, ← singleton_add, count_add, add_zero] at hc ⊢
    omega

/-! ## Freeing -/

omit hF in
theorem meets_freevm (hE : ∀ s, E s) :
    Meets F E (fun _ _ m' => m'.kend = m.kend ∧ (m'.freelist : Multiset Nat) = m.freelist + d.pages) (freevm d) m := by
  refine (meets_deallocuvm (by decide) (.inl hE)).bind ?_
  rintro t ⟨_, d1⟩ m1 ⟨-, hcut⟩
  have husers : d1.users = 0 := by
    refine Dir.users_eq_zero fun q hq => hcut.clear (.inl rfl) q (by simp [top]) ?_
    have hbase := toNat_kernbase
    simp only [userpages] at hq
    omega
  have hpages := (hcut.moved []).pages
  refine (meets_loop (I := fun i m' => m'.kend = m.kend ∧ (m'.freelist : Multiset Nat) = m1.freelist +
    ∑ j ∈ Finset.range i, (d1.pde j).elim 0 fun t => {t.frame}) ?_ ⟨hcut.kend, by simp⟩).bind ?_
  · rintro i - s ⟨hkend, hs⟩
    rw [Finset.sum_range_succ, ← add_assoc, ← hs]
    cases d1.pde i with
    | none => exact meets_pure ⟨hkend, by simp⟩
    | some t =>
      refine (meets_kfree (.inl hE)).mono ?_
      rintro _ _ s' ⟨hkend', hfree, -⟩
      refine ⟨hkend'.trans hkend, ?_⟩
      rw [elim_some, add_comm, singleton_add, cons_coe, hfree]
  · rintro t _ m2 ⟨hkend, hm2⟩
    refine (meets_kfree (.inl hE)).mono ?_
    rintro _ _ m' ⟨hkend', hfree, -⟩
    refine ⟨hkend'.trans hkend, ?_⟩
    rw [← hpages, hfree, ← cons_coe, hm2, Dir.pages, husers, add_zero, ← singleton_add, Dir.tables]
    exact add_left_comm _ _ _

/-! ## Copying -/

theorem meets_copyuvmFrom {parent sz fuel i} (hE : ∀ s, E s)
    (hsz : sz ≤ 2147483648) (hi : i % 4096 = 0) (hfuel : sz ≤ i + fuel * 4096) :
    Meets F E (fun _ r m' => m'.kend = m.kend ∧
      (m'.freelist : Multiset Nat) + r.elim 0 Dir.pages = m.freelist + d.pages) (copyuvmFrom parent sz fuel d i) m := by
  induction fuel generalizing d m i with
  | zero => exact meets_pure ⟨rfl, rfl⟩
  | succ fuel ih =>
    unfold copyuvmFrom
    split
    · next hlt =>
      cases parent.pde (i / 4096 / 1024) with
      | none => exact meets_panic (hE _)
      | some t =>
        dsimp only
        cases t.pte (i / 4096 % 1024) with
        | none => exact meets_panic (hE _)
        | some x =>
          refine meets_kalloc.bind ?_
          rintro t r m1 ⟨rfl, -, htaken⟩
          cases r with
          | none =>
            have hfree : m.freelist = m1.freelist := htaken.free
            refine (meets_freevm hE).bind ?_
            rintro t _ m' ⟨hkend, hm'⟩
            refine meets_pure ⟨hkend.trans htaken.kend, ?_⟩
            rw [elim_none, add_zero, hm', hfree]
          | some f =>
            have hfree : m.freelist = f :: m1.freelist := htaken.free
            dsimp only
            rw [mappages_page hi (by omega)]
            refine (meets_mappagesFrom hF (by simp only [npages]; omega) (.inl (hE _))).bind ?_
            rintro t ⟨_, d1⟩ m2 ⟨rfl, hmap⟩
            rw [if_pos rfl]
            refine (ih (by omega) (by omega)).mono ?_
            rintro t r m' ⟨hkend, hm'⟩
            refine ⟨hkend.trans (hmap.tables.kend.trans htaken.kend), ?_⟩
            rw [hm', hmap.pages (by simp only [userpages]; omega), hfree, ← cons_coe, ← singleton_add, add_assoc]
    · exact meets_pure ⟨rfl, rfl⟩

theorem meets_copyuvm {parent sz} (hE : ∀ s, E s) (hsz : sz.toNat ≤ 2147483648) :
    Meets F E (fun _ r m' => Built m r m') (copyuvm l parent sz) m := by
  refine (meets_setupkvm hF).bind ?_
  rintro t r m1 ⟨hbuilt, -⟩
  cases r with
  | none => exact meets_pure hbuilt
  | some d =>
    refine (meets_copyuvmFrom hF hE hsz rfl (by omega)).mono ?_
    rintro t' r m' ⟨hkend, hm'⟩
    exact ⟨hkend.trans hbuilt.kend, hm'.trans hbuilt.pages⟩

end Xv6Vsd.Paging
