import Xv6Vsd.Paging.Lemmas.Extend
import Xv6Vsd.Paging.Lemmas.Setup

/-! # Whichever pages are refused -/

namespace Xv6Vsd.Paging

open Prog List Function

variable {F : Ev → Prop} {d d' : Dir} {m m' : Kmem} {page : Nat}

/-! ## Pages taken -/

/-- Pages have been taken from the front of the free list, and no others have been written. -/
structure Took (m m' : Kmem) : Prop where
  free : m'.freelist <:+ m.freelist
  kept : ∀ g ∉ m.freelist, m'.page g = m.page g

theorem Took.refl (m : Kmem) : Took m m := ⟨suffix_refl _, fun _ _ => rfl⟩

theorem Took.trans {m''} (h : Took m m') (h' : Took m' m'') : Took m m'' where
  free := h'.free.trans h.free
  kept g hg := by rw [h'.kept g fun hmem => hg (h.free.mem hmem), h.kept g hg]

theorem Taken.took {fill r} (h : Taken fill m r m') : Took m m' where
  free := ⟨r.toList, h.free.symm⟩
  kept g hg := by
    refine h.page g fun hr => hg ?_
    rw [h.free, hr]
    simp

/-! ## Mapping -/

variable {t : List Ev} {r : Bool × Dir} {n frame : Nat} {write : Bool}

theorem Walked.took (h : Walked d m page t r m') : Took m m' := by
  cases h with
  | found h => exact .refl m
  | made h ht | refused h ht => exact ht.took

theorem Walked.pte (h : Walked d m page t r m') : r.2.pte = d.pte := by
  cases h with
  | found h | refused h ht => rfl
  | made h ht => exact Dir.pte_addTable h

theorem Walked.has (h : Walked d m page t r m') (hr : r.1 = true) : r.2.Has page := by
  cases h with
  | found h => exact h
  | made h ht => exact Dir.has_addTable.mpr (.inl rfl)
  | refused h ht => cases hr

/-- The entries of the `n` pages from `page` on lead to the physical pages from `frame` on; the others are as they
were. -/
def Laid (d : Dir) (page n frame : Nat) (user write : Bool) (d' : Dir) : Prop :=
  ∀ q, d'.pte q = if page ≤ q ∧ q < page + n then some ⟨frame + (q - page), user, write⟩ else d.pte q

theorem Laid.cons {d1 user} (h₁ : d1.pte = update d.pte page (some ⟨frame, user, write⟩))
    (h : Laid d1 (page + 1) n (frame + 1) user write d') : Laid d page (n + 1) frame user write d' := by
  intro q
  rw [h q, h₁]
  by_cases hq : q = page
  · subst hq
    rw [if_neg (by omega), if_pos (by omega), update_self, Nat.sub_self, Nat.add_zero]
  rw [update_of_ne hq]
  by_cases hin : page ≤ q ∧ q < page + (n + 1)
  · rw [if_pos hin, if_pos (by omega), show frame + 1 + (q - (page + 1)) = frame + (q - page) by omega]
  · rw [if_neg hin, if_neg (by omega)]

theorem meets_laid {user} :
    Meets F (fun _ => True) (fun _ r m' => Took m m' ∧ (r.1 = true → Laid d page n frame user write r.2))
      (mappagesFrom user write n d page frame) m := by
  induction n generalizing d m page frame with
  | zero => exact meets_pure ⟨.refl m, fun _ q => by rw [if_neg (by omega)]⟩
  | succ n ih =>
    refine meets_walked.bind ?_
    rintro _ ⟨found, d1⟩ m1 hw
    dsimp only
    split
    · exact meets_pure ⟨hw.took, by simp_all⟩
    next hfound =>
    split
    · exact meets_panic trivial
    have hhas := hw.has (by simpa using hfound)
    refine ih.mono fun _ r m' ⟨htook, hlaid⟩ => ⟨hw.took.trans htook, fun hr => (hlaid hr).cons ?_⟩
    rw [Dir.pte_setPte hhas, hw.pte]

theorem Laid.clear {user} (h : Laid d page n frame user write d') (hd : ∀ q < userpages, d.pte q = none)
    (hpage : userpages ≤ page) : ∀ q < userpages, d'.pte q = none := fun q hq => by
  rw [h q, if_neg (by omega), hd q hq]

theorem meets_mapKernel_any {ks} (hks : ∀ k ∈ ks, userpages ≤ pageOf k.1) (hd : ∀ q < userpages, d.pte q = none) :
    Meets F (fun _ => True) (fun _ r m' => Took m m' ∧ (r.1 = true → ∀ q < userpages, r.2.pte q = none))
      (mapKernel ks d) m := by
  induction ks generalizing d m with
  | nil => exact meets_pure ⟨.refl m, fun _ => hd⟩
  | cons k ks ih =>
    obtain ⟨virt, start, stop, write⟩ := k
    have hvirt : userpages ≤ pageOf virt := hks _ mem_cons_self
    refine meets_laid.bind ?_
    rintro _ ⟨mapped, d1⟩ m1 ⟨htook, hlaid⟩
    dsimp only at hlaid ⊢
    split
    · rename_i hmapped
      have hrest := ih (m := m1) (fun k hk => hks k (mem_cons_of_mem _ hk)) ((hlaid hmapped).clear hd hvirt)
      exact hrest.mono fun _ r m' ⟨htook', hclear⟩ => ⟨htook.trans htook', hclear⟩
    · exact meets_pure ⟨htook, nofun⟩

theorem userpages_le_kmap {l} : ∀ k ∈ kmap l, userpages ≤ pageOf k.1 := by
  have habove := UInt32.lt_iff_toNat_lt.mp l.above
  have hlink : kernlink.toNat = 2148532224 := rfl
  have hdata : userpages ≤ pageOf l.data := by unfold pageOf; simp only [userpages]; omega
  simp only [kmap, forall_mem_cons, not_mem_nil, false_imp_iff, implies_true, and_true]
  exact ⟨by decide, by decide, hdata, by decide⟩

theorem meets_setupkvm_any {l} : Meets F (fun _ => True)
    (fun _ r m' => Took m m' ∧ ∀ d, r = some d → ∀ q < userpages, d.pte q = none) (setupkvm l) m := by
  refine meets_kalloc.bind ?_
  rintro _ r m1 ⟨rfl, -, htaken⟩
  cases r with
  | none => exact meets_pure ⟨htaken.took, nofun⟩
  | some f =>
    dsimp only
    rw [if_neg (by decide)]
    refine (meets_mapKernel_any userpages_le_kmap (d := ⟨f, fun _ => none⟩) fun _ _ => rfl).bind ?_
    rintro _ ⟨mapped, d⟩ m' ⟨htook, hclear⟩
    refine meets_pure ⟨htaken.took.trans htook, fun d' hd' => ?_⟩
    cases mapped with
    | false => cases hd'
    | true => cases hd'; exact hclear rfl

/-! ## Freeing -/

theorem meets_freevm_pages {E} (hE : (∀ s, E s) ∨ ∀ f ∈ d.pages, m.kend ≤ f ∧ f < 57344) :
    Meets F E (fun _ _ m' => ∀ g ∉ d.pages, m'.page g = m.page g) (freevm d) m := by
  have hbase := toNat_kernbase
  have huser : ∀ q, q * 4096 < kernbase.toNat → q < userpages := fun q hq => by
    simp only [userpages]
    omega
  have hfreeable : (∀ s, E s) ∨ Freeable d m (top 0) kernbase.toNat :=
    hE.imp_right fun h q x _ hq hx => h _ (Dir.mem_pages_of_pte (huser q hq) hx)
  refine (meets_deallocuvm (by decide) hfreeable).bind ?_
  rintro t ⟨_, d1⟩ m1 ⟨-, hcut⟩
  have htable : ∀ i < 1024, ∀ t, d1.pde i = some t → t.frame ∈ d.pages := fun i hi t ht => by
    have hframe := hcut.tables i
    rw [ht] at hframe
    obtain ⟨t', ht', heq⟩ := Option.map_eq_some_iff.mp hframe.symm
    rw [← heq]
    exact Dir.mem_pages_of_pde hi ht'
  have hown : d.frame ∈ d.pages := Dir.frame_mem_pages
  have hkept : ∀ g ∉ d.pages, m1.page g = m.page g := fun g hg =>
    hcut.page g fun q x _ hq hx heq => hg (heq ▸ Dir.mem_pages_of_pte (huser q hq) hx)
  refine (meets_loop (I := fun _ m' => m'.kend = m.kend ∧ ∀ g ∉ d.pages, m'.page g = m.page g) ?_
    ⟨hcut.kend, hkept⟩).bind ?_
  · rintro i hi s ⟨hkend, hs⟩
    split
    · rename_i t ht
      have hmem := htable i hi t ht
      refine (meets_kfree (hE.imp_right fun h => by rw [hkend]; exact h _ hmem)).mono ?_
      rintro _ _ s' ⟨hkend', -, hpage⟩
      refine ⟨hkend'.trans hkend, fun g hg => ?_⟩
      rw [hpage g fun heq => hg (heq ▸ hmem), hs g hg]
    · exact meets_pure ⟨hkend, hs⟩
  · rintro _ _ m2 ⟨hkend, hm2⟩
    rw [hcut.frame]
    refine (meets_kfree (hE.imp_right fun h => by rw [hkend]; exact h _ hown)).mono ?_
    rintro _ _ m' ⟨-, -, hpage⟩ g hg
    rw [hpage g fun heq => hg (heq ▸ hown), hm2 g hg]

end Xv6Vsd.Paging
