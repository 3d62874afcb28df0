import Mathlib.Algebra.BigOperators.Group.Finset.Piecewise
import Mathlib.Data.Fintype.Card

/-! # Tables of pointers -/

namespace Xv6Vsd

open Function Finset

variable {n : Nat} {ν : Type} [Fintype ν] [DecidableEq ν] {th : Fin n → Option ν} {i : Fin n} {v w : ν}

def entries (th : Fin n → Option ν) : Finset ν := {v | ∃ i, th i = some v}

def Once (th : Fin n → Option ν) : Prop := ∀ i j v, th i = some v → th j = some v → i = j

@[simp] theorem mem_entries : v ∈ entries th ↔ ∃ i, th i = some v := by simp [entries]

theorem entries_put (hi : th i = none) : entries (update th i (some v)) = insert v (entries th) := by
  ext w
  simp only [mem_entries, mem_insert]
  constructor
  · rintro ⟨j, hj⟩
    by_cases hji : j = i
    · subst hji; left; simpa using hj.symm
    · exact .inr ⟨j, by simpa [hji] using hj⟩
  rintro (rfl | ⟨j, hj⟩)
  · exact ⟨i, by simp⟩
  refine ⟨j, ?_⟩
  rw [update_of_ne, hj]
  rintro rfl
  simp [hi] at hj

theorem entries_drop (ho : Once th) (hi : th i = some v) : entries (update th i none) = (entries th).erase v := by
  ext w
  simp only [mem_entries, mem_erase]
  constructor
  · rintro ⟨j, hj⟩
    by_cases hji : j = i
    · subst hji; simp at hj
    rw [update_of_ne hji] at hj
    refine ⟨?_, j, hj⟩
    rintro rfl
    exact hji (ho j i w hj hi)
  · rintro ⟨hne, j, hj⟩
    refine ⟨j, ?_⟩
    rw [update_of_ne, hj]
    rintro rfl
    rw [hi] at hj; cases hj
    exact hne rfl

namespace Once

theorem put (ho : Once th) (hv : v ∉ entries th) : Once (update th i (some v)) := by
  rw [mem_entries, not_exists] at hv
  intro j k w hj hk
  simp only [update_apply] at hj hk
  split at hj <;> split at hk
  · next h1 h2 => exact h1.trans h2.symm
  · cases hj; exact absurd hk (hv k)
  · cases hk; exact absurd hj (hv j)
  · exact ho j k w hj hk

omit [Fintype ν] [DecidableEq ν] in
theorem drop (ho : Once th) : Once (update th i none) := by
  intro j k w hj hk
  simp only [update_apply] at hj hk
  split at hj
  · cases hj
  split at hk
  · cases hk
  · exact ho j k w hj hk

theorem card_of_full (ho : Once th) (hfull : ∀ i, th i ≠ none) : n ≤ (entries th).card := by
  have hget : ∀ i, ∃ v, th i = some v := fun i => Option.ne_none_iff_exists'.mp (hfull i)
  choose g hg using hget
  have hinj : Function.Injective g := fun i j hij => ho i j (g i) (hg i) (hij ▸ hg j)
  calc n = (univ.image g).card := by rw [card_image_of_injective _ hinj, card_fin]
    _ ≤ (entries th).card := card_le_card fun v hv => by
      obtain ⟨i, -, rfl⟩ := mem_image.mp hv
      exact mem_entries.mpr ⟨i, hg i⟩

end Once

theorem card_entries_le (th : Fin n → Option ν) : (entries th).card ≤ n := by
  have hsub : (entries th).image some ⊆ univ.image th := fun o ho => by
    obtain ⟨v, hv, rfl⟩ := mem_image.mp ho
    obtain ⟨i, hi⟩ := mem_entries.mp hv
    exact mem_image.mpr ⟨i, mem_univ i, hi⟩
  calc (entries th).card = ((entries th).image some).card :=
    (card_image_of_injective _ (Option.some_injective ν)).symm
    _ ≤ (univ.image th).card := card_le_card hsub
    _ ≤ n := card_image_le.trans (by simp)

/-! ## How many slots hold a pointer -/

section

variable {ι : Type} [Fintype ι] [DecidableEq ι] {t : ι → Option ν} {k : ι}

def holders (t : ι → Option ν) (v : ν) : Nat := (Finset.univ.filter fun k => t k = some v).card

omit [Fintype ν] [DecidableEq ι] in
theorem holders_pos : 0 < holders t v ↔ ∃ k, t k = some v := by
  simp [holders, card_pos, Finset.Nonempty]

omit [Fintype ν] in
theorem holders_update (t : ι → Option ν) (k : ι) (o : Option ν) (v : ν) :
    holders (update t k o) v + (if t k = some v then 1 else 0) = holders t v + if o = some v then 1 else 0 := by
  have hsplit : ∀ t : ι → Option ν, holders t v =
    (if t k = some v then 1 else 0) + ∑ j ∈ univ.erase k, if t j = some v then 1 else 0 := by
    intro t
    rw [holders, card_filter]
    exact (add_sum_erase _ _ (mem_univ k)).symm
  have hrest : (∑ j ∈ univ.erase k, if update t k o j = some v then 1 else 0) =
    ∑ j ∈ univ.erase k, if t j = some v then 1 else 0 := by
    refine sum_congr rfl fun j hj => ?_
    rw [update_of_ne (ne_of_mem_erase hj)]
  rw [hsplit, hsplit t, hrest, update_self]
  omega

end

end Xv6Vsd
