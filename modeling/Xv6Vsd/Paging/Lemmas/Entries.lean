import Mathlib.Algebra.Order.BigOperators.Group.Finset
import Xv6Vsd.Paging.Model

/-!
# The entries of a directory and the pages it owns
-/

namespace Xv6Vsd.Paging

open Function Option

theorem sum_change {ι M : Type} [DecidableEq ι] [AddCommMonoid M] {s} {f g : ι → M} {i} (hi : i ∈ s)
    (h : ∀ j ∈ s, j ≠ i → g j = f j) : (∑ j ∈ s, g j) + f i = (∑ j ∈ s, f j) + g i := by
  have hrest : ∑ j ∈ s.erase i, g j = ∑ j ∈ s.erase i, f j :=
    Finset.sum_congr rfl fun j hj => h j (Finset.mem_of_mem_erase hj) (Finset.ne_of_mem_erase hj)
  rw [← Finset.add_sum_erase s g hi, ← Finset.add_sum_erase s f hi, hrest]
  ac_rfl

namespace Dir

variable {d : Dir} {p q f : Nat} {x : Option Pte}

def Has (d : Dir) (page : Nat) : Prop := (d.pde (page / 1024)).isSome

theorem pte_of_not_has (h : ¬ d.Has p) : d.pte p = none := by
  simp only [Has, Bool.not_eq_true, isSome_eq_false_iff, isNone_iff_eq_none] at h; simp [pte, h]

theorem Has.congr (h : d.Has p) (hq : q / 1024 = p / 1024) : d.Has q := by rwa [Has, hq]

@[simp] theorem frame_setPte : (d.setPte p x).frame = d.frame := rfl
@[simp] theorem frame_addTable : (d.addTable p f).frame = d.frame := rfl

theorem tableFrame_setPte (i : Nat) : ((d.setPte p x).pde i).map Table.frame = (d.pde i).map Table.frame := by
  simp only [setPte, update_apply]
  split
  · next h => rw [h, map_map]; rfl
  · rfl

@[simp] theorem has_setPte : (d.setPte p x).Has q ↔ d.Has q := by
  have h := congrArg isSome (tableFrame_setPte (d := d) (p := p) (x := x) (q / 1024))
  rw [isSome_map, isSome_map] at h
  rw [Has, h, Has]

theorem pte_setPte (h : d.Has p) : (d.setPte p x).pte = update d.pte p x := by
  obtain ⟨t, ht⟩ := isSome_iff_exists.mp h
  funext q
  rcases eq_or_ne q p with rfl | hq
  · simp [pte, setPte, ht]
  rw [update_of_ne hq]
  rcases eq_or_ne (q / 1024) (p / 1024) with he | he
  · have hmod : q % 1024 ≠ p % 1024 := by omega
    simp [pte, setPte, he, ht, update_of_ne hmod]
  · simp [pte, setPte, update_of_ne he]

theorem has_addTable : (d.addTable p f).Has q ↔ q / 1024 = p / 1024 ∨ d.Has q := by
  simp only [Has, addTable, update_apply]
  split <;> simp [*]

theorem pte_addTable (h : ¬ d.Has p) : (d.addTable p f).pte = d.pte := by
  funext q
  rcases eq_or_ne (q / 1024) (p / 1024) with he | he
  · rw [pte_of_not_has fun hq => h (hq.congr he.symm)]; simp [pte, addTable, he]
  · simp [pte, addTable, update_of_ne he]

/-! ## The pages of a directory -/

def tables (d : Dir) : Multiset Nat := ∑ i ∈ Finset.range 1024, (d.pde i).elim 0 fun t => {t.frame}

def users (d : Dir) : Multiset Nat := ∑ p ∈ Finset.range userpages, (d.pte p).elim 0 fun x => {x.frame}

def pages (d : Dir) : Multiset Nat := {d.frame} + d.tables + d.users

variable {d' : Dir}

theorem tables_congr (h : ∀ i, (d'.pde i).map Table.frame = (d.pde i).map Table.frame) : d'.tables = d.tables := by
  refine Finset.sum_congr rfl fun i _ => ?_
  have hi := h i
  cases hd' : d'.pde i <;> cases hd : d.pde i <;> simp_all

@[simp] theorem tables_setPte : (d.setPte p x).tables = d.tables := tables_congr tableFrame_setPte

theorem tables_addTable (h : ¬ d.Has p) (hp : p < npages) : (d.addTable p f).tables = d.tables + {f} := by
  have hi : p / 1024 ∈ Finset.range 1024 := by simp only [npages, Finset.mem_range] at *; omega
  have hold : d.pde (p / 1024) = none := by simpa [Has] using h
  have hsum := sum_change hi (f := fun i => (d.pde i).elim (0 : Multiset Nat) fun t => {t.frame})
    (g := fun i => ((d.addTable p f).pde i).elim (0 : Multiset Nat) fun t => {t.frame}) fun j _ hj => by
      simp [addTable, update_of_ne hj]
  simpa [hold, addTable, tables] using hsum

theorem card_tables_le (d : Dir) : d.tables.card ≤ 1024 := by
  rw [tables, Multiset.card_sum]
  refine (Finset.sum_le_card_nsmul _ _ 1 fun i _ => ?_).trans (by simp)
  cases d.pde i <;> simp

theorem card_tables_lt (h : ¬ d.Has p) (hp : p < npages) : d.tables.card < 1024 := by
  have hle := (d.addTable p 0).card_tables_le
  rw [tables_addTable h hp, Multiset.card_add, Multiset.card_singleton] at hle
  exact hle

theorem users_congr (h : ∀ p < userpages, d'.pte p = d.pte p) : d'.users = d.users :=
  Finset.sum_congr rfl fun p hp => by rw [h p (Finset.mem_range.mp hp)]

theorem users_update (h : d'.pte = update d.pte p x) (hp : p < userpages) :
    d'.users + (d.pte p).elim 0 (fun y => {y.frame}) = d.users + x.elim 0 fun y => {y.frame} := by
  have hsum := sum_change (Finset.mem_range.mpr hp) (f := fun p => (d.pte p).elim (0 : Multiset Nat) fun y => {y.frame})
    (g := fun p => (d'.pte p).elim (0 : Multiset Nat) fun y => {y.frame}) fun j _ hj => by
      simp [h, update_of_ne hj]
  have hp' : d'.pte p = x := by rw [h, update_self]
  rw [hp'] at hsum
  exact hsum

theorem users_le (h : ∀ p < userpages, d'.pte p = d.pte p ∨ d'.pte p = none) : d'.users ≤ d.users := by
  unfold users
  generalize userpages = n at *
  apply Finset.sum_le_sum
  intro p hp
  rcases h p (Finset.mem_range.mp hp) with he | he <;> simp [he]

theorem users_eq_zero (h : ∀ p < userpages, d.pte p = none) : d.users = 0 :=
  Finset.sum_eq_zero fun p hp => by simp [h p (Finset.mem_range.mp hp)]

theorem tables_empty (f : Nat) : (⟨f, fun _ => none⟩ : Dir).tables = 0 := Finset.sum_eq_zero fun _ _ => rfl

theorem pages_empty (f : Nat) : (⟨f, fun _ => none⟩ : Dir).pages = {f} := by
  rw [pages, tables_empty, users_eq_zero fun _ _ => rfl, add_zero, add_zero]

theorem mem_users {x} (hp : p < userpages) (hx : d.pte p = some x) : x.frame ∈ d.users := by
  unfold users
  rw [Multiset.mem_sum]
  exact ⟨p, Finset.mem_range.mpr hp, by simp [hx]⟩

theorem mem_tables {i t} (hi : i < 1024) (ht : d.pde i = some t) : t.frame ∈ d.tables := by
  unfold tables
  rw [Multiset.mem_sum]
  exact ⟨i, Finset.mem_range.mpr hi, by simp [ht]⟩

-- The sums are too long for anything to compute them.
attribute [irreducible] tables users

theorem frame_mem_pages : d.frame ∈ d.pages := by simp [pages]

theorem mem_pages_of_pde {i t} (hi : i < 1024) (ht : d.pde i = some t) : t.frame ∈ d.pages :=
  Multiset.mem_add.mpr (.inl (Multiset.mem_add.mpr (.inr (mem_tables hi ht))))

theorem mem_pages_of_pte {x} (hp : p < userpages) (hx : d.pte p = some x) : x.frame ∈ d.pages :=
  Multiset.mem_add.mpr (.inr (mem_users hp hx))

theorem pages_le (hf : d'.frame = d.frame) (ht : d'.tables = d.tables)
    (hp : ∀ p, d'.pte p = d.pte p ∨ d'.pte p = none) :
    d'.pages ≤ d.pages := by
  unfold pages
  rw [hf, ht]
  exact add_le_add_right (users_le fun p _ => hp p) _

end Dir

end Xv6Vsd.Paging
