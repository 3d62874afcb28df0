import Xv6Vsd.Paging.Lemmas.Setup

/-! # Enough memory -/

namespace Xv6Vsd.Paging

open Prog List Option

variable {d : Dir} {m : Kmem} {k : Nat}

def Served (e : Ev) : Prop := ∀ what, e ≠ .kalloc what none

theorem Served.granted {e} (h : Served e) : Granted e := h .table

/-- `kalloc` refuses nothing while there are pages, and there are `k` pages besides those for all tables. -/
structure Plenty (k : Nat) (d : Dir) (m : Kmem) : Prop where
  willing : ∀ n, m.refuses n = false
  enough : 1024 + k ≤ m.freelist.length + d.tables.card

theorem Plenty.tables {t : List Ev} {d' : Dir} {m' : Kmem} (h : Plenty k d m) (ht : Tables d m t d' m') :
    Plenty k d' m' := by
  have hcard := congrArg Multiset.card ht.pages
  simp only [Multiset.card_add, Multiset.coe_card] at hcard
  have henough := h.enough
  exact ⟨ht.refuses ▸ h.willing, by omega⟩

theorem Kmem.next_isSome (hw : ∀ n, m.refuses n = false) (hl : 0 < m.freelist.length) : m.next.isSome := by
  rw [Kmem.next, hw, if_neg Bool.false_ne_true, isSome_head?]; exact length_pos_iff.mp hl

theorem always_kalloc {what} {fill : Kmem → Page} (h : m.next.isSome) : Always Served (kalloc what fill) m := by
  intro e he
  rw [kalloc, trace_act, mem_singleton] at he
  rw [he]
  intro w hw
  rw [Ev.kalloc.injEq] at hw
  simp [hw.2] at h

theorem always_panic {α : Type} (msg : String) : Always Served (panic msg : V α) m := by
  intro e he
  rw [panic, trace_act, mem_singleton] at he
  rw [he]
  exact fun _ => nofun

theorem always_walkpgdir {page} (h : Plenty k d m) (hp : page < npages) : Always Served (walkpgdir d page) m := by
  unfold walkpgdir
  cases ht : d.pde (page / 1024) with
  | some x => exact always_pure _ _
  | none =>
    have hhas : ¬ d.Has page := by simp [Dir.Has, ht]
    have hlt := Dir.card_tables_lt hhas hp
    have henough := h.enough
    refine (always_kalloc (Kmem.next_isSome h.willing (by omega))).bind fun r m' _ => ?_
    cases r with
    | none | some f => exact always_pure _ _

variable {user write : Bool} {frame : Nat} {oldsz newsz : UInt32}

theorem always_mappagesFrom {left page} (h : Plenty k d m) (hp : page + left ≤ npages) :
    Always Served (mappagesFrom user write left d page frame) m := by
  induction left generalizing d m page frame with
  | zero => exact always_pure _ _
  | succ left ih =>
    have hwalk := always_walkpgdir h (show page < npages by omega)
    refine hwalk.bind ?_
    rintro ⟨found, d1⟩ m1 he
    obtain ⟨-, htab, -, -⟩ := ((meets_walkpgdir (E := fun _ => True) (fun _ => Served.granted)
      (by omega)) hwalk).2 _ _ he
    dsimp only
    split
    · exact always_pure _ _
    split
    · exact always_panic _
    have hset : Plenty k (d1.setPte page (some ⟨frame, user, write⟩)) m1 := by
      have := h.tables htab
      exact ⟨this.willing, by simpa using this.enough⟩
    exact ih hset (by omega)

theorem last_page (va size : UInt32) : pageOf va + (pageOf (va + size - 1) - pageOf va + 1) ≤ npages := by
  have h1 := va.toNat_lt
  have h2 := (va + size - 1).toNat_lt
  simp only [pageOf, npages]
  omega

theorem always_mappages {va size} (h : Plenty k d m) :
    Always Served (mappages d va size frame user write) m := always_mappagesFrom h (last_page va size)

theorem Plenty.mappages {va size : UInt32} {r : Bool × Dir} {m' : Kmem} (h : Plenty k d m)
    (he : (mappages d va size frame user write).exec m = .ok r m') : Plenty k r.2 m' := by
  have hmeets : Meets Served (fun _ => True) _ (mappagesFrom user write _ d (pageOf va) frame) m :=
    meets_mappagesFrom (fun _ => Served.granted) (last_page va size) (.inl trivial)
  exact h.tables ((hmeets (always_mappages h)).2 _ _ he).2.tables

theorem always_mapKernel (ks : List (UInt32 × UInt32 × UInt32 × Bool)) (h : Plenty k d m) :
    Always Served (mapKernel ks d) m := by
  induction ks generalizing d m with
  | nil => exact always_pure _ _
  | cons r ks ih =>
    obtain ⟨virt, start, stop, write⟩ := r
    refine (always_mappages h).bind ?_
    rintro ⟨mapped, d1⟩ m1 he
    dsimp only
    split
    · exact ih (h.mappages he)
    · exact always_pure _ _

theorem setupkvm_plenty {l} (hw : ∀ n, m.refuses n = false) (hl : 1025 + k ≤ m.freelist.length) :
    Always Served (setupkvm l) m ∧
      ∃ d m', (setupkvm l).exec m = .ok (some d) m' ∧ Kernel KernelPage d ∧ Plenty k d m' := by
  have hall : Always Served (setupkvm l) m := by
    refine (always_kalloc (Kmem.next_isSome hw (by omega))).bind fun r m1 he => ?_
    obtain ⟨-, -, htaken⟩ := ((meets_kalloc (F := fun _ => True) (E := fun _ => True)) fun _ _ => trivial).2 _ _ he
    cases r with
    | none => exact always_pure _ _
    | some f =>
      have hlen := congrArg length htaken.free
      simp only [toList_some, singleton_append, length_cons] at hlen
      have hplenty : Plenty k ⟨f, fun _ => none⟩ m1 := by
        refine ⟨htaken.refuses ▸ hw, ?_⟩
        rw [Dir.tables_empty, Multiset.card_zero]
        omega
      dsimp only
      rw [if_neg (by decide)]
      exact (always_mapKernel (kmap l) hplenty).bind fun _ _ _ => always_pure _ _
  obtain ⟨hends, hQ⟩ := (meets_setupkvm (E := fun _ => False) fun _ => Served.granted) hall
  obtain ⟨r, m', he⟩ := hends.ok
  obtain ⟨hbuilt, hnone, hsome⟩ := hQ r m' he
  cases r with
  | none => exact absurd rfl (hnone rfl .dir)
  | some d =>
    obtain ⟨hrefuses, hkernel⟩ := hsome d rfl
    refine ⟨hall, d, m', he, hkernel, hrefuses ▸ hw, ?_⟩
    have hcard := congrArg Multiset.card hbuilt.pages
    simp only [elim_some, Dir.pages, hkernel.users, Multiset.card_add, Multiset.coe_card,
      Multiset.card_singleton, add_zero] at hcard
    omega

theorem exec_kalloc {what} {fill : Kmem → Page} {f} (h : m.next = some f) :
    (kalloc what fill).exec m = .ok (some f) (m.take.write f (fill m)) := by
  rw [kalloc, exec_act, h]

theorem Plenty.take {f : Nat} {x : Page} (h : Plenty (k + 1) d m) (hn : m.next = some f) :
    Plenty k d (m.take.write f x) := by
  have hlen := congrArg length (Kmem.next_eq_some hn)
  have henough := h.enough
  rw [length_cons] at hlen
  refine ⟨h.willing, ?_⟩
  simp only [Kmem.take, Kmem.write]
  omega

theorem always_allocuvmFrom {fuel a} (h : Plenty k d m) (hk : newsz.toNat ≤ a + k * 4096) :
    Always Served (allocuvmFrom oldsz newsz fuel d a) m := by
  induction fuel generalizing d m a k with
  | zero => exact always_pure _ _
  | succ fuel ih =>
    unfold allocuvmFrom
    split
    · obtain _ | k := k
      · omega
      have hcard := d.card_tables_le
      have henough := h.enough
      have hsome := Kmem.next_isSome h.willing (by omega)
      obtain ⟨f, hn⟩ := isSome_iff_exists.mp hsome
      refine (always_kalloc hsome).bind fun r m1 he => ?_
      rw [exec_kalloc hn] at he; cases he
      have hplenty := h.take (x := zeroPage) hn
      refine (always_mappages hplenty).bind fun r m2 he => ?_
      exact ih (hplenty.mappages he) (by omega)
    · exact always_pure _ _

theorem always_allocuvm (h : Plenty k d m) (hk : newsz.toNat ≤ k * 4096) :
    Always Served (allocuvm d oldsz newsz) m := by
  unfold allocuvm
  split
  · exact always_pure _ _
  split
  · exact always_pure _ _
  · exact always_allocuvmFrom h (by omega)

end Xv6Vsd.Paging
