import Xv6Vsd.Paging.Lemmas.Entries

/-!
# What the routines of `vm.c` do

One lemma for each routine, for the runs in which no page table is refused. `E` are the panics that are allowed for.
-/

namespace Xv6Vsd.Paging

open Prog Function List Multiset Dir

def Granted (e : Ev) : Prop := e ≠ .kalloc .table none

def TookTable (t : List Ev) : Prop := ∃ f, .kalloc .table (some f) ∈ t

def SameTables (t : List Ev) (d d' : Dir) : Prop := TookTable t ∨ d'.tables = d.tables

variable {t t' : List Ev} {d' d1 : Dir} {f a b oldsz : Nat} {user write : Bool} {m' m1 : Kmem} {newsz : UInt32}

theorem SameTables.trans {d d''} (h : SameTables t d d') (h' : SameTables t' d' d'') : SameTables (t ++ t') d d'' := by
  rcases h with ⟨f, hf⟩ | hs
  · exact .inl ⟨f, mem_append_left _ hf⟩
  rcases h' with ⟨f, hf⟩ | hs'
  · exact .inl ⟨f, mem_append_right _ hf⟩
  · exact .inr (hs'.trans hs)

structure Tables (d : Dir) (m : Kmem) (t : List Ev) (d' : Dir) (m' : Kmem) : Prop where
  frame : d'.frame = d.frame
  kend : m'.kend = m.kend
  refuses : m'.refuses = m.refuses
  free : ∀ f ∈ m'.freelist, f ∈ m.freelist
  pages : (m'.freelist : Multiset Nat) + d'.tables = m.freelist + d.tables
  same : SameTables t d d'

namespace Tables

variable {d d' d'' : Dir} {m m' m'' : Kmem} {t t' : List Ev}

theorem refl (d : Dir) (m : Kmem) : Tables d m [] d m := ⟨rfl, rfl, rfl, fun _ h => h, rfl, .inr rfl⟩

theorem trans (h : Tables d m t d' m') (h' : Tables d' m' t' d'' m'') : Tables d m (t ++ t') d'' m'' where
  frame := h'.frame.trans h.frame
  kend := h'.kend.trans h.kend
  refuses := h'.refuses.trans h.refuses
  free := fun f hf => h.free f (h'.free f hf)
  pages := h'.pages.trans h.pages
  same := h.same.trans h'.same

end Tables

variable {F : Ev → Prop} {E : String → Prop} {d : Dir} {m : Kmem}

theorem Kmem.next_eq_some (h : m.next = some f) : m.freelist = f :: m.freelist.tail := by
  unfold Kmem.next at h
  split at h
  · cases h
  · exact (cons_head?_tail h).symm

structure Taken (fill : Kmem → Page) (m : Kmem) (r : Option Nat) (m' : Kmem) : Prop where
  kend : m'.kend = m.kend
  refuses : m'.refuses = m.refuses
  free : m.freelist = r.toList ++ m'.freelist
  filled : ∀ f, r = some f → m'.page f = fill m
  page : ∀ g, r ≠ some g → m'.page g = m.page g

theorem meets_kalloc {what fill} :
    Meets F E (fun t r m' => t = [.kalloc what r] ∧ F (.kalloc what r) ∧ Taken fill m r m') (kalloc what fill) m := by
  apply meets_act
  · intro _
    split <;> simp
  intro a m' hF he
  cases hn : m.next with
  | none => rw [hn] at hF he; cases he; exact ⟨rfl, hF, rfl, rfl, rfl, nofun, fun _ _ => rfl⟩
  | some f =>
    rw [hn] at hF he
    cases he
    refine ⟨rfl, hF, rfl, rfl, Kmem.next_eq_some hn, fun g hg => ?_, fun g hg => ?_⟩
    · cases hg; exact update_self ..
    · exact update_of_ne (fun h => hg (congrArg some h.symm)) ..

theorem meets_panic {α Q msg} (h : E msg) : Meets F E Q (panic msg : V α) m := by
  apply meets_act
  · simp [h]
  · intro a m' _ he; cases he

theorem pageOf_phystop : pageOf phystop = 57344 := by decide

theorem meets_kfree (hE : (∀ s, E s) ∨ m.kend ≤ f ∧ f < 57344) :
    Meets F E (fun _ _ m' => m'.kend = m.kend ∧ m'.freelist = f :: m.freelist ∧ ∀ g ≠ f, m'.page g = m.page g)
      (kfree f) m := by
  apply meets_act
  · intro _
    have hstop := pageOf_phystop
    rcases hE with hE | ⟨h1, h2⟩
    · split
      · simp [hE]
      · split <;> simp [hE]
    · rw [dif_neg (by omega), dif_neg (by omega)]; simp
  · intro a m' _ he
    split at he
    · cases he
    · split at he <;> cases he
      exact ⟨rfl, rfl, fun g hg => update_of_ne hg ..⟩

/-! ## Mapping -/

theorem meets_walkpgdir {page} (hF : ∀ e, F e → Granted e) (hp : page < npages) :
    Meets F E (fun t r m' => r.1 = true ∧ Tables d m t r.2 m' ∧ r.2.pte = d.pte ∧
      ∀ q, r.2.Has q ↔ q / 1024 = page / 1024 ∨ d.Has q) (walkpgdir d page) m := by
  unfold walkpgdir
  cases ht : d.pde (page / 1024) with
  | some x =>
    have hhas : d.Has page := by simp [Dir.Has, ht]
    apply meets_pure
    refine ⟨rfl, Tables.refl d m, rfl, fun q => ?_⟩
    simp only [iff_or_self]
    exact fun hq => hhas.congr hq
  | none =>
    have hhas : ¬ d.Has page := by simp [Dir.Has, ht]
    refine meets_kalloc.bind ?_
    rintro t r m' ⟨rfl, hgranted, htaken⟩
    cases r with
    | none => exact absurd rfl (hF _ hgranted)
    | some f =>
      have hfree : m.freelist = f :: m'.freelist := htaken.free
      apply meets_pure
      refine ⟨rfl, ⟨rfl, htaken.kend, htaken.refuses, fun g hg => ?_, ?_, .inl ⟨f, by simp⟩⟩, pte_addTable hhas,
        fun q => has_addTable⟩
      · rw [hfree]; exact mem_cons_of_mem f hg
      ext c
      simp only [hfree, tables_addTable hhas hp, ← cons_coe, ← singleton_add, count_add]
      omega

structure Mapped (d : Dir) (m : Kmem) (page n frame : Nat) (user write : Bool) (t : List Ev) (d' : Dir) (m' : Kmem) :
    Prop where
  tables : Tables d m t d' m'
  has : ∀ q, d'.Has q ↔ d.Has q ∨ ∃ k < n, q / 1024 = (page + k) / 1024
  pte : ∀ q, d'.pte q = if page ≤ q ∧ q < page + n then some ⟨frame + (q - page), user, write⟩ else d.pte q
  fresh : ∀ k < n, d.pte (page + k) = none

theorem meets_mappagesFrom (hF : ∀ e, F e → Granted e) {left page frame} (hp : page + left ≤ npages)
    (hE : E "remap" ∨ ∀ k < left, d.pte (page + k) = none) :
    Meets F E (fun t r m' => r.1 = true ∧ Mapped d m page left frame user write t r.2 m')
      (mappagesFrom user write left d page frame) m := by
  induction left generalizing d m page frame with
  | zero =>
    apply meets_pure
    refine ⟨rfl, Tables.refl d m, fun q => by simp, fun q => ?_, fun k hk => by omega⟩
    rw [if_neg (by omega)]
  | succ left ih =>
    refine (meets_walkpgdir hF (by omega)).bind ?_
    rintro t ⟨found, d1⟩ m1 ⟨hfound, htab, hpte, hhas⟩
    cases hfound
    have hself : d1.Has page := (hhas page).mpr (.inl rfl)
    dsimp only at htab hpte hhas hself ⊢
    rw [if_neg (by simp), hpte]
    split
    · rename_i hmapped
      apply meets_panic
      rcases hE with hE | hE
      · exact hE
      · have h0 := hE 0 (by omega); rw [Nat.add_zero] at h0; simp [h0] at hmapped
    next hfree =>
    have hset := pte_setPte (x := some ⟨frame, user, write⟩) hself
    rw [hpte] at hset
    refine (ih (by omega) (hE.imp_right fun hE k hk => ?_)).mono ?_
    · rw [hset, update_of_ne (by omega), Nat.add_right_comm]; exact hE (k + 1) (by omega)
    rintro t' ⟨ok, d2⟩ m2 ⟨hok, hmap⟩
    refine ⟨hok, ⟨?_, fun q => ?_, fun q => ?_, fun k hk => ?_⟩⟩
    · have hstep : Tables d m t (d1.setPte page (some ⟨frame, user, write⟩)) m1 :=
        ⟨htab.frame, htab.kend, htab.refuses, htab.free, by simpa using htab.pages,
          by simpa [SameTables] using htab.same⟩
      exact hstep.trans hmap.tables
    · rw [hmap.has, has_setPte, hhas, Nat.exists_lt_succ_left]
      simp only [Nat.add_zero, Nat.add_assoc, Nat.add_comm 1]
      tauto
    · rw [hmap.pte, hset]
      rcases eq_or_ne q page with rfl | hq
      · rw [if_neg (by omega), if_pos (by omega), update_self, Nat.sub_self, Nat.add_zero]
      rw [update_of_ne hq]
      by_cases hin : page ≤ q ∧ q < page + (left + 1)
      · rw [if_pos hin, if_pos (by omega), show frame + 1 + (q - (page + 1)) = frame + (q - page) by omega]
      · rw [if_neg hin, if_neg (by omega)]
    · cases k with
      | zero => simpa using hfree
      | succ k =>
        have hk' := hmap.fresh k (by omega)
        rwa [hset, update_of_ne (by omega), Nat.add_right_comm] at hk'

theorem Mapped.pages {page frame} (h : Mapped d m page 1 frame user write t d' m') (hp : page < userpages) :
    (m'.freelist : Multiset Nat) + d'.pages = {frame} + (m.freelist + d.pages) := by
  have hupd : d'.pte = update d.pte page (some ⟨frame, user, write⟩) := by
    funext q
    rw [h.pte, update_apply]
    rcases eq_or_ne q page with rfl | hq
    · rw [if_pos (by omega), if_pos rfl, Nat.sub_self, Nat.add_zero]
    · rw [if_neg (by omega), if_neg hq]
  have husers := users_update hupd hp
  have hfresh := h.fresh 0 Nat.one_pos
  rw [Nat.add_zero] at hfresh
  simp only [hfresh, Option.elim_none, Option.elim_some, add_zero] at husers
  ext c
  have hc := congrArg (Multiset.count c) h.tables.pages
  simp only [Dir.pages, h.tables.frame, husers, count_add] at hc ⊢
  omega

theorem mappages_eq {va size} (hva : va.toNat % 4096 = 0) (hsize : size.toNat % 4096 = 0)
    (hpos : 0 < size.toNat) (hend : va.toNat + size.toNat ≤ 4294967296) :
    mappages d va size f user write = mappagesFrom user write (size.toNat / 4096) d (va.toNat / 4096) f := by
  have hlast : pageOf (va + size - 1) - pageOf va + 1 = size.toNat / 4096 := by
    simp only [pageOf, UInt32.toNat_sub, UInt32.toNat_add, UInt32.reduceToNat, Nat.reducePow, Nat.reduceSub]
    omega
  rw [mappages, hlast, pageOf]

theorem mappages_page (ha : a % 4096 = 0) (hlt : a < 4294967296) :
    mappages d (UInt32.ofNat a) 4096 f user write = mappagesFrom user write 1 d (a / 4096) f := by
  have hnat : (UInt32.ofNat a).toNat = a := by rw [UInt32.toNat_ofNat', Nat.mod_eq_of_lt hlt]
  have hsize : (4096 : UInt32).toNat = 4096 := rfl
  rw [mappages_eq (by omega) (by omega) (by omega) (by omega), hnat, hsize]

/-! ## Taking pages back -/

structure Cut (d : Dir) (m : Kmem) (a oldsz : Nat) (d' : Dir) (m' : Kmem) : Prop where
  frame : d'.frame = d.frame
  kend : m'.kend = m.kend
  tables : ∀ i, (d'.pde i).map Table.frame = (d.pde i).map Table.frame
  pages : (m'.freelist : Multiset Nat) + d'.users = m.freelist + d.users
  pte : ∀ q, d'.pte q = d.pte q ∨ d'.pte q = none
  outside : ∀ q, q * 4096 < a ∨ oldsz ≤ q * 4096 → d'.pte q = d.pte q
  /-- where there is no table, the loop goes on 4 MB further, wherever in the range of the table it is -/
  clear : a % 4194304 = 0 ∨ d.Has (a / 4096) → ∀ q, a ≤ q * 4096 → q * 4096 < oldsz → d'.pte q = none
  page : ∀ g, (∀ q x, a ≤ q * 4096 → q * 4096 < oldsz → d.pte q = some x → x.frame ≠ g) → m'.page g = m.page g

theorem Dir.has_of_tables (h : ∀ i, (d'.pde i).map Table.frame = (d.pde i).map Table.frame) (q : Nat) :
    d'.Has q ↔ d.Has q := by
  have hq := congrArg Option.isSome (h (q / 1024))
  rw [Option.isSome_map, Option.isSome_map] at hq
  rw [Dir.Has, hq, Dir.Has]

def Freeable (d : Dir) (m : Kmem) (a oldsz : Nat) : Prop :=
  ∀ q x, a ≤ q * 4096 → q * 4096 < oldsz → d.pte q = some x → m.kend ≤ x.frame ∧ x.frame < 57344

namespace Cut

variable {d' : Dir} {m' : Kmem} {a oldsz : Nat}

theorem stop (h : oldsz ≤ a) : Cut d m a oldsz d m :=
  ⟨rfl, rfl, fun _ => rfl, rfl, fun _ => .inl rfl, fun _ _ => rfl, fun _ q h1 h2 => by omega, fun _ _ => rfl⟩

theorem skip {b} (h : Cut d m b oldsz d' m') (hab : a ≤ b) (hclear : a % 4194304 = 0 ∨ d.Has (a / 4096) →
      (b % 4194304 = 0 ∨ d.Has (b / 4096)) ∧ ∀ q, a ≤ q * 4096 → q * 4096 < b → d.pte q = none) :
    Cut d m a oldsz d' m' := { h with
  outside := fun q hq => h.outside q (by omega)
  clear := by
    intro hc q h1 h2
    obtain ⟨hb, hnone⟩ := hclear hc
    by_cases hq : q * 4096 < b
    · rw [h.outside q (.inl hq), hnone q h1 hq]
    · exact h.clear hb q (by omega) h2
  page := fun g hg => h.page g fun q x h1 h2 => hg q x (by omega) h2 }

theorem next_page (hhas : d.Has (a / 4096)) (ha : a % 4096 = 0) :
    (a + 4096) % 4194304 = 0 ∨ d.Has ((a + 4096) / 4096) := by
  by_cases hb : (a + 4096) % 4194304 = 0
  · exact .inl hb
  · exact .inr (hhas.congr (by omega))

theorem take {x m1} (hkend : m1.kend = m.kend) (hfree : m1.freelist = x.frame :: m.freelist)
    (hpage : ∀ g ≠ x.frame, m1.page g = m.page g) (hhas : d.Has (a / 4096)) (ha : a % 4096 = 0)
    (hlt : a < oldsz) (hp : a / 4096 < userpages) (hx : d.pte (a / 4096) = some x)
    (h : Cut (d.setPte (a / 4096) none) m1 (a + 4096) oldsz d' m') : Cut d m a oldsz d' m' := by
  have hset := pte_setPte (x := none) hhas
  have hself : d'.pte (a / 4096) = none := by
    rw [h.outside _ (.inl (by omega)), hset, update_self]
  refine ⟨h.frame, h.kend.trans hkend, fun i => (h.tables i).trans (tableFrame_setPte i), ?_, fun q => ?_,
    fun q hq => ?_, ?_, fun g hg => ?_⟩
  · have hu := users_update hset hp
    simp only [hx, Option.elim_some, Option.elim_none, add_zero] at hu
    ext c
    simp only [h.pages, hfree, ← hu, ← cons_coe, ← singleton_add, count_add]
    omega
  · rcases eq_or_ne q (a / 4096) with rfl | hq
    · exact .inr hself
    · have := h.pte q; rwa [hset, update_of_ne hq] at this
  · rw [h.outside q (by omega), hset, update_of_ne (by omega)]
  · intro _ q h1 h2
    by_cases hq : q = a / 4096
    · rw [hq, hself]
    · refine h.clear ?_ q (by omega) h2
      simpa using next_page hhas ha
  · rw [h.page g fun q y h1 h2 hy => ?_, hpage g (hg _ x (by omega) (by omega) hx).symm]
    rw [hset, update_of_ne (by omega)] at hy
    exact hg q y (by omega) h2 hy

end Cut

theorem Freeable.mono (h : Freeable d m a oldsz) (hab : a ≤ b) : Freeable d m b oldsz :=
  fun q x h1 h2 => h q x (by omega) h2

theorem meets_deallocuvmFrom {fuel} (hsz : oldsz ≤ 2147483648) (ha : a % 4096 = 0)
    (hfuel : oldsz ≤ a + fuel * 4096) (hE : (∀ s, E s) ∨ Freeable d m a oldsz) :
    Meets F E (fun _ d' m' => Cut d m a oldsz d' m') (deallocuvmFrom oldsz fuel d a) m := by
  induction fuel generalizing d m a with
  | zero => exact meets_pure (Cut.stop (by omega))
  | succ fuel ih =>
    unfold deallocuvmFrom
    split
    · next hlt =>
      cases ht : d.pde (a / 4096 / 1024) with
      | none =>
        have hhas : ¬ d.Has (a / 4096) := by simp [Dir.Has, ht]
        refine (ih (by omega) (by omega) (hE.imp_right fun h => h.mono (by omega))).mono fun _ d' m' hcut => ?_
        refine hcut.skip (by omega) fun hc => ?_
        have hstart := hc.resolve_right hhas
        exact ⟨.inl (by omega), fun q h1 h2 => pte_of_not_has fun hq => hhas (hq.congr (by omega))⟩
      | some t =>
        have hhas : d.Has (a / 4096) := by simp [Dir.Has, ht]
        have hentry : d.pte (a / 4096) = t.pte (a / 4096 % 1024) := by simp [Dir.pte, ht]
        dsimp only
        cases hx : t.pte (a / 4096 % 1024) with
        | none =>
          refine (ih (by omega) (by omega) (hE.imp_right fun h => h.mono (by omega))).mono fun _ d' m' hcut => ?_
          refine hcut.skip (by omega) fun _ => ⟨Cut.next_page hhas ha, fun q h1 h2 => ?_⟩
          rw [show q = a / 4096 by omega, hentry, hx]
        | some x =>
          rw [hx] at hentry
          have hframe : (∀ s, E s) ∨ m.kend ≤ x.frame ∧ x.frame < 57344 :=
            hE.imp_right fun h => h _ x (by omega) (by omega) hentry
          have hpos := m.kend_pos
          dsimp only
          split
          · rename_i h0
            apply meets_panic
            rcases hframe with hE | h
            · exact hE _
            · omega
          refine (meets_kfree hframe).bind ?_
          rintro _ _ m1 ⟨hkend, hfree, hpage⟩
          refine (ih (by omega) (by omega) (hE.imp_right fun h => ?_)).mono fun _ d' m' hcut => ?_
          · intro q y h1 h2 hy
            rw [hkend]
            refine h q y (by omega) h2 ?_
            rwa [pte_setPte hhas, update_of_ne (by omega)] at hy
          · exact Cut.take hkend hfree hpage hhas ha hlt (by simp only [userpages]; omega) hentry hcut
    · exact meets_pure (Cut.stop (by omega))

def top (n : UInt32) : Nat := (n.toNat + 4095) / 4096 * 4096

theorem toNat_pgroundup {n} (h : n.toNat ≤ 2147483648) : (pgroundup n).toNat = top n := by
  simp only [pgroundup, top, UInt32.toNat_mul, UInt32.toNat_div, UInt32.toNat_add, UInt32.reduceToNat, Nat.reducePow]
  omega

theorem meets_deallocuvm {oldsz} (hsz : oldsz.toNat ≤ 2147483648)
    (hE : (∀ s, E s) ∨ Freeable d m (top newsz) oldsz.toNat) :
    Meets F E (fun _ r m' => r.1 ≤ oldsz ∧ Cut d m (top newsz) oldsz.toNat r.2 m') (deallocuvm d oldsz newsz) m := by
  unfold deallocuvm
  split
  · rename_i hle
    rw [UInt32.le_iff_toNat_le] at hle
    exact meets_pure ⟨UInt32.le_refl _, Cut.stop (by unfold top; omega)⟩
  next hlt =>
  rw [UInt32.le_iff_toNat_le] at hlt
  rw [toNat_pgroundup (by omega)]
  refine (meets_deallocuvmFrom hsz (by unfold top; omega) (by omega) hE).bind fun _ _ _ h => ?_
  have hle : newsz ≤ oldsz := UInt32.le_iff_toNat_le.mpr (by omega)
  exact meets_pure ⟨hle, h⟩

/-! ## Growing -/

structure Moved (d : Dir) (m : Kmem) (t : List Ev) (d' : Dir) (m' : Kmem) : Prop where
  frame : d'.frame = d.frame
  kend : m'.kend = m.kend
  pages : (m'.freelist : Multiset Nat) + d'.pages = m.freelist + d.pages
  same : SameTables t d d'

theorem Moved.refl (d : Dir) (m : Kmem) : Moved d m [] d m := ⟨rfl, rfl, rfl, .inr rfl⟩

theorem Moved.trans {d'' m''} (h : Moved d m t d' m') (h' : Moved d' m' t' d'' m'') : Moved d m (t ++ t') d'' m'' where
  frame := h'.frame.trans h.frame
  kend := h'.kend.trans h.kend
  pages := h'.pages.trans h.pages
  same := h.same.trans h'.same

structure Grown (d : Dir) (m : Kmem) (a newsz : Nat) (t : List Ev) (d' : Dir) (m' : Kmem) : Prop where
  moved : Moved d m t d' m'
  free : ∀ f ∈ m'.freelist, f ∈ m.freelist
  has : ∀ q, d'.Has q ↔ d.Has q ∨ ∃ p, a ≤ p * 4096 ∧ p * 4096 < newsz ∧ q / 1024 = p / 1024
  added : ∀ q, a ≤ q * 4096 → q * 4096 < newsz →
    ∃ f ∈ m.freelist, .kalloc .page (some f) ∈ t ∧ d'.pte q = some ⟨f, true, true⟩
  outside : ∀ q, q * 4096 < a ∨ newsz ≤ q * 4096 → d'.pte q = d.pte q

/-- A page was refused. `oldsz` is where the call began, and pages may have been added since then. -/
structure Refused (d : Dir) (m : Kmem) (oldsz newsz : Nat) (t : List Ev) (d' : Dir) (m' : Kmem) : Prop where
  moved : Moved d m t d' m'
  refused : .kalloc .page none ∈ t
  pte : ∀ q, d'.pte q = d.pte q ∨ d'.pte q = none
  below : ∀ q, q * 4096 < oldsz → d'.pte q = d.pte q
  clear : d.Has (oldsz / 4096) → ∀ q, oldsz ≤ q * 4096 → q * 4096 < newsz → d'.pte q = none

theorem Cut.moved (h : Cut d m a oldsz d' m') (t : List Ev) : Moved d m t d' m' := { h with
  pages := by
    ext c
    have hc := congrArg (Multiset.count c) h.pages
    simp only [Dir.pages, h.frame, tables_congr h.tables, count_add] at hc ⊢
    omega
  same := .inr (tables_congr h.tables) }

theorem Grown.page {fill} (hk : Taken fill m (some f) m1) (ha : a % 4096 = 0) (hp : a / 4096 < userpages)
    (h : Mapped d m1 (a / 4096) 1 f true true t d' m') :
    Grown d m a (a + 4096) ([.kalloc .page (some f)] ++ t) d' m' where
  moved := by
    refine ⟨h.tables.frame, h.tables.kend.trans hk.kend, ?_, SameTables.trans (.inr rfl) h.tables.same⟩
    rw [h.pages hp, hk.free, Option.toList_some, singleton_append, ← cons_coe, ← singleton_add, add_assoc]
  free := fun g hg => by
    rw [hk.free]
    exact mem_append_right _ (h.tables.free g hg)
  has := fun q => by
    rw [h.has]
    refine or_congr Iff.rfl ⟨?_, ?_⟩
    · rintro ⟨k, hk, hq⟩
      exact ⟨a / 4096, by omega, by omega, by rw [hq, show k = 0 by omega, Nat.add_zero]⟩
    · rintro ⟨p, h1, h2, hq⟩
      exact ⟨0, by omega, by rw [hq, show p = a / 4096 by omega, Nat.add_zero]⟩
  added := fun q h1 h2 => by
    refine ⟨f, by simp [hk.free], by simp, ?_⟩
    rw [h.pte, if_pos (by omega), show q - a / 4096 = 0 by omega, Nat.add_zero]
  outside := fun q hq => by rw [h.pte, if_neg (by omega)]

theorem Grown.stop {a newsz} (h : newsz ≤ a) : Grown d m a newsz [] d m where
  moved := Moved.refl d m
  free := fun _ h => h
  has := fun q => ⟨.inl, fun hq => hq.elim id fun ⟨p, h1, h2, _⟩ => by omega⟩
  added := fun q h1 h2 => by omega
  outside := fun _ _ => rfl

theorem Grown.trans {newsz} (h : Grown d m a b t d1 m1) (h' : Grown d1 m1 b newsz t' d' m') (hab : a ≤ b)
    (hb : b ≤ newsz) (h4 : b % 4096 = 0) :
    Grown d m a newsz (t ++ t') d' m' where
  moved := h.moved.trans h'.moved
  free := fun f hf => h.free f (h'.free f hf)
  has := fun q => by
    rw [h'.has, h.has, or_assoc]
    refine or_congr Iff.rfl ⟨?_, ?_⟩
    · rintro (⟨p, h1, h2, hq⟩ | ⟨p, h1, h2, hq⟩)
      · exact ⟨p, h1, by omega, hq⟩
      · exact ⟨p, by omega, h2, hq⟩
    rintro ⟨p, h1, h2, hq⟩
    by_cases hp : p * 4096 < b
    · exact .inl ⟨p, h1, hp, hq⟩
    · exact .inr ⟨p, by omega, h2, hq⟩
  added := fun q h1 h2 => by
    by_cases hq : q * 4096 < b
    · obtain ⟨f, hf, ht, hx⟩ := h.added q h1 hq
      refine ⟨f, hf, mem_append_left _ ht, ?_⟩
      rw [h'.outside q (.inl hq), hx]
    · obtain ⟨f, hf, ht, hx⟩ := h'.added q (by omega) h2
      exact ⟨f, h.free f hf, mem_append_right _ ht, hx⟩
  outside := fun q hq => by rw [h'.outside q (by omega), h.outside q (by omega)]

theorem Grown.refused {newsz} (h : Grown d m a (a + 4096) t d1 m1) (h' : Refused d1 m1 oldsz newsz t' d' m')
    (hlo : oldsz ≤ a) (hlt : a < newsz) (ha : a % 4096 = 0) (hhas : d1.Has (oldsz / 4096)) :
    Refused d m oldsz newsz (t ++ t') d' m' where
  moved := h.moved.trans h'.moved
  refused := mem_append_right _ h'.refused
  pte := fun q => by
    by_cases hq : a ≤ q * 4096 ∧ q * 4096 < a + 4096
    · exact .inr (h'.clear hhas q (by omega) (by omega))
    · have := h'.pte q; rwa [h.outside q (by omega)] at this
  below := fun q hq => by rw [h'.below q hq, h.outside q (by omega)]
  clear := fun _ => h'.clear hhas

theorem Freeable.grown {lo newsz} (h : Freeable d m lo newsz) (hg : Grown d m a b t d1 m1) :
    Freeable d1 m1 lo newsz := by
  intro q x h1 h2 hx
  rw [hg.moved.kend]
  by_cases hq : a ≤ q * 4096 ∧ q * 4096 < b
  · obtain ⟨f, hf, -, hy⟩ := hg.added q hq.1 hq.2
    rw [hx, Option.some.injEq] at hy
    rw [hy, ← pageOf_phystop]
    exact m.inside f hf
  · exact h q x h1 h2 (hg.outside q (by omega) ▸ hx)

theorem meets_allocuvmFrom {oldsz} (hF : ∀ e, F e → Granted e) (hnew : newsz.toNat < 2147483648) {fuel}
    (ha : a % 4096 = 0) (hlo : top oldsz ≤ a) (hhi : a ≤ top newsz) (hfuel : newsz.toNat ≤ a + fuel * 4096)
    (hhas : a = top oldsz ∨ d.Has (top oldsz / 4096))
    (hE : (∀ s, E s) ∨ Freeable d m (top oldsz) newsz.toNat ∧ ∀ q, a ≤ q * 4096 → q * 4096 < newsz.toNat →
      d.pte q = none) :
    Meets F E (fun t r m' => r.1 = newsz ∧ Grown d m a (top newsz) t r.2 m' ∨
      r.1 = 0 ∧ Refused d m (top oldsz) newsz.toNat t r.2 m') (allocuvmFrom oldsz newsz fuel d a) m := by
  induction fuel generalizing d m a with
  | zero => exact meets_pure (.inl ⟨rfl, Grown.stop (by unfold top; omega)⟩)
  | succ fuel ih =>
    unfold allocuvmFrom
    split
    · next hlt =>
      refine meets_kalloc.bind ?_
      rintro t r m1 ⟨rfl, -, htaken⟩
      cases r with
      | none =>
        have hfree : m.freelist = m1.freelist := htaken.free
        refine (meets_deallocuvm (by omega) (hE.imp_right fun h => ?_)).bind ?_
        · intro q x h1 h2; rw [htaken.kend]; exact h.1 q x h1 h2
        rintro t ⟨_, d'⟩ m' ⟨-, hcut⟩
        have hmoved : Moved d m [.kalloc .page none] d m1 := ⟨rfl, htaken.kend, by rw [hfree], .inr rfl⟩
        refine meets_pure (.inr ⟨rfl, hmoved.trans (hcut.moved _), by simp, hcut.pte, ?_, ?_⟩)
        · exact fun q hq => hcut.outside q (.inl hq)
        · exact fun h => hcut.clear (.inr h)
      | some f =>
        have hpage : a / 4096 < userpages := by simp only [userpages]; omega
        dsimp only
        rw [mappages_page ha (by omega)]
        refine (meets_mappagesFrom hF (by simp only [npages]; omega) ?_).bind ?_
        · rcases hE with hE | ⟨-, hnone⟩
          · exact .inl (hE _)
          · exact .inr fun k hk => hnone _ (by omega) (by omega)
        rintro t ⟨_, d1⟩ m2 ⟨-, hmap⟩
        have hg := Grown.page htaken ha hpage hmap
        have hhas1 : d1.Has (top oldsz / 4096) := by
          rw [hg.has]
          rcases hhas with rfl | hhas
          · exact .inr ⟨top oldsz / 4096, by omega, by omega, rfl⟩
          · exact .inl hhas
        refine (ih (by omega) (by omega) (by unfold top; omega) (by omega) (.inr hhas1) ?_).mono ?_
        · rcases hE with hE | ⟨hfreeable, hnone⟩
          · exact .inl hE
          refine .inr ⟨hfreeable.grown hg, fun q h1 h2 => ?_⟩
          rw [hg.outside q (by omega)]
          exact hnone q (by omega) h2
        rintro t' ⟨sz, d'⟩ m' (⟨hsz, hgrown⟩ | ⟨hsz, href⟩)
        · refine .inl ⟨hsz, ?_⟩
          rw [← append_assoc]
          exact hg.trans hgrown (by omega) (by unfold top; omega) (by omega)
        refine .inr ⟨hsz, ?_⟩
        rw [← append_assoc]
        exact hg.refused href hlo hlt ha hhas1
    · next hge => exact meets_pure (.inl ⟨rfl, Grown.stop (by unfold top; omega)⟩)

theorem meets_allocuvm {oldsz} (hF : ∀ e, F e → Granted e)
    (hE : (∀ s, E s) ∨ ∀ q, top oldsz ≤ q * 4096 → q < userpages → d.pte q = none) :
    Meets F E (fun t r m' => (2147483648 ≤ newsz.toNat ∨ newsz = 0) ∧ r.1 = 0 ∧ r.2 = d ∧ m' = m ∨
      newsz < oldsz ∧ r.1 = oldsz ∧ r.2 = d ∧ m' = m ∨
      oldsz ≤ newsz ∧ newsz ≠ 0 ∧ newsz.toNat < 2147483648 ∧ (r.1 = newsz ∧ Grown d m (top oldsz) (top newsz) t r.2 m' ∨
        r.1 = 0 ∧ Refused d m (top oldsz) newsz.toNat t r.2 m')) (allocuvm d oldsz newsz) m := by
  unfold allocuvm
  have hbase := toNat_kernbase
  split
  · rename_i hkern
    rw [UInt32.le_iff_toNat_le, hbase] at hkern
    exact meets_pure (.inl ⟨.inl hkern, rfl, rfl, rfl⟩)
  next hkern =>
  rw [UInt32.le_iff_toNat_le, hbase] at hkern
  split
  · next hlt => exact meets_pure (.inr (.inl ⟨hlt, rfl, rfl, rfl⟩))
  next hge =>
  by_cases h0 : newsz = 0
  · rw [h0] at hge ⊢
    have hold : oldsz = 0 := by
      rw [UInt32.lt_iff_toNat_lt] at hge
      exact UInt32.toNat_inj.mp (Nat.eq_zero_of_not_pos hge)
    rw [hold]
    exact meets_pure (.inl ⟨.inr rfl, rfl, rfl, rfl⟩)
  rw [UInt32.lt_iff_toNat_lt] at hge
  have hle : oldsz ≤ newsz := UInt32.le_iff_toNat_le.mpr (by omega)
  rw [toNat_pgroundup (by omega)]
  refine (meets_allocuvmFrom hF (by omega) (by unfold top; omega) le_rfl (by unfold top; omega) (by omega)
    (.inl rfl) (hE.imp_right fun h => ?_)).mono fun t r m' h => .inr (.inr ⟨hle, h0, by omega, h⟩)
  have hnone : ∀ q, top oldsz ≤ q * 4096 → q * 4096 < newsz.toNat → d.pte q = none :=
    fun q h1 h2 => h q h1 (by simp only [userpages]; omega)
  refine ⟨fun q x h1 h2 hx => ?_, hnone⟩
  simp [hnone q h1 h2] at hx

end Xv6Vsd.Paging
