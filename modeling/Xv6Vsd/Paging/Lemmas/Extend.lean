import Xv6Vsd.Paging.Lemmas.Spec

/-!
# `allocuvm` with page tables refused

`allocuvm` does not look at what `mappages` answers: where it gets no page for a table, the page it has taken is mapped
nowhere, and the loop goes on.
-/

namespace Xv6Vsd.Paging

open Prog Function List Option Dir

variable {F : Ev → Prop} {E : String → Prop} {d d' d1 : Dir} {m m' m1 : Kmem} {t t' : List Ev} {a b page f : Nat}

structure Extended (d : Dir) (m : Kmem) (a b : Nat) (t : List Ev) (d' : Dir) (m' : Kmem) : Prop where
  kend : m'.kend = m.kend
  free : ∀ f ∈ m'.freelist, f ∈ m.freelist
  pages : (m'.freelist : Multiset Nat) + d'.pages ≤ m.freelist + d.pages
  has : ∀ q, d.Has q → d'.Has q
  added : ∀ q, a ≤ q * 4096 → q * 4096 < b → d'.pte q = none ∨ ∃ f ∈ m.freelist, d'.pte q = some ⟨f, true, true⟩
  outside : ∀ q, q * 4096 < a ∨ b ≤ q * 4096 → d'.pte q = d.pte q
  kept : ∀ g ∉ m.freelist, m'.page g = m.page g
  clean : ∀ g, m'.page g = m.page g ∨ m'.page g = zeroPage
  zero : ∀ q x, a ≤ q * 4096 → q * 4096 < b → d'.pte q = some x → m'.page x.frame = zeroPage
  hole : .kalloc .table none ∈ t ↔ ∃ q, a ≤ q * 4096 ∧ q * 4096 < b ∧ d'.pte q = none
  granted : .kalloc .page none ∉ t

namespace Extended

theorem stop (h : b ≤ a) : Extended d m a b [] d m where
  kend := rfl
  free _ h := h
  pages := le_refl _
  has _ h := h
  added q h1 h2 := by omega
  outside _ _ := rfl
  kept _ _ := rfl
  clean _ := .inl rfl
  zero q x h1 h2 := by omega
  hole := ⟨nofun, fun ⟨q, h1, h2, _⟩ => by omega⟩
  granted := nofun

theorem trans {c} (h : Extended d m a b t d1 m1) (h' : Extended d1 m1 b c t' d' m') (hab : a ≤ b) (hbc : b ≤ c) :
    Extended d m a c (t ++ t') d' m' where
  kend := h'.kend.trans h.kend
  free f hf := h.free f (h'.free f hf)
  pages := h'.pages.trans h.pages
  has q hq := h'.has q (h.has q hq)
  added q h1 h2 := by
    by_cases hq : q * 4096 < b
    · rw [h'.outside q (.inl hq)]; exact h.added q h1 hq
    · exact (h'.added q (by omega) h2).imp_right fun ⟨f, hf, hx⟩ => ⟨f, h.free f hf, hx⟩
  outside q hq := by rw [h'.outside q (by omega), h.outside q (by omega)]
  kept g hg := by rw [h'.kept g fun h' => hg (h.free g h'), h.kept g hg]
  clean g := by
    rcases h'.clean g with h' | h'
    · rw [h']; exact h.clean g
    · exact .inr h'
  zero q x h1 h2 hx := by
    by_cases hq : q * 4096 < b
    · rw [h'.outside q (.inl hq)] at hx
      rcases h'.clean x.frame with hsame | hblank
      · rw [hsame, h.zero q x h1 hq hx]
      · exact hblank
    · exact h'.zero q x (by omega) h2 hx
  hole := by
    rw [mem_append, h.hole, h'.hole]
    constructor
    · rintro (⟨q, h1, h2, hq⟩ | ⟨q, h1, h2, hq⟩)
      · exact ⟨q, h1, by omega, by rw [h'.outside q (.inl h2), hq]⟩
      · exact ⟨q, by omega, h2, hq⟩
    rintro ⟨q, h1, h2, hq⟩
    by_cases hb : q * 4096 < b
    · rw [h'.outside q (.inl hb)] at hq; exact .inl ⟨q, h1, hb, hq⟩
    · exact .inr ⟨q, by omega, h2, hq⟩
  granted hmem := (mem_append.mp hmem).elim h.granted h'.granted

end Extended

/-! ## One page -/

inductive Walked (d : Dir) (m : Kmem) (page : Nat) : List Ev → Bool × Dir → Kmem → Prop
  | found (h : d.Has page) : Walked d m page [] (true, d) m
  | made {m' : Kmem} {f : Nat} (h : ¬d.Has page) (ht : Taken (fun _ => zeroPage) m (some f) m') :
      Walked d m page [.kalloc .table (some f)] (true, d.addTable page f) m'
  | refused {m' : Kmem} (h : ¬d.Has page) (ht : Taken (fun _ => zeroPage) m none m') :
      Walked d m page [.kalloc .table none] (false, d) m'

theorem meets_walked : Meets F E (Walked d m page) (walkpgdir d page) m := by
  unfold walkpgdir
  cases ht : d.pde (page / 1024) with
  | some x => exact meets_pure (.found (by simp [Dir.Has, ht]))
  | none =>
      have hhas : ¬d.Has page := by simp [Dir.Has, ht]
      refine meets_kalloc.bind ?_
      rintro t r m' ⟨rfl, -, htaken⟩
      cases r with
      | none => exact meets_pure (.refused hhas htaken)
      | some f => exact meets_pure (.made hhas htaken)

inductive Tried (d : Dir) (m : Kmem) (page f : Nat) : List Ev → Dir → Kmem → Prop
  | mapped (h : d.Has page) : Tried d m page f [] (d.setPte page (some ⟨f, true, true⟩)) m
  | made {m' g} (h : ¬d.Has page) (ht : Taken (fun _ => zeroPage) m (some g) m') :
      Tried d m page f [.kalloc .table (some g)] ((d.addTable page g).setPte page (some ⟨f, true, true⟩)) m'
  | refused {m' : Kmem} (h : ¬d.Has page) (ht : Taken (fun _ => zeroPage) m none m') :
      Tried d m page f [.kalloc .table none] d m'

theorem meets_tried (hnone : d.pte page = none) :
    Meets F E (fun t r m' => Tried d m page f t r.2 m') (mappagesFrom true true 1 d page f) m := by
  unfold mappagesFrom
  refine meets_walked.bind ?_
  rintro _ _ _ (h | ⟨h, ht⟩ | ⟨h, ht⟩)
  · simp only [Bool.not_true, Bool.false_eq_true, if_false, hnone, isSome_none]
    exact meets_pure (.mapped h)
  · simp only [Bool.not_true, Bool.false_eq_true, if_false, pte_addTable h, hnone, isSome_none]
    exact meets_pure (.made h ht)
  · simp only [Bool.not_false, if_true]; exact meets_pure (.refused h ht)

theorem pages_setPte {x} (h : d.Has page) (hp : page < userpages) (hnone : d.pte page = none) :
    (d.setPte page (some x)).pages = d.pages + {x.frame} := by
  have hu := users_update (pte_setPte (x := some x) h) hp
  rw [hnone, elim_none, add_zero, elim_some] at hu
  rw [Dir.pages, Dir.pages, hu, tables_congr tableFrame_setPte, frame_setPte, ← add_assoc]

theorem pages_addTable (h : ¬d.Has page) (hp : page < userpages) : (d.addTable page f).pages = d.pages + {f} := by
  have hnp : page < npages := by simp only [userpages, npages] at *; omega
  have husers : (d.addTable page f).users = d.users := users_congr fun p _ => by rw [pte_addTable h]
  rw [Dir.pages, Dir.pages, tables_addTable h hnp, frame_addTable, husers]
  ac_rfl

theorem coe_taken {fill} (h : Taken fill m (some f) m') : (m.freelist : Multiset Nat) = m'.freelist + {f} := by
  rw [h.free, toList_some, singleton_append, ← Multiset.cons_coe, ← Multiset.singleton_add, add_comm]

namespace Tried

variable (h : Tried d m page f t d' m')

include h

theorem kend : m'.kend = m.kend := by
  cases h with
  | mapped h => rfl
  | made h ht | refused h ht => exact ht.kend

theorem free : ∀ g ∈ m'.freelist, g ∈ m.freelist := by
  cases h with
  | mapped h => exact fun _ hg => hg
  | made h ht | refused h ht => intro g hg; rw [ht.free]; exact mem_append_right _ hg

theorem pages (hp : page < userpages) (hnone : d.pte page = none) :
    (m'.freelist : Multiset Nat) + d'.pages ≤ m.freelist + d.pages + {f} := by
  cases h with
  | mapped h => rw [pages_setPte h hp hnone, add_assoc]
  | @made _ g h ht =>
      have hhas : (d.addTable page g).Has page := has_addTable.mpr (.inl rfl)
      rw [pages_setPte hhas hp (by rw [pte_addTable h, hnone]), pages_addTable h hp, coe_taken ht]
      apply le_of_eq
      dsimp only
      ac_rfl
  | refused h ht => have hfree : m.freelist = m'.freelist := ht.free; rw [hfree]; exact le_self_add

theorem has (q : Nat) (hq : d.Has q) : d'.Has q := by
  cases h with
  | mapped h => exact (has_of_tables tableFrame_setPte q).mpr hq
  | made h ht => exact (has_of_tables tableFrame_setPte q).mpr (has_addTable.mpr (.inr hq))
  | refused h ht => exact hq

theorem pte :
    d'.pte = update d.pte page (some ⟨f, true, true⟩) ∧ .kalloc .table none ∉ t ∨ d' = d ∧ .kalloc .table none ∈ t := by
  cases h with
  | mapped h => exact .inl ⟨pte_setPte h, nofun⟩
  | made h ht =>
      refine .inl ⟨?_, by simp⟩
      rw [pte_setPte (has_addTable.mpr (.inl rfl)), pte_addTable h]
  | refused h ht => exact .inr ⟨rfl, by simp⟩

theorem kept (g : Nat) (hg : g ∉ m.freelist) : m'.page g = m.page g := by
  cases h with
  | mapped h => rfl
  | @made _ f' h ht =>
      refine ht.page g fun heq => hg ?_
      cases heq
      rw [ht.free]
      simp
  | refused h ht => exact ht.page g nofun

theorem clean (g : Nat) : m'.page g = m.page g ∨ m'.page g = zeroPage := by
  cases h with
  | mapped h => exact .inl rfl
  | @made _ f' h ht =>
      by_cases hg : f' = g
      · exact .inr (ht.filled g (congrArg some hg))
      · exact .inl (ht.page g (by simpa using hg))
  | refused h ht => exact .inl (ht.page g nofun)

theorem granted : .kalloc .page none ∉ t := by cases h <;> simp

end Tried

theorem Extended.one {q} (ha : a = q * 4096) (hq : q < userpages) (hnone : d.pte q = none)
    (hk : Taken (fun _ => zeroPage) m (some f) m1) (h : Tried d m1 q f t d' m') :
    Extended d m a (a + 4096) (.kalloc .page (some f) :: t) d' m' := by
  have hrange : ∀ p, a ≤ p * 4096 → p * 4096 < a + 4096 → p = q := fun p h1 h2 => by omega
  have hmem : f ∈ m.freelist := by simp [hk.free]
  have hsub : ∀ g ∈ m1.freelist, g ∈ m.freelist := fun g hg => by simp [hk.free, hg]
  have hclean : ∀ g, m'.page g = m.page g ∨ m'.page g = zeroPage := fun g => by
    rcases h.clean g with heq | hblank
    · rw [heq]
      by_cases hg : f = g
      · exact .inr (hk.filled g (congrArg some hg))
      · exact .inl (hk.page g (by simpa using hg))
    · exact .inr hblank
  have hblank : m'.page f = zeroPage := by
    rcases h.clean f with heq | hblank
    · rw [heq, hk.filled f rfl]
    · exact hblank
  refine { kend := h.kend.trans hk.kend, free := fun g hg => hsub g (h.free g hg), pages := ?_, has := h.has
           added := fun p h1 h2 => ?_, outside := fun p hp => ?_, kept := fun g hg => ?_, clean := hclean
           zero := fun p x h1 h2 hx => ?_, hole := ?_, granted := by simpa using h.granted }
  · rw [coe_taken hk, add_right_comm]; exact h.pages hq hnone
  · rw [hrange p h1 h2]
    rcases h.pte with ⟨hpte, -⟩ | ⟨rfl, -⟩
    · exact .inr ⟨f, hmem, by rw [hpte, update_self]⟩
    · exact .inl hnone
  · rcases h.pte with ⟨hpte, -⟩ | ⟨rfl, -⟩
    · rw [hpte, update_of_ne (by omega)]
    · rfl
  · rw [h.kept g fun hg' => hg (hsub g hg'), hk.page g fun heq => ?_]; cases heq; exact hg hmem
  · rw [hrange p h1 h2] at hx
    rcases h.pte with ⟨hpte, -⟩ | ⟨rfl, -⟩
    · rw [hpte, update_self] at hx; cases hx; exact hblank
    · rw [hnone] at hx; cases hx
  · rcases h.pte with ⟨hpte, ht⟩ | ⟨rfl, ht⟩
    · refine ⟨fun hmem => absurd hmem (by simpa using ht), fun ⟨p, h1, h2, hp⟩ => ?_⟩
      rw [hrange p h1 h2, hpte, update_self] at hp; cases hp
    · exact ⟨fun _ => ⟨q, by omega, by omega, hnone⟩, fun _ => mem_cons_of_mem _ ht⟩

/-! ## The loop -/

structure Restored (d : Dir) (m : Kmem) (d' : Dir) (m' : Kmem) : Prop where
  kend : m'.kend = m.kend
  pages : (m'.freelist : Multiset Nat) + d'.pages ≤ m.freelist + d.pages
  pte : ∀ q < userpages, d'.pte q = d.pte q
  kept : ∀ g ∉ m.freelist, m'.page g = m.page g

/-- No user page from the end of the image on is mapped, and if the first of them has no table it is the first of
one. -/
structure Ended (d : Dir) (a : Nat) : Prop where
  clear : ∀ q, a ≤ q * 4096 → q < userpages → d.pte q = none
  table : a % 4194304 = 0 ∨ d.Has (a / 4096)

theorem Extended.freeable {lo n} (h : Extended d m lo a t d1 m1)
    (hclear : ∀ q, lo ≤ q * 4096 → q < userpages → d.pte q = none) (hn : n ≤ 2147483648) (hk : m'.kend = m1.kend) :
    Freeable d1 m' lo n := by
  intro q x h1 h2 hx
  by_cases hq : q * 4096 < a
  · rcases h.added q h1 hq with hnone | ⟨f, hf, hy⟩
    · rw [hnone] at hx; cases hx
    rw [hy] at hx
    cases hx
    have hin := m.inside f hf
    rw [pageOf_phystop] at hin
    rw [hk, h.kend]
    exact hin
  · rw [h.outside q (.inr (by omega)), hclear q h1 (by simp only [userpages]; omega)] at hx
    cases hx

theorem Extended.restored {lo n} (h : Extended d m lo a t d1 m1) (hd : Ended d lo) (hlt : a < n) (hn : n ≤ 2147483648)
    {m2} (hk : Taken (fun _ => zeroPage) m1 none m2) (hcut : Cut d1 m2 lo n d' m') : Restored d m d' m' where
  kend := hcut.kend.trans (hk.kend.trans h.kend)
  pages := by
    have hfree : m1.freelist = m2.freelist := hk.free
    rw [(hcut.moved []).pages, ← hfree]
    exact h.pages
  pte q hq := by
    by_cases hin : lo ≤ q * 4096 ∧ q * 4096 < n
    · have htable : lo % 4194304 = 0 ∨ d1.Has (lo / 4096) := hd.table.imp_right (h.has _)
      rw [hcut.clear htable q hin.1 hin.2, hd.clear q hin.1 hq]
    · rw [hcut.outside q (by omega), h.outside q (by omega)]
  kept g hg := by
    rw [hcut.page g fun q x h1 h2 hx heq => ?_, hk.page g nofun, h.kept g hg]
    by_cases hq : q * 4096 < a
    · rcases h.added q h1 hq with hnone | ⟨f, hf, hy⟩
      · rw [hnone] at hx; cases hx
      · rw [hy] at hx; cases hx; exact hg (heq ▸ hf)
    · rw [h.outside q (.inr (by omega)), hd.clear q h1 (by simp only [userpages]; omega)] at hx
      cases hx

variable {d0 : Dir} {m0 : Kmem} {t0 : List Ev} {oldsz newsz : UInt32}

theorem meets_extend (hnew : newsz.toNat < 2147483648)
    (hclear : ∀ q, top oldsz ≤ q * 4096 → q < userpages → d0.pte q = none) {fuel} (ha : a % 4096 = 0)
    (hlo : top oldsz ≤ a) (hhi : a ≤ top newsz) (hfuel : newsz.toNat ≤ a + fuel * 4096)
    (h : Extended d0 m0 (top oldsz) a t0 d m) :
    Meets F (fun _ => False) (fun t r m' => r.1 = newsz ∧ Extended d0 m0 (top oldsz) (top newsz) (t0 ++ t) r.2 m' ∨
      r.1 = 0 ∧ .kalloc .page none ∈ t ∧ (Ended d0 (top oldsz) → Restored d0 m0 r.2 m'))
      (allocuvmFrom oldsz newsz fuel d a) m := by
  have hstop : newsz.toNat ≤ a → a = top newsz := fun hle => by
    unfold top at hhi ⊢
    omega
  induction fuel generalizing d m a t0 with
  | zero =>
      refine meets_pure (.inl ⟨rfl, ?_⟩)
      rw [← hstop (by omega), append_nil]
      exact h
  | succ fuel ih =>
      unfold allocuvmFrom
      split
      · rename_i hlt
        refine meets_kalloc.bind ?_
        rintro _ r m1 ⟨rfl, -, htaken⟩
        cases r with
        | none =>
            have hcut : Meets F (fun _ => False) _ (deallocuvm d newsz oldsz) m1 :=
              meets_deallocuvm hnew.le (.inr (h.freeable hclear hnew.le htaken.kend))
            refine hcut.bind fun t r m' hr => meets_pure (.inr ⟨rfl, by simp, fun hd => ?_⟩)
            exact h.restored hd hlt hnew.le htaken hr.2
        | some f =>
            have hq : a / 4096 < userpages := by simp only [userpages]; omega
            have hnone : d.pte (a / 4096) = none := by
              rw [h.outside _ (.inr (by omega)), hclear _ (by omega) hq]
            dsimp only
            rw [mappages_page ha (by omega)]
            refine (meets_tried hnone).bind fun t r m2 htried => ?_
            have hone := Extended.one (show a = a / 4096 * 4096 by omega) hq hnone htaken htried
            have hmore := ih (by omega) (by omega) (by unfold top; omega) (by omega) (h.trans hone hlo (by omega))
              fun hle => by unfold top; omega
            refine hmore.mono fun t' r' m' hr => hr.imp (fun hall => ?_) fun hnone => ?_
            · simpa using hall
            · exact ⟨hnone.1, by simp [hnone.2.1], hnone.2.2⟩
      · refine meets_pure (.inl ⟨rfl, ?_⟩)
        rw [← hstop (by omega), append_nil]
        exact h

theorem meets_allocuvm_clear (d : Dir) (m : Kmem) (oldsz newsz : UInt32) (hle : oldsz.toNat ≤ newsz.toNat)
    (hnew : newsz.toNat < 2147483648) (hclear : ∀ q, top oldsz ≤ q * 4096 → q < userpages → d.pte q = none) :
    Meets F (fun _ => False) (fun t r m' => r.1 = newsz ∧ Extended d m (top oldsz) (top newsz) t r.2 m' ∨
      r.1 = 0 ∧ .kalloc .page none ∈ t ∧ (Ended d (top oldsz) → Restored d m r.2 m')) (allocuvm d oldsz newsz) m := by
  have hbase := toNat_kernbase
  unfold allocuvm
  rw [if_neg (by rw [UInt32.le_iff_toNat_le]; omega), if_neg (by rw [UInt32.lt_iff_toNat_lt]; omega),
    toNat_pgroundup (by omega)]
  have htop : top oldsz ≤ top newsz := by unfold top; omega
  exact meets_extend hnew hclear (by unfold top; omega) le_rfl htop (by unfold top; omega) (.stop le_rfl)

theorem meets_allocuvm_any (d : Dir) (m : Kmem) (oldsz newsz : UInt32) (hlt : oldsz.toNat < newsz.toNat)
    (hnew : newsz.toNat < 2147483648) (hd : Ended d (top oldsz)) :
    Meets F (fun _ => False) (fun t r m' => r.1 = newsz ∧ Extended d m (top oldsz) (top newsz) t r.2 m' ∨
      r.1 = 0 ∧ .kalloc .page none ∈ t ∧ Restored d m r.2 m') (allocuvm d oldsz newsz) m :=
  (meets_allocuvm_clear d m oldsz newsz hlt.le hnew hd.clear).mono fun _ _ _ h =>
    h.imp_right fun ⟨h0, hmem, hres⟩ => ⟨h0, hmem, hres hd⟩

end Xv6Vsd.Paging
