import Xv6Vsd.Paging.Lemmas.Spec

/-!
# Which pages `deallocuvm` takes back

Where a page table is missing, the loop goes on 4 MB further.
-/

namespace Xv6Vsd.Paging

open Prog Function List Option UInt32

variable {d d' : Dir} {m m' : Kmem} {p q hi : Nat} {oldsz newsz : UInt32}

namespace Dir

/-- Tables are missing from that of page `p` up to that of page `q`, and `q` stands further ahead in its table than
`p`. -/
def Passed (d : Dir) (p q : Nat) : Prop :=
  (d.pde (p / 1024)).isNone ∧ q % 1024 < p % 1024 ∧ ∀ i < q / 1024, p / 1024 < i → (d.pde i).isNone

instance (d : Dir) (p q : Nat) : Decidable (d.Passed p q) := inferInstanceAs (Decidable (_ ∧ _ ∧ _))

def frameAt (d : Dir) (q : Nat) : Option Nat := (d.pte q).map Pte.frame

def taken (d : Dir) (p q : Nat) : Option Nat := if d.Passed p q then none else d.frameAt q

def freed (d : Dir) (p hi : Nat) : List Nat := (range' p (hi - p)).filterMap (d.taken p)

theorem not_has_iff : ¬ d.Has p ↔ (d.pde (p / 1024)).isNone := by simp [Has]

theorem Has.not_passed (h : d.Has p) : ¬ d.Passed p q := fun hp => not_has_iff.mpr hp.1 h

theorem Has.not_passed_succ (h : d.Has p) : ¬ d.Passed (p + 1) q := by
  by_cases h' : d.Has (p + 1)
  · exact h'.not_passed
  -- the next table begins
  have hmod : (p + 1) % 1024 = 0 := by
    by_contra hne
    exact h' (h.congr (by omega))
  rintro ⟨-, hlt, -⟩
  omega

theorem passed_jump (h : ¬ d.Has p) (hq : p + 1024 ≤ q) : d.Passed (p + 1024) q ↔ d.Passed p q := by
  have hdiv : (p + 1024) / 1024 = p / 1024 + 1 := by omega
  have hmod : (p + 1024) % 1024 = p % 1024 := by omega
  rw [Passed, Passed, hdiv, hmod]
  constructor
  · rintro ⟨hnext, hlt, hbetween⟩
    refine ⟨not_has_iff.mp h, hlt, fun i hi hp => ?_⟩
    rcases Nat.eq_or_lt_of_le hp with rfl | hp
    · exact hnext
    · exact hbetween i hi hp
  · rintro ⟨-, hlt, hbetween⟩
    exact ⟨hbetween _ (by omega) (by omega), hlt, fun i hi hp => hbetween i hi (by omega)⟩

/-- What lies within 4 MB behind a page without a table has no table, either, or is passed over. -/
theorem taken_near (h : ¬ d.Has p) (hp : p ≤ q) (hq : q < p + 1024) : d.taken p q = none := by
  by_cases hhas : d.Has q
  · have hne : q / 1024 ≠ p / 1024 := fun he => h (hhas.congr he.symm)
    exact if_pos ⟨not_has_iff.mp h, by omega, fun i hi hpi => by omega⟩
  · simp [taken, frameAt, pte_of_not_has hhas]

theorem freed_stop (h : hi ≤ p) : d.freed p hi = [] := by simp [freed, h]

theorem freed_next (h : d.Has p) (hlt : p < hi) : d.freed p hi = (d.frameAt p).toList ++ d.freed (p + 1) hi := by
  have hlen : hi - p = (hi - (p + 1)) + 1 := by omega
  have hself : d.taken p p = d.frameAt p := if_neg h.not_passed
  have hrest : d.taken p = d.taken (p + 1) := by
    funext q
    rw [taken, if_neg h.not_passed, taken, if_neg h.not_passed_succ]
  rw [freed, hlen, range'_succ, filterMap_cons, hself, hrest]
  cases d.frameAt p <;> rfl

theorem freed_jump (h : ¬ d.Has p) : d.freed p hi = d.freed (p + 1024) hi := by
  have hnear : ∀ n ≤ 1024, (range' p n).filterMap (d.taken p) = [] := by
    intro n hn
    rw [filterMap_eq_nil_iff]
    intro q hq
    rw [mem_range'_1] at hq
    exact taken_near h hq.1 (by omega)
  by_cases hle : hi ≤ p + 1024
  · rw [freed_stop hle, freed, hnear _ (by omega)]
  have hlen : hi - p = 1024 + (hi - (p + 1024)) := by omega
  rw [freed, hlen, ← range'_append_1, filterMap_append, hnear _ le_rfl, nil_append, freed]
  refine filterMap_congr fun q hq => ?_
  rw [mem_range'_1] at hq
  simp only [taken, passed_jump h hq.1]

theorem passed_congr (h : ∀ i, (d'.pde i).map Table.frame = (d.pde i).map Table.frame) :
    d'.Passed p q ↔ d.Passed p q := by
  have hnone : ∀ i, (d'.pde i).isNone = (d.pde i).isNone := fun i => by
    rw [← isNone_map (f := Table.frame), h, isNone_map]
  simp only [Passed, hnone]

theorem freed_congr (h : ∀ i, (d'.pde i).map Table.frame = (d.pde i).map Table.frame)
    (hpte : ∀ q, p ≤ q → d'.pte q = d.pte q) : d'.freed p hi = d.freed p hi := by
  refine filterMap_congr fun q hq => ?_
  rw [mem_range'_1] at hq
  simp only [taken, frameAt, passed_congr h, hpte q hq.1]

end Dir

/-! ## The loop -/

structure Swept (d : Dir) (m : Kmem) (p hi : Nat) (d' : Dir) (m' : Kmem) : Prop where
  frame : d'.frame = d.frame
  tables : ∀ i, (d'.pde i).map Table.frame = (d.pde i).map Table.frame
  free : m'.freelist = (d.freed p hi).reverse ++ m.freelist
  pte : ∀ q, d'.pte q = if (p ≤ q ∧ q < hi) ∧ ¬ d.Passed p q then none else d.pte q

namespace Swept

variable {d1 : Dir} {m1 : Kmem}

theorem stop (h : hi ≤ p) : Swept d m p hi d m := by
  refine ⟨rfl, fun _ => rfl, by simp [Dir.freed_stop h], fun q => ?_⟩
  rw [if_neg (by omega)]

theorem jump (hhas : ¬ d.Has p) (h : Swept d m (p + 1024) hi d' m') : Swept d m p hi d' m' := by
  refine ⟨h.frame, h.tables, by rw [Dir.freed_jump hhas]; exact h.free, fun q => ?_⟩
  rw [h.pte]
  by_cases hq : p + 1024 ≤ q
  · simp only [Dir.passed_jump hhas hq, hq, show p ≤ q by omega]
  rw [if_neg (by omega)]
  split
  · next hin =>
    have htaken := Dir.taken_near hhas hin.1.1 (by omega)
    rw [Dir.taken, if_neg hin.2] at htaken
    simpa [Dir.frameAt] using htaken
  · rfl

theorem next (hhas : d.Has p) (hlt : p < hi) (hframe : d1.frame = d.frame)
    (htables : ∀ i, (d1.pde i).map Table.frame = (d.pde i).map Table.frame) (hpte : d1.pte = update d.pte p none)
    (hfree : m1.freelist = (d.frameAt p).toList ++ m.freelist) (h : Swept d1 m1 (p + 1) hi d' m') :
    Swept d m p hi d' m' := by
  have hrest : ∀ q, p + 1 ≤ q → d1.pte q = d.pte q := fun q hq => by rw [hpte, update_of_ne (by omega)]
  refine ⟨h.frame.trans hframe, fun i => (h.tables i).trans (htables i), ?_, fun q => ?_⟩
  · rw [h.free, Dir.freed_congr htables hrest, Dir.freed_next hhas hlt, hfree]
    cases d.frameAt p <;> simp
  have hthis : ¬ d.Passed p q := hhas.not_passed
  have hnext : ¬ d1.Passed (p + 1) q := fun hp => hhas.not_passed_succ ((Dir.passed_congr htables).mp hp)
  rw [h.pte, hpte]
  rcases eq_or_ne q p with rfl | hq
  · simp [hthis, hlt]
  rw [update_of_ne hq]
  simp only [hthis, hnext, not_false_eq_true, and_true]
  split
  · rw [if_pos (by omega)]
  · rw [if_neg (by omega)]

end Swept

theorem exec_kfree {f} (h : m.kend ≤ f ∧ f < 57344) :
    ∃ m', (kfree f).exec m = .ok () m' ∧ m'.kend = m.kend ∧ m'.freelist = f :: m.freelist := by
  have hstop := pageOf_phystop
  refine ⟨m.put f (by rwa [hstop]), ?_, rfl, rfl⟩
  rw [kfree, exec_act, dif_neg (by omega), dif_neg (by omega)]

theorem exec_deallocuvmFrom (fuel : Nat) {size} (hhi : hi = (size + 4095) / 4096) (hfuel : hi ≤ p + fuel)
    (hf : Freeable d m (p * 4096) size) :
    ∃ d' m', (deallocuvmFrom size fuel d (p * 4096)).exec m = .ok d' m' ∧ Swept d m p hi d' m' := by
  induction fuel generalizing d m p with
  | zero => exact ⟨d, m, rfl, Swept.stop hfuel⟩
  | succ fuel ih =>
    have hpage : p * 4096 / 4096 = p := by omega
    unfold deallocuvmFrom
    rw [hpage]
    by_cases hlt : p * 4096 < size
    · rw [if_pos hlt]
      cases ht : d.pde (p / 1024) with
      | none =>
        have hhas : ¬ d.Has p := by simp [Dir.Has, ht]
        obtain ⟨d', m', he, h⟩ := ih (d := d) (m := m) (p := p + 1024) (by omega) (hf.mono (by omega))
        rw [show (p + 1024) * 4096 = p * 4096 + 1023 * 4096 + 4096 by omega] at he
        exact ⟨d', m', he, h.jump hhas⟩
      | some t =>
        have hhas : d.Has p := by simp [Dir.Has, ht]
        have hentry : d.pte p = t.pte (p % 1024) := by simp [Dir.pte, ht]
        dsimp only
        cases hx : t.pte (p % 1024) with
        | none =>
          rw [hx] at hentry
          obtain ⟨d', m', he, h⟩ := ih (d := d) (m := m) (p := p + 1) (by omega) (hf.mono (by omega))
          rw [show (p + 1) * 4096 = p * 4096 + 4096 by omega] at he
          refine ⟨d', m', he, h.next hhas (by omega) rfl (fun _ => rfl) ?_ ?_⟩
          · rw [← hentry, update_eq_self]
          · simp [Dir.frameAt, hentry]
        | some x =>
          rw [hx] at hentry
          have hframe := hf p x le_rfl hlt hentry
          have hpos := m.kend_pos
          obtain ⟨m1, he1, hkend, hfree⟩ := exec_kfree hframe
          have hset := Dir.pte_setPte (x := none) hhas
          have hrest : Freeable d m ((p + 1) * 4096) size := hf.mono (by omega)
          have hf1 : Freeable (d.setPte p none) m1 ((p + 1) * 4096) size := by
            intro q y h1 h2 hy
            rw [hset, update_of_ne (by omega)] at hy
            rw [hkend]
            exact hrest q y h1 h2 hy
          obtain ⟨d', m', he, h⟩ := ih (p := p + 1) (by omega) hf1
          rw [show (p + 1) * 4096 = p * 4096 + 4096 by omega] at he
          refine ⟨d', m', ?_, h.next hhas (by omega) Dir.frame_setPte Dir.tableFrame_setPte hset ?_⟩
          · dsimp only
            rw [if_neg (by omega), exec_bind, he1]
            exact he
          · rw [hfree]
            simp [Dir.frameAt, hentry]
    · rw [if_neg hlt]
      exact ⟨d, m, rfl, Swept.stop (by omega)⟩

/-! ## The call -/

def pagesIn (newsz oldsz : UInt32) : List Nat :=
  range' (top newsz / 4096) ((oldsz.toNat + 4095) / 4096 - top newsz / 4096)

theorem mem_pagesIn : q ∈ pagesIn newsz oldsz ↔ top newsz ≤ q * 4096 ∧ q * 4096 < oldsz.toNat := by
  rw [pagesIn, mem_range'_1, top]
  omega

/-- The pages present in the range go to `kfree`, each once, their entries are cleared and no other, and the answer is
`newsz`. -/
def Unmaps (d : Dir) (m : Kmem) (oldsz newsz : UInt32) : Prop :=
  ∃ d' m', (deallocuvm d oldsz newsz).exec m = .ok (newsz, d') m' ∧
    m'.freelist = ((pagesIn newsz oldsz).filterMap d.frameAt).reverse ++ m.freelist ∧
    (∀ q, d'.pte q = if q ∈ pagesIn newsz oldsz then none else d.pte q) ∧
    d'.frame = d.frame ∧ ∀ i, (d'.pde i).map Table.frame = (d.pde i).map Table.frame

theorem exec_deallocuvm_swept (hlt : newsz < oldsz) (hsz : oldsz ≤ kernbase)
    (hf : Freeable d m (top newsz) oldsz.toNat) :
    ∃ d' m', (deallocuvm d oldsz newsz).exec m = .ok (newsz, d') m' ∧
      Swept d m (top newsz / 4096) ((oldsz.toNat + 4095) / 4096) d' m' := by
  have htop : top newsz / 4096 * 4096 = top newsz := by unfold top; omega
  rw [lt_iff_toNat_lt] at hlt
  rw [le_iff_toNat_le] at hsz
  have hbase := toNat_kernbase
  rw [← htop] at hf
  obtain ⟨d', m', he, h⟩ := exec_deallocuvmFrom (oldsz.toNat / 4096 + 1) rfl (by omega) hf
  refine ⟨d', m', ?_, h⟩
  rw [htop] at he
  rw [deallocuvm, if_neg (by rw [le_iff_toNat_le]; omega), toNat_pgroundup (by omega), exec_bind, he]
  rfl

/-- `deallocuvm` frees what is in the range just where it does not pass over a page that is present. -/
theorem deallocuvm_unmaps_iff (hlt : newsz < oldsz) (hsz : oldsz ≤ kernbase)
    (hf : Freeable d m (top newsz) oldsz.toNat) :
    Unmaps d m oldsz newsz ↔
      ∀ q ∈ pagesIn newsz oldsz, d.Passed (top newsz / 4096) q → d.pte q = none := by
  obtain ⟨d1, m1, he, h⟩ := exec_deallocuvm_swept hlt hsz hf
  have hin : ∀ q, (top newsz / 4096 ≤ q ∧ q < (oldsz.toNat + 4095) / 4096) ↔ q ∈ pagesIn newsz oldsz := by
    intro q
    rw [mem_pagesIn, top]
    omega
  constructor
  · rintro ⟨d', m', he', -, hpte, -⟩ q hq hpassed
    cases he.symm.trans he'
    have hcleared := hpte q
    rw [h.pte, if_neg (fun hc => hc.2 hpassed), if_pos hq] at hcleared
    exact hcleared
  intro hnone
  have htaken : ∀ q ∈ pagesIn newsz oldsz, d.taken (top newsz / 4096) q = d.frameAt q := by
    intro q hq
    rw [Dir.taken]
    split
    · next hp => simp [Dir.frameAt, hnone q hq hp]
    · rfl
  refine ⟨d1, m1, he, ?_, fun q => ?_, h.frame, h.tables⟩
  · rw [h.free, Dir.freed, ← filterMap_congr htaken, pagesIn]
  rw [h.pte]
  by_cases hp : d.Passed (top newsz / 4096) q
  · rw [if_neg (fun hc => hc.2 hp)]
    split
    · next hq => exact hnone q hq hp
    · rfl
  · simp [hp, hin]

def sparse : Dir :=
  ⟨999, fun i => if i = 1 then some ⟨1000, fun j => if j = 0 then some ⟨1001, true, true⟩ else none⟩ else none⟩

def noFree : Kmem := ⟨512, [], fun _ => false, 0, fun _ => zeroPage, kend_pos, by decide⟩

theorem sparse_freeable (a oldsz : Nat) : Freeable sparse noFree a oldsz := by
  intro q x _ _ hx
  simp only [Dir.pte, sparse] at hx
  split at hx
  · simp only [bind_some, ite_none_right_eq_some, Option.some.injEq] at hx
    rw [← hx.2]
    decide
  · cases hx

theorem deallocuvm_unmaps_sparse : Freeable sparse noFree (top 0) 4202496 ∧ Unmaps sparse noFree 4202496 0 := by
  refine ⟨sparse_freeable _ _, (deallocuvm_unmaps_iff (by decide) (by decide) (sparse_freeable _ _)).mpr ?_⟩
  rintro q - ⟨-, hlt, -⟩
  exact absurd hlt (by simp [top])

/-- From 8 KB above 4 MB down to 4 KB: the page at 4 MB stays where it is. -/
theorem deallocuvm_leaves_page : (deallocuvm sparse 4202496 4096).exec noFree = .ok (4096, sparse) noFree ∧
    1024 ∈ pagesIn 4096 4202496 ∧ sparse.pte 1024 = some ⟨1001, true, true⟩ ∧ ¬ Unmaps sparse noFree 4202496 4096 := by
  have he : (deallocuvm sparse 4202496 4096).exec noFree = .ok (4096, sparse) noFree := rfl
  have hin : 1024 ∈ pagesIn 4096 4202496 := mem_pagesIn.mpr (by decide)
  refine ⟨he, hin, rfl, ?_⟩
  rintro ⟨d', m', he', -, hpte, -⟩
  cases he.symm.trans he'
  have hcleared := hpte 1024
  rw [if_pos hin] at hcleared
  cases hcleared

end Xv6Vsd.Paging
