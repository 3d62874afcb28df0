import Xv6Vsd.Paging.Lemmas.Spec
import Xv6Vsd.Paging.Words

/-!
# What `mappages` maps

The loop ends at the last page of the range also where that is the last page of the address space:
the test comes before the addition.
-/

namespace Xv6Vsd.Paging.Words

open Function Finset

/-! ## Addresses -/

theorem and_pages {x} (h : x < 2 ^ 32) : x &&& 4294963200 = x / 4096 * 4096 := by
  have hmask : 4294963200 = (2 ^ 20 - 1) * 2 ^ 12 := rfl
  have hdiv : x / 4096 * 4096 = x / 2 ^ 12 * 2 ^ 12 := rfl
  rw [hmask, hdiv]
  apply Nat.eq_of_testBit_eq
  intro i
  simp only [Nat.testBit_and, Nat.testBit_mul_two_pow, Nat.testBit_two_pow_sub_one, Nat.testBit_div_two_pow]
  by_cases h12 : 12 ≤ i
  · by_cases hi : i - 12 < 20
    · simp [h12, hi, Nat.sub_add_cancel h12]
    have hbit : x.testBit i = false :=
      Nat.testBit_lt_two_pow (Nat.lt_of_lt_of_le h (Nat.pow_le_pow_right (by omega) (by omega)))
    simp [h12, hi, Nat.sub_add_cancel h12, hbit]
  · simp [h12]

variable {a b va x y : UInt32}

theorem toNat_pteAddr (a : UInt32) : (pteAddr a).toNat = a.toNat / 4096 * 4096 := by
  rw [pteAddr, UInt32.toNat_and]
  exact and_pages a.toNat_lt

theorem toNat_pgrounddown (a : UInt32) : (pgrounddown a).toNat = pageOf a * 4096 := toNat_pteAddr a

theorem pdx_val (a : UInt32) : (pdx a).val = pageOf a / 1024 := by
  have hlt := a.toNat_lt
  have hmask := Nat.and_two_pow_sub_one_eq_mod (a.toNat / 2 ^ 22) 10
  simp only [pdx, pageOf, UInt32.toNat_and, UInt32.toNat_shiftRight, Nat.shiftRight_eq_div_pow]
  refine hmask.trans ?_
  omega

theorem ptx_val (a : UInt32) : (ptx a).val = pageOf a % 1024 := by
  have hmask := Nat.and_two_pow_sub_one_eq_mod (a.toNat / 2 ^ 12) 10
  simp only [ptx, pageOf, UInt32.toNat_and, UInt32.toNat_shiftRight, Nat.shiftRight_eq_div_pow]
  exact hmask

theorem same_page : pdx a = pdx b ∧ ptx a = ptx b ↔ pageOf a = pageOf b := by
  rw [Fin.ext_iff, Fin.ext_iff, pdx_val, pdx_val, ptx_val, ptx_val]
  omega

theorem and_or (x y z : UInt32) : (x ||| y) &&& z = (x &&& z) ||| (y &&& z) := by
  apply UInt32.toBitVec_inj.mp
  simp [BitVec.and_or_distrib_right]

theorem pteAddr_or : pteAddr (x ||| y) = pteAddr x ||| pteAddr y := and_or ..

theorem pteAddr_table {f} (h : pteAddr f = f) : pteAddr (f ||| pteP ||| pteW ||| pteU) = f := by
  have hP : pteAddr pteP = 0 := by decide
  have hW : pteAddr pteW = 0 := by decide
  have hU : pteAddr pteU = 0 := by decide
  simp [pteAddr_or, h, hP, hW, hU]

theorem present_table (f : UInt32) : (f ||| pteP ||| pteW ||| pteU) &&& pteP ≠ 0 := by
  simp [and_or, pteP]

theorem present_page (pa perm : UInt32) : (pa ||| perm ||| pteP) &&& pteP ≠ 0 := by
  simp [and_or, pteP]

/-! ## Entries -/

variable {m m' : Ram} {pgdir : UInt32}

theorem walk_has {alloc} (h : m.Has pgdir (pdx va)) :
    walkpgdir m pgdir va alloc = (some ⟨m.table pgdir (pdx va), ptx va⟩, m) := if_pos h

theorem entry_has (h : m.Has pgdir (pdx va)) : m.entry pgdir va = m.word (m.table pgdir (pdx va)) (ptx va) := by
  simp [Ram.entry, walk_has h, Ram.get]

theorem entry_not_has (h : ¬ m.Has pgdir (pdx va)) : m.entry pgdir va = 0 := by
  have hwalk : walkpgdir m pgdir va false = (none, m) := if_neg h
  simp [Ram.entry, hwalk]

theorem entry_congr (hpde : m'.word pgdir (pdx va) = m.word pgdir (pdx va))
    (h : m.Has pgdir (pdx va) → m'.word (m.table pgdir (pdx va)) (ptx va) = m.word (m.table pgdir (pdx va)) (ptx va)) :
    m'.entry pgdir va = m.entry pgdir va := by
  have htable : m'.table pgdir (pdx va) = m.table pgdir (pdx va) := congrArg pteAddr hpde
  by_cases hhas : m.Has pgdir (pdx va)
  · have hhas' : m'.Has pgdir (pdx va) := by rwa [Ram.Has, hpde]
    rw [entry_has hhas', entry_has hhas, htable, h hhas]
  · have hhas' : ¬ m'.Has pgdir (pdx va) := by rwa [Ram.Has, hpde]
    rw [entry_not_has hhas', entry_not_has hhas]

def Ram.Outside (m : Ram) (pgdir f : UInt32) : Prop := f ≠ pgdir ∧ ∀ i, m.Has pgdir i → m.table pgdir i ≠ f

/-! ## One turn -/

/-- From `m` to `m'` the address `a` has got a table if it had none; the entries are then `entries`. -/
structure Walked (m : Ram) (pgdir a : UInt32) (entries : UInt32 → UInt32) (m' : Ram) : Prop where
  dir : IsPgdir m' pgdir
  has : m'.Has pgdir (pdx a)
  pde : ∀ i, m.Has pgdir i ∨ i ≠ pdx a → m'.word pgdir i = m.word pgdir i
  entry : ∀ b, m'.entry pgdir b = entries b
  free : m'.freelist = if m.Has pgdir (pdx a) then m.freelist else m.freelist.tail
  outside : ∀ f, f ∉ m.freelist → m.Outside pgdir f → m'.word f = m.word f ∧ m'.Outside pgdir f

theorem Walked.new {f fs} (m' : Ram) (hd : IsPgdir m pgdir) (h : ¬ m.Has pgdir (pdx a)) (hf : m.freelist = f :: fs)
    (hdir : m'.word pgdir = update (m.word pgdir) (pdx a) (f ||| pteP ||| pteW ||| pteU)) (hnew : ∀ i, m'.word f i = 0)
    (hold : ∀ g, g ≠ f → g ≠ pgdir → m'.word g = m.word g) (hlist : m'.freelist = fs) :
    m'.table pgdir (pdx a) = f ∧ Walked m pgdir a (m.entry pgdir) m' := by
  have hmem : f ∈ m.freelist := by simp [hf]
  have hsub : ∀ g, g ∉ m.freelist → g ∉ fs := fun g hg h0 => hg (by simp [hf, h0])
  have hnodup : f ∉ fs := (List.nodup_cons.mp (hf ▸ m.nodup)).1
  have hfresh : ∀ i, m.Has pgdir i → m.table pgdir i ≠ f := fun i hi he => hd.tables i hi (he ▸ hmem)
  have hself : m'.word pgdir (pdx a) = f ||| pteP ||| pteW ||| pteU := by rw [hdir, update_self]
  have hother : ∀ i, i ≠ pdx a → m'.word pgdir i = m.word pgdir i := fun i hi => by rw [hdir, update_of_ne hi]
  have hhas : m'.Has pgdir (pdx a) := by rw [Ram.Has, hself]; exact present_table f
  have htable : m'.table pgdir (pdx a) = f := by rw [Ram.table, hself, pteAddr_table (m.aligned f hmem)]
  have hcases : ∀ i, m'.Has pgdir i → i = pdx a ∨ m.Has pgdir i ∧ m'.table pgdir i = m.table pgdir i := by
    intro i hi
    rcases eq_or_ne i (pdx a) with rfl | hne
    · exact .inl rfl
    · rw [Ram.Has, hother i hne] at hi
      exact .inr ⟨hi, congrArg pteAddr (hother i hne)⟩
  -- what holds of `f` and of the old tables holds of all tables
  have hall : ∀ P : UInt32 → Prop, P f → (∀ i, m.Has pgdir i → P (m.table pgdir i)) →
      ∀ i, m'.Has pgdir i → P (m'.table pgdir i) := by
    intro P hPf hP i hi
    rcases hcases i hi with rfl | ⟨hi, he⟩
    · rwa [htable]
    · rw [he]
      exact hP i hi
  refine ⟨htable, ⟨?_, ?_, ?_, ?_⟩, hhas, ?_, ?_, ?_, ?_⟩
  · exact hall (· ≠ pgdir) (fun he => hd.used (he ▸ hmem)) hd.off
  · intro i j hi hj he
    rcases hcases i hi with rfl | ⟨hi, hi'⟩ <;> rcases hcases j hj with rfl | ⟨hj, hj'⟩
    · rfl
    · exact absurd (hj'.symm.trans (he.symm.trans htable)) (hfresh j hj)
    · exact absurd (hi'.symm.trans (he.trans htable)) (hfresh i hi)
    · exact hd.apart i j hi hj (hi'.symm.trans (he.trans hj'))
  · rw [hlist]
    exact hsub _ hd.used
  · rw [hlist]
    exact hall (· ∉ fs) hnodup fun i hi => hsub _ (hd.tables i hi)
  · rintro i (hi | hi)
    · exact hother i fun he => h (he ▸ hi)
    · exact hother i hi
  · intro b
    by_cases hb : pdx b = pdx a
    · rw [entry_not_has (m := m) (hb ▸ h), entry_has (m := m') (hb ▸ hhas), hb, htable, hnew]
    · refine entry_congr (hother _ hb) fun hhas => ?_
      rw [hold _ (hfresh _ hhas) (hd.off _ hhas)]
  · rw [if_neg h, hf, hlist, List.tail_cons]
  · intro g hg hout
    have hgf : g ≠ f := fun he => hg (he ▸ hmem)
    exact ⟨hold g hgf hout.1, hout.1, hall (· ≠ g) hgf.symm hout.2⟩

theorem walked (hd : IsPgdir m pgdir) (h : m.Has pgdir (pdx a) ∨ m.freelist ≠ []) :
    ∃ m', walkpgdir m pgdir a true = (some ⟨m'.table pgdir (pdx a), ptx a⟩, m') ∧
      Walked m pgdir a (m.entry pgdir) m' := by
  by_cases hhas : m.Has pgdir (pdx a)
  · exact ⟨m, walk_has hhas, hd, hhas, fun _ _ => rfl, fun _ => rfl, (if_pos hhas).symm, fun _ _ h => ⟨rfl, h⟩⟩
  obtain ⟨f, fs, hf⟩ := List.exists_cons_of_ne_nil (h.resolve_left hhas)
  have hne : f ≠ pgdir := fun he => hd.used (by simp [hf, ← he])
  have hwalk : walkpgdir m pgdir a true =
      (some ⟨f, ptx a⟩, (m.kalloc.2.clear f).set ⟨pgdir, pdx a⟩ (f ||| pteP ||| pteW ||| pteU)) := by
    have h0 : ¬ (m.get ⟨pgdir, pdx a⟩ &&& pteP ≠ 0) := hhas
    simp [walkpgdir, h0, Ram.kalloc, hf]
  obtain ⟨htable, hw⟩ := Walked.new ((m.kalloc.2.clear f).set ⟨pgdir, pdx a⟩ (f ||| pteP ||| pteW ||| pteU)) hd hhas hf
    (by simp [Ram.set, Ram.clear, Ram.kalloc, update_of_ne hne.symm])
    (fun i => by simp [Ram.set, Ram.clear, update_of_ne hne])
    (fun g h1 h2 => by simp [Ram.set, Ram.clear, Ram.kalloc, update_of_ne h1, update_of_ne h2])
    (by simp [Ram.set, Ram.clear, Ram.kalloc, hf])
  exact ⟨_, by rw [hwalk, htable], hw⟩

theorem Walked.enter {m1 : Ram} (h : Walked m pgdir a (m.entry pgdir) m1) (x : UInt32) :
    Walked m pgdir a (fun b => if pageOf b = pageOf a then x else m.entry pgdir b)
      (m1.set ⟨m1.table pgdir (pdx a), ptx a⟩ x) := by
  generalize hm' : m1.set ⟨m1.table pgdir (pdx a), ptx a⟩ x = m'
  have hdir : m'.word pgdir = m1.word pgdir := by
    rw [← hm']
    exact update_of_ne (h.dir.off _ h.has).symm ..
  have hhas : ∀ i, m'.Has pgdir i ↔ m1.Has pgdir i := fun i => by rw [Ram.Has, hdir, Ram.Has]
  have htable : ∀ i, m'.table pgdir i = m1.table pgdir i := fun i => by rw [Ram.table, hdir, Ram.table]
  have hlist : m'.freelist = m1.freelist := by rw [← hm']; rfl
  have hpage : ∀ f, f ≠ m1.table pgdir (pdx a) → m'.word f = m1.word f := fun f hf => by
    rw [← hm']
    exact update_of_ne hf ..
  have hword : m'.word (m1.table pgdir (pdx a)) = update (m1.word (m1.table pgdir (pdx a))) (ptx a) x := by
    rw [← hm']
    exact update_self ..
  refine ⟨⟨?_, ?_, ?_, ?_⟩, (hhas _).mpr h.has, fun i hi => by rw [hdir, h.pde i hi], fun b => ?_,
    by rw [hlist, h.free],
    fun f hf hout => ?_⟩
  · simpa only [hhas, htable] using h.dir.off
  · simpa only [hhas, htable] using h.dir.apart
  · rw [hlist]
    exact h.dir.used
  · simpa only [hhas, htable, hlist] using h.dir.tables
  · rw [← h.entry b]
    by_cases hb : pageOf b = pageOf a
    · obtain ⟨h1, h2⟩ := same_page.mpr hb
      rw [if_pos hb, entry_has (by rw [h1]; exact (hhas _).mpr h.has), htable, h1, h2, hword, update_self]
    rw [if_neg hb]
    refine entry_congr (congrFun hdir _) fun hb' => ?_
    by_cases he : pdx b = pdx a
    · rw [he, hword, update_of_ne fun ht => hb (same_page.mp ⟨he, ht⟩)]
    · rw [hpage _ fun ht => he (h.dir.apart _ _ hb' h.has ht)]
  · obtain ⟨hsame, hout'⟩ := h.outside f hf hout
    refine ⟨by rw [hpage f (hout'.2 _ h.has).symm, hsame], hout'.1, ?_⟩
    simpa only [hhas, htable] using hout'.2

/-! ## The loop -/

def lacking (m : Ram) (pgdir : UInt32) (k l : Nat) : Finset (Fin 1024) :=
  {i | (k / 1024 ≤ i.val ∧ i.val ≤ l / 1024) ∧ ¬ m.Has pgdir i}

structure Mapped (m : Ram) (pgdir : UInt32) (k l : Nat) (pa perm : UInt32) (m' : Ram) : Prop where
  dir : IsPgdir m' pgdir
  pde : ∀ i, m.Has pgdir i → m'.word pgdir i = m.word pgdir i
  has : ∀ b, k ≤ pageOf b ∧ pageOf b ≤ l → m'.Has pgdir (pdx b)
  entry : ∀ b, m'.entry pgdir b = if k ≤ pageOf b ∧ pageOf b ≤ l then
    (pa + UInt32.ofNat ((pageOf b - k) * 4096)) ||| perm ||| pteP else m.entry pgdir b
  outside : ∀ f, f ∉ m.freelist → m.Outside pgdir f → m'.word f = m.word f ∧ m'.Outside pgdir f

theorem Walked.keeps {entries} (h : Walked m pgdir a entries m') {i} (hi : m.Has pgdir i) : m'.Has pgdir i := by
  rw [Ram.Has, h.pde i (.inl hi)]
  exact hi

section

variable {k l : Nat} {last pa perm : UInt32} {entries : UInt32 → UInt32} {m1 : Ram}

theorem mem_lacking (hk : pageOf a = k) (hkl : k ≤ l) : pdx a ∈ lacking m pgdir k l ↔ ¬ m.Has pgdir (pdx a) := by
  simp only [lacking, mem_filter, mem_univ, true_and, pdx_val, hk, and_iff_right_iff_imp]
  omega

theorem Walked.lacking_le (h : Walked m pgdir a entries m1) (hk : pageOf a = k) (hkl : k ≤ l)
    (hlack : (lacking m pgdir k l).card ≤ m.freelist.length) :
    (lacking m1 pgdir (k + 1) l).card ≤ m1.freelist.length := by
  have hsub : lacking m1 pgdir (k + 1) l ⊆ (lacking m pgdir k l).erase (pdx a) := by
    intro i hi
    simp only [lacking, mem_filter, mem_univ, true_and, mem_erase] at hi ⊢
    refine ⟨fun he => hi.2 (he ▸ h.has), by omega, fun hm => hi.2 (h.keeps hm)⟩
  have hcard := card_le_card hsub
  rw [h.free]
  split
  · exact hcard.trans ((card_erase_le).trans hlack)
  next hno =>
  rw [card_erase_of_mem ((mem_lacking hk hkl).mpr hno)] at hcard
  rw [List.length_tail]
  omega

theorem Walked.mapped (h : Walked m pgdir a
    (fun b => if pageOf b = pageOf a then pa ||| perm ||| pteP else m.entry pgdir b) m')
    (hk : pageOf a = k) : Mapped m pgdir k k pa perm m' := by
  refine ⟨h.dir, fun i hi => h.pde i (.inl hi), fun b hb => ?_, fun b => ?_, h.outside⟩
  · obtain ⟨he, -⟩ := same_page.mpr (show pageOf b = pageOf a by omega)
    rw [he]
    exact h.has
  rw [h.entry, hk]
  by_cases hb : pageOf b = k
  · simp [hb]
  · rw [if_neg hb, if_neg (by omega)]

theorem Mapped.trans (h : Mapped m pgdir k k pa perm m1) (h' : Mapped m1 pgdir (k + 1) l (pa + 4096) perm m')
    (hkl : k < l)
    (hfree : ∀ f ∈ m1.freelist, f ∈ m.freelist) : Mapped m pgdir k l pa perm m' := by
  have hkeep : ∀ i, m1.Has pgdir i → m'.Has pgdir i := fun i hi => by
    rw [Ram.Has, h'.pde i hi]
    exact hi
  refine ⟨h'.dir, fun i hi => ?_, fun b hb => ?_, fun b => ?_, fun f hf hout => ?_⟩
  · rw [h'.pde i (by rw [Ram.Has, h.pde i hi]; exact hi), h.pde i hi]
  · by_cases hb' : pageOf b = k
    · exact hkeep _ (h.has b (by omega))
    · exact h'.has b (by omega)
  · rw [h'.entry, h.entry]
    by_cases hb : k + 1 ≤ pageOf b ∧ pageOf b ≤ l
    · have hoff : pa + 4096 + UInt32.ofNat ((pageOf b - (k + 1)) * 4096) =
        pa + UInt32.ofNat ((pageOf b - k) * 4096) := by
        rw [show (pageOf b - k) * 4096 = 4096 + (pageOf b - (k + 1)) * 4096 by omega, UInt32.ofNat_add,
          ← UInt32.add_assoc]
        rfl
      rw [if_pos hb, if_pos (by omega), hoff]
    · rw [if_neg hb]
      by_cases hb' : pageOf b = k
      · rw [if_pos (by omega), if_pos (by omega)]
      · rw [if_neg (by omega), if_neg (by omega)]
  · obtain ⟨hsame, hout'⟩ := h.outside f hf hout
    rw [← hsame]
    exact h'.outside f (fun h0 => hf (hfree f h0)) hout'

theorem mapped_from {fuel} (pa : UInt32) (hd : IsPgdir m pgdir) (ha : a.toNat = k * 4096)
    (hlast : last.toNat = l * 4096) (hkl : k ≤ l) (hfuel : l - k < fuel)
    (hfresh : ∀ b, k ≤ pageOf b ∧ pageOf b ≤ l → m.entry pgdir b &&& pteP = 0)
    (hlack : (lacking m pgdir k l).card ≤ m.freelist.length) :
    ∃ m', mappagesFrom pgdir last perm fuel a pa m = .ok 0 m' ∧ Mapped m pgdir k l pa perm m' := by
  induction fuel generalizing m a pa k with
  | zero => omega
  | succ fuel ih =>
    have hpage : pageOf a = k := by rw [pageOf]; omega
    have hroom : m.Has pgdir (pdx a) ∨ m.freelist ≠ [] := by
      by_contra hno
      rw [not_or, not_not] at hno
      have hpos := card_pos.mpr ⟨_, (mem_lacking hpage hkl).mpr hno.1⟩
      simp [hno.2] at hlack
      simp [hlack] at hpos
    obtain ⟨m1, hwalk, hw⟩ := walked hd hroom
    have hent := hw.enter (pa ||| perm ||| pteP)
    have hget : m1.get ⟨m1.table pgdir (pdx a), ptx a⟩ = m.entry pgdir a := by
      rw [← hw.entry, entry_has hw.has]
      rfl
    rw [mappagesFrom, hwalk]
    dsimp only
    rw [hget, if_neg (by rw [not_not]; exact hfresh a (by omega))]
    have hone := hent.mapped hpage
    by_cases hend : a = last
    · have : k = l := by rw [hend] at ha; omega
      rw [if_pos hend]
      exact ⟨_, rfl, this ▸ hone⟩
    have hlt : k < l := by
      rcases Nat.eq_or_lt_of_le hkl with rfl | hlt
      · exact absurd (UInt32.toNat_inj.mp (ha.trans hlast.symm)) hend
      · exact hlt
    have hnext : (a + 4096).toNat = (k + 1) * 4096 := by
      have hmax := last.toNat_lt
      have hsize : (4096 : UInt32).toNat = 4096 := rfl
      rw [UInt32.toNat_add, hsize]
      omega
    have hrest : ∀ b, k + 1 ≤ pageOf b ∧ pageOf b ≤ l → Ram.entry _ pgdir b &&& pteP = 0 := fun b hb => by
      rw [hent.entry, if_neg (by omega)]
      exact hfresh b (by omega)
    obtain ⟨m', he, h⟩ := ih (pa + 4096) hent.dir hnext hlt (by omega) hrest (hent.lacking_le hpage hkl hlack)
    rw [if_neg hend]
    refine ⟨m', he, hone.trans h hlt fun f hf => ?_⟩
    rw [hent.free] at hf
    split at hf
    · exact hf
    · exact List.mem_of_mem_tail hf

end

/-! ## The call -/

variable {size pa perm : UInt32}

def lastPage (va size : UInt32) : Nat := (va.toNat + size.toNat - 1) / 4096

def InRange (va size b : UInt32) : Prop := pageOf va ≤ pageOf b ∧ pageOf b ≤ lastPage va size

/-- Each page of the range is there with its physical address and the flags, and nothing else has changed. -/
structure Maps (m : Ram) (pgdir va size pa perm : UInt32) (m' : Ram) : Prop where
  inside : ∀ b, InRange va size b → ∃ e, walkpgdir m' pgdir b false = (some e, m') ∧ m'.get e &&& pteP ≠ 0 ∧
    m'.get e = (pa + (pgrounddown b - pgrounddown va)) ||| perm ||| pteP ∧
    (pteFlags perm = perm → pteAddr (m'.get e) = pa + (pgrounddown b - pgrounddown va) ∧
      pteFlags (m'.get e) = perm ||| pteP)
  entries : ∀ b, ¬ InRange va size b → m'.entry pgdir b = m.entry pgdir b
  tables : ∀ i, m.Has pgdir i → m'.word pgdir i = m.word pgdir i
  outside : ∀ f, f ∉ m.freelist → m.Outside pgdir f → m'.word f = m.word f

theorem pteAddr_eq (h : x.toNat % 4096 = 0) : pteAddr x = x := by
  apply UInt32.toNat_inj.mp
  rw [toNat_pteAddr]
  omega

theorem toNat_pteFlags (x : UInt32) : (pteFlags x).toNat = x.toNat % 4096 := by
  rw [pteFlags, UInt32.toNat_and]
  exact Nat.and_two_pow_sub_one_eq_mod _ 12

theorem entry_parts (hx : x.toNat % 4096 = 0) (hperm : pteFlags perm = perm) :
    pteAddr (x ||| perm ||| pteP) = x ∧ pteFlags (x ||| perm ||| pteP) = perm ||| pteP := by
  have hflags := toNat_pteFlags perm
  have haddr : pteAddr perm = 0 := by
    apply UInt32.toNat_inj.mp
    rw [toNat_pteAddr, ← hperm, hflags, UInt32.toNat_zero]
    omega
  have hzero : pteFlags x = 0 := UInt32.toNat_inj.mp (by rw [toNat_pteFlags, hx]; rfl)
  have hP : pteAddr pteP = 0 ∧ pteFlags pteP = pteP := by decide
  constructor
  · simp [pteAddr_or, pteAddr_eq hx, haddr, hP.1]
  · have hor : ∀ y z, pteFlags (y ||| z) = pteFlags y ||| pteFlags z := fun _ _ => and_or ..
    rw [hor, hor, hzero, hperm, hP.2, UInt32.zero_or]

theorem toNat_end (hsize : 1 ≤ size.toNat) (htop : va.toNat + size.toNat - 1 ≤ 2 ^ 32 - 1) :
    (va + size - 1).toNat = va.toNat + size.toNat - 1 := by
  have h1 : (1 : UInt32).toNat = 1 := rfl
  rw [UInt32.toNat_sub, UInt32.toNat_add, h1]
  omega

theorem mapped_call (pa perm : UInt32) (hd : IsPgdir m pgdir) (hsize : 1 ≤ size.toNat)
    (htop : va.toNat + size.toNat - 1 ≤ 2 ^ 32 - 1)
    (hfresh : ∀ b, InRange va size b → m.entry pgdir b &&& pteP = 0)
    (hfree : (lacking m pgdir (pageOf va) (lastPage va size)).card ≤ m.freelist.length) :
    ∃ m', mappages m pgdir va size pa perm = .ok 0 m' ∧ Mapped m pgdir (pageOf va) (lastPage va size) pa perm m' := by
  have hlast : (pgrounddown (va + size - 1)).toNat = lastPage va size * 4096 := by
    rw [toNat_pgrounddown, pageOf, toNat_end hsize htop, lastPage]
  exact mapped_from pa hd (toNat_pgrounddown va) hlast (by rw [pageOf, lastPage]; omega)
    (by rw [pageOf, lastPage]; simp only [npages]; omega) hfresh hfree

theorem toNat_aligned (hpa : pteFlags pa = 0) : pa.toNat % 4096 = 0 := by
  rw [← toNat_pteFlags, hpa]
  rfl

/-- With a free page for every table that is lacking, `mappages` maps the range and leaves the other entries alone. -/
theorem mappages_maps (hd : IsPgdir m pgdir) (hsize : 1 ≤ size.toNat) (htop : va.toNat + size.toNat - 1 ≤ 2 ^ 32 - 1)
    (hpa : pteFlags pa = 0) (hfresh : ∀ b, InRange va size b → m.entry pgdir b &&& pteP = 0)
    (hfree : (lacking m pgdir (pageOf va) (lastPage va size)).card ≤ m.freelist.length) :
    ∃ m', mappages m pgdir va size pa perm = .ok 0 m' ∧ IsPgdir m' pgdir ∧ Maps m pgdir va size pa perm m' := by
  have hpaNat := toNat_aligned hpa
  obtain ⟨m', he, h⟩ := mapped_call pa perm hd hsize htop hfresh hfree
  refine ⟨m', he, h.dir, ⟨fun b hb => ?_, fun b hb => ?_, h.pde, fun f hf hout => (h.outside f hf hout).1⟩⟩
  · have hmax := b.toNat_lt
    have hsub : (pgrounddown b - pgrounddown va).toNat = (pageOf b - pageOf va) * 4096 := by
      rw [UInt32.toNat_sub, toNat_pgrounddown, toNat_pgrounddown]
      simp only [InRange, pageOf] at *
      omega
    have hval : m'.get ⟨m'.table pgdir (pdx b), ptx b⟩ = (pa + (pgrounddown b - pgrounddown va)) ||| perm ||| pteP := by
      rw [← UInt32.ofNat_toNat (x := pgrounddown b - pgrounddown va), hsub]
      exact (entry_has (h.has b hb)).symm.trans ((h.entry b).trans (if_pos hb))
    refine ⟨_, walk_has (h.has b hb), by rw [hval]; exact present_page _ _, hval, fun hperm => ?_⟩
    rw [hval]
    refine entry_parts ?_ hperm
    rw [UInt32.toNat_add, hsub]
    omega
  · rw [h.entry]
    exact if_neg hb

def oneFree : Ram := ⟨fun _ _ => 0, [8192], List.nodup_singleton _, List.forall_mem_singleton.mpr rfl⟩

theorem oneFree_has (i : Fin 1024) : ¬ oneFree.Has 4096 i := by simp [Ram.Has, oneFree]

/-- The last bytes of the address space are mapped to themselves. -/
theorem mappages_maps_top : ∃ m', mappages oneFree 4096 0xFFFFF800 0x800 0xFFFFF000 pteW = .ok 0 m' ∧
    IsPgdir m' 4096 ∧ Maps oneFree 4096 0xFFFFF800 0x800 0xFFFFF000 pteW m' := by
  have hdir : IsPgdir oneFree 4096 := ⟨fun i hi => absurd hi (oneFree_has i), fun i _ hi => absurd hi (oneFree_has i),
    by decide, fun i hi => absurd hi (oneFree_has i)⟩
  refine mappages_maps hdir (by decide) (by decide) (by decide) (fun b _ => ?_) (card_le_one.mpr fun i hi j hj => ?_)
  · rw [entry_not_has (oneFree_has _)]
    rfl
  have hv : pageOf 0xFFFFF800 = 1048575 ∧ lastPage 0xFFFFF800 0x800 = 1048575 := by decide
  rw [hv.1, hv.2] at hi hj
  simp only [lacking, mem_filter] at hi hj
  omega

/-! ## The directory as a value -/

/-- An entry with its page and the two flags that `exec` and `fork` look at. -/
def decode (x : UInt32) : Option Pte := if x &&& pteP ≠ 0 then some ⟨pageOf x, x &&& pteU ≠ 0, x &&& pteW ≠ 0⟩ else none

def Ram.tableAt (m : Ram) (pgdir : UInt32) (i : Fin 1024) : Option Table :=
  if m.Has pgdir i then
    some ⟨pageOf (m.table pgdir i), fun j => if h : j < 1024 then decode (m.word (m.table pgdir i) ⟨j, h⟩) else none⟩
  else none

def Ram.dir (m : Ram) (pgdir : UInt32) : Dir :=
  ⟨pageOf pgdir, fun i => if h : i < 1024 then m.tableAt pgdir ⟨i, h⟩ else none⟩

theorem dir_pte (m : Ram) (pgdir b : UInt32) : (m.dir pgdir).pte (pageOf b) = decode (m.entry pgdir b) := by
  have hd : pageOf b / 1024 < 1024 := pdx_val b ▸ (pdx b).isLt
  have ht : pageOf b % 1024 < 1024 := ptx_val b ▸ (ptx b).isLt
  have hpde : (m.dir pgdir).pde (pageOf b / 1024) = m.tableAt pgdir (pdx b) :=
    (dif_pos hd).trans (congrArg _ (Fin.ext (pdx_val b).symm))
  have hptx : (⟨pageOf b % 1024, ht⟩ : Fin 1024) = ptx b := Fin.ext (ptx_val b).symm
  rw [Dir.pte, hpde, Ram.tableAt]
  by_cases h : m.Has pgdir (pdx b)
  · rw [if_pos h, entry_has h, ← hptx]
    exact dif_pos ht
  · rw [if_neg h, entry_not_has h]
    rfl

theorem decode_entry (hx : x.toNat % 4096 = 0) (hperm : pteFlags perm = perm) :
    decode (x ||| perm ||| pteP) = some ⟨pageOf x, perm &&& pteU ≠ 0, perm &&& pteW ≠ 0⟩ := by
  obtain ⟨haddr, hflags⟩ := entry_parts hx hperm
  have hpage : pageOf (x ||| perm ||| pteP) = pageOf x := by
    have hnat := congrArg UInt32.toNat haddr
    rw [toNat_pteAddr] at hnat
    rw [pageOf, pageOf]
    omega
  -- a flag of the entry is one of its flags
  have hbit : ∀ w, pteFlags w = w → pteP &&& w = 0 → (x ||| perm ||| pteP) &&& w = perm &&& w := by
    intro w hw hP
    have hmask : ∀ y, y &&& w = pteFlags y &&& w := fun y => by
      rw [pteFlags, UInt32.and_assoc, UInt32.and_comm 0xFFF, ← pteFlags, hw]
    rw [hmask, hflags, and_or, hP, UInt32.or_zero]
  rw [decode, if_pos (present_page _ _), hpage, hbit pteU (by decide) (by decide), hbit pteW (by decide) (by decide)]

/-- Where the `mappages` of the other modules finds every table it asks for, this one leaves the same entries. -/
theorem mappages_refines {k k' : Kmem} {d' : Dir} {ok} (hd : IsPgdir m pgdir) (hsize : 1 ≤ size.toNat)
    (htop : va.toNat + size.toNat - 1 ≤ 2 ^ 32 - 1) (hpa : pteFlags pa = 0) (hperm : pteFlags perm = perm)
    (hfit : pageOf pa + (lastPage va size - pageOf va) < npages)
    (hfree : (lacking m pgdir (pageOf va) (lastPage va size)).card ≤ m.freelist.length)
    (hgranted : Prog.Always Granted
      (Paging.mappages (m.dir pgdir) va size (pageOf pa) (perm &&& pteU ≠ 0) (perm &&& pteW ≠ 0)) k)
    (he : (Paging.mappages (m.dir pgdir) va size (pageOf pa) (perm &&& pteU ≠ 0) (perm &&& pteW ≠ 0)).exec k =
      .ok (ok, d') k') :
    ∃ m', mappages m pgdir va size pa perm = .ok 0 m' ∧ ∀ b, (m'.dir pgdir).pte (pageOf b) = d'.pte (pageOf b) := by
  have hlast : pageOf (va + size - 1) = lastPage va size := by rw [pageOf, toNat_end hsize htop, lastPage]
  have hle : pageOf va ≤ lastPage va size ∧ lastPage va size < npages := by
    simp only [pageOf, lastPage, npages]
    omega
  obtain ⟨-, hmap⟩ := (meets_mappagesFrom (m := k) (E := fun _ => True) (fun _ h => h) (by omega)
    (.inl trivial) hgranted).2
    _ _ he
  have hfresh : ∀ b, InRange va size b → m.entry pgdir b &&& pteP = 0 := by
    rintro b ⟨hlo, hhi⟩
    have hnone := hmap.fresh (pageOf b - pageOf va) (by omega)
    rw [Nat.add_sub_cancel' hlo, dir_pte, decode] at hnone
    by_contra hp
    rw [if_pos hp] at hnone
    cases hnone
  obtain ⟨m', hok, h⟩ := mapped_call pa perm hd hsize htop hfresh hfree
  refine ⟨m', hok, fun b => ?_⟩
  rw [dir_pte, h.entry, hmap.pte, hlast]
  by_cases hb : pageOf va ≤ pageOf b ∧ pageOf b ≤ lastPage va size
  · have hx : (pa + UInt32.ofNat ((pageOf b - pageOf va) * 4096)).toNat = pa.toNat + (pageOf b - pageOf va) * 4096 := by
      have hpaNat : pa.toNat / 4096 = pageOf pa := rfl
      simp only [npages] at hfit
      rw [UInt32.toNat_add, UInt32.toNat_ofNat']
      omega
    have hpage : pageOf (pa + UInt32.ofNat ((pageOf b - pageOf va) * 4096)) = pageOf pa + (pageOf b - pageOf va) := by
      rw [pageOf, hx, Nat.add_mul_div_right _ _ (by decide)]
      rfl
    have haligned := toNat_aligned hpa
    rw [if_pos hb, if_pos (by omega), decode_entry (by omega) hperm, hpage]
  · rw [if_neg hb, if_neg (by omega), dir_pte]

theorem mappages_refines_top : ∃ k k' d' m',
    (Paging.mappages (oneFree.dir 4096) 0xFFFFF800 0x800 1048575 false true).exec k = .ok (true, d') k' ∧
      mappages oneFree 4096 0xFFFFF800 0x800 0xFFFFF000 pteW = .ok 0 m' ∧
      ∀ b, (m'.dir 4096).pte (pageOf b) = d'.pte (pageOf b) := by
  have hno := oneFree_has
  have hdir : IsPgdir oneFree 4096 := ⟨fun i hi => absurd hi (hno i), fun i _ hi => absurd hi (hno i),
    by decide, fun i hi => absurd hi (hno i)⟩
  have hlack : (lacking oneFree 4096 1048575 1048575).card ≤ 1 := card_le_one.mpr fun i hi j hj => by
    simp only [lacking, mem_filter] at hi hj
    omega
  let k : Kmem := ⟨512, [600], fun _ => false, 0, fun _ => zeroPage, by decide, by decide⟩
  obtain ⟨m', hm⟩ := @mappages_refines 0xFFFFF800 oneFree 4096 0x800 0xFFFFF000 pteW k _ _ _ hdir
    (by decide) (by decide) (by decide) (by decide) (by decide) hlack
    (by rintro e (_ | ⟨_, ⟨⟩⟩); simp [Granted, k, Kmem.next]) rfl
  exact ⟨k, _, _, m', rfl, hm⟩

end Xv6Vsd.Paging.Words
