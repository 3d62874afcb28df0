import Xv6Vsd.Paging.Lemmas.Refused
import Xv6Vsd.Paging.Load

/-!
# The memory of a forked process

All that `copyuvm` writes are pages from the free list: what they hold, and where the new directory maps
them, is an invariant of its loop, whichever pages `kalloc` refuses.
-/

namespace Xv6Vsd.Paging

open Prog List Option

variable {F : Ev → Prop} {d d' parent : Dir} {m m' m1 : Kmem} {sz : UInt32}

/-! ## The copy -/

/-- The image of `sz` bytes in `parent` is mapped, and neither its pages nor those of the directory are free. -/
structure Forkable (parent : Dir) (sz : UInt32) (m : Kmem) : Prop where
  size : sz ≤ kernbase
  mapped : ∀ q, q * 4096 < sz.toNat → (parent.pte q).isSome
  used : ∀ f ∈ parent.pages, f ∉ m.freelist
  nodup : m.freelist.Nodup

structure Copied (parent : Dir) (m : Kmem) (i : Nat) (d : Dir) (m' : Kmem) : Prop where
  took : Took m m'
  copied : ∀ q, q * 4096 < i → ∃ x y, parent.pte q = some x ∧ d.pte q = some y ∧ y.user = x.user ∧ y.write = x.write ∧
    m'.page y.frame = m.page x.frame
  fresh : ∀ q y, q * 4096 < i → d.pte q = some y → y.frame ∈ m.freelist ∧ y.frame ∉ m'.freelist
  apart : ∀ p q x y, p * 4096 < i → q * 4096 < i → d.pte p = some x → d.pte q = some y → x.frame = y.frame → p = q
  clear : ∀ q < userpages, i ≤ q * 4096 → d.pte q = none

theorem Copied.start (htook : Took m m') (hclear : ∀ q < userpages, d.pte q = none) : Copied parent m 0 d m' where
  took := htook
  copied q hq := by omega
  fresh q y hq := by omega
  apart p q x y hp := by omega
  clear q hq _ := hclear q hq

theorem Copied.next {i f x m2} (h : Copied parent m i d m1) (hi : i % 4096 = 0)
    (hx : parent.pte (i / 4096) = some x) (hused : x.frame ∉ m.freelist) (hnodup : m.freelist.Nodup)
    (htaken : Taken (fun m => m.page x.frame) m1 (some f) m2) (htook : Took m2 m')
    (hlaid : Laid d (i / 4096) 1 f x.user x.write d') : Copied parent m (i + 4096) d' m' := by
  have hfree : m1.freelist = f :: m2.freelist := htaken.free
  have hf : f ∉ m2.freelist := by
    have hnd := h.took.free.sublist.nodup hnodup
    rw [hfree] at hnd
    exact (nodup_cons.mp hnd).1
  have hgone : ∀ g ∉ m1.freelist, g ∉ m'.freelist := fun g hg hmem => hg ((htaken.took.trans htook).free.mem hmem)
  have hself : d'.pte (i / 4096) = some ⟨f, x.user, x.write⟩ := by
    rw [hlaid, if_pos (by omega), Nat.sub_self, Nat.add_zero]
  have hother : ∀ q ≠ i / 4096, d'.pte q = d.pte q := fun q hq => by rw [hlaid, if_neg (by omega)]
  have hbelow : ∀ q, q * 4096 < i + 4096 → q ≠ i / 4096 → q * 4096 < i := fun q hq hne => by omega
  -- the page `f` is on the free list until now, those of the pages below are not
  have hnew : ∀ q y, q * 4096 < i → d.pte q = some y → y.frame ≠ f := fun q y hq hy heq =>
    (h.fresh q y hq hy).2 (by rw [heq, hfree]; exact mem_cons_self)
  refine ⟨h.took.trans (htaken.took.trans htook), fun q hq => ?_, fun q y hq hy => ?_,
    fun p q y z hp hq hy hz heq => ?_,
    fun q hq hle => ?_⟩
  · by_cases hne : q = i / 4096
    · subst hne
      refine ⟨x, ⟨f, x.user, x.write⟩, hx, hself, rfl, rfl, ?_⟩
      rw [htook.kept f hf, htaken.filled f rfl, h.took.kept x.frame hused]
    obtain ⟨y, z, hy, hz, huser, hwrite, hbytes⟩ := h.copied q (hbelow q hq hne)
    refine ⟨y, z, hy, by rw [hother q hne, hz], huser, hwrite, ?_⟩
    rw [(htaken.took.trans htook).kept _ (h.fresh q z (hbelow q hq hne) hz).2, hbytes]
  · by_cases hne : q = i / 4096
    · rw [hne, hself] at hy
      cases hy
      exact ⟨h.took.free.mem (by rw [hfree]; exact mem_cons_self), fun hmem => hf (htook.free.mem hmem)⟩
    rw [hother q hne] at hy
    obtain ⟨hin, hout⟩ := h.fresh q y (hbelow q hq hne) hy
    exact ⟨hin, hgone _ hout⟩
  · by_cases hp' : p = i / 4096 <;> by_cases hq' : q = i / 4096
    · rw [hp', hq']
    · rw [hp', hself] at hy
      rw [hother q hq'] at hz
      cases hy
      exact absurd heq.symm (hnew q z (hbelow q hq hq') hz)
    · rw [hq', hself] at hz
      rw [hother p hp'] at hy
      cases hz
      exact absurd heq (hnew p y (hbelow p hp hp') hy)
    · rw [hother p hp'] at hy
      rw [hother q hq'] at hz
      exact h.apart p q y z (hbelow p hp hp') (hbelow q hq hq') hy hz heq
  · rw [hother q (by omega)]; exact h.clear q hq (by omega)

theorem meets_copied (h : Forkable parent sz m) {fuel i} (hi : i % 4096 = 0) (hle : i ≤ top sz)
    (hfuel : sz.toNat ≤ i + fuel * 4096) (hc : Copied parent m i d m1) :
    Meets F (fun _ => True) (fun _ r m' => ∀ d', r = some d' → Copied parent m (top sz) d' m')
      (copyuvmFrom parent sz.toNat fuel d i) m1 := by
  have hsize : sz.toNat ≤ 2147483648 := UInt32.le_iff_toNat_le.mp h.size
  have hstop : sz.toNat ≤ i → i = top sz := fun hge => by
    unfold top at hle ⊢
    omega
  induction fuel generalizing d m1 i with
  | zero =>
    refine meets_pure fun d' hd' => ?_
    cases hd'
    rw [← hstop (by omega)]
    exact hc
  | succ fuel ih =>
    unfold copyuvmFrom
    split
    · rename_i hlt
      split
      · exact meets_panic trivial
      next t ht =>
      split
      · exact meets_panic trivial
      next x hx =>
      have hx' : parent.pte (i / 4096) = some x := by simp [Dir.pte, ht, hx]
      have hused : x.frame ∉ m.freelist :=
        h.used _ (Dir.mem_pages_of_pte (by simp only [userpages]; omega) hx')
      refine meets_kalloc.bind ?_
      rintro _ r m2 ⟨rfl, -, htaken⟩
      cases r with
      | none => exact (meets_freevm fun _ => trivial).bind fun _ _ _ _ => meets_pure nofun
      | some f =>
        dsimp only
        rw [mappages_page hi (by omega)]
        refine meets_laid.bind ?_
        rintro _ ⟨mapped, d1⟩ m3 ⟨htook, hlaid⟩
        split
        · rename_i hmapped
          exact ih (by omega) (by unfold top; omega) (by omega)
            (hc.next hi hx' hused h.nodup htaken htook (hlaid hmapped)) fun hge => by unfold top; omega
        · exact (meets_freevm fun _ => trivial).bind fun _ _ _ _ => meets_pure nofun
    · refine meets_pure fun d' hd' => ?_
      cases hd'
      rw [← hstop (by omega)]
      exact hc

theorem copyuvmFrom_plenty {k i} (fuel : Nat) (h : Plenty k d m) (hsz : sz.toNat ≤ 2147483648)
    (hk : sz.toNat ≤ i + k * 4096)
    (hi : i % 4096 = 0) (hparent : ∀ q, q * 4096 < sz.toNat → (parent.pte q).isSome)
    (hclear : ∀ q < userpages, i ≤ q * 4096 → d.pte q = none) :
    ∃ d' m', (copyuvmFrom parent sz.toNat fuel d i).exec m = .ok (some d') m' := by
  induction fuel generalizing d m i k with
  | zero => exact ⟨d, m, rfl⟩
  | succ fuel ih =>
    unfold copyuvmFrom
    split
    · rename_i hlt
      obtain _ | k := k
      · omega
      obtain ⟨x, hx⟩ := isSome_iff_exists.mp (hparent (i / 4096) (by omega))
      obtain ⟨t, ht, hentry⟩ := bind_eq_some_iff.mp hx
      have hcard := d.card_tables_le
      have henough := h.enough
      obtain ⟨f, hn⟩ := isSome_iff_exists.mp (Kmem.next_isSome h.willing (by omega))
      have hplenty := h.take (x := m.page x.frame) hn
      have hpage : i / 4096 < userpages := by simp only [userpages]; omega
      have hmap : Meets Served (fun _ => False)
        (fun t r m' => r.1 = true ∧ Mapped d (m.take.write f (m.page x.frame)) (i / 4096) 1 f x.user x.write t r.2 m')
        (mappages d (UInt32.ofNat i) 4096 f x.user x.write) (m.take.write f (m.page x.frame)) := by
        rw [mappages_page hi (by omega)]
        refine meets_mappagesFrom (fun _ => Served.granted) (by simp only [npages]; omega) (.inr fun j hj => ?_)
        exact hclear _ (by omega) (by omega)
      obtain ⟨hends, hmapped⟩ := hmap (always_mappages hplenty)
      obtain ⟨⟨mapped, d1⟩, m1, he⟩ := hends.ok
      obtain ⟨rfl, hmapped⟩ := hmapped _ _ he
      have hclear1 : ∀ q < userpages, i + 4096 ≤ q * 4096 → d1.pte q = none := fun q hq hle => by
        rw [hmapped.pte, if_neg (by omega)]
        exact hclear q hq (by omega)
      obtain ⟨d', m', hrest⟩ := ih (hplenty.mappages he) (by omega) (by omega) hclear1
      refine ⟨d', m', ?_⟩
      simp only [ht, hentry, exec_bind, exec_kalloc hn, Res.ok_bind, he, if_true]
      exact hrest
    · exact ⟨d, m, rfl⟩

theorem copyuvm_plenty {l k} (hw : ∀ n, m.refuses n = false) (hl : 1025 + k ≤ m.freelist.length)
    (h : Forkable parent sz m) (hk : sz.toNat ≤ k * 4096) :
    ∃ d m', (copyuvm l parent sz).exec m = .ok (some d) m' := by
  obtain ⟨-, d, m1, he, hkernel, hplenty⟩ := setupkvm_plenty (l := l) hw hl
  have hclear : ∀ q < userpages, 0 ≤ q * 4096 → d.pte q = none := fun q hq _ => hkernel.unmapped q fun hq' => by
    simp only [userpages] at hq
    unfold KernelPage at hq'
    omega
  obtain ⟨d', m', hcopy⟩ := copyuvmFrom_plenty (sz.toNat / 4096 + 1) hplenty (UInt32.le_iff_toNat_le.mp h.size)
    (by omega) rfl h.mapped hclear
  refine ⟨d', m', ?_⟩
  simp only [copyuvm, exec_bind, he, Res.ok_bind]
  exact hcopy

/-! ## A process with a guard page and a stack -/

def guarded : Dir :=
  (((⟨999, fun _ => none⟩ : Dir).addTable 0 998).setPte 0 (some ⟨997, false, true⟩)).setPte 1 (some ⟨996, true, true⟩)

def written : Kmem := roomy.write 996 fun _ => 7

theorem guarded_pages : guarded.pages = {999} + {998} + {997} + {996} := by
  have hhas : ((⟨999, fun _ => none⟩ : Dir).addTable 0 998).Has 0 := Dir.has_addTable.mpr (.inl rfl)
  have hhas' : ((⟨999, fun _ => none⟩ : Dir).addTable 0 998).Has 1 := hhas.congr rfl
  have hpage : ∀ p < 2, p < userpages := fun p hp => by
    simp only [userpages]
    omega
  unfold guarded
  rw [pages_setPte (Dir.has_setPte.mpr hhas') (hpage 1 (by omega)) rfl, pages_setPte hhas (hpage 0 (by omega)) rfl,
    pages_addTable (by simp [Dir.Has]) (hpage 0 (by omega)), Dir.pages_empty]

theorem guarded_forkable : Forkable guarded 8192 written where
  size := by decide
  mapped q hq := by
    have hpage : q = 0 ∨ q = 1 := by rw [show (8192 : UInt32).toNat = 8192 from rfl] at hq; omega
    rcases hpage with rfl | rfl
    · rfl
    · rfl
  used f hf := by
    rw [guarded_pages] at hf
    simp only [Multiset.mem_add, Multiset.mem_singleton] at hf
    simp only [written, Kmem.write, roomy, mem_range'_1]
    omega
  nodup := by simp only [written, Kmem.write, roomy]; exact nodup_range'

/-- The copy of a process's memory is faithful and its own. -/
theorem copyuvm_faithful {l : Link} {d : Dir} (h : Forkable parent sz m)
    (he : (copyuvm l parent sz).exec m = .ok (some d) m') :
    (∀ q, q * 4096 < sz.toNat → ∃ x y, parent.pte q = some x ∧ d.pte q = some y ∧ y.user = x.user ∧
      y.write = x.write ∧ m'.page y.frame = m.page x.frame ∧ y.frame ∉ parent.pages) ∧
    (∀ p q x y, p * 4096 < sz.toNat → q * 4096 < sz.toNat → d.pte p = some x → d.pte q = some y →
      x.frame = y.frame → p = q) ∧
    (∀ q < userpages, top sz ≤ q * 4096 → d.pte q = none) ∧
    ∀ f ∈ parent.pages, m'.page f = m.page f := by
  have hmeets : Meets (fun _ => True) (fun _ => True)
    (fun _ r m' => ∀ d', r = some d' → Copied parent m (top sz) d' m') (copyuvm l parent sz) m := by
    refine meets_setupkvm_any.bind ?_
    rintro _ r m1 ⟨htook, hclosed⟩
    cases r with
    | none => exact meets_pure nofun
    | some d => exact meets_copied h rfl (Nat.zero_le _) (by omega) (.start htook (hclosed d rfl))
  have hc := (hmeets fun _ _ => trivial).2 _ _ he d rfl
  have htop : ∀ q, q * 4096 < sz.toNat → q * 4096 < top sz := fun q => lt_top.mpr
  refine ⟨fun q hq => ?_, fun p q x y hp hq => hc.apart p q x y (htop p hp) (htop q hq), hc.clear, fun f hf => ?_⟩
  · obtain ⟨x, y, hx, hy, huser, hwrite, hbytes⟩ := hc.copied q (htop q hq)
    refine ⟨x, y, hx, hy, huser, hwrite, hbytes, fun hmem => h.used _ hmem ?_⟩
    exact (hc.fresh q y (htop q hq) hy).1
  · exact hc.took.kept f (h.used f hf)

theorem copyuvm_guarded : Forkable guarded 8192 written ∧ ∃ d m', (copyuvm Link.small guarded 8192).exec written =
    .ok (some d) m' ∧ ∃ y, d.pte 1 = some y ∧ y.user = true ∧ y.frame ≠ 996 ∧ m'.page y.frame = fun _ => 7 := by
  have hlen : 1025 + 2 ≤ written.freelist.length := by simp [written, Kmem.write, roomy]
  obtain ⟨d, m', he⟩ := copyuvm_plenty (l := Link.small) (fun _ => rfl) hlen guarded_forkable (by decide)
  obtain ⟨hcopied, -⟩ := copyuvm_faithful guarded_forkable he
  obtain ⟨x, y, hx, hy, huser, -, hbytes, hnew⟩ := hcopied 1 (by decide)
  have hx' : x = ⟨996, true, true⟩ := (Option.some.inj hx).symm
  subst hx'
  refine ⟨guarded_forkable, d, m', he, y, hy, huser, fun heq => hnew ?_, hbytes⟩
  rw [heq, guarded_pages]
  simp

end Xv6Vsd.Paging
