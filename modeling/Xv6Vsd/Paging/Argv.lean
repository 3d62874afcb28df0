import Xv6Vsd.Paging.Lemmas.Refused
import Xv6Vsd.Paging.Stack

/-! # What a new program finds on its stack -/

namespace Xv6Vsd.Paging

open Prog Layout Function List Option

/-! ## What the program reads -/

def Dir.load (d : Dir) (m : Kmem) (a : UInt32) : Option UInt8 :=
  (d.pte (pageOf a)).bind fun x => if x.user then some (m.page x.frame (a.toNat % 4096)) else none

def Dir.word (d : Dir) (m : Kmem) (a : UInt32) : Option UInt32 := do
  let b0 ← d.load m a
  let b1 ← d.load m (a + 1)
  let b2 ← d.load m (a + 2)
  let b3 ← d.load m (a + 3)
  some (word32 fun i => [b0, b1, b2, b3].getD i 0)

def Dir.Reads (d : Dir) (m : Kmem) (a : UInt32) (xs : List UInt8) : Prop :=
  ∀ i x, xs[i]? = some x → d.load m (a + UInt32.ofNat i) = some x

structure Delivered (p : Started) (m : Kmem) (argv : List CString) (ptrs : List UInt32) : Prop where
  count : p.dir.word m (p.sp + 4) = some (UInt32.ofNat argv.length)
  array : p.dir.word m (p.sp + 8) = some (p.sp + 12)
  entries : ptrs.length = argv.length
  entry : ∀ (i : Nat) (a : UInt32), ptrs[i]? = some a → p.dir.word m (p.sp + 12 + UInt32.ofNat (4 * i)) = some a
  last : p.dir.word m (p.sp + 12 + UInt32.ofNat (4 * argv.length)) = some 0
  string : ∀ (i : Nat) (a : UInt32) (s : CString), ptrs[i]? = some a → argv[i]? = some s → p.dir.Reads m a s.stored
  aligned : p.sp.toNat % 4 = 0 ∧ ∀ a ∈ ptrs, a.toNat % 4 = 0
  apart : ∀ (i j : Nat) (a b : UInt32) (s : CString), i < j → ptrs[i]? = some a → ptrs[j]? = some b → argv[j]? =
    some s →
    b.toNat + s.stored.length ≤ a.toNat
  below : ∀ a ∈ ptrs, p.sp.toNat + 4 * (argv.length + 4) ≤ a.toNat
  bottom : p.sz.toNat % 4096 = 0 ∧ p.sz.toNat ≤ p.sp.toNat + 4096
  top : p.sp.toNat + 4 * (argv.length + 4) ≤ p.sz.toNat ∧
    ∀ (i : Nat) (a : UInt32) (s : CString), ptrs[i]? = some a → argv[i]? = some s →
      a.toNat + s.stored.length ≤ p.sz.toNat
  guard : 8192 ≤ p.sz.toNat ∧ ¬p.dir.Open (p.sz.toNat / 4096 - 2)

/-! ## Where the bytes go -/

variable {o d : Dir} {sz sp va : UInt32} {m m' : Kmem} {w : List UInt8}

/-- What is copied out passes through open pages, and through pages that have no table. -/
theorem copyoutFrom_passes {fuel k} (he : (copyoutFrom o d fuel va w).exec m = .ok true m')
    (hk : k * 4096 < va.toNat % 4096 + w.length) (hfuel : k < fuel) (hpos : 0 < w.length) :
    d.Has ((pageOf va + k) % npages) → d.Open ((pageOf va + k) % npages) := by
  induction k generalizing fuel va w m with
  | zero =>
    obtain ⟨fuel, rfl⟩ := Nat.exists_eq_succ_of_ne_zero hfuel.ne'
    rw [Nat.add_zero, Nat.mod_eq_of_lt (pageOf_lt va)]
    intro hhas
    by_contra hopen
    rw [copyoutFrom, if_pos hpos, uva2ka_closed hhas hopen] at he
    cases he
  | succ k ih =>
    obtain ⟨fuel, rfl⟩ := Nat.exists_eq_succ_of_ne_zero (Nat.ne_zero_of_lt hfuel)
    rw [copyoutFrom, if_pos hpos] at he
    obtain ⟨r, m1, -, he⟩ := bind_ok he
    cases r with
    | none => cases he
    | some f =>
      obtain ⟨_, m2, -, he⟩ := bind_ok he
      have hoff : (UInt32.ofNat (pageOf va * 4096 + 4096)).toNat % 4096 = 0 := by rw [next_page, Nat.mul_mod_left]
      have hpage : pageOf (UInt32.ofNat (pageOf va * 4096 + 4096)) = (pageOf va + 1) % npages := by
        rw [pageOf, next_page, Nat.mul_div_cancel _ (by decide)]
      have hlen := length_drop (i := min (4096 - va.toNat % 4096) w.length) (l := w)
      rw [Nat.succ_mul] at hk
      have hrest := ih (w := w.drop (min (4096 - va.toNat % 4096) w.length)) he
        (by rw [hoff]; generalize k * 4096 = x at hk ⊢; omega) (by omega) (by generalize k * 4096 = x at hk; omega)
      rwa [hpage, Nat.mod_add_mod, Nat.add_assoc, Nat.add_comm 1 k] at hrest

/-- The directory when `exec` begins to push: the page below the last one is closed. -/
structure Guarded (d : Dir) (sz : UInt32) : Prop where
  aligned : sz.toNat % 4096 = 0
  low : 8192 ≤ sz.toNat
  high : sz.toNat < 2147483648
  guard : ¬d.Open (sz.toNat / 4096 - 2)
  has : d.Has (sz.toNat / 4096 - 2)

/-- What `exec` pushes ends in the stack page or right below it, perhaps 4 GB higher; it does not get through the page
below. -/
theorem Guarded.copyout (h : Guarded d sz) (hstack : d.Has (sz.toNat / 4096 - 1)) (hpos : 0 < w.length)
    (hva : va.toNat + w.length ≤ sz.toNat ∧ sz.toNat ≤ va.toNat + w.length + 4099 ∨
      4294967296 + sz.toNat ≤ va.toNat + w.length + 4099)
    (he : (copyout o d va w).exec m = .ok true m') :
    va.toNat + w.length ≤ sz.toNat ∧ sz.toNat ≤ va.toNat + 4096 ∧ ∃ x, d.pte (sz.toNat / 4096 - 1) = some x ∧
      x.user = true ∧ m' = m.poke x.frame (va.toNat + 4096 - sz.toNat) w := by
  have ha := h.aligned
  have hlow := h.low
  have hhigh := h.high
  have hlt := va.toNat_lt
  have hpass : ∀ k g, (pageOf va + k) % npages = g → k * 4096 < va.toNat % 4096 + w.length → d.Has g → d.Open g := by
    rintro k _ rfl hk
    exact copyoutFrom_passes he hk (by omega) hpos
  rcases hva with ⟨hend, hclose⟩ | hwrap
  · have hin : sz.toNat ≤ va.toNat + 4096 := by
      by_contra hbelow
      refine h.guard (hpass (sz.toNat / 4096 - 2 - pageOf va) _ ?_ ?_ h.has)
      · simp only [npages, pageOf]; omega
      · unfold pageOf; omega
    have hpage : pageOf va = sz.toNat / 4096 - 1 := by unfold pageOf; omega
    have hoff : va.toNat % 4096 = va.toNat + 4096 - sz.toNat := by omega
    obtain ⟨x, hx, hu⟩ := hpass 0 (sz.toNat / 4096 - 1) (by rw [Nat.add_zero, Nat.mod_eq_of_lt (pageOf_lt va), hpage])
      (by rw [Nat.zero_mul]; exact Nat.add_pos_right _ hpos) hstack
    rw [(copyout_page (hpage ▸ hx) hu (by omega) hpos).1] at he; cases he
    exact ⟨hend, hin, x, hx, hu, by rw [hoff]⟩
  · refine absurd (hpass (sz.toNat / 4096 - 2 + npages - pageOf va) _ ?_ ?_ h.has) h.guard
    · simp only [npages, pageOf]; omega
    · simp only [npages, pageOf]; omega

/-! ## The loop over the strings -/

def blocks (sz : UInt32) (ptrs : List UInt32) (argv : List CString) : Blocks UInt8 :=
  List.zipWith (fun a s => (a.toNat + 4096 - sz.toNat, s.stored)) ptrs argv

def Kmem.pokes (m : Kmem) (f : Nat) : Blocks UInt8 → Kmem
  | [] => m
  | b :: bs => (m.poke f b.1 b.2).pokes f bs

theorem page_pokes (m : Kmem) (f : Nat) (bs : Blocks UInt8) : (m.pokes f bs).page f = Layout.pokes (m.page f) bs := by
  induction bs generalizing m with
  | nil => rfl
  | cons b bs ih =>
    rw [Kmem.pokes, ih, Layout.pokes]
    simp only [Kmem.poke, Kmem.write, update_self]

structure Pushed (d : Dir) (sz sp : UInt32) (m : Kmem) (argv : List CString) (ptrs : List UInt32) (sp' : UInt32)
    (m' : Kmem) : Prop where
  length : ptrs.length = argv.length
  inStack : InStack sz sp'
  aligned : sp'.toNat % 4 = 0
  starts : ∀ a ∈ ptrs, a.toNat % 4 = 0
  descends : Descends (sp.toNat + 4096 - sz.toNat) (blocks sz ptrs argv) (sp'.toNat + 4096 - sz.toNat)
  memory : ∀ x, d.pte (sz.toNat / 4096 - 1) = some x → m' = m.pokes x.frame (blocks sz ptrs argv)

theorem pushArgs_pushed (h : Guarded d sz) (hstack : d.Has (sz.toNat / 4096 - 1)) {argv ptrs ptrs' sp'}
    (hsp : InStack sz sp) (h4 : sp.toNat % 4 = 0) (hmax : ptrs.length ≤ maxarg)
    (he : (pushArgs o d argv sp ptrs).exec m = .ok (some (sp', ptrs')) m') :
    ptrs'.length ≤ maxarg ∧ ∃ new, ptrs' = ptrs ++ new ∧ Pushed d sz sp m argv new sp' m' := by
  induction argv generalizing sp ptrs m with
  | nil => cases he; exact ⟨hmax, [], by simp, rfl, hsp, h4, by simp, rfl, fun _ _ => rfl⟩
  | cons s argv ih =>
    unfold pushArgs at he
    split at he
    · cases he
    next hlt =>
    obtain ⟨b, m1, hb, he⟩ := bind_ok he
    cases b with
    | false => cases he
    | true =>
      change (copyout o d (push sp s.bytes.length) s.stored).exec m = _ at hb
      change (pushArgs o d argv (push sp s.bytes.length) (ptrs ++ [push sp s.bytes.length])).exec m1 = _ at he
      have hpush := toNat_push sp s.short
      have hshort := s.short
      have hlen := s.length_stored
      have hhigh := h.high
      have hlow := h.low
      have hspl := hsp.1
      have hsph := hsp.2
      obtain ⟨hend, hin, x, hx, -, hm1⟩ := h.copyout hstack (by omega) (by omega) hb
      have hp4 : (push sp s.bytes.length).toNat % 4 = 0 := by omega
      obtain ⟨hmax', new, rfl, hnew⟩ := ih ⟨hin, by omega⟩ hp4 (by simp; omega) he
      refine ⟨hmax', push sp s.bytes.length :: new, by simp, by simp [hnew.length], hnew.inStack, hnew.aligned,
        forall_mem_cons.mpr ⟨hp4, hnew.starts⟩, ⟨?_, hnew.descends⟩, fun y hy => ?_⟩
      · dsimp only; omega
      rw [hx] at hy
      cases hy
      rw [hnew.memory x hx, hm1]
      rfl

/-! ## The whole stack -/

structure Filled (d : Dir) (sz esp : UInt32) (m : Kmem) (argv : List CString) (ptrs : List UInt32) (x : Pte) :
    Prop where
  stack : d.pte (sz.toNat / 4096 - 1) = some x
  user : x.user = true
  length : ptrs.length = argv.length
  few : ptrs.length ≤ maxarg
  aligned : esp.toNat % 4 = 0
  starts : ∀ a ∈ ptrs, a.toNat % 4 = 0
  inStack : InStack sz esp
  block : Layout.Holds (m.page x.frame) (esp.toNat + 4096 - sz.toNat)
    (([0xffffffff, UInt32.ofNat ptrs.length, esp + 12] ++ ptrs ++ [0]).flatMap wordBytes)
  strings : ∀ b ∈ blocks sz ptrs argv, Layout.Holds (m.page x.frame) b.1 b.2
  descends : Descends 4096 (blocks sz ptrs argv) (esp.toNat + 4096 - sz.toNat + 4 * (ptrs.length + 4))

theorem pushStack_filled (h : Guarded d sz) (hstack : d.Has (sz.toNat / 4096 - 1)) {argv esp}
    (he : (pushStack o d sz argv).exec m = .ok (some esp) m') :
    ∃ ptrs x, Filled d sz esp m' argv ptrs x := by
  have ha := h.aligned
  have hlow := h.low
  have hhigh := h.high
  obtain ⟨r, m1, hr, he⟩ := bind_ok he
  obtain _ | ⟨sp, ptrs⟩ := r
  · cases he
  obtain ⟨hmax, new, hptrs, hp⟩ := pushArgs_pushed h hstack ⟨by omega, Nat.le_refl _⟩ (by omega) (Nat.zero_le _) hr
  rw [nil_append] at hptrs
  subst hptrs
  obtain ⟨b, m2, hb, he⟩ := bind_ok he
  cases b with
  | false => cases he
  | true =>
    obtain ⟨hto, rfl⟩ : sp - UInt32.ofNat ((3 + ptrs.length + 1) * 4) = esp ∧ m2 = m' := by
      cases he
      exact ⟨rfl, rfl⟩
    rw [hto] at hb
    have hlen := length_ustack sp ptrs
    have hspl := hp.inStack.1
    have hsph := hp.inStack.2
    have h4 := hp.aligned
    simp only [maxarg] at hmax
    have hesp : esp.toNat = sp.toNat - 4 * (ptrs.length + 4) := by
      rw [← hto]
      simp only [UInt32.toNat_sub, UInt32.toNat_ofNat', Nat.reducePow]
      omega
    have harr : sp - UInt32.ofNat ((ptrs.length + 1) * 4) = esp + 12 := by
      apply UInt32.toNat_inj.mp
      simp only [UInt32.toNat_sub, UInt32.toNat_add, UInt32.toNat_ofNat', UInt32.reduceToNat, Nat.reducePow]
      omega
    obtain ⟨hend, hin, x, hx, hu, hm⟩ := h.copyout hstack (by omega) (.inl (by omega)) hb
    have hpage : m2.page x.frame = Layout.pokes (m.page x.frame) (blocks sz ptrs argv ++
      [(esp.toNat + 4096 - sz.toNat, (ustack sp ptrs).flatMap wordBytes)]) := by
      rw [pokes_append, ← page_pokes, ← hp.memory x hx, hm]
      simp only [Kmem.poke, Kmem.write, update_self]
      rfl
    have hdesc := hp.descends
    rw [Nat.add_sub_cancel_left] at hdesc
    have hall : Descends 4096 (blocks sz ptrs argv ++ [(esp.toNat + 4096 - sz.toNat,
      (ustack sp ptrs).flatMap wordBytes)])
      (esp.toNat + 4096 - sz.toNat) := hdesc.append ⟨by dsimp only; omega, rfl⟩
    refine ⟨ptrs, x, hx, hu, hp.length, hmax, by omega, hp.starts, ⟨by omega, by omega⟩, ?_, fun b hb => ?_, ?_⟩
    · rw [hpage, ← harr]; exact hall.holds (mem_append_right _ (mem_singleton_self _))
    · rw [hpage]; exact hall.holds (mem_append_left _ hb)
    · rw [show esp.toNat + 4096 - sz.toNat + 4 * (ptrs.length + 4) = sp.toNat + 4096 - sz.toNat by omega]
      exact hdesc

/-! ## Reading it -/

section Read

variable {x : Pte} {argv : List CString} {ptrs : List UInt32} {a : UInt32}

theorem load_stack (ha : sz.toNat % 4096 = 0) (hx : d.pte (sz.toNat / 4096 - 1) = some x) (hu : x.user = true)
    (hlo : sz.toNat ≤ a.toNat + 4096) (hhi : a.toNat < sz.toNat) :
    d.load m a = some (m.page x.frame (a.toNat + 4096 - sz.toNat)) := by
  have hpage : pageOf a = sz.toNat / 4096 - 1 := by unfold pageOf; omega
  rw [Dir.load, hpage, hx, bind_some, if_pos hu, show a.toNat % 4096 = a.toNat + 4096 - sz.toNat by omega]

theorem reads_stack {xs} (ha : sz.toNat % 4096 = 0) (hx : d.pte (sz.toNat / 4096 - 1) = some x)
    (hu : x.user = true) (hlo : sz.toNat ≤ a.toNat + 4096) (hhi : a.toNat + xs.length ≤ sz.toNat)
    (h : Layout.Holds (m.page x.frame) (a.toNat + 4096 - sz.toNat) xs) : d.Reads m a xs := by
  intro i y hy
  have hi : i < xs.length := (List.getElem?_eq_some_iff.mp hy).1
  have hlt := sz.toNat_lt
  have hnat := toNat_add_ofNat (a := a) (k := i) (by omega)
  rw [load_stack ha hx hu (by omega) (by omega), hnat,
    show a.toNat + i + 4096 - sz.toNat = a.toNat + 4096 - sz.toNat + i by omega, h i y hy]

theorem Dir.Reads.word {w} (h : d.Reads m a (wordBytes w)) : d.word m a = some w := by
  have hbyte : ∀ i < 4, d.load m (a + UInt32.ofNat i) = some (byteAt w.toNat i) := fun i hi =>
    h i _ (by simp [wordBytes, hi])
  have h0 := hbyte 0 (by omega)
  have h1 := hbyte 1 (by omega)
  have h2 := hbyte 2 (by omega)
  have h3 := hbyte 3 (by omega)
  rw [show a + UInt32.ofNat 0 = a by simp] at h0
  change d.load m (a + 1) = _ at h1
  change d.load m (a + 2) = _ at h2
  change d.load m (a + 3) = _ at h3
  simp only [Dir.word, h0, h1, h2, h3, bind_eq_bind, bind_some, some.injEq]
  refine (word32_congr fun i hi => ?_).trans (word32_byteAt w)
  obtain rfl | rfl | rfl | rfl : i = 0 ∨ i = 1 ∨ i = 2 ∨ i = 3 := by omega
  all_goals rfl

variable {esp : UInt32} {i : Nat} (h : Filled d sz esp m argv ptrs x)

include h

theorem Filled.word (ha : sz.toNat % 4096 = 0) {w}
    (hw : ([0xffffffff, UInt32.ofNat ptrs.length, esp + 12] ++ ptrs ++ [0])[i]? = some w) :
    d.word m (esp + UInt32.ofNat (4 * i)) = some w := by
  have hle := h.descends.le
  have hlo := h.inStack.1
  have hhi := h.inStack.2
  have hlt := sz.toNat_lt
  have hi : i < ptrs.length + 4 := by
    have := (List.getElem?_eq_some_iff.mp hw).1
    simp only [length_append, length_cons, length_nil] at this
    omega
  have hnat := toNat_add_ofNat (a := esp) (k := 4 * i) (by omega)
  have hword : ∀ w, (wordBytes w).length = 4 := fun w => by simp [wordBytes]
  refine (reads_stack ha h.stack h.user (by omega) ?_ ?_).word
  · rw [hnat, hword]; omega
  · rw [hnat, show esp.toNat + 4 * i + 4096 - sz.toNat = esp.toNat + 4096 - sz.toNat + 4 * i by omega]
    exact h.block.piece hword hw

omit h in
theorem mem_blocks {s} (ha : ptrs[i]? = some a) (hs : argv[i]? = some s) :
    (blocks sz ptrs argv)[i]? = some (a.toNat + 4096 - sz.toNat, s.stored) := by
  rw [blocks, getElem?_zipWith, ha, hs]

theorem Filled.place {s} (ha : ptrs[i]? = some a) (hs : argv[i]? = some s) :
    esp.toNat + 4 * (ptrs.length + 4) ≤ a.toNat ∧ a.toNat + s.stored.length ≤ sz.toNat := by
  have hlo := h.inStack.1
  have hb := h.descends.bounds (mem_of_getElem? (mem_blocks ha hs))
  dsimp only at hb
  omega

theorem Filled.delivered (hg : Guarded d sz) : Delivered ⟨d, sz, esp⟩ m argv ptrs := by
  have ha := hg.aligned
  have hlo := h.inStack.1
  have hle := h.descends.le
  have hstring : ∀ i a, ptrs[i]? = some a → ∃ s, argv[i]? = some s := fun i a hi => by
    have hlt := (getElem?_eq_some_iff.mp hi).1
    rw [h.length] at hlt
    exact ⟨_, getElem?_eq_getElem hlt⟩
  have hplus : ∀ i, esp + 12 + UInt32.ofNat (4 * i) = esp + UInt32.ofNat (4 * (3 + i)) := fun i => by
    rw [Nat.mul_add, UInt32.ofNat_add, ← UInt32.add_assoc]
    rfl
  refine ⟨?_, h.word ha (i := 2) rfl, h.length, fun i a hi => ?_, ?_, fun i a s hi hs => ?_, ⟨h.aligned, h.starts⟩,
    fun i j a b s hij hi hj hs => ?_, fun a hmem => ?_, ⟨ha, hlo⟩, ⟨?_, fun i a s hi hs => (h.place hi hs).2⟩,
    ⟨hg.low, hg.guard⟩⟩
  · rw [← h.length]; exact h.word ha (i := 1) rfl
  · dsimp only
    rw [hplus]
    refine h.word ha ?_
    have hlt := (List.getElem?_eq_some_iff.mp hi).1
    rw [append_assoc, getElem?_append_right (by simp), getElem?_append_left (by simpa using hlt)]
    simpa using hi
  · dsimp only
    rw [hplus, ← h.length]
    refine h.word ha ?_
    rw [append_assoc, getElem?_append_right (by simp), getElem?_append_right (by simp)]
    simp
  · obtain ⟨h1, h2⟩ := h.place hi hs
    exact reads_stack ha h.stack h.user (by omega) h2 (h.strings _ (mem_of_getElem? (mem_blocks hi hs)))
  · obtain ⟨t, ht⟩ := hstring i a hi
    have hap := h.descends.apart (mem_blocks hi ht) (mem_blocks hj hs) hij
    have h1 := h.place hi ht
    have h2 := h.place hj hs
    dsimp only at hap
    omega
  · obtain ⟨i, hi⟩ := mem_iff_getElem?.mp hmem
    obtain ⟨s, hs⟩ := hstring i a hi
    rw [← h.length]
    exact (h.place hi hs).1
  · rw [← h.length]; dsimp only; omega

theorem Filled.keep (hm : m'.page x.frame = m.page x.frame) : Filled d sz esp m' argv ptrs x :=
  { h with block := by rw [hm]; exact h.block, strings := by rw [hm]; exact h.strings }

end Read

/-! ## The image before the stack -/

/-- The image of size `sz` that has been built since the memory was `m0`: no user page is mapped behind it. -/
structure Bare (m0 : Kmem) (d : Dir) (sz : UInt32) (m : Kmem) : Prop where
  size : sz.toNat < 2147483648
  clear : ∀ q, top sz ≤ q * 4096 → q < userpages → d.pte q = none
  free : ∀ f ∈ m.freelist, f ∈ m0.freelist

variable {F : Ev → Prop} {m0 : Kmem} {newsz : UInt32}

theorem Bare.extended {d' t} (h : Bare m0 d sz m) (hle : sz.toNat ≤ newsz.toNat)
    (hnew : newsz.toNat < 2147483648) (he : Extended d m (top sz) (top newsz) t d' m') : Bare m0 d' newsz m' where
  size := hnew
  clear q hq hlt := by
    have htop : top sz ≤ top newsz := by unfold top; omega
    rw [he.outside q (.inr hq), h.clear q (by omega) hlt]
  free f hf := h.free f (he.free f hf)

theorem Bare.allocuvm (h : Bare m0 d sz m) :
    Meets F (fun _ => True) (fun _ r m' => r.1 ≠ 0 → Bare m0 r.2 r.1 m') (allocuvm d sz newsz) m := by
  have hbase := toNat_kernbase
  by_cases hkern : kernbase ≤ newsz
  · rw [Paging.allocuvm, if_pos hkern]; exact meets_pure fun h0 => absurd rfl h0
  by_cases hlt : newsz < sz
  · rw [Paging.allocuvm, if_neg hkern, if_pos hlt]; exact meets_pure fun _ => h
  rw [UInt32.le_iff_toNat_le] at hkern
  rw [UInt32.lt_iff_toNat_lt] at hlt
  refine ((meets_allocuvm_clear d m sz newsz (by omega) (by omega) h.clear).panics fun _ => False.elim).mono ?_
  rintro t ⟨r, d'⟩ m' (⟨rfl, hext⟩ | ⟨h0, -⟩) hne
  · exact h.extended (by omega) (by omega) hext
  · exact absurd h0 hne

theorem execLoad_bare {l xs ld} (he : (execLoad l xs).exec m = .ok (some ld) m') (hok : ld.ok = true) :
    Bare m ld.dir ld.sz m' := by
  refine execLoad_keeps (F := fun _ => True) (I := Bare m) (fun _ _ _ _ h => h.allocuvm) ?_ (fun _ _ => trivial) he hok
  refine meets_setupkvm_any.mono fun _ r m1 ⟨htook, hclear⟩ d hd => ?_
  exact ⟨by decide, fun q _ hq => hclear d hd q hq, fun f hf => htook.free.mem hf⟩

theorem Bare.guarded {d1 d2} (h : Bare m0 d sz m)
    (ha : (Paging.allocuvm d (pgroundup sz) (pgroundup sz + 2 * 4096)).exec m = .ok (newsz, d1) m') (h0 : newsz ≠ 0)
    {m''} (hc : (clearpteu d1 (pageOf (newsz - 2 * 4096))).exec m' = .ok d2 m'') :
    m'' = m' ∧ Guarded d2 newsz ∧ (∀ x, d2.pte (newsz.toNat / 4096 - 1) = some x → x.frame ∈ m0.freelist) ∧
      (Always Granted (Paging.allocuvm d (pgroundup sz) (pgroundup sz + 2 * 4096)) m →
        d2.Has (newsz.toNat / 4096 - 1)) := by
  have hsize := h.size
  have hsum := toNat_stacked hsize
  have htop := top_pgroundup hsize
  have haligned : top sz % 4096 = 0 := by unfold top; omega
  have hbase := toNat_kernbase
  by_cases hkern : kernbase ≤ pgroundup sz + 2 * 4096
  · rw [Paging.allocuvm, if_pos hkern] at ha; cases ha; exact absurd rfl h0
  rw [UInt32.le_iff_toNat_le, hsum, hbase] at hkern
  have hle : (pgroundup sz).toNat ≤ (pgroundup sz + 2 * 4096).toNat := by rw [hsum, toNat_pgroundup hsize.le]; omega
  have hmeets := meets_allocuvm_clear (F := fun _ => True) d m (pgroundup sz) (pgroundup sz + 2 * 4096) hle (by omega)
    (by rw [htop]; exact h.clear)
  obtain ⟨hn, hext⟩ | ⟨hn, -⟩ := (hmeets fun _ _ => trivial).2 _ _ ha
  case inr => exact absurd hn h0
  dsimp only at hn hext
  rw [htop] at hext
  have hend : top (pgroundup sz + 2 * 4096) = newsz.toNat := by rw [hn]; unfold top; omega
  rw [← hn] at hsum
  rw [hend] at hext
  have hpage : pageOf (newsz - 2 * 4096) = newsz.toNat / 4096 - 2 := by
    rw [pageOf, UInt32.toNat_sub, show (2 * 4096 : UInt32).toNat = 8192 from rfl]
    omega
  rw [hpage, clearpteu] at hc
  split at hc
  · rw [panic, exec_act] at hc; cases hc
  next t ht =>
  cases hc
  have hhas : d1.Has (newsz.toNat / 4096 - 2) := by simp [Dir.Has, ht]
  have hset := fun x => Dir.pte_setPte (x := x) hhas
  refine ⟨rfl, ⟨by omega, by omega, by omega, ?_, Dir.has_setPte.mpr hhas⟩, fun x hx => ?_, fun hF => ?_⟩
  · rintro ⟨x, hx, hu⟩
    rw [hset, update_self] at hx
    obtain ⟨y, -, rfl⟩ := map_eq_some_iff.mp hx
    cases hu
  · rw [hset, update_of_ne (by omega)] at hx
    rcases hext.added (newsz.toNat / 4096 - 1) (by omega) (by omega) with hnone | ⟨f, hf, hy⟩
    · rw [hnone] at hx; cases hx
    · rw [hy] at hx; cases hx; exact h.free f hf
  · by_contra hno
    rw [Dir.has_setPte] at hno
    have hhole := hext.hole.mpr ⟨newsz.toNat / 4096 - 1, by omega, by omega, Dir.pte_of_not_has hno⟩
    exact hF _ hhole rfl

/-! ## `exec` -/

theorem Delivered.has {p argv ptrs} (h : Delivered p m argv ptrs) : p.dir.Has (p.sz.toNat / 4096 - 1) := by
  obtain ⟨halign, hlo⟩ := h.bottom
  have hhi := h.top.1
  have hlt := p.sz.toNat_lt
  have hnat : (p.sp + 4).toNat = p.sp.toNat + 4 := by
    rw [UInt32.toNat_add, show (4 : UInt32).toNat = 4 from rfl]
    omega
  have hpage : pageOf (p.sp + 4) = p.sz.toNat / 4096 - 1 := by rw [pageOf, hnat]; omega
  obtain ⟨b, hb, -⟩ := bind_eq_some_iff.mp h.count
  obtain ⟨x, hx, -⟩ := bind_eq_some_iff.mp hb
  rw [hpage] at hx
  by_contra hno
  rw [Dir.pte_of_not_has hno] at hx
  cases hx

theorem pushStack_hi {x} (hx : d.pte 1 = some x) (hu : x.user = true) (hkend : m.kend = 512) :
    ∃ m', (pushStack o d 8192 [hi]).exec m = .ok (some 8168) m' ∧ m'.kend = 512 := by
  have hstring : (copyout o d 8188 hi.stored).exec m = .ok true (m.poke x.frame 4092 hi.stored) :=
    (copyout_page hx hu (by decide) (by decide)).1
  have hblock : (copyout o d 8168 ((ustack 8188 [8188]).flatMap wordBytes)).exec (m.poke x.frame 4092 hi.stored) =
    .ok true _ := (copyout_page hx hu (by decide) (by decide)).1
  have hpush : (pushArgs o d [hi] 8192 []).exec m = .ok (some (8188, [8188])) (m.poke x.frame 4092 hi.stored) := by
    rw [pushArgs, if_neg (by decide), exec_bind]
    exact (congrArg (Res.bind · _) hstring).trans rfl
  refine ⟨(m.poke x.frame 4092 hi.stored).poke x.frame 4072 ((ustack 8188 [8188]).flatMap wordBytes), ?_, hkend⟩
  rw [pushStack, exec_bind, hpush, Res.ok_bind]
  rw [exec_bind]
  exact (congrArg (Res.bind · _) hblock).trans rfl

theorem execProgram_hi : ∃ p m', (execProgram Link.small onlyHeader ⟨999, fun _ => none⟩ [hi]).exec roomy =
    .ok (some p) m' ∧ p.dir.Has (p.sz.toNat / 4096 - 1) := by
  obtain ⟨-, d, m1, hload, hkernel, hplenty, hkend⟩ := execLoad_onlyHeader
  have him : Image d 0 := .empty hkernel
  have halways : Always Served (allocuvm d 0 8192) m1 := always_allocuvm hplenty (by decide)
  obtain ⟨hends, hQ⟩ := (meets_allocuvm (E := fun _ => False) (fun _ => Served.granted) (.inr him.above)) halways
  obtain ⟨⟨sz, d1⟩, m2, halloc⟩ := hends.ok
  obtain ⟨hbad, -⟩ | ⟨hbad, -⟩ | ⟨-, -, -, ⟨rfl, hgrown⟩ | ⟨-, href⟩⟩ := hQ _ _ halloc
  · exact absurd hbad (by decide)
  · exact absurd hbad (by decide)
  · obtain ⟨d2, hclr, hst⟩ := hgrown.stacked him (by decide) (by decide)
    obtain ⟨x, hx, hu⟩ := hst.stack
    obtain ⟨m3, hpush, hkend3⟩ := pushStack_hi (o := ⟨999, fun _ => none⟩) hx hu (hgrown.moved.kend.trans hkend)
    have hstack : (execStack ⟨999, fun _ => none⟩ d 0 [hi]).exec m1 = .ok (d2, some (8192, 8168)) m3 := by
      rw [execStack, exec_bind]
      refine (congrArg (Res.bind · _) halloc).trans ?_
      rw [Res.ok_bind]
      dsimp only
      rw [if_neg (by decide), hclr, pure_bind, exec_bind, hpush]
      rfl
    have hpages : ∀ f ∈ (⟨999, fun _ => none⟩ : Dir).pages, m3.kend ≤ f ∧ f < 57344 := fun f hf => by
      rw [Dir.pages_empty, Multiset.mem_singleton] at hf
      omega
    obtain ⟨_, m4, hfree⟩ := ((meets_freevm_pages (F := fun _ => True) (E := fun _ => False) (.inr hpages))
      fun _ _ => trivial).1.ok
    refine ⟨⟨d2, 8192, 8168⟩, m4, ?_, hst.stack.has⟩
    rw [execProgram, exec_bind, hload, Res.ok_bind]
    dsimp only
    rw [if_neg (by decide), exec_bind, hstack, Res.ok_bind]
    dsimp only
    rw [exec_bind, hfree]
    rfl
  · exact absurd rfl (halways _ href.refused .page)

/-- An image of 1023 pages, which fills its page table but for one entry. -/
def manyPages : Dir where
  frame := 900
  pde := fun i => if i = 0 then some ⟨901, fun j => if j < 1023 then some ⟨2000 + j, true, true⟩ else none⟩ else none

/-- A process whose first page is writable, and page 5 for its kernel. -/
def caller : Dir where
  frame := 902
  pde := fun i =>
    if i = 0 then some ⟨903, fun j => if j = 0 then some ⟨996, true, true⟩ else none⟩
    else if i = 512 then some ⟨904, fun j => if j = 5 then some ⟨5, false, true⟩ else none⟩ else none

/-- The first word of that process is 0x5007, an entry for page 5 with `PTE_P`, `PTE_W` and `PTE_U`. -/
def twoLeft : Kmem where
  kend := 512
  freelist := [1000, 1001]
  refuses := fun _ => false
  asked := 0
  page := fun f i => if f = 996 then byteAt 0x5007 i else 0
  kend_pos := kend_pos
  inside := by decide

end Xv6Vsd.Paging
