import Xv6Vsd.Paging.Lemmas.Extend
import Xv6Vsd.Paging.Load

/-!
# The arguments of a new program

`exec` pushes the argument strings on the stack of the new image with a stack pointer that is
computed modulo 2^32. Where the new directory has no page table, `uva2ka` follows a nil pointer.
-/

namespace Xv6Vsd.Paging

open Prog Function List Option

variable {o d : Dir} {sz sp a : UInt32} {m m' : Kmem} {q len argc : Nat} {w : List UInt8}

/-! ## Runs without nil entries -/

/-- No entry of a page table that does not exist is read. -/
abbrev Calm {α : Type} (p : V α) (m : Kmem) : Prop := Always (· ≠ .nil) p m

theorem calm_act {α : Type} {lab : Kmem → Ev} {f : Kmem → Res Kmem α} (h : lab m ≠ .nil) : Calm (act lab f) m := by
  intro e he; rw [trace_act, mem_singleton] at he; rw [he]; exact h

theorem calm_walkpgdir : Calm (walkpgdir d q) m := by
  unfold walkpgdir
  split
  · exact always_pure _ _
  · refine (calm_act (by simp)).bind fun r _ _ => ?_
    cases r <;> exact always_pure _ _

theorem calm_mappagesFrom {user write left frame} : Calm (mappagesFrom user write left d q frame) m := by
  induction left generalizing d q frame m with
  | zero => exact always_pure _ _
  | succ left ih =>
    refine calm_walkpgdir.bind ?_
    rintro ⟨found, d1⟩ m1 -
    dsimp only
    split
    · exact always_pure _ _
    split
    · exact calm_act (by simp)
    · exact ih

theorem calm_deallocuvm {oldsz newsz} : Calm (deallocuvm d oldsz newsz) m := by
  have hloop : ∀ fuel d a m, Calm (deallocuvmFrom oldsz.toNat fuel d a) m := by
    intro fuel
    induction fuel with
    | zero => exact fun _ _ _ => always_pure _ _
    | succ fuel ih =>
      intro d a m
      unfold deallocuvmFrom
      split
      · split
        · exact ih _ _ _
        split
        · exact ih _ _ _
        split
        · exact calm_act (by simp)
        · exact (calm_act (by simp)).bind fun _ _ _ => ih _ _ _
      · exact always_pure _ _
  unfold deallocuvm
  split
  · exact always_pure _ _
  · exact (hloop _ _ _ _).bind fun _ _ _ => always_pure _ _

theorem calm_allocuvm {oldsz newsz} : Calm (allocuvm d oldsz newsz) m := by
  have hloop : ∀ fuel d a m, Calm (allocuvmFrom oldsz newsz fuel d a) m := by
    intro fuel
    induction fuel with
    | zero => exact fun _ _ _ => always_pure _ _
    | succ fuel ih =>
      intro d a m
      unfold allocuvmFrom
      split
      · refine (calm_act (by simp)).bind fun r _ _ => ?_
        cases r with
        | none => exact calm_deallocuvm.bind fun _ _ _ => always_pure _ _
        | some f => exact calm_mappagesFrom.bind fun _ _ _ => ih _ _ _
      · exact always_pure _ _
  unfold allocuvm
  split
  · exact always_pure _ _
  split
  · exact always_pure _ _
  · exact hloop _ _ _ _

/-! ## Copying out -/

def Dir.Open (d : Dir) (q : Nat) : Prop := ∃ x, d.pte q = some x ∧ x.user = true

theorem Dir.Open.has (h : d.Open q) : d.Has q := by
  obtain ⟨x, hx, -⟩ := h
  by_contra hhas
  simp [pte_of_not_has hhas] at hx

theorem uva2ka_user {x} (hx : d.pte q = some x) (hu : x.user = true) : uva2ka o d q = pure (some x.frame) := by
  obtain ⟨t, ht, hx⟩ := bind_eq_some_iff.mp hx
  simp [uva2ka, ht, hx, hu]

theorem uva2ka_closed (hhas : d.Has q) (h : ¬ d.Open q) : uva2ka o d q = pure none := by
  obtain ⟨t, ht⟩ := isSome_iff_exists.mp hhas
  rw [uva2ka, ht]
  dsimp only
  cases hx : t.pte (q % 1024) with
  | none => rfl
  | some x =>
    have huser : x.user = false := by
      by_contra hu
      exact h ⟨x, by simp [Dir.pte, ht, hx], by simpa using hu⟩
    simp [huser]

theorem copyout_nil (h : ¬ d.Has (pageOf a)) (hpos : 0 < w.length) : ¬Calm (copyout o d a w) m := by
  intro hcalm
  rw [copyout, copyoutFrom, if_pos hpos] at hcalm
  refine hcalm.start .nil ?_ rfl
  rw [Dir.Has, not_isSome_iff_eq_none] at h
  rw [uva2ka, h]
  dsimp only
  rw [trace_act]
  exact mem_singleton_self _

@[simp] theorem exec_store (f off : Nat) (w : List UInt8) (m : Kmem) :
    (store f off w).exec m = .ok () (m.poke f off w) := by
  rw [store, exec_act]

theorem calm_store {α : Type} {f off} {p : Unit → V α} (h : Calm (p ()) (m.poke f off w)) :
    Calm (store f off w >>= p) m := by
  refine Always.bind (calm_act (by simp)) fun u m1 he => ?_
  rw [exec_store] at he; cases he
  exact h

theorem copyout_page {x} (hx : d.pte (pageOf a) = some x) (hu : x.user = true)
    (hlen : a.toNat % 4096 + w.length ≤ 4096) (hpos : 0 < w.length) :
    (copyout o d a w).exec m = .ok true (m.poke x.frame (a.toNat % 4096) w) ∧ Calm (copyout o d a w) m := by
  have hmin : min (4096 - a.toNat % 4096) w.length = w.length := by omega
  rw [copyout, copyoutFrom, if_pos hpos, uva2ka_user hx hu, pure_bind]
  dsimp only
  rw [hmin, take_length, drop_length, copyoutFrom, if_neg (by simp), exec_bind, exec_store]
  exact ⟨rfl, calm_store (always_pure _ _)⟩

theorem next_page (p : Nat) : (UInt32.ofNat (p * 4096 + 4096)).toNat = (p + 1) % npages * 4096 := by
  simp only [npages]
  rw [UInt32.toNat_ofNat']
  omega

theorem pageOf_lt (a : UInt32) : pageOf a < npages := by
  have := a.toNat_lt
  simp only [npages, pageOf]
  omega

theorem copyoutFrom_closed {fuel g} (hva : pageOf a ≤ g) (hg : g < npages)
    (hhas : ∀ q, pageOf a ≤ q → q ≤ g → d.Has q) (hclosed : ¬ d.Open g) (hlen : g * 4096 < a.toNat + w.length)
    (hfuel : g < pageOf a + fuel) (hpos : 0 < w.length) :
    (∃ m', (copyoutFrom o d fuel a w).exec m = .ok false m') ∧ Calm (copyoutFrom o d fuel a w) m := by
  induction fuel generalizing a w m with
  | zero => omega
  | succ fuel ih =>
    rw [copyoutFrom, if_pos hpos]
    by_cases hopen : d.Open (pageOf a)
    · have hne : pageOf a ≠ g := fun h => hclosed (h ▸ hopen)
      obtain ⟨x, hx, hu⟩ := hopen
      rw [uva2ka_user hx hu, pure_bind]
      dsimp only
      have hnext := next_page (pageOf a)
      rw [Nat.mod_eq_of_lt (show pageOf a + 1 < npages by omega)] at hnext
      have hpage : pageOf (UInt32.ofNat (pageOf a * 4096 + 4096)) = pageOf a + 1 := by rw [pageOf, hnext]; omega
      have hoff : a.toNat = pageOf a * 4096 + a.toNat % 4096 := by unfold pageOf; omega
      have hdrop := length_drop (i := min (4096 - a.toNat % 4096) w.length) (l := w)
      obtain ⟨⟨m', he⟩, hcalm⟩ := ih (a := UInt32.ofNat (pageOf a * 4096 + 4096))
        (w := w.drop (min (4096 - a.toNat % 4096) w.length)) (m := m.poke x.frame (a.toNat % 4096)
          (w.take (min (4096 - a.toNat % 4096) w.length))) (by omega) (fun q h1 h2 => hhas q (by omega) h2)
        (by omega) (by omega) (by omega)
      exact ⟨⟨m', by rw [exec_bind, exec_store]; exact he⟩, calm_store hcalm⟩
    · rw [uva2ka_closed (hhas _ (Nat.le_refl _) hva) hopen, pure_bind]
      exact ⟨⟨m, rfl⟩, always_pure _ _⟩

theorem copyout_closed {g} (hva : pageOf a ≤ g) (hg : g < npages) (hhas : ∀ q, pageOf a ≤ q → q ≤ g → d.Has q)
    (hclosed : ¬ d.Open g) (hlen : g * 4096 < a.toNat + w.length) (hpos : 0 < w.length) :
    (∃ m', (copyout o d a w).exec m = .ok false m') ∧ Calm (copyout o d a w) m := by
  refine copyoutFrom_closed hva hg hhas hclosed hlen ?_ hpos
  unfold pageOf at *
  omega

/-! ## The stack -/

/-- The image with its stack, as `exec` has it when it begins to push: the last page is the stack, the page below is
closed. -/
structure Stacked (d : Dir) (sz : UInt32) : Prop where
  aligned : sz.toNat % 4096 = 0
  low : 8192 ≤ sz.toNat
  high : sz.toNat < 2147483648
  has : ∀ q, q * 4096 < sz.toNat → d.Has q
  stack : d.Open (sz.toNat / 4096 - 1)
  guard : ¬ d.Open (sz.toNat / 4096 - 2)
  kernel : KernelHalf d

def push (sp : UInt32) (len : Nat) : UInt32 := (sp - UInt32.ofNat (len + 1)) / 4 * 4

def InStack (sz sp : UInt32) : Prop := sz.toNat ≤ sp.toNat + 4096 ∧ sp.toNat ≤ sz.toNat

def InHole (sp : UInt32) : Prop := 0x8E000000 ≤ sp.toNat ∧ sp.toNat < 0xFE000000

instance (sz sp : UInt32) : Decidable (InStack sz sp) := inferInstanceAs (Decidable (_ ∧ _))

instance (sp : UInt32) : Decidable (InHole sp) := inferInstanceAs (Decidable (_ ∧ _))

theorem toNat_push (sp : UInt32) (hlen : len + 1 ≤ 2147483648) :
    (push sp len).toNat = (4294967296 - (len + 1) + sp.toNat) % 4294967296 / 4 * 4 := by
  simp only [push, UInt32.toNat_mul, UInt32.toNat_div, UInt32.toNat_sub, UInt32.toNat_ofNat', UInt32.reduceToNat,
    Nat.reducePow]
  omega

theorem CString.length_stored (s : CString) : s.stored.length = s.bytes.length + 1 := by simp [CString.stored]

section Stacked

variable (h : Stacked d sz) (hsp : InStack sz sp) (h4 : sp.toNat % 4 = 0) {s : CString}
include h

theorem copyout_hole (hin : InHole sp) (hpos : 0 < w.length) : ¬Calm (copyout o d sp w) m := by
  obtain ⟨h1, h2⟩ := hin
  refine copyout_nil (fun hhas => ?_) hpos
  rw [h.kernel.has _ (by simp only [userpages, pageOf]; omega)] at hhas
  unfold KernelPage pageOf at hhas
  omega

include hsp h4

theorem copyout_fits (hin : InStack sz (push sp s.bytes.length)) :
    (∃ m', (copyout o d (push sp s.bytes.length) s.stored).exec m = .ok true m') ∧
      Calm (copyout o d (push sp s.bytes.length) s.stored) m := by
  have hpush := toNat_push sp s.short
  have hshort := s.short
  have hlen := s.length_stored
  obtain ⟨h1, h2⟩ := hsp
  obtain ⟨h3, h5⟩ := hin
  have ha := h.aligned
  have hlow := h.low
  have hhigh := h.high
  have hpage : pageOf (push sp s.bytes.length) = sz.toNat / 4096 - 1 := by unfold pageOf; omega
  obtain ⟨x, hx, hu⟩ := h.stack
  obtain ⟨he, hcalm⟩ := copyout_page (o := o) (m := m) (w := s.stored) (hpage ▸ hx) hu (by omega) (by omega)
  exact ⟨⟨_, he⟩, hcalm⟩

theorem copyout_falls (hin : ¬ InStack sz (push sp s.bytes.length)) (hhole : ¬ InHole (push sp s.bytes.length)) :
    (∃ m', (copyout o d (push sp s.bytes.length) s.stored).exec m = .ok false m') ∧
      Calm (copyout o d (push sp s.bytes.length) s.stored) m := by
  have hpush := toNat_push sp s.short
  have hshort := s.short
  have hlt := (push sp s.bytes.length).toNat_lt
  have hlen := s.length_stored
  obtain ⟨h1, h2⟩ := hsp
  have ha := h.aligned
  have hlow := h.low
  have hhigh := h.high
  unfold InStack at hin
  unfold InHole at hhole
  by_cases hwrap : 2147483648 ≤ (push sp s.bytes.length).toNat
  · have huser : userpages ≤ pageOf (push sp s.bytes.length) := by simp only [userpages, pageOf]; omega
    refine copyout_closed (Nat.le_refl _) (pageOf_lt _) (fun q hq1 hq2 => ?_) ?_ ?_ (by omega)
    · rw [Nat.le_antisymm hq2 hq1, h.kernel.has _ huser]; unfold KernelPage pageOf; omega
    · rintro ⟨x, hx, hu⟩; simp [h.kernel.closed _ x huser hx] at hu
    · unfold pageOf; omega
  · refine copyout_closed (g := sz.toNat / 4096 - 2) ?_ ?_ (fun q hq1 hq2 => h.has q ?_) h.guard ?_ (by omega)
    · unfold pageOf; omega
    · simp only [npages]; omega
    · omega
    · omega

end Stacked

/-! ## The loop over the arguments -/

/-- One of the strings, pushed from `sp` on as number `argc` and those that follow, takes the stack
pointer into the hole, and those before it fit into the stack page. -/
def FallsFrom (sz sp : UInt32) (argc : Nat) (argv : List Nat) : Prop :=
  ∃ pre len rest, argv = pre ++ len :: rest ∧ argc + pre.length < maxarg ∧
    (∀ p, p <+: pre → InStack sz (p.foldl push sp)) ∧ InHole (push (pre.foldl push sp) len)

theorem not_fallsFrom_nil : ¬ FallsFrom sz sp argc [] := by rintro ⟨pre, len, rest, h, -⟩; simp at h

theorem fallsFrom_cons {rest} (hsp : InStack sz sp) : FallsFrom sz sp argc (len :: rest) ↔ argc < maxarg ∧
      (InHole (push sp len) ∨ InStack sz (push sp len) ∧ FallsFrom sz (push sp len) (argc + 1) rest) := by
  constructor
  · rintro ⟨pre, len', rest', h, hargc, hpre, hhole⟩
    cases pre with
    | nil => cases h; exact ⟨hargc, .inl hhole⟩
    | cons x pre =>
      cases h
      rw [length_cons] at hargc
      refine ⟨by omega, .inr ⟨hpre [_] (by simp), pre, len', rest', rfl, by omega, fun p hp => ?_, hhole⟩⟩
      exact hpre (_ :: p) (cons_prefix_cons.mpr ⟨rfl, hp⟩)
  · rintro ⟨hargc, hhole | ⟨hin, pre, len', rest', rfl, hlt, hpre, hhole⟩⟩
    · refine ⟨[], len, rest, rfl, by simpa using hargc, fun p hp => ?_, hhole⟩
      rw [prefix_nil.mp hp]
      exact hsp
    refine ⟨len :: pre, len', rest', rfl, by rw [length_cons]; omega, fun p hp => ?_, hhole⟩
    rcases prefix_cons_iff.mp hp with rfl | ⟨p, rfl, hp'⟩
    · exact hsp
    · exact hpre p hp'

variable {s : CString} {argv : List CString} {l : List UInt32}

theorem pushArgs_cons (hmax : l.length < maxarg) : pushArgs o d (s :: argv) sp l = (do
    if ← copyout o d (push sp s.bytes.length) s.stored then
      pushArgs o d argv (push sp s.bytes.length) (l ++ [push sp s.bytes.length])
    else pure none) := by
  rw [pushArgs, if_neg (Nat.not_le.mpr hmax)]
  rfl

def lengths (argv : List CString) : List Nat := argv.map fun s => s.bytes.length

theorem pushArgs_falls (h : Stacked d sz) (hsp : InStack sz sp) (h4 : sp.toNat % 4 = 0)
    (hf : FallsFrom sz sp l.length (lengths argv)) : ¬Calm (pushArgs o d argv sp l) m := by
  induction argv generalizing sp l m with
  | nil => exact absurd hf not_fallsFrom_nil
  | cons s argv ih =>
    obtain ⟨hmax, hf⟩ := (fallsFrom_cons hsp).mp hf
    have hlen := s.length_stored
    rw [pushArgs_cons hmax]
    intro hcalm
    rcases hf with hhole | ⟨hin, hf⟩
    · exact copyout_hole h hhole (by omega) hcalm.start
    obtain ⟨⟨m1, he⟩, -⟩ := copyout_fits (o := o) (m := m) h hsp h4 hin
    refine ih hin ?_ ?_ (hcalm.rest he)
    · rw [toNat_push sp s.short]; omega
    · rw [length_append]; exact hf

theorem pushArgs_ends (h : Stacked d sz) (hmax : l.length ≤ maxarg) (hsp : InStack sz sp) (h4 : sp.toNat % 4 = 0)
    (hf : ¬FallsFrom sz sp l.length (lengths argv)) : Calm (pushArgs o d argv sp l) m ∧
      ∃ r m', (pushArgs o d argv sp l).exec m = .ok r m' ∧
        ∀ sp' l', r = some (sp', l') → InStack sz sp' ∧ l'.length ≤ maxarg := by
  induction argv generalizing sp l m with
  | nil =>
    refine ⟨always_pure _ _, _, _, rfl, fun sp' l' he => ?_⟩
    cases he
    exact ⟨hsp, hmax⟩
  | cons s argv ih =>
    by_cases hlt : l.length < maxarg
    · have hf' := fun hf' => hf ((fallsFrom_cons hsp).mpr ⟨hlt, hf'⟩)
      rw [pushArgs_cons hlt]
      by_cases hin : InStack sz (push sp s.bytes.length)
      · obtain ⟨⟨m1, he⟩, hcalm⟩ := copyout_fits (o := o) (m := m) h hsp h4 hin
        have hrest := ih (l := l ++ [push sp s.bytes.length]) (m := m1)
          (by rw [length_append]; exact hlt) hin (by rw [toNat_push sp s.short]; omega)
          (by rw [length_append]; exact fun hf => hf' (.inr ⟨hin, hf⟩))
        refine ⟨hcalm.bind fun b m2 he2 => ?_, by rw [exec_bind, he]; exact hrest.2⟩
        rw [he] at he2; cases he2
        exact hrest.1
      · obtain ⟨⟨m1, he⟩, hcalm⟩ := copyout_falls (o := o) (m := m) h hsp h4 hin fun hhole => hf' (.inl hhole)
        refine ⟨hcalm.bind fun b m2 he2 => ?_, none, m1, by rw [exec_bind, he]; rfl, nofun⟩
        rw [he] at he2; cases he2
        exact always_pure _ _
    · rw [pushArgs, if_pos (Nat.le_of_not_lt hlt)]
      exact ⟨always_pure _ _, none, m, rfl, nofun⟩

theorem length_ustack (sp : UInt32) (l : List UInt32) :
    ((ustack sp l).flatMap wordBytes).length = 4 * (l.length + 4) := by
  have hword : ∀ w, (wordBytes w).length = 4 := fun w => by simp [wordBytes]
  simp only [length_flatMap, hword, map_const', sum_replicate_nat]
  simp only [ustack, length_append, length_cons, length_nil]
  omega

theorem copyout_ustack (h : Stacked d sz) (hsp : InStack sz sp) (hmax : l.length ≤ maxarg)
    (hlen : w.length = 4 * (l.length + 4)) :
    (∃ b m', (copyout o d (sp - UInt32.ofNat ((3 + l.length + 1) * 4)) w).exec m = .ok b m') ∧
      Calm (copyout o d (sp - UInt32.ofNat ((3 + l.length + 1) * 4)) w) m := by
  have ha := h.aligned
  have hlow := h.low
  have hhigh := h.high
  obtain ⟨h1, h2⟩ := hsp
  simp only [maxarg] at hmax
  generalize hva : sp - UInt32.ofNat ((3 + l.length + 1) * 4) = a
  have hnat : a.toNat = sp.toNat - w.length := by
    rw [← hva, UInt32.toNat_sub, UInt32.toNat_ofNat']
    omega
  by_cases hin : sz.toNat ≤ a.toNat + 4096
  · have hpage : pageOf a = sz.toNat / 4096 - 1 := by unfold pageOf; omega
    obtain ⟨x, hx, hu⟩ := h.stack
    obtain ⟨he, hcalm⟩ := copyout_page (o := o) (m := m) (w := w) (hpage ▸ hx) hu (by omega) (by omega)
    exact ⟨⟨_, _, he⟩, hcalm⟩
  · have hpage : pageOf a = sz.toNat / 4096 - 2 := by unfold pageOf; omega
    obtain ⟨⟨m', he⟩, hcalm⟩ := copyout_closed (o := o) (m := m) (w := w) hpage.le (hpage ▸ pageOf_lt a)
      (fun q _ hq => h.has q (by omega)) h.guard (by omega) (by omega)
    exact ⟨⟨_, _, he⟩, hcalm⟩

/-- One of the strings takes the stack pointer into the hole while those before it fit into the stack page. -/
def Falls (sz : UInt32) (argv : List CString) : Prop := FallsFrom sz sz 0 (lengths argv)

theorem pushStack_iff (h : Stacked d sz) :
    (∃ r m', (pushStack o d sz argv).exec m = .ok r m') ∧ Calm (pushStack o d sz argv) m ↔ ¬ Falls sz argv := by
  have hstart : InStack sz sz := ⟨by omega, Nat.le_refl _⟩
  have h4 : sz.toNat % 4 = 0 := by have := h.aligned; omega
  constructor
  · exact fun ⟨_, hcalm⟩ hf => pushArgs_falls h hstart h4 (l := []) hf hcalm.start
  intro hf
  obtain ⟨hcalm, r, m1, he, hr⟩ := pushArgs_ends (o := o) (m := m) (l := []) h (Nat.zero_le _) hstart h4 hf
  cases r with
  | none =>
    refine ⟨⟨none, m1, by rw [pushStack, exec_bind, he]; rfl⟩, hcalm.bind fun r m2 he2 => ?_⟩
    rw [he] at he2; cases he2
    exact always_pure _ _
  | some p =>
    obtain ⟨hsp, hmax⟩ := hr p.1 p.2 rfl
    obtain ⟨⟨b, m2, hb⟩, hcalm'⟩ := copyout_ustack (o := o) (m := m1) h hsp hmax (length_ustack p.1 p.2)
    refine ⟨?_, hcalm.bind fun r m3 he3 => ?_⟩
    · simp only [pushStack, exec_bind, he, Res.ok_bind, hb]
      cases b <;> exact ⟨_, _, rfl⟩
    rw [he] at he3; cases he3
    refine hcalm'.bind fun b _ _ => ?_
    cases b <;> exact always_pure _ _

/-! ## The whole stack -/

theorem KernelHalf.setPte {x} (h : KernelHalf d) (hhas : d.Has q) (hq : q < userpages) : KernelHalf (d.setPte q x) where
  has := fun p hp => by rw [Dir.has_setPte, h.has p hp]
  closed := fun p y hp hy => by
    rw [Dir.pte_setPte hhas, update_of_ne (by omega)] at hy
    exact h.closed p y hp hy

theorem clearpteu_eq {x} (hx : d.pte q = some x) :
    clearpteu d q = pure (d.setPte q (some { x with user := false })) := by
  obtain ⟨t, ht, hx⟩ := bind_eq_some_iff.mp hx
  rw [clearpteu, ht]
  dsimp only
  rw [hx, map_some]

theorem Grown.stacked {t d1 newsz} (him : Image d sz) (hnew : newsz.toNat = top sz + 8192)
    (hlt : newsz.toNat < 2147483648) (hg : Grown d m (top sz) (top newsz) t d1 m') :
    ∃ d', clearpteu d1 (pageOf (newsz - 2 * 4096)) = pure d' ∧ Stacked d' newsz := by
  have haligned : newsz.toNat % 4096 = 0 := by unfold top at hnew; omega
  have htop : top newsz = newsz.toNat := by unfold top; omega
  have hguard : pageOf (newsz - 2 * 4096) = newsz.toNat / 4096 - 2 := by
    rw [pageOf, UInt32.toNat_sub, show (2 * 4096 : UInt32).toNat = 8192 from rfl]
    omega
  have hpage : newsz.toNat / 4096 - 2 < userpages := by simp only [userpages]; omega
  have him' := him.grow (by rw [UInt32.le_iff_toNat_le]; unfold top at hnew; omega) hlt hg
  rw [htop] at hg
  obtain ⟨f, -, -, hf⟩ := hg.added (newsz.toNat / 4096 - 2) (by omega) (by omega)
  obtain ⟨f', -, -, hf'⟩ := hg.added (newsz.toNat / 4096 - 1) (by omega) (by omega)
  have hhas : d1.Has (newsz.toNat / 4096 - 2) := Dir.Open.has ⟨_, hf, rfl⟩
  have hset := Dir.pte_setPte (x := some ⟨f, false, true⟩) hhas
  rw [hguard, clearpteu_eq hf]
  refine ⟨_, rfl, haligned, by omega, hlt, fun q hq => Dir.has_setPte.mpr (him'.has q hq), ?_, ?_,
    him'.kernel.setPte hhas hpage⟩
  · refine ⟨⟨f', true, true⟩, ?_, rfl⟩
    rw [hset, update_of_ne (by omega), hf']
  · rintro ⟨x, hx, hu⟩; rw [hset, update_self, some.injEq] at hx; simp [← hx] at hu

theorem toNat_stacked (h : sz.toNat < 2147483648) : (pgroundup sz + 2 * 4096).toNat = top sz + 8192 := by
  rw [UInt32.toNat_add, toNat_pgroundup h.le, show (2 * 4096 : UInt32).toNat = 8192 from rfl]
  unfold top
  omega

theorem top_pgroundup (h : sz.toNat < 2147483648) : top (pgroundup sz) = top sz := by
  rw [top, toNat_pgroundup h.le]; unfold top; omega

/-- The stack does not fit below the kernel, or `kalloc` has no page for it. -/
def NoStack (d : Dir) (sz : UInt32) (m : Kmem) : Prop := 2147483648 ≤ top sz + 8192 ∨
  .kalloc .page none ∈ (allocuvm d (pgroundup sz) (pgroundup sz + 2 * 4096)).trace m

theorem execStack_iff (him : Image d sz)
    (hF : Always Granted (allocuvm d (pgroundup sz) (pgroundup sz + 2 * 4096)) m) :
    (∃ r m', (execStack o d sz argv).exec m = .ok r m') ∧ Calm (execStack o d sz argv) m ↔
      NoStack d sz m ∨ ¬Falls (pgroundup sz + 2 * 4096) argv := by
  have hsum := toNat_stacked him.small
  have htop := top_pgroundup him.small
  have hbase := toNat_kernbase
  have hnone : ∀ {d1 m1}, (allocuvm d (pgroundup sz) (pgroundup sz + 2 * 4096)).exec m = .ok (0, d1) m1 →
    (∃ r m', (execStack o d sz argv).exec m = .ok r m') ∧ Calm (execStack o d sz argv) m := fun {d1 m1} he => by
    refine ⟨⟨(d1, none), m1, by rw [execStack, exec_bind, he]; rfl⟩, calm_allocuvm.bind fun r m2 he2 => ?_⟩
    rw [he] at he2; cases he2
    exact always_pure _ _
  by_cases hbig : 2147483648 ≤ top sz + 8192
  · refine iff_of_true (hnone (show (allocuvm d (pgroundup sz) (pgroundup sz + 2 * 4096)).exec m =
      .ok (0, d) m from ?_)) (.inl (.inl hbig))
    rw [allocuvm, if_pos (by rw [UInt32.le_iff_toNat_le]; omega)]
    rfl
  have hclear : ∀ q, top (pgroundup sz) ≤ q * 4096 → q < userpages → d.pte q = none := by rw [htop]; exact him.above
  have hle : (pgroundup sz).toNat ≤ (pgroundup sz + 2 * 4096).toNat := by
    rw [hsum, toNat_pgroundup him.small.le]; omega
  obtain ⟨-, hany⟩ := meets_allocuvm_clear (F := Granted) d m _ _ hle (by omega) hclear hF
  obtain ⟨hends, hpost⟩ := meets_allocuvm (F := Granted) (E := fun _ => False) (fun _ h => h) (.inr hclear) hF
  obtain ⟨⟨r, d1⟩, m1, he⟩ := hends.ok
  have hne : pgroundup sz + 2 * 4096 ≠ 0 := fun h0 => by rw [h0, UInt32.toNat_zero] at hsum; omega
  rcases hany _ _ he with ⟨hr, hext⟩ | ⟨hr, hmem, -⟩
  · dsimp only at hr
    subst hr
    rw [NoStack, or_iff_right (not_or.mpr ⟨hbig, hext.granted⟩)]
    obtain ⟨hbad, -⟩ | ⟨hbad, -⟩ | ⟨-, -, hlt, ⟨-, hgrown⟩ | ⟨h0, -⟩⟩ := hpost _ _ he
    · rcases hbad with hbad | hbad
      · omega
      · exact absurd hbad hne
    · rw [UInt32.lt_iff_toNat_lt] at hbad; omega
    · rw [htop] at hgrown
      obtain ⟨d2, hc, hst⟩ := hgrown.stacked him hsum hlt
      rw [← pushStack_iff (o := o) (m := m1) hst]
      constructor
      · rintro ⟨⟨r, m', hr⟩, hcalm⟩
        rw [execStack, exec_bind, he, Res.ok_bind] at hr
        have hcalm := hcalm.rest he
        dsimp only at hr hcalm
        rw [if_neg hne, hc, pure_bind] at hr hcalm
        obtain ⟨sp, m2, hp, -⟩ := bind_ok hr
        exact ⟨⟨sp, m2, hp⟩, hcalm.start⟩
      · rintro ⟨⟨sp, m2, hp⟩, hcalm⟩
        refine ⟨⟨(d2, sp.map fun sp => (pgroundup sz + 2 * 4096, sp)), m2, ?_⟩, calm_allocuvm.bind fun r m3 he3 => ?_⟩
        · rw [execStack, exec_bind, he, Res.ok_bind]
          dsimp only
          rw [if_neg hne, hc, pure_bind, exec_bind, hp]
          rfl
        · obtain ⟨rfl, rfl⟩ := Res.ok.inj (he.symm.trans he3)
          dsimp only
          rw [if_neg hne, hc, pure_bind]
          exact hcalm.bind fun _ _ _ => always_pure _ _
    · exact absurd h0 hne
  · dsimp only at hr
    subst hr
    exact iff_of_true (hnone he) (.inl (.inr hmem))

def hi : CString := ⟨[104, 105], by decide, by decide⟩

/-- 33 MB of one letter. -/
def longString : CString where
  bytes := List.replicate 33562627 120
  nul := fun h => absurd (eq_of_mem_replicate h) (by decide)
  short := by rw [length_replicate]; decide

end Xv6Vsd.Paging
