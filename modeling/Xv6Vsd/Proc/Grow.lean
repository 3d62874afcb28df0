import Xv6Vsd.Paging.Lemmas.Extend
import Xv6Vsd.Proc.Model

/-! # `growproc` (`proc.c`) -/

namespace Xv6Vsd.Tasks

open Prog Paging State Function Option Finset

def plus (sz : UInt32) (n : Int) : UInt32 := sz + UInt32.ofNat (n % 4294967296).toNat

def resize (sz : UInt32) (n : Int) (d : Dir) : V (UInt32 × Dir) :=
  if 0 < n then allocuvm d sz (plus sz n)
  else if n < 0 then deallocuvm d sz (plus sz n)
  else pure (sz, d)

/-- The thread at a nil entry of the thread table is the caller's own memory: its `state` is the
word at 12, its `sz` the word at 0. -/
def nilThread (d : Dir) (sz : UInt32) : V Unit := act (fun _ => .tau) fun m =>
  match d.pte 0 with
  | none => .panic "trap"
  | some x =>
    if word32 (fun i => m.page x.frame (12 + i)) = 0 then .ok () m -- UNUSED
    else if x.write then .ok () (m.write x.frame fun i => if i < 4 then byteAt sz.toNat i else m.page x.frame i)
    else .panic "trap"

def updateThreads (d : Dir) (c : Ref) (sz : UInt32) : List (Fin threadmax) → State → V State
  | [], s => pure s
  | i :: is, s =>
    match (s.proc c).threads i with
    | none => do
      nilThread d sz
      updateThreads d c sz is s
    | some p =>
      updateThreads d c sz is (if (s.proc p).state ≠ .unused then s.mod p fun x => { x with sz := sz } else s)

def setSize (d : Dir) (s : State) (c : Ref) (sz : UInt32) : V State :=
  let s := s.mod c fun x => { x with sz := sz }
  if (s.proc c).threadi ≠ 0 then updateThreads d c sz (List.finRange threadmax) s else pure s

def growproc (s : State) (c : Ref) (n : Int) (d : Dir) : V (Int × State × Dir) := do
  let (sz, d) ← resize (s.proc c).sz n d
  if n ≠ 0 ∧ sz = 0 then pure (-1, s, d)
  else
    let s ← setSize d s c sz
    pure (0, s, d)

/-! ## What it should do -/

structure WellMapped (d : Dir) (sz : UInt32) : Prop where
  below : sz.toNat ≤ 2147483648
  present : ∀ q < userpages, (d.pte q).isSome ↔ q * 4096 < sz.toNat

structure Sound (d : Dir) (m : Kmem) : Prop where
  once : ((m.freelist : Multiset Nat) + d.pages).Nodup
  frames : ∀ q < userpages, ∀ x, d.pte q = some x → m.kend ≤ x.frame ∧ x.frame < 57344

/-- The size has changed by `n`, new pages are zeroed and kept pages are unchanged. -/
structure Done (n : Int) (sz : UInt32) (d : Dir) (m : Kmem) (sz' : UInt32) (d' : Dir) (m' : Kmem) : Prop where
  size : (sz'.toNat : Int) = sz.toNat + n
  mapped : WellMapped d' sz'
  kept : ∀ q x, q * 4096 < sz.toNat → q * 4096 < sz'.toNat → d.pte q = some x →
    d'.pte q = some x ∧ m'.page x.frame = m.page x.frame
  zero : ∀ q x, sz.toNat ≤ q * 4096 → q * 4096 < sz'.toNat → d'.pte q = some x → m'.page x.frame = zeroPage

structure Untouched (d : Dir) (m : Kmem) (d' : Dir) (m' : Kmem) : Prop where
  pte : ∀ q < userpages, d'.pte q = d.pte q
  page : ∀ q < userpages, ∀ x, d.pte q = some x → m'.page x.frame = m.page x.frame

/-- `growproc` returns 0 when it has done what it was asked to do, or -1 when it has done nothing. -/
def AllOrNothing (s : State) (c : Ref) (n : Int) (d : Dir) (m : Kmem) : Prop :=
  ∃ r s' d' m', (growproc s c n d).exec m = .ok (r, s', d') m' ∧
    (r = 0 ∧ Done n (s.proc c).sz d m (s'.proc c).sz d' m' ∨ r = -1 ∧ s' = s ∧ Untouched d m d' m')

def NoGaps (s : State) (c : Ref) : Prop := (s.proc c).threadi = 0 ∨ ∀ i, (s.proc c).threads i ≠ none

/-- What stands in the caller's own memory lets `growproc` pass over a gap: the word at 12 is 0, or
the word at 0 is the new size already. -/
def NilFits (d : Dir) (m : Kmem) (sz : UInt32) : Prop :=
  ∃ x, d.pte 0 = some x ∧ (word32 (fun i => m.page x.frame (12 + i)) = 0 ∨
    x.write = true ∧ ∀ i < 4, m.page x.frame i = byteAt sz.toNat i)

/-- It does not ask for its whole image or more to be taken away, no page table is refused when no page is, and when it
succeeds there are no gaps in its thread table or they do no harm. -/
def Fits (s : State) (c : Ref) (n : Int) (d : Dir) (m : Kmem) : Prop :=
  let sz := (s.proc c).sz
  n = 0 ∧ (NoGaps s c ∨ NilFits d m sz) ∨
  0 < n ∧ (2147483648 ≤ sz.toNat + n ∨ .kalloc .page none ∈ (allocuvm d sz (plus sz n)).trace m ∨
    .kalloc .table none ∉ (allocuvm d sz (plus sz n)).trace m ∧ (NoGaps s c ∨ sz = 0 ∨ NilFits d m (plus sz n))) ∨
  n < 0 ∧ (sz = 0 ∨ 0 < sz.toNat + n ∧ (NoGaps s c ∨ NilFits d m (plus sz n)))

variable {s : State} {c : Ref} {n : Int} {d d' : Dir} {m m' : Kmem} {sz : UInt32}

/-! ## The loop over the threads -/

def resized (s : State) (c : Ref) (sz : UInt32) (is : List (Fin threadmax)) : State :=
  { s with
    proc := fun p =>
      if (∃ i ∈ is, (s.proc c).threads i = some p) ∧ (s.proc p).state ≠ .unused then { s.proc p with sz := sz }
      else s.proc p }

variable {is : List (Fin threadmax)} {r : UInt32}

theorem resized_cons {p i} (hp : (s.proc c).threads i = some p) :
    resized (if (s.proc p).state ≠ .unused then s.mod p fun x => { x with sz := sz } else s) c sz is =
      resized s c sz (i :: is) := by
  by_cases hst : (s.proc p).state = .unused
  · rw [if_neg (not_not_intro hst)]
    unfold resized
    congr 1
    funext q
    by_cases hq : q = p
    · simp [hq, hst]
    · simp [hp, Ne.symm hq]
  · rw [if_pos hst]
    have hthreads : ((s.mod p fun x => { x with sz := sz }).proc c).threads = (s.proc c).threads := by
      by_cases hc : c = p <;> simp [mod, hc]
    unfold resized
    rw [hthreads]
    simp only [mod]
    congr 1
    funext q
    by_cases hq : q = p
    · simp [hq, hp, hst]
    · simp [hq, hp, Ne.symm hq]

theorem threads_update (p : Ref) :
    ((if (s.proc p).state ≠ .unused then s.mod p fun x => { x with sz := sz } else s).proc c).threads =
      (s.proc c).threads := by
  split
  · by_cases hc : c = p <;> simp [mod, hc]
  · rfl

theorem nilThread_again {u} (h : (nilThread d sz).exec m = .ok u m') : (nilThread d sz).exec m' = .ok () m' := by
  rw [nilThread, exec_act] at h ⊢
  split at h
  · cases h
  next x hx =>
  split at h
  · next h12 => cases h; rw [if_pos h12]
  next h12 =>
  split at h <;> cases h
  next hwrite =>
  have hstate : word32 (fun i => (m.write x.frame fun i => if i < 4 then byteAt sz.toNat i else
      m.page x.frame i).page x.frame (12 + i)) = word32 fun i => m.page x.frame (12 + i) :=
    word32_congr fun i _ => by simp only [Kmem.write, update_self]; rw [if_neg (by omega)]
  rw [hstate, if_neg h12, if_pos hwrite]
  simp only [Kmem.write, update_self, update_idem]
  congr 3
  funext i
  split <;> rfl

theorem exec_updateThreads : (updateThreads d c sz is s).exec m =
    if ∀ i ∈ is, (s.proc c).threads i ≠ none then .ok (resized s c sz is) m
    else ((nilThread d sz).exec m).bind fun _ m => .ok (resized s c sz is) m := by
  induction is generalizing s m with
  | nil => simp [updateThreads, resized]
  | cons i is ih =>
    unfold updateThreads
    cases hi : (s.proc c).threads i with
    | none =>
      have hsame : resized s c sz is = resized s c sz (i :: is) := by simp [resized, hi]
      rw [if_neg fun h => h i List.mem_cons_self hi]
      simp only [exec_bind, ih, hsame]
      cases he : (nilThread d sz).exec m with
      | ok u m1 => simp [nilThread_again he]
      | block => rfl
      | panic msg => rfl
    | some p =>
      simp only [ih, threads_update, resized_cons hi, List.forall_mem_cons, hi, ne_eq, reduceCtorEq, not_false_eq_true,
        true_and]

def sized (s : State) (c : Ref) (sz : UInt32) : State :=
  let s := s.mod c fun x => { x with sz := sz }
  if (s.proc c).threadi ≠ 0 then resized s c sz (List.finRange threadmax) else s

theorem noGaps_mod (sz : UInt32) : NoGaps (s.mod c fun x => { x with sz := sz }) c ↔ NoGaps s c := by
  simp [NoGaps, mod]

theorem exec_setSize (h : NoGaps s c) : (setSize d s c sz).exec m = .ok (sized s c sz) m := by
  have h' := (noGaps_mod sz).mpr h
  unfold setSize sized
  dsimp only
  split
  · next hth => rw [exec_updateThreads, if_pos fun i _ => h'.resolve_left hth i]
  · rfl

theorem exec_setSize_gap (h : ¬NoGaps s c) :
    (setSize d s c sz).exec m = ((nilThread d sz).exec m).bind fun _ m => .ok (sized s c sz) m := by
  rw [← noGaps_mod sz, NoGaps, not_or] at h
  unfold setSize sized
  dsimp only
  rw [if_pos h.1, if_pos h.1, exec_updateThreads, if_neg fun hall => h.2 fun i => hall i (List.mem_finRange i)]

theorem setSize_ok {s'} (h : (setSize d s c sz).exec m = .ok s' m') : s' = sized s c sz := by
  by_cases hg : NoGaps s c
  · rw [exec_setSize hg] at h; cases h; rfl
  rw [exec_setSize_gap hg] at h
  obtain ⟨_, _, -, h⟩ := Res.bind_eq_ok.mp h
  cases h
  rfl

theorem sized_sz : ((sized s c sz).proc c).sz = sz := by
  unfold sized resized
  dsimp only
  split
  · dsimp only
    split <;> simp [mod]
  · simp [mod]

/-! ## Growing -/

variable (h : (resize (s.proc c).sz n d).exec m = .ok (r, d') m')

include h

theorem exec_growproc (hr : n ≠ 0 ∧ r = 0) : (growproc s c n d).exec m = .ok (-1, s, d') m' := by
  rw [growproc, exec_bind, h]
  simp [hr.1, hr.2]

theorem exec_growproc_done (hr : ¬(n ≠ 0 ∧ r = 0)) :
    (growproc s c n d).exec m = ((setSize d' s c r).exec m').bind fun s' m'' => .ok (0, s', d') m'' := by
  rw [growproc, exec_bind, h]
  simp only [Res.ok_bind]
  rw [if_neg hr, exec_bind]
  rfl

theorem allOrNothing_iff (hr : ¬(n ≠ 0 ∧ r = 0)) : AllOrNothing s c n d m ↔
    ∃ m'', (setSize d' s c r).exec m' = .ok (sized s c r) m'' ∧ Done n (s.proc c).sz d m r d' m'' := by
  have he := exec_growproc_done h hr
  constructor
  · rintro ⟨v, s', d'', m'', hv, hcase⟩
    rw [he, Res.bind_eq_ok] at hv
    obtain ⟨s1, m1, hset, hv⟩ := hv
    obtain rfl := setSize_ok hset
    cases hv
    rcases hcase with ⟨-, hdone⟩ | ⟨h0, -⟩
    · rw [sized_sz] at hdone; exact ⟨_, hset, hdone⟩
    · cases h0
  · rintro ⟨m'', hset, hdone⟩
    rw [hset] at he
    refine ⟨0, sized s c r, d', m'', he, .inl ⟨rfl, ?_⟩⟩
    rw [sized_sz]
    exact hdone

theorem allOrNothing_of_untouched (hr : n ≠ 0 ∧ r = 0) : AllOrNothing s c n d m ↔ Untouched d m d' m' := by
  have he := exec_growproc h hr
  constructor
  · rintro ⟨v, s', d'', m'', hv, hcase⟩
    rw [he] at hv; cases hv
    rcases hcase with ⟨h0, -⟩ | ⟨-, -, hun⟩
    · cases h0
    · exact hun
  · exact fun hun => ⟨-1, s, d', m', he, .inr ⟨rfl, rfl, hun⟩⟩

omit h

/-! ## Gaps -/

theorem done_through_gaps (hw : WellMapped d sz) (hdone : ∀ m'', Done n sz d m r d' m'' → Done n sz d m r d' m') :
    (∃ m'', (setSize d' s c r).exec m' = .ok (sized s c r) m'' ∧ Done n sz d m r d' m'') ↔
      Done n sz d m r d' m' ∧ (NoGaps s c ∨ NilFits d' m' r) := by
  by_cases hg : NoGaps s c
  · simp only [exec_setSize hg, hg, true_or, and_true]
    exact ⟨fun ⟨_, he, hd⟩ => by cases he; exact hd, fun hd => ⟨m', rfl, hd⟩⟩
  simp only [exec_setSize_gap hg, hg, false_or, nilThread, exec_act]
  constructor
  · rintro ⟨m'', he, hd⟩
    have hd' := hdone m'' hd
    refine ⟨hd', ?_⟩
    split at he
    · cases he
    next x hx =>
    split at he
    · next h12 => exact ⟨x, hx, .inl h12⟩
    next h12 =>
    split at he <;> cases he
    next hwrite =>
    refine ⟨x, hx, .inr ⟨hwrite, fun i hi => ?_⟩⟩
    have hin : 0 * 4096 < r.toNat := (hd.mapped.present 0 (by simp only [userpages]; omega)).mp (by simp [hx])
    rcases Nat.eq_zero_or_pos sz.toNat with h0 | hpos
    · rw [hd'.zero 0 x (by omega) hin hx] at h12; exact absurd rfl h12
    have hsome := (hw.present 0 (by simp only [userpages]; omega)).mpr (by omega)
    obtain ⟨y, hy⟩ := isSome_iff_exists.mp hsome
    obtain ⟨hxy, hpage⟩ := hd.kept 0 y (by omega) hin hy
    cases hx.symm.trans hxy
    rw [(hd'.kept 0 x (by omega) hin hy).2, ← hpage]
    simp [Kmem.write, hi]
  · rintro ⟨hd, x, hx, hfits⟩
    refine ⟨m', ?_, hd⟩
    rw [hx]
    dsimp only
    split
    · rfl
    next h12 =>
    obtain ⟨hwrite, hword⟩ := hfits.resolve_left h12
    have hsame : (fun i => if i < 4 then byteAt r.toNat i else m'.page x.frame i) = m'.page x.frame := by
      funext i
      split
      · next hi => rw [hword i hi]
      · rfl
    rw [if_pos hwrite, hsame, Kmem.write, update_eq_self]
    rfl

theorem Done.nilFits_iff (hd : Done n sz d m r d' m') (hw : WellMapped d sz) (hr : 0 < r.toNat) :
    NilFits d' m' r ↔ sz = 0 ∨ NilFits d m r := by
  have hfirst : 0 < userpages := by simp only [userpages]; omega
  by_cases h0 : sz = 0
  · obtain ⟨x, hx⟩ := isSome_iff_exists.mp ((hd.mapped.present 0 hfirst).mpr (by omega))
    refine iff_of_true ⟨x, hx, .inl ?_⟩ (.inl h0)
    rw [hd.zero 0 x (by rw [h0]; exact Nat.zero_le _) (by omega) hx]
    rfl
  · have hpos : 0 < sz.toNat := Nat.pos_of_ne_zero fun h => h0 (UInt32.toNat_inj.mp h)
    obtain ⟨x, hx⟩ := isSome_iff_exists.mp ((hw.present 0 hfirst).mpr (by omega))
    obtain ⟨hx', hpage⟩ := hd.kept 0 x (by omega) (by omega) hx
    simp only [NilFits, hx, hx', some.injEq, exists_eq_left', hpage, h0, false_or]

theorem toNat_plus (sz : UInt32) (n : Int) : ((plus sz n).toNat : Int) = (sz.toNat + n) % 4294967296 := by
  simp only [plus, UInt32.toNat_add, UInt32.toNat_ofNat', Nat.reducePow]; omega

theorem WellMapped.ended (h : WellMapped d sz) : Ended d (top sz) where
  clear q h1 h2 := by
    have hq := h.present q h2
    rw [← not_isSome_iff_eq_none, hq]
    unfold top at h1
    omega
  table := by
    have hsz := h.below
    by_cases h0 : top sz % 4194304 = 0
    · exact .inl h0
    have hlast : (d.pte (top sz / 4096 - 1)).isSome := by
      rw [h.present _ (by simp only [userpages, top]; omega)]
      unfold top at h0 ⊢
      omega
    have hhas : d.Has (top sz / 4096 - 1) := by
      by_contra hno
      simp [Dir.pte_of_not_has hno] at hlast
    exact .inr (hhas.congr (by unfold top at h0 ⊢; omega))

theorem Sound.not_free (h : Sound d m) {q x} (hq : q < userpages) (hx : d.pte q = some x) : x.frame ∉ m.freelist := by
  intro hfree
  have hpages := Dir.mem_pages_of_pte hq hx
  exact Multiset.disjoint_left.mp (Multiset.nodup_add.mp h.once).2.2 (Multiset.mem_coe.mpr hfree) hpages

theorem Sound.inj (h : Sound d m) {p q x y} (hp : p < userpages) (hq : q < userpages) (hx : d.pte p = some x)
    (hy : d.pte q = some y) (hne : p ≠ q) : x.frame ≠ y.frame := by
  intro heq
  have hnodup : d.users.Nodup := by
    have hpages := (Multiset.nodup_add.mp h.once).2.1
    exact (Multiset.nodup_add.mp hpages).2.1
  have hcount := Multiset.nodup_iff_count_le_one.mp hnodup x.frame
  unfold Dir.users at hcount
  rw [Multiset.count_sum', ← add_sum_erase _ _ (mem_range.mpr hp),
    ← add_sum_erase _ _ (mem_erase.mpr ⟨hne.symm, mem_range.mpr hq⟩)] at hcount
  simp only [hx, hy, elim_some, heq, Multiset.count_singleton_self] at hcount
  omega

theorem exec_deallocuvm (newsz : UInt32) (hsz : sz.toNat ≤ 2147483648) (hlt : newsz.toNat < sz.toNat)
    (hf : Freeable d m (top newsz) sz.toNat) :
    ∃ d' m', (deallocuvm d sz newsz).exec m = .ok (newsz, d') m' ∧ Cut d m (top newsz) sz.toNat d' m' := by
  have hloop : Meets (fun _ => True) (fun _ => False) _
    (deallocuvmFrom sz.toNat (sz.toNat / 4096 + 1) d (top newsz)) m :=
    meets_deallocuvmFrom hsz (by unfold top; omega) (by omega) (.inr hf)
  obtain ⟨hends, hcut⟩ := hloop fun _ _ => trivial
  obtain ⟨d', m', he⟩ := hends.ok
  refine ⟨d', m', ?_, hcut d' m' he⟩
  rw [deallocuvm, if_neg (by rw [UInt32.le_iff_toNat_le]; omega), toNat_pgroundup (by omega), exec_bind, he]
  rfl

theorem exec_deallocuvm_le {newsz} (hle : sz.toNat ≤ newsz.toNat) : (deallocuvm d sz newsz).exec m = .ok (sz, d) m := by
  rw [deallocuvm, if_pos (UInt32.le_iff_toNat_le.mpr hle)]
  rfl

theorem Untouched.refl (d : Dir) (m : Kmem) : Untouched d m d m := ⟨fun _ _ => rfl, fun _ _ _ _ => rfl⟩

theorem Sound.restored (h : Sound d m) (hr : Restored d m d' m') : Untouched d m d' m' :=
  ⟨hr.pte, fun _ hq _ hx => hr.kept _ (h.not_free hq hx)⟩

theorem Sound.freeable (h : Sound d m) (hsz : sz.toNat ≤ 2147483648) (a : Nat) : Freeable d m a sz.toNat :=
  fun q x _ h2 hx => h.frames q (by simp only [userpages]; omega) x hx

theorem WellMapped.grown {sz' t} (hw : WellMapped d sz) (hm : Sound d m)
    (hlt : sz.toNat < sz'.toNat) (hnew : sz'.toNat ≤ 2147483648) (hn : (sz'.toNat : Int) = sz.toNat + n)
    (h : Extended d m (top sz) (top sz') t d' m') : (WellMapped d' sz' → .kalloc .table none ∉ t) ∧
      (.kalloc .table none ∉ t → Done n sz d m sz' d' m') := by
  rw [h.hole]
  constructor
  · rintro hmapped ⟨q, h1, h2, hq⟩
    unfold top at h1 h2
    have hpresent := hmapped.present q (by simp only [userpages]; omega)
    rw [hq] at hpresent
    simp at hpresent
    omega
  intro hole
  refine ⟨hn, ⟨hnew, fun q hq => ?_⟩, fun q x h1 _ hx => ?_, fun q x h1 h2 hx => ?_⟩
  · by_cases hin : top sz ≤ q * 4096 ∧ q * 4096 < top sz'
    · have hsome : (d'.pte q).isSome := by
        by_contra hno
        exact hole ⟨q, hin.1, hin.2, by simpa using hno⟩
      unfold top at hin
      simp only [hsome, true_iff]
      omega
    · rw [h.outside q (by omega), hw.present q hq]; unfold top at hin; omega
  · have hq : q < userpages := by have := hw.below; simp only [userpages]; omega
    rw [h.outside q (by unfold top; omega), h.kept _ (hm.not_free hq hx)]
    exact ⟨hx, rfl⟩
  · exact h.zero q x (by unfold top; omega) (by unfold top; omega) hx

theorem WellMapped.shrunk {sz'} (hw : WellMapped d sz) (hm : Sound d m) (hlt : sz'.toNat < sz.toNat)
    (hn : (sz'.toNat : Int) = sz.toNat + n) (h : Cut d m (top sz') sz.toNat d' m') : Done n sz d m sz' d' m' := by
  have hsz := hw.below
  have htable : top sz' % 4194304 = 0 ∨ d.Has (top sz' / 4096) := by
    by_cases htop : top sz' < sz.toNat
    · have hpage : top sz' / 4096 * 4096 = top sz' := by unfold top; omega
      have hsome := hw.present (top sz' / 4096) (by simp only [userpages]; omega)
      rw [hpage, iff_true_intro htop, iff_true] at hsome
      refine .inr ?_
      by_contra hno
      simp [Dir.pte_of_not_has hno] at hsome
    · have heq : top sz' = top sz := by unfold top at htop ⊢; omega
      rw [heq]
      exact hw.ended.table
  refine ⟨hn, ⟨by omega, fun q hq => ?_⟩, fun q x h1 h2 hx => ?_, fun q x h1 h2 => by omega⟩
  · by_cases hin : top sz' ≤ q * 4096 ∧ q * 4096 < sz.toNat
    · rw [h.clear htable q hin.1 hin.2]
      unfold top at hin
      simp
      omega
    · rw [h.outside q (by omega), hw.present q hq]; unfold top at hin; omega
  have hq : q < userpages := by simp only [userpages]; omega
  rw [h.outside q (.inl (by unfold top; omega)), h.page _ fun p y h3 h4 hy => ?_]
  · exact ⟨hx, rfl⟩
  refine hm.inj (by simp only [userpages]; omega) hq hy hx ?_
  unfold top at h3
  omega

variable (hw : WellMapped d (s.proc c).sz)

include hw

theorem allOrNothing_grow (hm : Sound d m) (hpos : 0 < n) (hhi : n < 2147483648) :
    AllOrNothing s c n d m ↔ 2147483648 ≤ ((s.proc c).sz.toNat : Int) + n ∨
      .kalloc .page none ∈ (allocuvm d (s.proc c).sz (plus (s.proc c).sz n)).trace m ∨
      .kalloc .table none ∉ (allocuvm d (s.proc c).sz (plus (s.proc c).sz n)).trace m ∧
        (NoGaps s c ∨ (s.proc c).sz = 0 ∨ NilFits d m (plus (s.proc c).sz n)) := by
  have hsz := hw.below
  have hplus := toNat_plus (s.proc c).sz n
  have hresize : resize (s.proc c).sz n d = allocuvm d (s.proc c).sz (plus (s.proc c).sz n) := if_pos hpos
  by_cases hbig : 2147483648 ≤ ((s.proc c).sz.toNat : Int) + n
  · have he : (resize (s.proc c).sz n d).exec m = .ok (0, d) m := by
      have hbase := toNat_kernbase
      rw [hresize, allocuvm, if_pos (by rw [UInt32.le_iff_toNat_le]; omega)]
      rfl
    simp only [allOrNothing_of_untouched he ⟨hpos.ne', rfl⟩, Untouched.refl, hbig, true_or]
  have hspec := meets_allocuvm_any (F := fun _ => True) d m (s.proc c).sz (plus (s.proc c).sz n) (by omega)
    (by omega) hw.ended
  obtain ⟨hends, hpost⟩ := hspec fun _ _ => trivial
  obtain ⟨⟨r, d'⟩, m', he⟩ := hends.ok
  rcases hpost _ _ he with ⟨hr, hext⟩ | ⟨hr, hmem, hres⟩
  · have hr : r = plus (s.proc c).sz n := hr
    have hr0 : r ≠ 0 := fun h0 => by
      rw [← hr, h0, UInt32.toNat_zero] at hplus
      omega
    obtain ⟨hmapped, hdone⟩ := hw.grown (n := n) hm (by omega) (by omega) (by omega) hext
    rw [allOrNothing_iff (hresize ▸ he) fun h => hr0 h.2, hr,
      done_through_gaps hw fun m'' hd => hdone (hmapped hd.mapped)]
    simp only [hbig, hext.granted, false_or]
    constructor
    · rintro ⟨hd, hgaps⟩; rw [hd.nilFits_iff hw (by omega)] at hgaps; exact ⟨hmapped hd.mapped, hgaps⟩
    · rintro ⟨ht, hgaps⟩; rw [← (hdone ht).nilFits_iff hw (by omega)] at hgaps; exact ⟨hdone ht, hgaps⟩
  · rw [allOrNothing_of_untouched (hresize ▸ he) ⟨hpos.ne', hr⟩]
    simp only [hm.restored hres, hmem, true_or, or_true]

theorem allOrNothing_shrink (hm : Sound d m) (hneg : n < 0) (hlo : -2147483648 ≤ n) :
    AllOrNothing s c n d m ↔ (s.proc c).sz = 0 ∨ 0 < ((s.proc c).sz.toNat : Int) + n ∧
      (NoGaps s c ∨ NilFits d m (plus (s.proc c).sz n)) := by
  have hsz := hw.below
  have hplus := toNat_plus (s.proc c).sz n
  have hresize : resize (s.proc c).sz n d = deallocuvm d (s.proc c).sz (plus (s.proc c).sz n) := by
    rw [resize, if_neg (by omega), if_pos hneg]
  have hzero : (s.proc c).sz = 0 ↔ (s.proc c).sz.toNat = 0 := by rw [← UInt32.toNat_inj]; rfl
  by_cases hwrap : ((s.proc c).sz.toNat : Int) + n < 0
  · -- the sum is taken for a larger size
    have he : (resize (s.proc c).sz n d).exec m = .ok ((s.proc c).sz, d) m := by
      rw [hresize, exec_deallocuvm_le (by omega)]
    by_cases h0 : (s.proc c).sz = 0
    · simp only [allOrNothing_of_untouched he ⟨hneg.ne, h0⟩, Untouched.refl, h0, true_or]
    rw [allOrNothing_iff he fun h => h0 h.2]
    simp only [h0, false_or]
    exact ⟨fun ⟨_, _, hd⟩ => absurd hd.size (by omega), fun h => absurd h.1 (by omega)⟩
  · obtain ⟨d', m', he, hcut⟩ := exec_deallocuvm (plus (s.proc c).sz n) hsz (by omega)
      (hm.freeable (d := d) hsz (top (plus (s.proc c).sz n)))
    rw [← hresize] at he
    have h0 : (s.proc c).sz ≠ 0 := fun h0 => by
      rw [hzero] at h0
      omega
    by_cases hall : ((s.proc c).sz.toNat : Int) + n = 0
    · have hnew : (plus (s.proc c).sz n).toNat = 0 := by omega
      rw [allOrNothing_of_untouched he ⟨hneg.ne, UInt32.toNat_inj.mp hnew⟩]
      simp only [h0, hall, lt_irrefl, false_and, or_false, iff_false]
      intro hun
      have hpos : 0 < (s.proc c).sz.toNat := by omega
      have htop : top (plus (s.proc c).sz n) = 0 := by unfold top; omega
      have hfirst : 0 < userpages := by simp only [userpages]; omega
      have hgone : d'.pte 0 = none := by
        rw [htop] at hcut
        exact hcut.clear (.inl rfl) 0 (Nat.zero_le _) hpos
      have hpage := hw.present 0 hfirst
      rw [← hun.pte 0 hfirst, hgone] at hpage
      simp only [isSome_none, Bool.false_eq_true, false_iff] at hpage
      exact hpage hpos
    · have hr0 : plus (s.proc c).sz n ≠ 0 := fun h => by
        rw [h] at hplus
        simp at hplus
        omega
      have hd := hw.shrunk (n := n) hm (by omega) (by omega) hcut
      rw [allOrNothing_iff he fun h => hr0 h.2, done_through_gaps hw fun _ _ => hd, hd.nilFits_iff hw (by omega)]
      simp only [hd, h0, false_or, true_and]
      exact ⟨fun h => ⟨by omega, h⟩, fun h => h.2⟩

theorem allOrNothing_zero : AllOrNothing s c 0 d m ↔ NoGaps s c ∨ NilFits d m (s.proc c).sz := by
  have he : (resize (s.proc c).sz 0 d).exec m = .ok ((s.proc c).sz, d) m := rfl
  have hdone : Done 0 (s.proc c).sz d m (s.proc c).sz d m :=
    ⟨by omega, hw, fun _ _ _ _ hx => ⟨hx, rfl⟩, fun q x h1 h2 => by omega⟩
  rw [allOrNothing_iff he (by simp), done_through_gaps hw fun _ _ => hdone]
  simp [hdone]

omit hw

def onePage : Dir := ((⟨999, fun _ => none⟩ : Dir).addTable 0 998).setPte 0 (some ⟨997, true, true⟩)

theorem twoFree_inside : ∀ f ∈ [1000, 1001], 512 ≤ f ∧ f < pageOf phystop := by decide

def twoFree : Kmem := ⟨512, [1000, 1001], fun _ => false, 0, fun _ => zeroPage, kend_pos, twoFree_inside⟩

theorem onePage_pte : onePage.pte = Function.update (fun _ => none) 0 (some ⟨997, true, true⟩) := by
  rw [onePage, Dir.pte_setPte (Dir.has_addTable.mpr (.inl rfl)), Dir.pte_addTable (by simp [Dir.Has])]
  rfl

theorem onePage_mapped : WellMapped onePage 4096 where
  below := by decide
  present q _ := by
    rw [onePage_pte]
    by_cases hq : q = 0
    · simp [hq]
    · simp only [update_of_ne hq, isSome_none, UInt32.reduceToNat, Bool.false_eq_true, false_iff]
      omega

theorem onePage_sound : Sound onePage twoFree where
  once := by
    have hempty : ¬(⟨999, fun _ => none⟩ : Dir).Has 0 := by simp [Dir.Has]
    have hfirst : 0 < userpages := by simp only [userpages]; omega
    rw [onePage, pages_setPte (Dir.has_addTable.mpr (.inl rfl)) hfirst (by rw [Dir.pte_addTable hempty]; rfl),
      pages_addTable hempty hfirst, Dir.pages_empty]
    decide
  frames q _ x hx := by
    rw [onePage_pte] at hx
    by_cases hq : q = 0
    · rw [hq, update_self] at hx; cases hx; decide
    · rw [update_of_ne hq] at hx; cases hx

/-- `sbrk` is all-or-nothing exactly when it fits. -/
theorem growproc_all_or_nothing (hw : WellMapped d (s.proc c).sz) (hm : Sound d m) (hlo : -2147483648 ≤ n)
    (hhi : n < 2147483648) : AllOrNothing s c n d m ↔ Fits s c n d m := by
  rcases lt_trichotomy n 0 with hneg | rfl | hpos
  · rw [allOrNothing_shrink hw hm hneg hlo]; simp [Fits, hneg, hneg.ne, not_lt.mpr hneg.le]
  · rw [allOrNothing_zero hw]; simp [Fits]
  · rw [allOrNothing_grow hw hm hpos hhi]; simp [Fits, hpos, hpos.ne', not_lt.mpr hpos.le]

theorem growproc_one_page : WellMapped onePage ((boot true true false).proc 1).sz ∧ Sound onePage twoFree ∧
    Fits (boot true true false) 1 4096 onePage twoFree ∧
      AllOrNothing (boot true true false) 1 4096 onePage twoFree := by
  have hfits : Fits (boot true true false) 1 4096 onePage twoFree :=
    .inr (.inl ⟨by decide, .inr (.inr ⟨by decide +kernel, .inl (.inl rfl)⟩)⟩)
  exact ⟨onePage_mapped, onePage_sound, hfits,
    (growproc_all_or_nothing onePage_mapped onePage_sound (by decide) (by decide)).mpr hfits⟩

/-- A process that gives up its whole image loses it, and is told that nothing has happened. -/
theorem growproc_loses_image : WellMapped onePage ((boot true true false).proc 1).sz ∧ Sound onePage twoFree ∧
    (∃ s' d' m', (growproc (boot true true false) 1 (-4096) onePage).exec twoFree = .ok (-1, s', d') m' ∧
      d'.pte 0 = none ∧ onePage.pte 0 ≠ none) ∧ ¬AllOrNothing (boot true true false) 1 (-4096) onePage twoFree := by
  refine ⟨onePage_mapped, onePage_sound, ⟨_, _, _, rfl, rfl, by simp [onePage_pte]⟩, ?_⟩
  rw [allOrNothing_shrink onePage_mapped onePage_sound (by decide) (by decide)]
  rintro (h | ⟨h, -⟩)
  · exact absurd h (by decide)
  · exact absurd h (by decide)

end Xv6Vsd.Tasks
