import Xv6Vsd.Lib.Run
import Xv6Vsd.Paging.Lemmas.Setup

/-!
# Conservation of physical pages

The address spaces of the kernel with the sizes of their processes, and the calls that `fork`,
`exec`, `growproc` and `wait` make on them.
-/

namespace Xv6Vsd.Paging

open Prog List Function

structure Space where
  dir : Dir
  sz : UInt32

structure Machine where
  mem : Kmem
  spaces : List Space

inductive Call where
  | setupkvm
  | allocuvm (i : Nat) (newsz : UInt32)
  | deallocuvm (i : Nat) (newsz : UInt32)
  | copyuvm (i : Nat)
  | freevm (i : Nat)

def Space.resize (x : Space) (r : UInt32 × Dir) : Space := ⟨r.2, if r.1 = 0 then x.sz else r.1⟩

/-- A call names its space by the place in the list. -/
def onSpace (spaces : List Space) (i : Nat) (f : Space → V (Bool × List Space)) : V (Bool × List Space) :=
  match spaces[i]? with
  | none => pure (true, spaces)
  | some x => f x

def Call.run (l : Link) (spaces : List Space) : Call → V (Bool × List Space)
  | .setupkvm => do
    match ← Paging.setupkvm l with
    | none => pure (false, spaces)
    | some d => pure (true, ⟨d, 0⟩ :: spaces)
  | .allocuvm i newsz => onSpace spaces i fun x => do
    let r ← Paging.allocuvm x.dir x.sz newsz
    pure (r.1 != 0, spaces.set i (x.resize r))
  | .deallocuvm i newsz => onSpace spaces i fun x => do
    let r ← Paging.deallocuvm x.dir x.sz newsz
    pure (r.1 != 0, spaces.set i (x.resize r))
  | .copyuvm i => onSpace spaces i fun x => do
    match ← Paging.copyuvm l x.dir x.sz with
    | none => pure (false, spaces)
    | some d => pure (true, ⟨d, x.sz⟩ :: spaces)
  | .freevm i => onSpace spaces i fun x => do
    Paging.freevm x.dir
    pure (true, spaces.eraseIdx i)

/-- A call returns `b` and leaves `M'`. -/
def Step (l : Link) (M : Machine) (c : Call) (b : Bool) (M' : Machine) : Prop :=
  (c.run l M.spaces).exec M.mem = .ok (b, M'.spaces) M'.mem

def Machine.call (l : Link) (M : Machine) (c : Call) : Option Machine :=
  match (c.run l M.spaces).exec M.mem with
  | .ok (_, spaces) m => some ⟨m, spaces⟩
  | _ => none

theorem Machine.call_eq_some {l M c M'} (h : Machine.call l M c = some M') : ∃ b, Step l M c b M' := by
  unfold call at h
  split at h
  · next b _ _ heq => cases h; exact ⟨b, heq⟩
  · cases h

def Machine.pages (M : Machine) : Multiset Nat := M.mem.freelist + (M.spaces.map fun x => x.dir.pages).sum

def Machine.places (M : Machine) (f : Nat) : Nat :=
  M.mem.freelist.count f + (M.spaces.map fun x => x.dir.pages.count f).sum

abbrev Machine.Below (M : Machine) : Prop := ∀ x ∈ M.spaces, x.sz.toNat < kernbase.toNat

structure Machine.Sound (M : Machine) : Prop where
  once : ∀ f, M.places f ≤ 1
  sizes : M.Below

/-- No page is refused to a page table, and a call of `allocuvm` that is refused a page has not taken one for a
table. -/
structure Tame (l : Link) (M : Machine) (c : Call) : Prop where
  granted : ∀ e ∈ (c.run l M.spaces).trace M.mem, Granted e
  growth : ∀ i newsz, c = .allocuvm i newsz → .kalloc .page none ∈ (c.run l M.spaces).trace M.mem →
    ¬ TookTable ((c.run l M.spaces).trace M.mem)

/-! ## One call -/

theorem sum_map_eraseIdx {α M : Type} [AddCommMonoid M] (g : α → M) {xs : List α} {i : Nat} {x : α}
    (h : xs[i]? = some x) : ((xs.eraseIdx i).map g).sum + g x = (xs.map g).sum := by
  induction xs generalizing i with
  | nil => simp at h
  | cons z xs ih =>
    cases i with
    | zero => cases h; simp [add_comm]
    | succ i =>
      rw [getElem?_cons_succ] at h
      simp only [eraseIdx_cons_succ, map_cons, sum_cons, add_assoc, ih h]

theorem sum_map_set {α M : Type} [AddCommMonoid M] (g : α → M) {xs : List α} {i : Nat} {x : α} (y : α)
    (h : xs[i]? = some x) : ((xs.set i y).map g).sum + g x = (xs.map g).sum + g y := by
  obtain ⟨hi, -⟩ := List.getElem?_eq_some_iff.mp h
  rw [← sum_map_eraseIdx g h, ← sum_map_eraseIdx g (getElem?_set_self hi), eraseIdx_set_eq]
  ac_rfl

structure Kept (M : Machine) (b : Bool) (M' : Machine) : Prop where
  pages : M'.pages = M.pages
  sizes : M'.Below
  returned : b = false → (M.mem.freelist : Multiset Nat) ≤ M'.mem.freelist

namespace Kept

variable {M : Machine} {m' : Kmem} {i : Nat} {x : Space} {r : UInt32 × Dir} {t : List Ev}

variable (hs : M.Below)

include hs

theorem refl (b : Bool) : Kept M b M := ⟨rfl, hs, fun _ => le_rfl⟩

theorem resize (hx : M.spaces[i]? = some x) (hmoved : Moved x.dir M.mem t r.2 m') (hsz : r.1.toNat < kernbase.toNat)
    (hle : r.1 = 0 → r.2.pages ≤ x.dir.pages) : Kept M (r.1 != 0) ⟨m', M.spaces.set i (x.resize r)⟩ where
  pages := by
    have hset := sum_map_set (fun y => y.dir.pages) (x.resize r) hx
    ext c
    have hc := congrArg (Multiset.count c) hset
    have hm := congrArg (Multiset.count c) hmoved.pages
    simp only [Machine.pages, Multiset.count_add, Space.resize] at hc hm ⊢
    omega
  sizes := fun y hy => by
    rcases mem_or_eq_of_mem_set hy with hy | rfl
    · exact hs y hy
    unfold Space.resize
    split
    · exact hs x (mem_of_getElem? hx)
    · exact hsz
  returned := fun hb => by
    have h0 : r.1 = 0 := by simpa using hb
    rw [Multiset.le_iff_count]
    intro c
    have hc := congrArg (Multiset.count c) hmoved.pages
    have hle' := Multiset.count_le_of_le c (hle h0)
    simp only [Multiset.count_add] at hc ⊢
    omega

theorem unchanged (hx : M.spaces[i]? = some x) (hd : r.2 = x.dir)
    (hsz : r.1.toNat < kernbase.toNat) : Kept M (r.1 != 0) ⟨M.mem, M.spaces.set i (x.resize r)⟩ := by
  have hmoved : Moved x.dir M.mem [] r.2 M.mem := by rw [hd]; exact Moved.refl _ _
  exact resize hs hx hmoved hsz fun _ => (congrArg Dir.pages hd).le

theorem built {o} (hb : Built M.mem o m') {sz} (hsz : sz.toNat < kernbase.toNat) :
    Kept M o.isSome ⟨m', (o.map fun d => ⟨d, sz⟩).toList ++ M.spaces⟩ where
  pages := by
    cases o with
    | none => simpa [Machine.pages] using hb.pages
    | some d =>
      have hp := hb.pages
      simp only [Option.elim_some] at hp
      simp [Machine.pages, ← hp, add_assoc]
  sizes := fun y hy => by
    rcases mem_append.mp hy with hy | hy
    · cases o with
      | none => cases hy
      | some d =>
        simp only [Option.map_some, Option.toList_some, mem_singleton] at hy
        rw [hy]
        exact hsz
    · exact hs y hy
  returned := fun h => by
    cases o with
    | none => simpa using hb.pages.ge
    | some d => cases h

end Kept

theorem meets_onSpace {M} {F : Ev → Prop} {A : List Ev → Prop} {i f} (hs : M.Below)
    (h : ∀ x, M.spaces[i]? = some x → x.sz.toNat < kernbase.toNat →
      Meets F (fun _ => True) (fun t r m' => A t → Kept M r.1 ⟨m', r.2⟩) (f x) M.mem) :
    Meets F (fun _ => True) (fun t r m' => A t → Kept M r.1 ⟨m', r.2⟩) (onSpace M.spaces i f) M.mem := by
  unfold onSpace
  split
  · exact meets_pure fun _ => Kept.refl hs _
  · next x hx => exact h x hx (hs x (mem_of_getElem? hx))

theorem meets_call {l : Link} {M : Machine} (c : Call) (hs : M.Below) :
    Meets Granted (fun _ => True) (fun t r m' =>
      (∀ i newsz, c = .allocuvm i newsz → .kalloc .page none ∈ t → ¬ TookTable t) → Kept M r.1 ⟨m', r.2⟩)
      (c.run l M.spaces) M.mem := by
  cases c with
  | setupkvm =>
    refine (meets_setupkvm fun _ h => h).bind ?_
    rintro t o m' ⟨hb, -⟩
    have hkept := Kept.built hs hb (show (0 : UInt32).toNat < kernbase.toNat by decide)
    cases o with
    | none | some d => exact meets_pure fun _ => hkept
  | allocuvm i newsz =>
    refine meets_onSpace hs fun x hx hsz => ?_
    refine (meets_allocuvm (fun _ h => h) (.inl fun _ => trivial)).bind ?_
    rintro t r m' hr
    refine meets_pure fun htame => ?_
    rcases hr with ⟨-, h0, hd, hm⟩ | ⟨-, h0, hd, hm⟩ | ⟨-, hne, hlt, ⟨h0, hgrown⟩ | ⟨h0, href⟩⟩
    · rw [hm]; exact Kept.unchanged hs hx hd (by rw [h0]; decide)
    · rw [hm]; exact Kept.unchanged hs hx hd (by rw [h0]; exact hsz)
    · exact Kept.resize hs hx hgrown.moved (by rw [h0]; exact hlt) fun h => absurd (h0.symm.trans h) hne
    refine Kept.resize hs hx href.moved (by rw [h0]; decide) fun _ => ?_
    have hno : ¬ TookTable t := by simpa using htame i newsz rfl (by simpa using href.refused)
    exact Dir.pages_le href.moved.frame (href.moved.same.resolve_left hno) href.pte
  | deallocuvm i newsz =>
    refine meets_onSpace hs fun x hx hsz => ?_
    refine (meets_deallocuvm hsz.le (.inl fun _ => trivial)).bind ?_
    rintro t r m' ⟨hle, hcut⟩
    refine meets_pure fun _ => Kept.resize hs hx (hcut.moved t) ?_ fun _ => ?_
    · exact Nat.lt_of_le_of_lt (UInt32.le_iff_toNat_le.mp hle) hsz
    · exact Dir.pages_le hcut.frame (Dir.tables_congr hcut.tables) hcut.pte
  | copyuvm i =>
    refine meets_onSpace hs fun x hx hsz => ?_
    refine (meets_copyuvm (fun _ h => h) (fun _ => trivial) hsz.le).bind ?_
    rintro t o m' hb
    have hkept := Kept.built hs hb hsz
    cases o with
    | none | some d => exact meets_pure fun _ => hkept
  | freevm i =>
    refine meets_onSpace hs fun x hx hsz => ?_
    refine (meets_freevm fun _ => trivial).bind ?_
    rintro t _ m' ⟨-, hm'⟩
    refine meets_pure fun _ => ⟨?_, fun y hy => hs y (mem_of_mem_eraseIdx hy), fun h => by cases h⟩
    simp only [Machine.pages, hm']
    rw [← sum_map_eraseIdx (fun y => y.dir.pages) hx, add_assoc, add_comm x.dir.pages]

theorem Step.kept {l M M' c b} (h : Step l M c b M') (ht : Tame l M c)
    (hs : M.Below) : Kept M b M' :=
  ((meets_call c hs) ht.granted).2 _ _ h ht.growth

theorem run_kept {l M0 M} (h : Run (Machine.call l) (Tame l) M0 M) (hs : M0.Below) : M.pages = M0.pages ∧ M.Below := by
  refine h.invariant (P := fun M => M.pages = M0.pages ∧ M.Below) ⟨rfl, hs⟩ fun M c M' ⟨hpages, hbelow⟩ hok ha => ?_
  obtain ⟨b, hstep⟩ := Machine.call_eq_some ha
  have hkept := hstep.kept hok hbelow
  exact ⟨hkept.pages.trans hpages, hkept.sizes⟩

theorem Machine.places_eq (M : Machine) (f : Nat) : M.places f = M.pages.count f := by
  rw [pages, Multiset.count_add, Multiset.coe_count, places, ← Multiset.coe_countAddMonoidHom, map_list_sum, map_map]
  rfl

/-! ## Whole runs -/

/-- In runs in which no page table is refused, and no page to `allocuvm` after it has taken a table:
no page is lost or in two places, and a call that fails returns every page it took. -/
theorem pages_conserved {l : Link} {M0 M : Machine} (h₀ : M0.Sound) (h : Run (Machine.call l) (Tame l) M0 M) :
    (∀ f, M.places f = M0.places f ∧ M.places f ≤ 1) ∧
    (M.spaces.Perm M0.spaces → M.mem.freelist.Perm M0.mem.freelist) ∧
    ∀ c M', Tame l M c → Step l M c false M' → ∀ f ∈ M.mem.freelist, f ∈ M'.mem.freelist := by
  obtain ⟨hpages, hsizes⟩ := run_kept h h₀.sizes
  refine ⟨fun f => ?_, fun hperm => ?_, fun c M' ht hstep f hf => ?_⟩
  · have heq : M.places f = M0.places f := by rw [M.places_eq, M0.places_eq, hpages]
    exact ⟨heq, heq ▸ h₀.once f⟩
  · have hsum := (hperm.map fun x => x.dir.pages).sum_eq
    rw [Machine.pages, Machine.pages, hsum] at hpages
    exact Multiset.coe_eq_coe.mp (add_right_cancel hpages)
  · exact Multiset.mem_of_le ((hstep.kept ht hsizes).returned rfl) hf

def threePages : Kmem := ⟨512, [1000, 1001, 1002], fun _ => false, 0, fun _ => zeroPage, kend_pos, by decide⟩

def newProcess : Machine := ⟨threePages, [⟨⟨999, fun _ => none⟩, 0⟩]⟩

def grownProcess : Machine :=
  ⟨⟨512, [1002], fun _ => false, 2, update (update (fun _ => zeroPage) 1000 zeroPage) 1001 zeroPage, kend_pos,
    by decide⟩,
    [⟨((⟨999, fun _ => none⟩ : Dir).addTable 0 1001).setPte 0 (some ⟨1000, true, true⟩), 4096⟩]⟩

theorem newProcess_sound : newProcess.Sound := by
  constructor
  · intro f
    have hplaces : newProcess.places f = ([999] ++ threePages.freelist).count f := by
      rw [Machine.places, newProcess, count_append, ← Multiset.coe_count, ← Multiset.coe_count, add_comm]
      simp only [map_cons, map_nil, sum_cons, sum_nil, Dir.pages_empty, Nat.add_zero, Multiset.coe_singleton]
    rw [hplaces]
    exact nodup_iff_count_le_one.mp (by decide) f
  · decide

theorem grownProcess_run : Run (Machine.call Link.small) (Tame Link.small) newProcess grownProcess := by
  have htrace : ((Call.allocuvm 0 4096).run Link.small newProcess.spaces).trace newProcess.mem =
    [.kalloc .page (some 1000), .kalloc .table (some 1001)] := rfl
  have hcall : Machine.call Link.small newProcess (.allocuvm 0 4096) = some grownProcess := rfl
  refine .step .start ⟨?_, ?_⟩ hcall
  · simp [htrace, Granted]
  · simp [htrace]

theorem pages_conserved_newProcess : newProcess.Sound ∧
    ∀ f, grownProcess.places f = newProcess.places f ∧ grownProcess.places f ≤ 1 :=
  ⟨newProcess_sound, (pages_conserved newProcess_sound grownProcess_run).1⟩

/-- `setupkvm` takes the last free page for the directory and gets none for a table: the page is on
no list and in no directory any more. -/
theorem setupkvm_loses_page : ∃ M M' : Machine, M.Sound ∧ Step Link.small M .setupkvm false M' ∧ M.places 1000 = 1 ∧
    M'.spaces = M.spaces ∧ M'.places 1000 = 0 := by
  refine ⟨⟨⟨512, [1000], fun _ => false, 0, fun _ => zeroPage, kend_pos, by decide⟩, []⟩,
    ⟨⟨512, [], fun _ => false, 2, update (fun _ => zeroPage) 1000 zeroPage, by decide, by decide⟩, []⟩,
    ⟨fun f => ?_, fun _ hx => by cases hx⟩, rfl, rfl, rfl, rfl⟩
  simp only [Machine.places, map_nil, sum_nil, Nat.add_zero]
  exact nodup_iff_count_le_one.mp (by decide) f

end Xv6Vsd.Paging
