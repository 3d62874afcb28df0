import Xv6Vsd.Proc.Grow
import Xv6Vsd.Proc.Lemmas.Base

/-!
# Thread groups

A process and its threads share one page directory, and each of them has a size of its own in its slot. Here any of them
makes
`clone` and `sbrk` calls, one after the other.
-/

namespace Xv6Vsd.Tasks

open Prog Paging State

structure Group where
  tasks : State
  dir : Dir
  mem : Kmem

def Shares (s : State) (k : Nat) (p : Ref) : Prop := (s.proc p).state ≠ .unused ∧ (s.proc p).pgdir = some k

instance (s : State) (k : Nat) (p : Ref) : Decidable (Shares s k p) := inferInstanceAs (Decidable (_ ∧ _))

def clone (s : State) (c : Ref) (stack : UInt32) : State := if s.MayClone c then
    match s.allocproc with
    | none => s
    | some (np, s) =>
      match s.leader c with
      | some par => (s.cloneInto c np stack).addchild par np
      | none => { s with panicked := true }
  else s

inductive Call where
  | clone (c : Ref) (stack : UInt32)
  | sbrk (c : Ref) (n : Int)

def Group.act (k : Nat) (g : Group) : Call → Option Group
  | .clone c stack => if Shares g.tasks k c then some { g with tasks := Tasks.clone g.tasks c stack } else none
  | .sbrk c n =>
    if Shares g.tasks k c ∧ -2147483648 ≤ n ∧ n < 2147483648 then
      match (growproc g.tasks c n g.dir).exec g.mem with
      | .ok (_, s, d) m => some ⟨s, d, m⟩
      | _ => some { g with tasks := { g.tasks with panicked := true } }
    else none

structure SizesAgree (k : Nat) (g : Group) : Prop where
  same : ∀ p q, Shares g.tasks k p → Shares g.tasks k q → (g.tasks.proc p).sz = (g.tasks.proc q).sz
  mapped : ∀ p, Shares g.tasks k p → WellMapped g.dir (g.tasks.proc p).sz

/-- The call fits, and whoever has another size afterwards is in the caller's thread table, which is full: it is `c`
alone, or
nobody because `n` is 0, or `c` with all of its threads. -/
def Coordinated (k : Nat) (g : Group) : Call → Prop
  | .clone _ _ => True
  | .sbrk c n =>
    let x := g.tasks.proc c
    Fits g.tasks c n g.dir g.mem ∧ (x.threadi = 0 ∧ (n = 0 ∨ ∀ p, Shares g.tasks k p → p = c) ∨
        x.threadi ≠ 0 ∧ (∀ p, Shares g.tasks k p → p = c ∨ ∃ i, x.threads i = some p) ∧
          ∀ i, ∃ p, x.threads i = some p ∧ Shares g.tasks k p)

variable {s s' : State} {c np p : Ref} {k : Nat} {n : Int} {d d' : Dir} {m m' : Kmem} {sz : UInt32}

/-! ## `growproc` -/

theorem Sound.of_le (h : Sound d m) (hk : m'.kend = m.kend)
    (hpages : (m'.freelist : Multiset Nat) + d'.pages ≤ m.freelist + d.pages)
    (hpte : ∀ q < userpages, ∀ x, d'.pte q = some x → d.pte q = some x ∨ x.frame ∈ m.freelist) : Sound d' m' where
  once := Multiset.nodup_of_le hpages h.once
  frames q hq x hx := by
    rw [hk]
    rcases hpte q hq x hx with hold | hfree
    · exact h.frames q hq x hold
    · have hin := m.inside x.frame hfree; rwa [pageOf_phystop] at hin

theorem Sound.resize {r} (h : Sound d m) (hw : WellMapped d sz) (hlo : -2147483648 ≤ n) (hhi : n < 2147483648)
    (he : (resize sz n d).exec m = .ok (r, d') m') : Sound d' m' := by
  have hsz := hw.below
  have hplus := toNat_plus sz n
  unfold Tasks.resize at he
  split at he
  · rename_i hpos
    by_cases hbig : 2147483648 ≤ (sz.toNat : Int) + n
    · have hbase := toNat_kernbase
      rw [allocuvm, if_pos (by rw [UInt32.le_iff_toNat_le]; omega)] at he; cases he
      exact h
    have hspec := meets_allocuvm_any (F := fun _ => True) d m sz (plus sz n) (by omega) (by omega) hw.ended
    rcases (hspec fun _ _ => trivial).2 _ _ he with ⟨-, hext⟩ | ⟨-, -, hres⟩
    · refine h.of_le hext.kend hext.pages fun q hq x hx => ?_
      by_cases hin : top sz ≤ q * 4096 ∧ q * 4096 < top (plus sz n)
      · rcases hext.added q hin.1 hin.2 with hnone | ⟨f, hf, hy⟩
        · rw [hnone] at hx; cases hx
        · rw [hy] at hx; cases hx; exact .inr hf
      · rw [hext.outside q (by omega)] at hx; exact .inl hx
    · exact h.of_le hres.kend hres.pages fun q hq x hx => .inl (by rwa [hres.pte q hq] at hx)
  · split at he
    · have hspec : Meets (fun _ => True) (fun _ => False) _ (deallocuvm d sz (plus sz n)) m :=
        meets_deallocuvm hsz (.inr (h.freeable hsz _))
      have hcut := ((hspec fun _ _ => trivial).2 _ _ he).2
      refine h.of_le hcut.kend (hcut.moved []).pages.le fun q hq x hx => .inl ?_
      rcases hcut.pte q with hsame | hnone
      · rwa [hsame] at hx
      · rw [hnone] at hx; cases hx
    · cases he; exact h

theorem growproc_table {v} (hg : NoGaps s c) (he : (growproc s c n d).exec m = .ok (v, s', d') m') :
    ∃ r, (resize (s.proc c).sz n d).exec m = .ok (r, d') m' ∧ (s' = s ∧ v = -1 ∨ s' = sized s c r ∧ v = 0) := by
  unfold growproc at he
  rw [exec_bind, Res.bind_eq_ok] at he
  obtain ⟨⟨r, d1⟩, m1, h1, h2⟩ := he
  dsimp only at h2
  split at h2
  · cases h2; exact ⟨r, h1, .inl ⟨rfl, rfl⟩⟩
  · rw [exec_bind, exec_setSize hg] at h2; cases h2; exact ⟨r, h1, .inr ⟨rfl, rfl⟩⟩

theorem Fits.allOrNothing (hf : Fits s c n d m)
    (hw : WellMapped d (s.proc c).sz) (hm : Sound d m) (hlo : -2147483648 ≤ n)
    (hhi : n < 2147483648) : AllOrNothing s c n d m := by
  rcases hf with ⟨rfl, h⟩ | ⟨hpos, h⟩ | ⟨hneg, h⟩
  · exact (allOrNothing_zero hw).mpr h
  · exact (allOrNothing_grow hw hm hpos hhi).mpr h
  · exact (allOrNothing_shrink hw hm hneg hlo).mpr h

/-! ## The slots -/

structure Likewise (x y : Proc) : Prop where
  sz : x.sz = y.sz
  pgdir : x.pgdir = y.pgdir
  state : x.state = y.state
  type : x.type = y.type
  parent : x.parent = y.parent

theorem Likewise.refl (x : Proc) : Likewise x x := ⟨rfl, rfl, rfl, rfl, rfl⟩

theorem shares_iff (h : Likewise (s'.proc p) (s.proc p)) : Shares s' k p ↔ Shares s k p := by
  rw [Shares, Shares, h.state, h.pgdir]

theorem leader_of_likewise (h : Likewise (s'.proc p) (s.proc p)) (hl : s.leader p ≠ none) : s'.leader p ≠ none := by
  unfold State.leader at hl ⊢
  rw [h.type, h.parent]
  split at hl
  · next ht => rw [if_pos ht]; nofun
  · next ht => rwa [if_neg ht]

theorem likewise_addchild (s : State) (par child p : Ref) : Likewise ((s.addchild par child).proc p) (s.proc p) := by
  obtain ⟨th, n, heq⟩ := addchild_eq s par child
  rw [heq]
  by_cases hp : p = par
  · subst hp; exact ⟨by simp, by simp, by simp, by simp, by simp⟩
  · rw [mod_proc, Function.update_of_ne hp]; exact .refl _

inductive Cloned (s : State) (c : Ref) (s' : State) : Prop
  | failed (h : s' = s)
  | made (np : Ref) (hfree : (s.proc np).state = .unused) (hother : ∀ p ≠ np, Likewise (s'.proc p) (s.proc p))
    (hsz : (s'.proc np).sz = (s.proc c).sz) (hlead : s'.leader np ≠ none) (hcalm : s'.panicked = s.panicked)

theorem cloned_clone (stack : UInt32) (hc : (s.proc c).state ≠ .unused) (hl : s.leader c ≠ none) :
    Cloned s c (clone s c stack) := by
  unfold Tasks.clone
  split
  · split
    · exact .failed rfl
    next np s1 halloc =>
    obtain ⟨hfree, rfl⟩ := allocproc_some halloc
    have hne : c ≠ np := fun h => hc (h ▸ hfree)
    have hproc : (s.taken np).proc c = s.proc c := by simp [taken, hne]
    have hleader : (s.taken np).leader c = s.leader c := by unfold State.leader; rw [hproc]
    obtain ⟨par, hpar⟩ := Option.ne_none_iff_exists'.mp hl
    rw [hleader, hpar]
    dsimp only
    refine .made np hfree (fun p hp => ?_) ?_ ?_ ?_
    · have heq : ((s.taken np).cloneInto c np stack).proc p = s.proc p := by simp [cloneInto, taken, hp]
      rw [← heq]
      exact likewise_addchild _ par np p
    · rw [(likewise_addchild _ par np np).sz]; simp [cloneInto, cloneProc, hproc]
    · have hnew : ((s.taken np).cloneInto c np stack).leader np = some par := by
        rw [← hpar, ← hleader]
        simp [State.leader, cloneInto, cloneProc]
      exact leader_of_likewise (likewise_addchild _ par np np) (by simp [hnew])
    · obtain ⟨th, n, heq⟩ := addchild_eq ((s.taken np).cloneInto c np stack) par np
      rw [heq]
      rfl
  · exact .failed rfl

theorem sized_proc (s : State) (c : Ref) (sz : UInt32) (p : Ref) :
    (sized s c sz).proc p = s.proc p ∨ (sized s c sz).proc p = { s.proc p with sz := sz } := by
  unfold sized resized
  dsimp only
  split
  · dsimp only
    split <;> by_cases hp : p = c <;> simp [hp]
  · by_cases hp : p = c <;> simp [hp]

theorem shares_sized : Shares (sized s c sz) k p ↔ Shares s k p := by
  rcases sized_proc s c sz p with h | h <;> rw [Shares, Shares, h]

theorem leader_sized : (sized s c sz).leader p = s.leader p := by
  unfold State.leader
  rcases sized_proc s c sz p with h | h <;> rw [h]

theorem sized_thread {i} (hth : (s.proc c).threadi ≠ 0) (hi : (s.proc c).threads i = some p)
    (hp : (s.proc p).state ≠ .unused) : ((sized s c sz).proc p).sz = sz := by
  have hstate : ((s.mod c fun x => { x with sz := sz }).proc p).state ≠ .unused := by
    by_cases hpc : p = c
    · subst hpc; simpa using hp
    · simpa [hpc] using hp
  unfold sized resized
  dsimp only
  rw [if_pos (by simpa using hth)]
  dsimp only
  rw [if_pos ⟨⟨i, List.mem_finRange i, by simpa using hi⟩, hstate⟩]

theorem sized_other (hpc : p ≠ c) (hp : (s.proc c).threadi = 0 ∨ ∀ i, (s.proc c).threads i ≠ some p) :
    (sized s c sz).proc p = s.proc p := by
  unfold sized resized
  dsimp only
  split
  · rename_i hth
    have hno : ∀ i, (s.proc c).threads i ≠ some p := hp.resolve_left (by simpa using hth)
    dsimp only
    rw [if_neg (by simp [hno])]
    simp [hpc]
  · simp [hpc]

/-! ## Runs -/

structure Settled (k : Nat) (g : Group) : Prop where
  agree : SizesAgree k g
  sound : Sound g.dir g.mem
  led : ∀ p, Shares g.tasks k p → g.tasks.leader p ≠ none
  calm : g.tasks.panicked = false

namespace Settled

variable {g g' : Group} (h : Settled k g)

include h

theorem clone (hc : Shares g.tasks k c) (hs : Cloned g.tasks c s) : Settled k { g with tasks := s } := by
  cases hs with
  | failed hs => rwa [hs]
  | made np hfree hother hsz hlead hcalm =>
    have hold : ∀ p, Shares s k p → p ≠ np → Shares g.tasks k p := fun p hp hne => (shares_iff (hother p hne)).mp hp
    have hsize : ∀ p, Shares s k p → (s.proc p).sz = (g.tasks.proc c).sz := fun p hp => by
      by_cases hne : p = np
      · rw [hne, hsz]
      · rw [(hother p hne).sz, h.agree.same p c (hold p hp hne) hc]
    refine ⟨⟨fun p q hp hq => by rw [hsize p hp, hsize q hq], fun p hp => ?_⟩, h.sound, fun p hp => ?_, ?_⟩
    · rw [hsize p hp]; exact h.agree.mapped c hc
    · by_cases hne : p = np
      · rw [hne]; exact hlead
      · exact leader_of_likewise (hother p hne) (h.led p (hold p hp hne))
    · exact hcalm.trans h.calm

theorem sized (hok : Coordinated k g (.sbrk c n)) (hc : Shares g.tasks k c) (hm : Sound d m)
    (hd : Done n (g.tasks.proc c).sz g.dir g.mem sz d m) : Settled k ⟨sized g.tasks c sz, d, m⟩ := by
  have hsize : ∀ p, Shares (Tasks.sized g.tasks c sz) k p → ((Tasks.sized g.tasks c sz).proc p).sz = sz := by
    intro p hp
    rw [shares_sized] at hp
    by_cases hpc : p = c
    · rw [hpc, sized_sz]
    rcases hok.2 with ⟨hth, rfl | halone⟩ | ⟨hth, hall, -⟩
    · rw [sized_other hpc (.inl hth), h.agree.same p c hp hc]
      have hsz := hd.size
      exact (UInt32.toNat_inj.mp (by omega)).symm
    · exact absurd (halone p hp) hpc
    · obtain ⟨i, hi⟩ := (hall p hp).resolve_left hpc; exact sized_thread hth hi hp.1
  refine ⟨⟨fun p q hp hq => by rw [hsize p hp, hsize q hq], fun p hp => ?_⟩, hm, fun p hp => ?_, ?_⟩
  · rw [hsize p hp]; exact hd.mapped
  · rw [leader_sized]; exact h.led p (shares_sized.mp hp)
  · rw [show (Tasks.sized g.tasks c sz).panicked =
      g.tasks.panicked by unfold Tasks.sized resized; dsimp only; split <;> rfl]
    exact h.calm

theorem untouched (hm : Sound d m) (hd : Untouched g.dir g.mem d m) : Settled k ⟨g.tasks, d, m⟩ := { h with
  agree := ⟨h.agree.same, fun p hp => ⟨(h.agree.mapped p hp).below, fun q hq => by
    rw [hd.pte q hq, (h.agree.mapped p hp).present q hq]⟩⟩
  sound := hm }

theorem sbrk (hok : Coordinated k g (.sbrk c n)) (ha : g.act k (.sbrk c n) = some g') :
    Settled k g' ∧ ∀ p, ¬Shares g.tasks k p → g'.tasks.proc p = g.tasks.proc p := by
  simp only [Group.act] at ha
  split at ha
  · rename_i hcall
    obtain ⟨hc, hlo, hhi⟩ := hcall
    have hw := h.agree.mapped c hc
    obtain ⟨v, s', d', m', he, hcase⟩ := hok.1.allOrNothing hw h.sound hlo hhi
    have hgaps : NoGaps g.tasks c := hok.2.imp And.left fun ⟨_, _, hin⟩ i hi => by
      obtain ⟨p, hp, -⟩ := hin i
      rw [hp] at hi; cases hi
    obtain ⟨r, hres, htab⟩ := growproc_table hgaps he
    have hm := h.sound.resize hw hlo hhi hres
    rw [he] at ha; cases ha
    rcases hcase with ⟨rfl, hd⟩ | ⟨rfl, rfl, hd⟩
    · obtain ⟨rfl, -⟩ := htab.resolve_left (by simp)
      rw [sized_sz] at hd
      refine ⟨h.sized hok hc hm hd, fun p hp => sized_other (fun hpc => hp (hpc ▸ hc)) ?_⟩
      rcases hok.2 with ⟨hth, -⟩ | ⟨-, -, hin⟩
      · exact .inl hth
      refine .inr fun i hi => hp ?_
      obtain ⟨q, hq, hshares⟩ := hin i
      rw [hi] at hq; cases hq
      exact hshares
    · exact ⟨h.untouched hm hd, fun _ _ => rfl⟩
  · cases ha

theorem act {a} (hok : Coordinated k g a) (ha : g.act k a = some g') : Settled k g' := by
  cases a with
  | clone c stack =>
    simp only [Group.act] at ha
    split at ha <;> cases ha
    next hc => exact h.clone hc (cloned_clone stack hc.1 (h.led c hc))
  | sbrk c n => exact (h.sbrk hok ha).1

end Settled

def initGroup : Group := ⟨boot true true false, onePage, twoFree⟩

theorem initGroup_alone (p : Ref) (hp : Shares initGroup.tasks 1 p) : p = 1 := by
  revert hp
  revert p
  decide

theorem initGroup_settled : Settled 1 initGroup where
  agree := by
    refine ⟨fun p q hp hq => ?_, fun p hp => ?_⟩
    · rw [initGroup_alone p hp, initGroup_alone q hq]
    · rw [initGroup_alone p hp]; exact onePage_mapped
  sound := onePage_sound
  led p hp := by rw [initGroup_alone p hp]; decide
  calm := rfl

/-- In runs whose calls are coordinated all members of a group have the size that is mapped, and `sbrk` writes to no
other
slot. -/
theorem group_sizes_agree {g0 g : Group} (h₀ : Settled k g0) (h : Run (Group.act k) (Coordinated k) g0 g) :
    SizesAgree k g ∧ ∀ c n g', Coordinated k g (.sbrk c n) → g.act k (.sbrk c n) = some g' →
      g'.tasks.panicked = false ∧ ∀ p, ¬Shares g.tasks k p → g'.tasks.proc p = g.tasks.proc p := by
  have hg : Settled k g := h.invariant h₀ fun _ _ _ h hok ha => h.act hok ha
  refine ⟨hg.agree, fun c n g' hok ha => ?_⟩
  obtain ⟨hg', hother⟩ := hg.sbrk hok ha
  exact ⟨hg'.calm, hother⟩

theorem group_of_two : ∃ g, (Run (Group.act 1) (Coordinated 1) initGroup g ∧ Shares g.tasks 1 1 ∧ Shares g.tasks 1 2 ∧
    (g.tasks.proc 2).sz = 8192) ∧ SizesAgree 1 g := by
  have hok : Coordinated 1 initGroup (.sbrk 1 4096) :=
    ⟨.inr (.inl ⟨by decide, .inr (.inr ⟨by decide +kernel, .inl (.inl rfl)⟩)⟩), .inl ⟨rfl, .inr initGroup_alone⟩⟩
  have hrun : Run (Group.act 1) (Coordinated 1) initGroup _ :=
    .step (.step .start hok rfl) (a := .clone 1 0x1000) trivial rfl
  exact ⟨_, ⟨hrun, by decide +kernel, by decide +kernel, by decide +kernel⟩,
    (group_sizes_agree initGroup_settled hrun).1⟩

/-- When the thread of init grows, init keeps the old size; when init grows, it follows the empty
entries of its thread table and overwrites the first word of its image. -/
theorem group_disagrees :
    (∃ g, Run (Group.act 1) (fun _ _ => True) initGroup g ∧ Shares g.tasks 1 1 ∧ Shares g.tasks 1 2 ∧
      (g.tasks.proc 1).sz = 4096 ∧ (g.tasks.proc 2).sz = 8192 ∧ ¬SizesAgree 1 g) ∧
    ∃ g, Run (Group.act 1) (fun _ _ => True) { initGroup with mem := { twoFree with page := fun _ _ => 1 } } g ∧
      word32 (g.mem.page 997) = 8192 := by
  constructor
  · have hclone : Run (Group.act 1) (fun _ _ => True) initGroup _ := .step .start (a := .clone 1 0x1000) trivial rfl
    have hrun := hclone.step (a := .sbrk 2 4096) trivial rfl
    refine ⟨_, hrun, by decide +kernel, by decide +kernel, by decide +kernel, by decide +kernel, fun hagree => ?_⟩
    have hsame := hagree.same 1 2 (by decide +kernel) (by decide +kernel)
    exact absurd hsame (by decide +kernel)
  · have hclone : Run (Group.act 1) (fun _ _ => True) { initGroup with mem :=
      { twoFree with page := fun _ _ => 1 } } _ :=
      .step .start (a := .clone 1 0x1000) trivial rfl
    exact ⟨_, hclone.step (a := .sbrk 1 4096) trivial rfl, by decide +kernel⟩

end Xv6Vsd.Tasks
