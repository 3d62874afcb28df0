import Mathlib.Algebra.Order.Group.Multiset
import Xv6Vsd.Proc.Lemmas.Base

/-!
# `wait`

The children of a process against the numbers that `wait` returns to it.
-/

namespace Xv6Vsd.Tasks

open State Function Finset

variable {s s' s1 : State} {a : Act} {p q c np par t : Ref} {k found failed again : Pc} {stack : UInt32}

def Crashless (_ : State) : Act → Prop
  | .trap _ => False
  | _ => True

instance (s : State) (a : Act) : Decidable (Crashless s a) := by
  apply @Act.casesOn (fun a => Decidable (Crashless s a)) a <;> intros <;> unfold Crashless <;> infer_instance

def kids (s : State) (c : Ref) : Finset Ref := {p | (s.proc p).parent = some c ∧ (s.proc p).type = .process}

def pids (s : State) (c : Ref) : Multiset UInt32 := (kids s c).val.map fun p => (s.proc p).pid

/-- A process has been told of every child that is gone, and the others are in the table. -/
structure Counted (s : State) : Prop where
  clean : ∀ p, (s.proc p).crashed = false
  corpseless : ∀ p, (s.proc p).state ≠ .crashed
  fresh : ∀ p, (s.proc p).state = .embryo → s.born p = [] ∧ s.told p = []
  family : ∀ c, (s.proc c).state.live = true → (s.born c : Multiset UInt32) = s.told c + pids s c

theorem mem_kids : p ∈ kids s c ↔ (s.proc p).parent = some c ∧ (s.proc p).type = .process := by simp [kids]

theorem kids_congr (h : ∀ p, ((s'.proc p).parent = some c ∧ (s'.proc p).type = .process) ↔
    ((s.proc p).parent = some c ∧ (s.proc p).type = .process)) : kids s' c = kids s c := by
  ext p
  rw [mem_kids, mem_kids, h]

theorem pids_congr (hk : kids s' c = kids s c) (hp : ∀ p ∈ kids s c, (s'.proc p).pid = (s.proc p).pid) :
    pids s' c = pids s c := by
  unfold pids
  rw [hk]
  exact Multiset.map_congr rfl fun p hp' => hp p hp'

theorem kids_empty (hb : Base s) (hc : (s.proc c).state.live = false) : kids s c = ∅ := by
  refine eq_empty_of_forall_notMem fun p hp => ?_
  have := hb.parent p c (mem_kids.mp hp).1
  simp [hc] at this

theorem pids_insert {A} (hk : kids s c = insert p A) (hp : p ∉ A) :
    pids s c = (s.proc p).pid ::ₘ A.val.map fun q => (s.proc q).pid := by
  unfold pids
  rw [hk, insert_val_of_notMem hp, Multiset.map_cons]

variable (h : Counted s)

include h

theorem Counted.soft (hclean : ∀ p, (s'.proc p).crashed = (s.proc p).crashed)
    (hstate : ∀ p, Lives (s.proc p).state (s'.proc p).state)
    (hsame : ∀ p, (s'.proc p).parent = (s.proc p).parent ∧ (s'.proc p).type = (s.proc p).type ∧
      (s'.proc p).pid = (s.proc p).pid)
    (hborn : s'.born = s.born) (htold : s'.told = s.told) : Counted s' := by
  constructor
  · intro p; rw [hclean]; exact h.clean p
  · intro p hp; exact h.corpseless p (((hstate p).eq_iff rfl).mp hp)
  · intro p hp; rw [hborn, htold]; exact h.fresh p (((hstate p).eq_iff rfl).mp hp)
  intro c hc
  have hk : kids s' c = kids s c := kids_congr fun p => by rw [(hsame p).1, (hsame p).2.1]
  rw [hborn, htold, pids_congr hk fun p _ => (hsame p).2.2]
  exact h.family c ((hstate c).live ▸ hc)

theorem Counted.mild (hm : Mild s s') : Counted s' :=
  h.soft hm.crashed hm.state (fun p => ⟨hm.parent p, hm.type p, hm.pid p⟩) hm.born hm.told

theorem Counted.goto (c : Ref) (k : Pc) : Counted (s.goto c k) :=
  h.soft (fun _ => rfl) (fun _ => .inl rfl) (fun _ => ⟨rfl, rfl, rfl⟩) rfl rfl

theorem Counted.rewrite {f} (hclean : (f (s.proc p)).crashed = (s.proc p).crashed)
    (hstate : Lives (s.proc p).state (f (s.proc p)).state)
    (hsame : (f (s.proc p)).parent = (s.proc p).parent ∧ (f (s.proc p)).type = (s.proc p).type ∧
      (f (s.proc p)).pid = (s.proc p).pid) : Counted (s.mod p f) :=
  h.soft (mod_field Proc.crashed hclean) (mod_lives hstate) (fun q => ⟨mod_field Proc.parent hsame.1 q,
    mod_field Proc.type hsame.2.1 q, mod_field Proc.pid hsame.2.2 q⟩) rfl rfl

theorem Counted.killThreads (c : Ref) : Counted (s.killThreads c) := by
  refine h.soft (fun p => ?_) (fun p => .inl ?_) (fun p => ?_) rfl rfl <;>
    obtain ⟨b, hp, -⟩ := killThreads_proc s c p <;> rw [hp]
  exact ⟨rfl, rfl, rfl⟩

theorem Counted.unharmed {y} (hproc : s'.proc = update s.proc p y)
    (hclean : y.crashed = (s.proc p).crashed) (hcorpse : y.state ≠ .crashed) :
    (∀ q, (s'.proc q).crashed = false) ∧ ∀ q, (s'.proc q).state ≠ .crashed := by
  refine ⟨fun q => ?_, fun q => ?_⟩ <;> rw [hproc] <;> by_cases hq : q = p
  · subst hq; rw [update_self, hclean]; exact h.clean q
  · rw [update_of_ne hq]; exact h.clean q
  · subst hq; rwa [update_self]
  · rw [update_of_ne hq]; exact h.corpseless q

theorem Counted.childless {y} (hb : Base s) (hproc : s'.proc = update s.proc p y)
    (hdead : (s.proc p).state.live = false) (hp : ∀ c, p ∉ kids s c) (hy : y.parent = none ∨ y.type = .thread)
    (hclean : y.crashed = (s.proc p).crashed) (hcorpse : y.state ≠ .crashed)
    (hborn : ∀ q, q ≠ p → s'.born q = s.born q ∧ s'.told q = s.told q)
    (hnew : y.state = .embryo ∨ y.state.live = true → s'.born p = [] ∧ s'.told p = []) : Counted s' := by
  have hk : ∀ c, kids s' c = kids s c := fun c => by
    ext q
    by_cases hq : q = p
    · subst hq
      refine iff_of_false (fun hmem => ?_) (hp c)
      rw [mem_kids, hproc, update_self] at hmem
      rcases hy with hy | hy
      · rw [hy] at hmem; cases hmem.1
      · rw [hy] at hmem; cases hmem.2
    · rw [mem_kids, mem_kids, hproc, update_of_ne hq]
  have hpids : ∀ c, pids s' c = pids s c := fun c => pids_congr (hk c) fun q hq => by
    rw [hproc, update_of_ne]
    rintro rfl
    exact hp c hq
  obtain ⟨hcl, hco⟩ := h.unharmed hproc hclean hcorpse
  refine ⟨hcl, hco, ?_, ?_⟩
  · intro q hst
    by_cases hq : q = p
    · subst hq; rw [hproc, update_self] at hst; exact hnew (.inl hst)
    · rw [hproc, update_of_ne hq] at hst; rw [(hborn q hq).1, (hborn q hq).2]; exact h.fresh q hst
  intro c hc
  rw [hpids]
  by_cases hq : c = p
  · subst hq
    rw [hproc, update_self] at hc
    obtain ⟨h1, h2⟩ := hnew (.inr hc)
    rw [h1, h2, pids, kids_empty hb hdead]
    rfl
  · rw [hproc, update_of_ne hq] at hc; rw [(hborn c hq).1, (hborn c hq).2]; exact h.family c hc

omit h

theorem not_kid_of_orphan (hp : (s.proc p).parent = none) (c : Ref) : p ∉ kids s c := fun hmem => by
  rw [mem_kids, hp] at hmem
  cases hmem.1

theorem not_kid_of_thread (hp : (s.proc p).type = .thread) (c : Ref) : p ∉ kids s c := fun hmem => by
  rw [mem_kids, hp] at hmem
  cases hmem.2

theorem Counted.taken (h : Counted s) (hb : Base s) (hnp : (s.proc np).state = .unused) : Counted (s.taken np) := by
  have hpar := hb.orphan np (.inl hnp)
  refine h.childless (p := np) hb rfl (by rw [hnp]; rfl) (not_kid_of_orphan hpar) (.inl hpar) rfl nofun (fun q hq => ?_)
    fun _ => ?_
  · simp [State.taken, hq]
  · simp [State.taken]

theorem Counted.forkInto (h : Counted s) (hb : Base s) (hr : (s.proc c).state.live = true) (hc : s.pc c = .forking np) :
    Counted (s.forkInto c np) := by
  have hemb := hb.made c np (by rw [hc]; rfl)
  have hnl : (s.proc np).state.live = false := by rw [hemb]; rfl
  have hpar := hb.orphan np (.inr hemb)
  have hcnp : c ≠ np := ne_of_live hr hnl
  have hself : (s.forkInto c np).proc np = forkProc (s.proc c) c s.nextdir (s.proc np) := by simp [State.forkInto]
  have hother : ∀ q, q ≠ np → (s.forkInto c np).proc q = s.proc q := fun q hq => by simp [State.forkInto, hq]
  have hborn : (s.forkInto c np).born = update s.born c (s.born c ++ [(s.proc np).pid]) := rfl
  have htold : (s.forkInto c np).told = s.told := rfl
  have hnew : kids (s.forkInto c np) c = insert np (kids s c) := by
    ext q
    rw [mem_insert, mem_kids, mem_kids]
    by_cases hq : q = np
    · subst hq; rw [hself]; simp [forkProc]
    · rw [hother q hq]; simp [hq]
  have hold : ∀ d, d ≠ c → kids (s.forkInto c np) d = kids s d := fun d hd => by
    refine kids_congr fun q => ?_
    by_cases hq : q = np
    · subst hq; rw [hself, hpar]; simp [forkProc, Ne.symm hd]
    · rw [hother q hq]
  have hpid : ∀ q, ((s.forkInto c np).proc q).pid = (s.proc q).pid := fun q => by
    by_cases hq : q = np
    · subst hq; rw [hself]; rfl
    · rw [hother q hq]
  obtain ⟨hcl, hco⟩ := h.unharmed (show (s.forkInto c np).proc = update s.proc np _ from rfl) rfl nofun
  refine ⟨hcl, hco, ?_, ?_⟩
  · intro q hst
    have hq : q ≠ np := by rintro rfl; rw [hself] at hst; cases hst
    rw [hother q hq] at hst
    have hqc : q ≠ c := by rintro rfl; rw [hst] at hr; cases hr
    rw [hborn, htold, update_of_ne hqc]
    exact h.fresh q hst
  intro d hd
  by_cases hdc : d = c
  · subst hdc
    rw [hborn, htold, update_self, pids_insert hnew (not_kid_of_orphan hpar d)]
    simp only [hpid]
    rw [← Multiset.coe_add, h.family d hr, add_assoc, Multiset.coe_singleton, add_comm (pids s d),
      Multiset.singleton_add]
    rfl
  rw [hborn, htold, update_of_ne hdc, pids_congr (hold d hdc) fun q _ => hpid q]
  by_cases hdn : d = np
  · subst hdn
    obtain ⟨h1, h2⟩ := h.fresh d hemb
    rw [h1, h2, pids, kids_empty hb hnl]
    rfl
  · rw [hother d hdn] at hd; exact h.family d hd

theorem Counted.reap (h : Counted s) (hb : Base s) (child : (s.proc p).parent = some c)
    (dead : (s.proc p).state = .zombie) (process : (s.proc p).type = .process) :
    Counted ((s.mod p clearProc).tell c (s.proc p).pid) := by
  have hc := hb.parent p c child
  have hcp : c ≠ p := ne_of_live hc (by rw [dead]; rfl)
  generalize hs : (s.mod p clearProc).tell c (s.proc p).pid = s'
  have hself : s'.proc p = clearProc (s.proc p) := by rw [← hs]; simp
  have hother : ∀ q, q ≠ p → s'.proc q = s.proc q := fun q hq => by
    rw [← hs]
    simp [hq]
  have hborn : s'.born = s.born := by rw [← hs]; rfl
  have htold : s'.told = update s.told c (s.told c ++ [(s.proc p).pid]) := by rw [← hs]; rfl
  have hnew : kids s c = insert p (kids s' c) := by
    ext q
    rw [mem_insert, mem_kids, mem_kids]
    by_cases hq : q = p
    · subst hq; simp [child, process]
    · rw [hother q hq]; simp [hq]
  have hp : ∀ d, p ∉ kids s' d := not_kid_of_orphan (by rw [hself]; rfl)
  have hold : ∀ d, d ≠ c → kids s' d = kids s d := fun d hd => by
    refine kids_congr fun q => ?_
    by_cases hq : q = p
    · subst hq; rw [hself, child]; simp [clearProc, Ne.symm hd]
    · rw [hother q hq]
  have hpid : ∀ d, (kids s' d).val.map (fun q => (s.proc q).pid) = pids s' d := fun d =>
    Multiset.map_congr rfl fun q hq => by
      rw [hother]
      rintro rfl
      exact hp d hq
  obtain ⟨hcl, hco⟩ := h.unharmed (show s'.proc = update s.proc p (clearProc _) by rw [← hs]; rfl) rfl nofun
  refine ⟨hcl, hco, ?_, ?_⟩
  · intro q hst
    have hq : q ≠ p := by rintro rfl; rw [hself] at hst; cases hst
    rw [hother q hq] at hst
    have hqc : q ≠ c := by rintro rfl; rw [hst] at hc; cases hc
    rw [hborn, htold, update_of_ne hqc]
    exact h.fresh q hst
  intro d hd
  have hdp : d ≠ p := by rintro rfl; rw [hself] at hd; cases hd
  rw [hother d hdp] at hd
  by_cases hdc : d = c
  · subst hdc
    rw [hborn, htold, update_self, h.family d hd, pids_insert hnew (hp d), hpid, ← Multiset.coe_add,
      Multiset.coe_singleton, add_assoc, Multiset.singleton_add]
  · rw [hborn, htold, update_of_ne hdc, ← hpid d, hold d hdc]; exact h.family d hd

theorem abandon_born (s : State) (c : Ref) : (s.abandon c).born = update s.born s.initproc
    (s.born s.initproc ++ ((List.finRange nproc).filter fun p => (s.proc p).parent = some c ∧
      (s.proc p).type = .process).map fun p => (s.proc p).pid) := by
  unfold abandon
  split <;> rfl

theorem pids_eq (s : State) (c : Ref) : pids s c = (((List.finRange nproc).filter fun p =>
    (s.proc p).parent = some c ∧ (s.proc p).type = .process).map fun p => (s.proc p).pid : List UInt32) := rfl

theorem leave_born (s : State) (c d : Ref) : ((s.leave c).born d : Multiset UInt32) =
    if d = s.initproc then (s.born d : Multiset UInt32) + pids s c else s.born d := by
  have hm : Mild s (s.wakeup1 (chanOf (s.proc c).parent)) := .wakeup1 _
  have hpids : pids (s.wakeup1 (chanOf (s.proc c).parent)) c = pids s c :=
    pids_congr (kids_congr fun p => by rw [hm.parent, hm.type]) fun p _ => hm.pid p
  unfold leave
  rw [goto_born, mod_born, abandon_born, hm.born, hm.initproc]
  by_cases hd : d = s.initproc
  · subst hd; rw [update_self, if_pos rfl, ← Multiset.coe_add, ← pids_eq, hpids]
  · rw [update_of_ne hd, if_neg hd]

theorem Counted.leave (h : Counted s) (hb : Base s) (hc : s.pc c = .leaving) : Counted (s.leave c) := by
  have hne : c ≠ s.initproc := hb.exits_ne (by rw [hc]; rfl)
  have htype := leave_field Proc.type (fun _ _ _ _ _ _ _ => rfl) s c
  have hpid := leave_field Proc.pid (fun _ _ _ _ _ _ _ => rfl) s c
  have hcrash := leave_field Proc.crashed (fun _ _ _ _ _ _ _ => rfl) s c
  have hparent : ∀ p d, ((s.leave c).proc p).parent = some d ↔
    (s.proc p).parent = some d ∧ d ≠ c ∨ (s.proc p).parent = some c ∧ d = s.initproc := by
    intro p d
    rw [leave_parent]
    split
    · rename_i hp
      rw [hp]
      simp only [Option.some.injEq]
      constructor
      · rintro rfl; exact .inr ⟨trivial, rfl⟩
      rintro (⟨rfl, hcd⟩ | ⟨-, rfl⟩)
      · exact absurd rfl hcd
      · rfl
    · rename_i hp
      constructor
      · intro hd
        refine .inl ⟨hd, ?_⟩
        rintro rfl
        exact hp hd
      · rintro (⟨hd, -⟩ | ⟨hd, -⟩)
        · exact hd
        · exact absurd hd hp
  have hinit : kids (s.leave c) s.initproc = (kids s s.initproc).disjUnion (kids s c) (by
    rw [disjoint_left]
    intro p h1 h2
    rw [mem_kids] at h1 h2
    exact hne (Option.some.inj (h2.1.symm.trans h1.1))) := by
    ext p
    rw [mem_disjUnion, mem_kids, mem_kids, mem_kids, hparent, htype]
    simp only [Ne.symm hne, ne_eq, not_false_eq_true, and_true]
    tauto
  have hold : ∀ d, d ≠ s.initproc → d ≠ c → kids (s.leave c) d = kids s d := fun d h1 h2 => by
    refine kids_congr fun p => ?_
    rw [hparent, htype]
    simp [h1, h2]
  constructor
  · intro p; rw [hcrash]; exact h.clean p
  · intro p hp
    by_cases hpc : p = c
    · subst hpc; rw [leave_state_self] at hp; cases hp
    · exact h.corpseless p (((leave_state hpc).eq_iff rfl).mp hp)
  · intro p hp
    have hpc : p ≠ c := by rintro rfl; rw [leave_state_self] at hp; cases hp
    rw [(leave_state hpc).eq_iff rfl] at hp
    have hpi : p ≠ s.initproc := (ne_of_live hb.init (by rw [hp]; rfl)).symm
    obtain ⟨h1, h2⟩ := h.fresh p hp
    refine ⟨?_, by rw [leave_told, h2]⟩
    have hbp := leave_born s c p
    rw [if_neg hpi, h1] at hbp
    exact Multiset.coe_eq_zero _ |>.mp hbp
  · intro d hd
    obtain ⟨hdc, hl⟩ := leave_live hd
    rw [leave_born, leave_told]
    by_cases hdi : d = s.initproc
    · subst hdi
      rw [if_pos rfl, h.family _ hl, add_assoc]
      congr 1
      unfold pids
      rw [hinit, disjUnion_val, Multiset.map_add]
      simp only [hpid]
    · rw [if_neg hdi, h.family d hl, pids_congr (hold d hdi hdc) fun p _ => hpid p]

theorem Counted.waits (h : Counted s) (hb : Base s) (hw : Waits s c found failed again s')
    (hc : (s.proc c).state.live = true) : Counted s' := by
  cases hw with
  | reap child dead process clean => exact (h.reap hb child dead process).goto _ _
  | @crash p child dead process crashed => simp [h.clean p] at crashed
  | childless none => exact h.goto _ _
  | again => exact (h.mild (.mod (.live _ _ hc rfl))).goto _ _

theorem Counted.step (h : Counted s) (hb : Base s) (hok : Crashless s a) (hs : Step s a s') : Counted s' := by
  cases hs with
  | mild hm => exact h.mild hm
  | fork here free | clone here may free => exact (h.taken hb free).goto _ _
  | @failed _ c np dir runs here =>
    have hemb := hb.made c np here
    have hpar := hb.orphan np (.inr hemb)
    have hm : Counted (s.mod np fun x => { x with state := .unused, pgdir := dir }) :=
      h.childless (p := np) hb rfl (by rw [hemb]; rfl) (not_kid_of_orphan hpar) (.inl hpar) rfl nofun
        (fun q _ => ⟨rfl, rfl⟩) fun hy => by rcases hy with hy | hy <;> cases hy
    exact hm.goto _ _
  | forked runs here => exact (h.forkInto hb (by rw [runs]; rfl) here).goto _ _
  | @cloned c np stack runs here =>
    have hemb := hb.made c np (by rw [here]; rfl)
    have hpar := hb.orphan np (.inr hemb)
    have hm : Counted (s.cloneInto c np stack) :=
      h.childless (p := np) hb rfl (by rw [hemb]; rfl) (not_kid_of_orphan hpar) (.inr rfl) rfl nofun
        (fun q _ => ⟨rfl, rfl⟩) fun _ => h.fresh np hemb
    exact hm.goto _ _
  | @added c np par runs here leader =>
    obtain ⟨th, n, heq⟩ := addchild_eq s par np
    rw [heq]
    exact (h.rewrite rfl (.inl rfl) ⟨rfl, rfl, rfl⟩).goto _ _
  | kill here victim => exact h.rewrite rfl (killProc_lives _) ⟨rfl, rfl, rfl⟩
  | wait here hw => exact h.waits hb hw (here.elim At.live At.live)
  | exit here notInit | stopping here process | noThreads here none => exact h.goto _ _
  | trap here notInit => exact hok.elim
  | @stop c s' here some hw =>
    exact (h.killThreads c).waits (hb.killThreads c) hw (killThreads_live here.live)
  | stopped here none => exact (h.killThreads _).goto _ _
  | join here hw | rejoin here hw => exact h.waits hb hw here.live
  | leave here => exact h.leave hb here.2
  | @cull p par thread dead parent =>
    obtain ⟨th, n, heq⟩ := removechild_eq s par p
    rw [heq]
    have hne : p ≠ par := (ne_of_live (hb.parent p par parent) (by rw [dead]; rfl)).symm
    have hr : Counted (s.mod par fun x => { x with threads := th, threadi := n }) :=
      h.rewrite rfl (.inl rfl) ⟨rfl, rfl, rfl⟩
    have hp : (s.mod par fun x => { x with threads := th, threadi := n }).proc p = s.proc p := by simp [hne]
    refine hr.childless (p := p) (hb.rewrite (.inl rfl) rfl rfl) rfl (by rw [hp, dead]; rfl)
      (not_kid_of_thread (by rw [hp, thread])) (.inl rfl) rfl nofun (fun q _ => ⟨rfl, rfl⟩) fun hy => ?_
    rcases hy with hy | hy <;> cases hy

theorem counted_boot (th cl su : Bool) : Counted (boot th cl su) := by
  have hclean : ∀ p, ((boot th cl su).proc p).crashed = false ∧ ((boot th cl su).proc p).parent = none := by
    intro p
    simp only [boot]
    split
    · exact ⟨rfl, rfl⟩
    · split <;> exact ⟨rfl, rfl⟩
  refine ⟨fun p => (hclean p).1, fun p hp => ?_, fun p _ => ⟨rfl, rfl⟩, fun c _ => ?_⟩
  · simp only [boot] at hp
    split at hp
    · cases hp
    · split at hp <;> cases hp
  · have hk : kids (boot th cl su) c = ∅ := eq_empty_of_forall_notMem fun p => not_kid_of_orphan (hclean p).2 c
    rw [pids, hk]
    rfl

theorem counted_of_reachable {th cl su} (h : Reachable Crashless (boot th cl su) s) : Base s ∧ Counted s :=
  h.base (counted_boot th cl su) fun hb hc hok hs _ => { hc.step hb hok hs with }

def Threadless (s : State) (c : Ref) : Prop := ∀ t, (s.proc t).parent = some c → (s.proc t).type = .process

/-- What `wait` returns to `c`: the number of a child that it has not returned yet, or -1 once it has returned all of
them; and it waits only for a child that has not exited. -/
structure WaitsRight (s : State) (c : Ref) : Prop where
  once : (s.born c : Multiset UInt32) = s.told c + pids s c
  child : ∀ n, s.answer c = some (some n) → n ∈ pids s c
  last : Threadless s c → (s.born c : Multiset UInt32) = s.told c → s.answer c = some none
  not_early : (s.proc c).killed = false → s.answer c = some none → (s.born c : Multiset UInt32) = s.told c
  alive : Threadless s c → s.answer c = none → ∃ p ∈ kids s c, (s.proc p).state.live = true

theorem mem_pids (h : p ∈ kids s c) : (s.proc p).pid ∈ pids s c := Multiset.mem_map_of_mem _ h

theorem Dead.kid (h : Dead s c p) : p ∈ kids s c := mem_kids.mpr ⟨h.1, h.2.2⟩

theorem Counted.all_told (h : Counted s) (hc : (s.proc c).state.live = true) :
    (s.born c : Multiset UInt32) = s.told c ↔ kids s c = ∅ := by
  rw [h.family c hc, add_eq_left, pids, Multiset.map_eq_zero, val_eq_zero]

theorem Counted.waitsRight (h : Counted s) (hb : Base s) (hc : (s.proc c).state.live = true) : WaitsRight s c := by
  have hspec := scan_spec s c
  refine ⟨h.family c hc, fun n hn => ?_, fun hth hall => ?_, fun hk hn => ?_, fun hth hn => ?_⟩
  · unfold answer at hn
    cases hs : s.scan c <;> rw [hs] at hn hspec <;> cases hn
    · exact mem_pids hspec.1.kid
    · exact mem_pids hspec.1.kid
  · have hno : ∀ p, (s.proc p).parent ≠ some c := fun p hp => by
      have hmem : p ∈ kids s c := mem_kids.mpr ⟨hp, hth p hp⟩
      rw [(h.all_told hc).mp hall] at hmem
      exact absurd hmem (notMem_empty p)
    unfold answer
    cases hs : s.scan c with
    | reap p | crash p => rw [hs] at hspec; exact absurd hspec.1.1 (hno p)
    | childless => rfl
    | again => rw [hs] at hspec; obtain ⟨-, ⟨p, hp⟩, -⟩ := hspec; exact absurd hp (hno p)
  · unfold answer at hn
    cases hs : s.scan c <;> rw [hs] at hn hspec <;> cases hn
    rcases hspec.2 with hno | hyes
    · exact (h.all_told hc).mpr (eq_empty_of_forall_notMem fun p hp => hno p (mem_kids.mp hp).1)
    · simp [hk] at hyes
  · unfold answer at hn
    cases hs : s.scan c <;> rw [hs] at hn hspec <;> cases hn
    obtain ⟨hdead, ⟨p, hp⟩, -⟩ := hspec
    refine ⟨p, mem_kids.mpr ⟨hp, hth p hp⟩, ?_⟩
    have hz : (s.proc p).state ≠ .zombie := fun hz => hdead p ⟨hp, hz, hth p hp⟩
    have ho := hb.orphan p
    have hcr := h.corpseless p
    rw [hp] at ho
    cases hst : (s.proc p).state <;> simp_all [Procstate.live]

/-- In runs in which no process crashes, `wait` returns the number of every child once, and then -1. -/
theorem wait_counts_children {th cl su : Bool} (h : Reachable Crashless (boot th cl su) s) (c : Ref)
    (hc : (s.proc c).state.live = true) : WaitsRight s c :=
  (counted_of_reachable h).2.waitsRight (counted_of_reachable h).1 hc

theorem wait_counts_two : ∃ s, ((s.proc 1).state.live = true ∧ s.born 1 = [2, 3] ∧ s.told 1 = [3]) ∧
    WaitsRight s 1 := by
  obtain ⟨s, h, hlive, hborn, htold⟩ : ∃ s, Reachable Crashless (boot true true false) s ∧
      (s.proc 1).state.live = true ∧ s.born 1 = [2, 3] ∧ s.told 1 = [3] :=
    exists_run [.run 1, .fork 1, .forked 1 true true, .fork 1, .forked 1 true true, .run 3, .exit 3, .look 3, .leave 3,
      .wait 1] (by decide +kernel)
  exact ⟨s, ⟨hlive, hborn, htold⟩, wait_counts_children h 1 hlive⟩

/-- The only child of init has crashed and has been returned, and `wait` goes back to waiting. -/
theorem wait_for_corpse : ∃ s, Reachable (fun _ _ => True) (boot true true false) s ∧ s.At 1 .user ∧
    s.born 1 = [2] ∧ s.told 1 = [2] ∧ (s.proc 1).killed = false ∧ (∀ t, (s.proc t).parent = some 1 →
      (s.proc t).type = .process) ∧ s.answer 1 = none :=
  exists_run [.run 1, .fork 1, .forked 1 true true, .run 2, .trap 2, .look 2, .leave 2, .wait 1] (by decide +kernel)

end Xv6Vsd.Tasks
