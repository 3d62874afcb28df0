import Xv6Vsd.Proc.Lemmas.Steps

/-!
# Parents, children and slots that are being filled in
-/

namespace Xv6Vsd.Tasks

open State Function

variable {s s' s1 : State} {a : Act} {p q c np par : Ref} {k found failed again : Pc} {stack : UInt32} {f : Proc → Proc}

structure Base (s : State) : Prop where
  orphan : ∀ p, (s.proc p).state = .unused ∨ (s.proc p).state = .embryo → (s.proc p).parent = none
  parent : ∀ p c, (s.proc p).parent = some c → (s.proc c).state.live = true
  busy : ∀ c, s.pc c ≠ .user → (s.proc c).state.live = true
  made : ∀ c np, (s.pc c).makes = some np → (s.proc np).state = .embryo
  maker : ∀ c c' np, (s.pc c).makes = some np → (s.pc c').makes = some np → c = c'
  init : (s.proc s.initproc).state.live = true
  stays : (s.pc s.initproc).exits = false
  corpse : ∀ p, (s.proc p).state = .crashed → (s.proc p).type = .process

theorem Base.exits_ne (h : Base s) (hc : (s.pc c).exits = true) : c ≠ s.initproc := by
  rintro rfl; simp [h.stays] at hc

/-! ## One change at a time -/

theorem Base.goto (h : Base s)
    (hmakes : ∀ np, k.makes = some np → (s.proc np).state = .embryo ∧ ∀ d, (s.pc d).makes ≠ some np)
    (hbusy : k ≠ .user → (s.proc c).state.live = true) (hexits : k.exits = true → c ≠ s.initproc) :
    Base (s.goto c k) where
  orphan := h.orphan
  parent := h.parent
  busy d hd := by
    by_cases hdc : d = c
    · subst hdc; exact hbusy (by simpa using hd)
    · exact h.busy d (by simpa [hdc] using hd)
  made d np hd := by
    by_cases hdc : d = c
    · subst hdc; exact (hmakes np (by simpa using hd)).1
    · exact h.made d np (by simpa [hdc] using hd)
  maker d d' np hd hd' := by
    simp only [goto_pc, update_apply] at hd hd'
    split at hd <;> split at hd'
    · next h1 h2 => exact h1.trans h2.symm
    · exact absurd hd' ((hmakes np hd).2 d')
    · exact absurd hd ((hmakes np hd').2 d)
    · exact h.maker d d' np hd hd'
  init := h.init
  stays := by
    by_cases hc : s.initproc = c
    · have hk : k.exits = false := by
        by_contra hne
        exact hexits (by simpa using hne) hc.symm
      simp [hc, hk]
    · simpa [hc] using h.stays
  corpse := h.corpse

theorem Base.goOn (h : Base s) (hk : k.makes = none) (hbusy : k ≠ .user → (s.proc c).state.live = true)
    (hexits : k.exits = true → c ≠ s.initproc) : Base (s.goto c k) :=
  h.goto (fun np hnp => by rw [hk] at hnp; cases hnp) hbusy hexits

theorem Base.mod (h : Base s)
    (horphan : (f (s.proc p)).state = .unused ∨ (f (s.proc p)).state = .embryo → (f (s.proc p)).parent = none)
    (hparent : ∀ d, (f (s.proc p)).parent = some d → (s.proc d).state.live = true)
    (hlive : (s.proc p).state.live = true → (f (s.proc p)).state.live = true)
    (hembryo : (s.proc p).state = .embryo → (f (s.proc p)).state = .embryo ∨ ∀ d, (s.pc d).makes ≠ some p)
    (hcorpse : (f (s.proc p)).state = .crashed → (f (s.proc p)).type = .process) : Base (s.mod p f) := by
  have hkeep : ∀ d, (s.proc d).state.live = true → ((s.mod p f).proc d).state.live = true := by
    intro d hd
    by_cases hdp : d = p
    · subst hdp; simpa using hlive hd
    · simpa [hdp] using hd
  refine ⟨fun q hq => ?_, fun q d hq => ?_, fun d hd => hkeep d (h.busy d hd), fun d np hd => ?_, h.maker,
    hkeep _ h.init, h.stays, fun q hq => ?_⟩
  · by_cases hqp : q = p
    · subst hqp; simp only [mod_proc, update_self] at hq ⊢; exact horphan hq
    · simp only [mod_proc, update_of_ne hqp] at hq ⊢; exact h.orphan q hq
  · refine hkeep d ?_
    by_cases hqp : q = p
    · subst hqp; exact hparent d (by simpa using hq)
    · exact h.parent q d (by simpa [hqp] using hq)
  · have hemb := h.made d np hd
    by_cases hnp : np = p
    · subst hnp
      rcases hembryo hemb with he | he
      · simpa using he
      · exact absurd hd (he d)
    · simpa [hnp] using hemb
  · by_cases hqp : q = p
    · subst hqp; simp only [mod_proc, update_self] at hq ⊢; exact hcorpse hq
    · simp only [mod_proc, update_of_ne hqp] at hq ⊢; exact h.corpse q hq

theorem Base.soft (h : Base s) (hparent : ∀ p, (s'.proc p).parent = (s.proc p).parent)
    (htype : ∀ p, (s'.proc p).type = (s.proc p).type) (hstate : ∀ p, Lives (s.proc p).state (s'.proc p).state)
    (hpc : s'.pc = s.pc) (hinit : s'.initproc = s.initproc) : Base s' := by
  have hlive : ∀ p, (s.proc p).state.live = true → (s'.proc p).state.live = true := fun p hp => by
    rwa [(hstate p).live]
  constructor
  · intro p hp
    rw [(hstate p).eq_iff rfl, (hstate p).eq_iff rfl] at hp
    rw [hparent p]
    exact h.orphan p hp
  · intro p c hp; rw [hparent p] at hp; exact hlive c (h.parent p c hp)
  · intro c hc; rw [hpc] at hc; exact hlive c (h.busy c hc)
  · intro c np hc; rw [hpc] at hc; exact ((hstate np).eq_iff rfl).mpr (h.made c np hc)
  · rw [hpc]; exact h.maker
  · rw [hinit]; exact hlive _ h.init
  · rw [hpc, hinit]; exact h.stays
  · intro p hp; rw [htype p]; exact h.corpse p (((hstate p).eq_iff rfl).mp hp)

theorem Base.mild (h : Base s) (hm : Mild s s') : Base s' := h.soft hm.parent hm.type hm.state hm.pc hm.initproc

theorem killThreads_proc (s : State) (c p : Ref) : ∃ b, (s.killThreads c).proc p = { s.proc p with killed := b } ∧
    (b = (s.proc p).killed ∨ b = true ∧ ∃ i, (s.proc c).threads i = some p) := by
  by_cases h : ∃ i, (s.proc c).threads i = some p
  · exact ⟨true, by simp [killThreads, h], .inr ⟨rfl, h⟩⟩
  · exact ⟨(s.proc p).killed, by simp [killThreads, h], .inl rfl⟩

theorem Base.killThreads (h : Base s) (c : Ref) : Base (s.killThreads c) := by
  refine h.soft (fun p => ?_) (fun p => ?_) (fun p => .inl ?_) rfl rfl
  · obtain ⟨b, hb, -⟩ := killThreads_proc s c p; rw [hb]
  · obtain ⟨b, hb, -⟩ := killThreads_proc s c p; rw [hb]
  · obtain ⟨b, hb, -⟩ := killThreads_proc s c p; rw [hb]

theorem killThreads_live (h : (s.proc c).state.live = true) : ((s.killThreads c).proc c).state.live = true := by
  obtain ⟨b, hb, -⟩ := killThreads_proc s c c; rw [hb]; exact h

/-! ## `exit` -/

theorem Turned.trans {x y z : Proc} (hxy : Turned x y) (hyz : Turned y z) : Turned x z := by
  obtain ⟨st, ch, w, u, g, rfl, h1⟩ := hxy
  obtain ⟨st', ch', w', u', g', rfl, h2⟩ := hyz
  refine ⟨st', ch', w', u', g', rfl, ?_⟩
  rcases h2 with rfl | ⟨h2, h3⟩
  · exact h1
  rcases h1 with rfl | h1
  · exact .inr ⟨h2, h3⟩
  · exact .inr ⟨h2, h1.2⟩

theorem Turned.parent {x y : Proc} (h : Turned x y) (par : Option Ref) :
    Turned { x with parent := par } { y with parent := par } := by
  obtain ⟨st, ch, w, u, g, rfl, hst⟩ := h
  exact ⟨st, ch, w, u, g, rfl, hst⟩

def handed (s : State) (c q : Ref) : Proc :=
  if (s.proc q).parent = some c then { s.proc q with parent := some s.initproc } else s.proc q

theorem handed_turned (hm : Mild s s') (c q : Ref) : Turned (handed s c q) (handed s' c q) := by
  unfold handed
  rw [hm.parent q, hm.initproc]
  split
  · exact (hm.proc q).parent _
  · exact hm.proc q

theorem abandon_proc (s : State) (c q : Ref) : Turned (handed s c q) ((s.abandon c).proc q) := by
  unfold abandon
  split
  · exact (Mild.wakeup1 _).proc q
  · exact .refl _

theorem leave_turned (hq : q ≠ c) : Turned (handed s c q) ((s.leave c).proc q) := by
  unfold leave
  simp only [goto_proc, mod_proc, update_of_ne hq]
  exact (handed_turned (.wakeup1 _) c q).trans (abandon_proc _ c q)

variable (s) (c)

theorem leave_self : ∃ ch w u g, (s.leave c).proc c =
    { handed s c c with state := .zombie, chan := ch, waitrounds := w, uid := u, sid := g } := by
  obtain ⟨st, ch, w, u, g, h, -⟩ := (handed_turned (.wakeup1 (chanOf (s.proc c).parent)) c c).trans
    (abandon_proc (s.wakeup1 (chanOf (s.proc c).parent)) c c)
  refine ⟨ch, w, u, g, ?_⟩
  unfold leave
  simp only [goto_proc, mod_proc, update_self]
  rw [h]

theorem abandon_rest : (s.abandon c).pc = s.pc ∧ (s.abandon c).initproc = s.initproc ∧
    (s.abandon c).nextdir = s.nextdir ∧ (s.abandon c).told = s.told := by
  unfold abandon
  split <;> exact ⟨rfl, rfl, rfl, rfl⟩

theorem leave_pc : (s.leave c).pc = update s.pc c .user := by
  unfold leave
  rw [goto_pc, mod_pc, (abandon_rest _ c).1]
  rfl

theorem leave_initproc : (s.leave c).initproc = s.initproc := by
  unfold leave
  rw [goto_initproc, mod_initproc, (abandon_rest _ c).2.1]
  rfl

theorem leave_nextdir : (s.leave c).nextdir = s.nextdir := by
  unfold leave
  rw [goto_nextdir, mod_nextdir, (abandon_rest _ c).2.2.1]
  rfl

theorem leave_told : (s.leave c).told = s.told := by
  unfold leave
  rw [goto_told, mod_told, (abandon_rest _ c).2.2.2]
  rfl

variable {s} {c}

theorem leave_parent (s : State) (c q : Ref) : ((s.leave c).proc q).parent =
    if (s.proc q).parent = some c then some s.initproc else (s.proc q).parent := by
  have hh : (handed s c q).parent = if (s.proc q).parent = some c then some s.initproc else (s.proc q).parent := by
    unfold handed
    split <;> rfl
  rw [← hh]
  by_cases hq : q = c
  · subst hq; obtain ⟨ch, w, u, g, h⟩ := leave_self s q; rw [h]
  · obtain ⟨st, ch, w, u, g, h, -⟩ := leave_turned (s := s) hq; rw [h]

theorem leave_state (hq : q ≠ c) : Lives (s.proc q).state ((s.leave c).proc q).state := by
  have hh : (handed s c q).state = (s.proc q).state := by
    unfold handed
    split <;> rfl
  obtain ⟨st, ch, w, u, g, h, hst⟩ := leave_turned (s := s) hq
  rw [h, ← hh]
  exact hst

theorem leave_state_self (s : State) (c : Ref) : ((s.leave c).proc c).state = .zombie := by
  obtain ⟨ch, w, u, g, h⟩ := leave_self s c; rw [h]

theorem leave_live (h : ((s.leave c).proc q).state.live = true) : q ≠ c ∧ (s.proc q).state.live = true := by
  have hq : q ≠ c := by rintro rfl; rw [leave_state_self] at h; cases h
  exact ⟨hq, (leave_state hq).live ▸ h⟩

theorem leave_field {α : Type} (g : Proc → α) (hg : ∀ x st par ch w u v,
    g { x with state := st, parent := par, chan := ch, waitrounds := w, uid := u, sid := v } = g x) (s : State)
    (c q : Ref) : g ((s.leave c).proc q) = g (s.proc q) := by
  have hh : ∀ st ch w u v, g { handed s c q with state := st, chan := ch, waitrounds := w, uid := u, sid := v } =
    g (s.proc q) := by
    intro st ch w u v
    unfold handed
    split
    · exact hg (s.proc q) st (some s.initproc) ch w u v
    · exact hg (s.proc q) st (s.proc q).parent ch w u v
  by_cases hq : q = c
  · subst hq
    obtain ⟨ch, w, u, v, h⟩ := leave_self s q
    rw [h]
    exact hh _ _ _ _ _
  · obtain ⟨st, ch, w, u, v, h, -⟩ := leave_turned (s := s) hq; rw [h]; exact hh _ _ _ _ _

variable (h : Base s)

include h

theorem Base.leave (hc : s.pc c = .leaving) : Base (s.leave c) := by
  have hinit : c ≠ s.initproc := h.exits_ne (by rw [hc]; rfl)
  have hlive : ∀ q, q ≠ c → (s.proc q).state.live = true → ((s.leave c).proc q).state.live = true := fun q hq hl => by
    rwa [(leave_state hq).live]
  have hbusy : (s.proc c).state.live = true := h.busy c (by rw [hc]; exact Pc.noConfusion)
  constructor
  · intro q hq
    by_cases hqc : q = c
    · subst hqc
      rw [leave_state_self] at hq
      rcases hq with hq | hq <;> cases hq
    · rw [(leave_state hqc).eq_iff rfl, (leave_state hqc).eq_iff rfl] at hq; rw [leave_parent, h.orphan q hq]; rfl
  · intro q d hd
    rw [leave_parent] at hd
    split at hd
    · cases hd; exact hlive _ (Ne.symm hinit) h.init
    next hne =>
    refine hlive d ?_ (h.parent q d hd)
    rintro rfl
    exact hne hd
  · intro d hd
    rw [leave_pc] at hd
    by_cases hdc : d = c
    · subst hdc; simp at hd
    · rw [update_of_ne hdc] at hd; exact hlive d hdc (h.busy d hd)
  · intro d np hd
    rw [leave_pc] at hd
    by_cases hdc : d = c
    · subst hdc; simp [Pc.makes] at hd
    rw [update_of_ne hdc] at hd
    have hemb := h.made d np hd
    have hnp : np ≠ c := by rintro rfl; rw [hemb] at hbusy; cases hbusy
    exact ((leave_state hnp).eq_iff rfl).mpr hemb
  · intro d d' np hd hd'
    rw [leave_pc] at hd hd'
    simp only [update_apply] at hd hd'
    split at hd
    · cases hd
    split at hd'
    · cases hd'
    · exact h.maker d d' np hd hd'
  · rw [leave_initproc]; exact hlive _ (Ne.symm hinit) h.init
  · rw [leave_pc, leave_initproc, update_of_ne (Ne.symm hinit)]; exact h.stays
  · intro q hq
    rw [leave_field Proc.type fun _ _ _ _ _ _ _ => rfl]
    by_cases hqc : q = c
    · subst hqc; rw [leave_state_self] at hq; cases hq
    · exact h.corpse q (((leave_state hqc).eq_iff rfl).mp hq)

/-! ## `wait1` -/

theorem Base.tell (c : Ref) (n : UInt32) : Base (s.tell c n) := { h with }

theorem Base.bury (dead : (s.proc p).state = .zombie)
    (horphan : (f (s.proc p)).state = .unused ∨ (f (s.proc p)).state = .embryo → (f (s.proc p)).parent = none)
    (hparent : ∀ d, (f (s.proc p)).parent = some d → (s.proc p).parent = some d)
    (hcorpse : (f (s.proc p)).state = .crashed → (f (s.proc p)).type = .process) : Base (s.mod p f) := by
  refine h.mod horphan (fun d hd => h.parent p d (hparent d hd)) (fun hl => ?_) (fun he => ?_) hcorpse
  · rw [dead] at hl; cases hl
  · simp [dead] at he

theorem Base.reap (dead : (s.proc p).state = .zombie) : Base (s.mod p clearProc) :=
  h.bury dead (fun _ => rfl) (fun d hd => by cases hd) nofun

theorem Base.crash (dead : (s.proc p).state = .zombie) (process : (s.proc p).type = .process) :
    Base (s.mod p fun x => { x with state := .crashed }) :=
  h.bury dead (fun he => by rcases he with he | he <;> cases he) (fun d hd => hd) fun _ => process

omit h in
theorem ne_of_live (hc : (s.proc c).state.live = true) (hp : (s.proc p).state.live = false) : c ≠ p := by
  rintro rfl; simp [hc] at hp

theorem Base.waits (hc : (s.proc c).state.live = true) (hf : found.makes = none) (hf' : failed.makes = none)
    (ha : again.makes = none) (hexits : (s.pc c).exits = false → found.exits = false ∧ failed.exits = false ∧
      again.exits = false) (hw : Waits s c found failed again s') : Base s' := by
  have hinit : ∀ k : Pc, k.exits = true → k ∈ [found, failed, again] → c ≠ s.initproc := by
    rintro k hk hmem rfl
    obtain ⟨h1, h2, h3⟩ := hexits h.stays
    simp only [List.mem_cons, List.not_mem_nil, or_false] at hmem
    rcases hmem with rfl | rfl | rfl <;> simp_all
  cases hw with
  | @reap p child dead process clean =>
    have hcp : c ≠ p := ne_of_live hc (by rw [dead]; rfl)
    refine ((h.reap dead).tell c _).goOn hf (fun _ => ?_) fun hk => hinit _ hk (by simp)
    simpa [hcp] using hc
  | @crash p child dead process crashed =>
    have hcp : c ≠ p := ne_of_live hc (by rw [dead]; rfl)
    refine ((h.crash dead process).tell c _).goOn hf (fun _ => ?_) fun hk => hinit _ hk (by simp)
    simpa [hcp] using hc
  | childless _ => exact h.goOn hf' (fun _ => hc) fun hk => hinit _ hk (by simp)
  | again =>
    refine Base.goOn (h.mild (.mod (.live _ _ hc rfl))) ha (fun _ => ?_) fun hk => hinit _ hk (by simp)
    simp [Procstate.live]

/-! ## Whole runs -/

theorem makes_unused (hnp : (s.proc np).state = .unused) (d : Ref) : (s.pc d).makes ≠ some np :=
    fun hd => by
  have := h.made d np hd
  simp [hnp] at this

theorem Base.taken (hnp : (s.proc np).state = .unused) : Base (s.taken np) := by
  have hb : Base (s.mod np fun x => { x with state := .embryo, pid := s.nextpid, sid := -1, uid := -2 }) := by
    refine h.mod (fun _ => h.orphan np (.inl hnp)) (fun d hd => h.parent np d hd) (fun hl => ?_) (fun he => ?_) nofun
    · rw [hnp] at hl; cases hl
    · simp [hnp] at he
  exact { hb with }

theorem Base.take (hc : s.At c .user) (hnp : (s.proc np).state = .unused) (hk : k.makes = some np)
    (hexits : k.exits = false) : Base ((s.taken np).goto c k) := by
  have hcnp : c ≠ np := by rintro rfl; rw [hc.1] at hnp; cases hnp
  refine (h.taken hnp).goto (fun n hn => ?_) (fun _ => ?_) (fun hk => ?_)
  · rw [hk] at hn; cases hn; exact ⟨by simp [State.taken], fun d => makes_unused h hnp d⟩
  · simp [State.taken, hcnp, hc.1, Procstate.live]
  · rw [hexits] at hk; cases hk

theorem Base.fill (hc : (s.pc c).makes = some np) (hk : k.makes = none) (hexits : k.exits = false)
    (horphan : (f (s.proc np)).state = .unused ∨ (f (s.proc np)).state = .embryo → (f (s.proc np)).parent = none)
    (hparent : ∀ d, (f (s.proc np)).parent = some d → (s.proc d).state.live = true)
    (hcorpse : (f (s.proc np)).state ≠ .crashed) : Base ((s.goto c k).mod np f) := by
  have hemb := h.made c np hc
  have hlive : (s.proc c).state.live = true := h.busy c fun he => by
    rw [he] at hc; cases hc
  have hg : Base (s.goto c k) := h.goOn hk (fun _ => hlive) fun hk => by
    rw [hexits] at hk; cases hk
  refine hg.mod horphan hparent (fun hl => ?_) (fun _ => .inr fun d hd => ?_) fun hcr => absurd hcr hcorpse
  · rw [goto_proc, hemb] at hl; cases hl
  by_cases hdc : d = c
  · subst hdc; simp [hk] at hd
  · rw [goto_pc, update_of_ne hdc] at hd; exact hdc (h.maker d c np hd hc)

omit h in
theorem addchild_eq (s : State) (par child : Ref) :
    ∃ th n, s.addchild par child = s.mod par fun x => { x with threads := th, threadi := n } := by
  unfold addchild
  split
  · exact ⟨_, _, rfl⟩
  · exact ⟨(s.proc par).threads, (s.proc par).threadi, by simp [mod]⟩

omit h in
theorem removechild_eq (s : State) (par child : Ref) :
    ∃ th n, s.removechild par child = s.mod par fun x => { x with threads := th, threadi := n } := by
  unfold removechild
  split
  · exact ⟨_, _, rfl⟩
  · exact ⟨(s.proc par).threads, (s.proc par).threadi, by simp [mod]⟩

theorem Base.rewrite (hst : Lives (s.proc p).state (f (s.proc p)).state)
    (hpar : (f (s.proc p)).parent = (s.proc p).parent) (htype : (f (s.proc p)).type = (s.proc p).type) :
    Base (s.mod p f) :=
  h.soft (mod_field Proc.parent hpar) (mod_field Proc.type htype) (mod_lives hst) rfl rfl

theorem Base.step (hs : Step s a s') : Base s' := by
  cases hs with
  | mild hm => exact h.mild hm
  | fork here free | clone here may free => exact h.take here free rfl rfl
  | @failed _ c np dir runs here =>
    exact h.fill (f := fun x => { x with state := .unused, pgdir := dir }) here rfl rfl
      (fun _ => h.orphan np (.inr (h.made c np here))) (fun d hd => h.parent np d hd) nofun
  | @forked c np runs here =>
    have hb := h.fill (c := c) (k := .user) (f := forkProc (s.proc c) c s.nextdir) (by rw [here]; rfl) rfl rfl
      (fun he => by rcases he with he | he <;> cases he) (fun d hd => by
        cases hd
        rw [runs]
        rfl) nofun
    exact { hb with }
  | @cloned c np stack runs here =>
    refine h.fill (c := c) (k := .adding np) (f := cloneProc (s.proc c) (s.leader c) stack) (by rw [here]; rfl) rfl rfl
      (fun he => by rcases he with he | he <;> cases he) (fun d hd => ?_) nofun
    have hl : s.leader c = some d := hd
    unfold leader at hl
    split at hl
    · cases hl; rw [runs]; rfl
    · exact h.parent c d hl
  | added runs here leader =>
    obtain ⟨th, n, heq⟩ := addchild_eq s _ _
    rw [heq]
    exact (h.rewrite (.inl rfl) rfl rfl).goOn rfl (fun hne => absurd rfl hne) nofun
  | kill here victim => exact h.rewrite (killProc_lives _) rfl rfl
  | wait here hw =>
    have hl : (s.proc _).state.live = true := here.elim At.live At.live
    exact h.waits hl rfl rfl rfl (fun _ => ⟨rfl, rfl, rfl⟩) hw
  | exit here notInit => exact h.goOn rfl (fun _ => here.live) fun _ => notInit
  | trap here notInit =>
    refine Base.goOn (h.rewrite (.inl rfl) rfl rfl) rfl (fun _ => ?_) fun _ => notInit
    simpa using here.live
  | stopping here process => exact h.goOn rfl (fun _ => here.live) fun _ => h.exits_ne (by rw [here.2]; rfl)
  | noThreads here none => exact h.goOn rfl (fun _ => here.live) fun _ => h.exits_ne (by rw [here.2]; rfl)
  | @stop c s' here some hw =>
    refine (h.killThreads c).waits (killThreads_live here.live) rfl rfl rfl (fun hno => ?_) hw
    have : (s.pc c).exits = false := hno
    rw [here.2] at this; cases this
  | @stopped c here none =>
    exact (h.killThreads c).goOn rfl (fun _ => killThreads_live here.live) fun _ => h.exits_ne (by rw [here.2]; rfl)
  | join here hw =>
    refine h.waits here.live rfl rfl rfl (fun hno => ?_) hw
    rw [here.2] at hno; cases hno
  | rejoin here hw => exact h.waits here.live rfl rfl rfl (fun _ => ⟨rfl, rfl, rfl⟩) hw
  | leave here => exact h.leave here.2
  | @cull p par thread dead parent =>
    obtain ⟨th, n, heq⟩ := removechild_eq s par p
    rw [heq]
    have hb : Base (s.mod par fun x => { x with threads := th, threadi := n }) := h.rewrite (.inl rfl) rfl rfl
    exact hb.reap ((mod_field Proc.state rfl p).trans dead)

omit h

theorem Base.upto (h : Base s1) (hu : Upto s' s1) : Base s' := by
  obtain ⟨b, rfl⟩ := hu; exact { h with }

theorem base_boot (th cl su : Bool) : Base (boot th cl su) where
  orphan p _ := by
    simp only [boot]
    split
    · rfl
    · split <;> rfl
  parent p c hp := by
    simp only [boot] at hp
    split at hp
    · cases hp
    · split at hp <;> cases hp
  busy c hc := absurd rfl hc
  made c np hc := by cases hc
  maker c c' np hc := by cases hc
  init := rfl
  stays := rfl
  corpse p hp := by
    simp only [boot] at hp
    split at hp
    · cases hp
    · split at hp <;> cases hp

theorem Base.act (h : Base s) (ha : s.act a = some s') : Base s' := by
  obtain ⟨s1, hu, hs⟩ := act_step ha; exact (h.step hs).upto hu

theorem Reachable.base {ok th cl su} {I : State → Prop} (h : Reachable ok (boot th cl su) s) (h0 : I (boot th cl su))
    (hstep : ∀ {s a s1}, Base s → I s → ok s a → Step s a s1 → ∀ b, I { s1 with panicked := b }) : Base s ∧ I s := by
  refine h.invariant (P := fun s => Base s ∧ I s) ⟨base_boot th cl su, h0⟩ fun s a s' ih hok ha => ?_
  obtain ⟨s1, ⟨b, rfl⟩, hs⟩ := act_step ha
  exact ⟨ih.1.act ha, hstep ih.1 ih.2 hok hs b⟩

end Xv6Vsd.Tasks
