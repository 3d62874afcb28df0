import Xv6Vsd.Lib.Slots
import Xv6Vsd.Proc.Directory

/-!
# Thread tables

The table of a process against the threads that have it as their parent.
-/

namespace Xv6Vsd.Tasks

open State Function List Finset

variable {s s' s1 : State} {a : Act} {p q c np par t : Ref} {k found failed again : Pc} {stack : UInt32}

def Member (s : State) (c t : Ref) : Prop :=
  (s.proc t).type = .thread ∧ (s.proc t).state.occupied = true ∧ (s.proc t).parent = some c

instance (s : State) (c t : Ref) : Decidable (Member s c t) := inferInstanceAs (Decidable (_ ∧ _))

/-- Only processes make threads; no thread of a process is culled while the process enters another one in its table; and
an exiting process that has threads is not killed. -/
def Tracked (s : State) : Act → Prop
  | .clone c _ => (s.proc c).type = .process
  | .cull p => ∀ c np, (s.proc p).parent = some c → s.pc c ≠ .adding np
  | .stop c => (∃ t, Member s c t) → ((s.killThreads c).proc c).killed = false
  | .join c => (∃ t, Member s c t) → (s.proc c).killed = false
  | _ => True

instance (s : State) (a : Act) : Decidable (Tracked s a) := by
  apply @Act.casesOn (fun a => Decidable (Tracked s a)) a <;> intros <;> unfold Tracked <;> infer_instance

def Pc.clones : Pc → Bool
  | .cloning _ _ | .adding _ => true
  | _ => false

/-- The table of a process holds its threads, each once, but for one that `clone` has still to enter. -/
structure Exact (s : State) : Prop where
  entry : ∀ c t, t ∈ entries (s.proc c).threads ↔ Member s c t ∧ s.pc c ≠ .adding t
  once : ∀ c, Once (s.proc c).threads
  count : ∀ c, (s.proc c).threadi.toNat = (entries (s.proc c).threads).card
  leader : ∀ c t, Member s c t → (s.proc c).type = .process
  adding : ∀ c np, s.pc c = .adding np → Member s c np
  room : ∀ c, (s.pc c).clones = true → (s.proc c).type = .process ∧ (s.proc c).threadi.toNat < threadmax
  left : ∀ c, s.pc c = .leaving → (s.proc c).type = .process → ∀ t, ¬Member s c t

structure Fine (s : State) (c : Ref) (k : Pc) : Prop where
  live : (s.proc c).state.live = true
  here : ∀ np, s.pc c ≠ .adding np
  there : ∀ np, k ≠ .adding np
  room : k.clones = true → (s.proc c).type = .process ∧ (s.proc c).threadi.toNat < threadmax
  left : k = .leaving → (s.proc c).type = .process → ∀ t, ¬Member s c t

theorem Exact.same (h : Exact s) (hb : Base s)
    (htab : ∀ c, (s'.proc c).threads = (s.proc c).threads ∧ (s'.proc c).threadi = (s.proc c).threadi)
    (hmem : ∀ c t, Member s' c t ↔ Member s c t)
    (htype : ∀ c, (s.proc c).state.live = true → (s'.proc c).type = (s.proc c).type)
    (hpc : ∀ c, s'.pc c = s.pc c ∨ Fine s c (s'.pc c)) : Exact s' := by
  constructor
  · intro c t
    rw [(htab c).1, hmem, h.entry]
    rcases hpc c with he | hf
    · rw [he]
    · simp only [hf.here t, hf.there t, ne_eq, not_false_eq_true]
  · intro c; rw [(htab c).1]; exact h.once c
  · intro c; rw [(htab c).1, (htab c).2]; exact h.count c
  · intro c t ht
    rw [hmem] at ht
    rw [htype c (hb.parent t c ht.2.2)]
    exact h.leader c t ht
  · intro c np hc
    rw [hmem]
    rcases hpc c with he | hf
    · exact h.adding c np (he ▸ hc)
    · exact absurd hc (hf.there np)
  · intro c hc
    rw [(htab c).2]
    rcases hpc c with he | hf
    · rw [he] at hc
      rw [htype c (hb.busy c fun hu => by rw [hu] at hc; cases hc)]
      exact h.room c hc
    · rw [htype c hf.live]; exact hf.room hc
  · intro c hc hp t
    rw [hmem]
    rcases hpc c with he | hf
    · rw [he] at hc
      rw [htype c (hb.busy c fun hu => by rw [hu] at hc; cases hc)] at hp
      exact h.left c hc hp t
    · rw [htype c hf.live] at hp; exact hf.left hc hp t

theorem Exact.goto (h : Exact s) (hb : Base s) (hf : Fine s c k) : Exact (s.goto c k) := by
  refine h.same hb (fun d => ⟨rfl, rfl⟩) (fun d t => Iff.rfl) (fun d _ => rfl) fun d => ?_
  by_cases hdc : d = c
  · subst hdc; exact .inr (by simpa using hf)
  · exact .inl (by simp [hdc])

theorem Exact.soft (h : Exact s) (hb : Base s)
    (hsame : ∀ p, (s'.proc p).threads = (s.proc p).threads ∧ (s'.proc p).threadi = (s.proc p).threadi ∧
      (s'.proc p).type = (s.proc p).type ∧ (s'.proc p).parent = (s.proc p).parent)
    (hocc : ∀ p, (s'.proc p).state.occupied = (s.proc p).state.occupied) (hpc : s'.pc = s.pc) : Exact s' := by
  refine h.same hb (fun c => ⟨(hsame c).1, (hsame c).2.1⟩) (fun c t => ?_) (fun c _ => (hsame c).2.2.1)
    fun c => .inl (by rw [hpc])
  unfold Member
  rw [(hsame t).2.2.1, hocc t, (hsame t).2.2.2]

theorem Exact.mild (h : Exact s) (hb : Base s) (hm : Mild s s') : Exact s' := by
  exact h.soft hb (fun p => ⟨hm.threads p, hm.threadi p, hm.type p, hm.parent p⟩) hm.occupied hm.pc

theorem Exact.mod {f} (h : Exact s) (hb : Base s)
    (htab : (f (s.proc p)).threads = (s.proc p).threads ∧ (f (s.proc p)).threadi = (s.proc p).threadi)
    (hmem : ∀ c, ((f (s.proc p)).type = .thread ∧ (f (s.proc p)).state.occupied = true ∧
      (f (s.proc p)).parent = some c) ↔ Member s c p)
    (htype : (s.proc p).state.live = true → (f (s.proc p)).type = (s.proc p).type) : Exact (s.mod p f) := by
  refine h.same hb (fun c => ?_) (fun c t => ?_) (fun c hc => ?_) fun c => .inl rfl
  · by_cases hcp : c = p
    · subst hcp; simpa using htab
    · simp [hcp]
  · by_cases htp : t = p
    · subst htp; simpa [Member] using hmem c
    · simp [Member, htp]
  by_cases hcp : c = p
  · subst hcp; simpa using htype hc
  · simp [hcp]

theorem not_member_of_empty (hp : (s.proc t).state.occupied = false) : ¬Member s c t := fun h => by
  simp [h.2.1] at hp

theorem Exact.no_entries (h : Exact s) (hb : Base s) (hp : (s.proc p).state.live = false) :
    entries (s.proc p).threads = ∅ := by
  refine eq_empty_of_forall_notMem fun t ht => ?_
  obtain ⟨hm, -⟩ := (h.entry p t).mp ht
  have := hb.parent t p hm.2.2
  simp [hp] at this

theorem Exact.killThreads (h : Exact s) (hb : Base s) (c : Ref) : Exact (s.killThreads c) := by
  refine h.soft hb (fun p => ?_) (fun p => ?_) rfl
  · obtain ⟨b, hp, -⟩ := killThreads_proc s c p; rw [hp]; exact ⟨rfl, rfl, rfl, rfl⟩
  · obtain ⟨b, hp, -⟩ := killThreads_proc s c p; rw [hp]

theorem Exact.taken (h : Exact s) (hb : Base s) (hnp : (s.proc np).state = .unused) : Exact (s.taken np) := by
  have hm : Exact (s.mod np fun x => { x with state := .embryo, pid := s.nextpid, sid := -1, uid := -2 }) := by
    refine h.mod hb ⟨rfl, rfl⟩ (fun c => ?_) fun _ => rfl
    simp [Member, hnp, Procstate.occupied]
  exact { hm with }

theorem Exact.reap (h : Exact s) (hb : Base s) (process : (s.proc p).type = .process) : Exact (s.mod p clearProc) := by
  refine h.mod hb ⟨rfl, rfl⟩ (fun c => ?_) fun _ => rfl
  simp [Member, clearProc, process]

theorem Exact.tell (h : Exact s) (c : Ref) (n : UInt32) : Exact (s.tell c n) := { h with }

theorem fine_plain (hl : (s.proc c).state.live = true) (here : ∀ np, s.pc c ≠ .adding np) (hk : k.clones = false)
    (hk' : k ≠ .leaving) : Fine s c k := by
  refine ⟨hl, here, ?_, fun h => ?_, fun h => absurd h hk'⟩
  · rintro np rfl; cases hk
  · simp [hk] at h

theorem Exact.waits (h : Exact s) (hb : Base s) (hw : Waits s c found failed again s')
    (hc : (s.proc c).state.live = true) (here : ∀ np, s.pc c ≠ .adding np)
    (hf : found.clones = false ∧ found ≠ .leaving) (ha : again.clones = false ∧ again ≠ .leaving)
    (hfail : failed.clones = false) (hk : failed = .leaving → (∃ t, Member s c t) → (s.proc c).killed = false) :
    Exact s' := by
  cases hw with
  | @reap p child dead process clean =>
    have hcp : c ≠ p := ne_of_live hc (by rw [dead]; rfl)
    refine ((h.reap hb process).tell c _).goto ((hb.reap dead).tell c _) (fine_plain ?_ here hf.1 hf.2)
    simpa [hcp] using hc
  | @crash p child dead process crashed =>
    have hcp : c ≠ p := ne_of_live hc (by rw [dead]; rfl)
    have hm : Exact (s.mod p fun x => { x with state := .crashed }) := by
      refine h.mod hb ⟨rfl, rfl⟩ (fun d => ?_) fun _ => rfl
      simp [Member, process]
    refine (hm.tell c _).goto ((hb.crash dead process).tell c _) (fine_plain ?_ here hf.1 hf.2)
    simpa [hcp] using hc
  | childless none =>
    refine h.goto hb ⟨hc, here, ?_, fun hcl => ?_, fun hl _ t ht => ?_⟩
    · rintro np rfl; cases hfail
    · simp [hfail] at hcl
    have hkill := hk hl ⟨t, ht⟩
    rcases none with hno | hyes
    · exact hno t ht.2.2
    · simp [hkill] at hyes
  | again =>
    have hm : Mild s (s.mod c fun x => { x with state := .wait, waitrounds := Tasks.waitrounds }) :=
      .mod (.live _ _ hc rfl)
    refine (h.mild hb hm).goto (hb.mild hm) (fine_plain ?_ here ha.1 ha.2)
    rw [hm.live]
    exact hc

theorem Exact.forkInto (h : Exact s) (hb : Base s) (hr : (s.proc c).state.live = true) (hc : s.pc c = .forking np) :
    Exact ((s.forkInto c np).goto c .user) := by
  have hemb := hb.made c np (by rw [hc]; rfl)
  have hzero : (s.proc np).threadi = 0 := by
    have hcount := h.count np
    rw [h.no_entries hb (by rw [hemb]; rfl), card_empty] at hcount
    exact UInt32.toNat_inj.mp hcount
  have hg : Exact (s.goto c .user) := by
    refine h.goto hb (fine_plain hr (fun x hx => ?_) rfl nofun)
    simp [hc] at hx
  have hm : Exact ((s.goto c .user).mod np (forkProc (s.proc c) c s.nextdir)) := by
    refine hg.mod (hb.goOn rfl (fun hne => absurd rfl hne) nofun) ⟨rfl, hzero.symm⟩ (fun d => ?_) fun hl => ?_
    · simp [Member, forkProc, hemb, Procstate.occupied]
    · rw [goto_proc, hemb] at hl; cases hl
  exact { hm with }

theorem leader_of_process (htype : (s.proc c).type = .process) : s.leader c = some c := by
  unfold State.leader; rw [if_pos htype]

theorem Exact.cloneInto (h : Exact s) (hb : Base s) (hr : (s.proc c).state.live = true)
    (hc : s.pc c = .cloning np stack) : Exact ((s.cloneInto c np stack).goto c (.adding np)) := by
  have hemb := hb.made c np (by rw [hc]; rfl)
  obtain ⟨htype, hroom⟩ := h.room c (by rw [hc]; rfl)
  have hother : ∀ q, q ≠ np → ((s.cloneInto c np stack).goto c (.adding np)).proc q = s.proc q := fun q hq => by
    simp [State.cloneInto, hq]
  have hself : ((s.cloneInto c np stack).goto c (.adding np)).proc np =
    cloneProc (s.proc c) (some c) stack (s.proc np) := by
    simp [State.cloneInto, leader_of_process htype]
  have hpc : ((s.cloneInto c np stack).goto c (.adding np)).pc = update s.pc c (.adding np) := rfl
  have hnp : ∀ d, ¬Member s d np := fun d => not_member_of_empty (by rw [hemb]; rfl)
  have hlive : ∀ d, (s.proc d).state.live = true → d ≠ np := fun d hd => ne_of_live hd (by rw [hemb]; rfl)
  have hmem : ∀ d t, Member ((s.cloneInto c np stack).goto c (.adding np)) d t ↔ Member s d t ∨ t = np ∧ d = c := by
    intro d t
    by_cases ht : t = np
    · subst ht
      simp only [hnp d, false_or, true_and]
      unfold Member
      rw [hself]
      simp [cloneProc, Procstate.occupied, eq_comm]
    · simp only [ht, false_and, or_false]; unfold Member; rw [hother t ht]
  have htab : ∀ d, (((s.cloneInto c np stack).goto c (.adding np)).proc d).threads = (s.proc d).threads ∧
    (((s.cloneInto c np stack).goto c (.adding np)).proc d).threadi = (s.proc d).threadi := by
    intro d
    by_cases hd : d = np
    · subst hd; rw [hself]; exact ⟨rfl, rfl⟩
    · rw [hother d hd]; exact ⟨rfl, rfl⟩
  generalize (s.cloneInto c np stack).goto c (.adding np) = s' at *
  constructor
  · intro d t
    rw [(htab d).1, hmem, hpc, h.entry]
    by_cases hdc : d = c
    · subst hdc
      rw [update_self, hc]
      by_cases ht : t = np
      · subst ht; simp [hnp]
      · simp [ht, Ne.symm ht]
    · simp [hdc]
  · intro d; rw [(htab d).1]; exact h.once d
  · intro d; rw [(htab d).1, (htab d).2]; exact h.count d
  · intro d t ht
    rcases (hmem d t).mp ht with ht | ⟨-, rfl⟩
    · rw [hother d (hlive d (hb.parent t d ht.2.2))]; exact h.leader d t ht
    · rw [hother d (hlive d hr)]; exact htype
  · intro d x hd
    rw [hmem]
    rw [hpc] at hd
    by_cases hdc : d = c
    · subst hdc; rw [update_self] at hd; cases hd; exact .inr ⟨rfl, rfl⟩
    · rw [update_of_ne hdc] at hd; exact .inl (h.adding d x hd)
  · intro d hd
    rw [(htab d).2]
    rw [hpc] at hd
    by_cases hdc : d = c
    · subst hdc; rw [hother d (hlive d hr)]; exact ⟨htype, hroom⟩
    rw [update_of_ne hdc] at hd
    rw [hother d (hlive d (hb.busy d fun hu => by rw [hu] at hd; cases hd))]
    exact h.room d hd
  · intro d hd hp t ht
    rw [hpc] at hd
    by_cases hdc : d = c
    · subst hdc; rw [update_self] at hd; cases hd
    rw [update_of_ne hdc] at hd
    rw [hother d (hlive d (hb.busy d fun hu => by rw [hu] at hd; cases hd))] at hp
    rcases (hmem d t).mp ht with ht | ⟨-, rfl⟩
    · exact h.left d hd hp t ht
    · exact hdc rfl

theorem addchild_room (np : Ref) (ho : Once (s.proc par).threads)
    (hroom : (entries (s.proc par).threads).card < threadmax) : ∃ i, (s.proc par).threads i = none ∧
      s.addchild par np = s.mod par fun x =>
        { x with threads := update (s.proc par).threads i (some np), threadi := x.threadi + 1 } := by
  unfold addchild
  split
  · next i hi => exact ⟨i, by simpa using find?_some hi, rfl⟩
  next hno =>
  have hfull : ∀ i, (s.proc par).threads i ≠ none := fun i => by
    simpa using find?_eq_none.mp hno i (mem_finRange i)
  exact absurd (ho.card_of_full hfull) (not_le.mpr hroom)

theorem removechild_found (hmem : p ∈ entries (s.proc par).threads) :
    ∃ i, (s.proc par).threads i = some p ∧ s.removechild par p = s.mod par fun x =>
      { x with threads := update (s.proc par).threads i none, threadi := x.threadi - 1 } := by
  unfold removechild
  split
  · next i hi => exact ⟨i, by simpa using find?_some hi, rfl⟩
  next hno =>
  obtain ⟨i, hi⟩ := mem_entries.mp hmem
  have := find?_eq_none.mp hno i (mem_finRange i)
  simp [hi] at this

theorem Exact.added (h : Exact s) (hc : s.pc c = .adding np) : Exact ((s.addchild c np).goto c .user) := by
  obtain ⟨htype, hroom⟩ := h.room c (by rw [hc]; rfl)
  have hcard := h.count c
  obtain ⟨i, hi, heq⟩ := addchild_room np (h.once c) (hcard ▸ hroom)
  have hnew : np ∉ entries (s.proc c).threads := fun hmem => ((h.entry c np).mp hmem).2 hc
  rw [heq]
  generalize hs : ((s.mod c fun x => { x with
    threads := update (s.proc c).threads i (some np), threadi := x.threadi + 1 }).goto c .user) = s'
  have hself : s'.proc c = { s.proc c with
    threads := update (s.proc c).threads i (some np), threadi := (s.proc c).threadi + 1 } := by
    rw [← hs]
    simp
  have hother : ∀ d, d ≠ c → s'.proc d = s.proc d := fun d hd => by
    rw [← hs]
    simp [hd]
  have hpc : s'.pc = update s.pc c .user := by rw [← hs]; rfl
  have hsame : ∀ d, (s'.proc d).type = (s.proc d).type ∧ (s'.proc d).state = (s.proc d).state ∧
    (s'.proc d).parent = (s.proc d).parent := fun d => by
    by_cases hd : d = c
    · subst hd; rw [hself]; exact ⟨rfl, rfl, rfl⟩
    · rw [hother d hd]; exact ⟨rfl, rfl, rfl⟩
  have hmem : ∀ d t, Member s' d t ↔ Member s d t := fun d t => by
    unfold Member
    rw [(hsame t).1, (hsame t).2.1, (hsame t).2.2]
  constructor
  · intro d t
    rw [hmem, hpc]
    by_cases hd : d = c
    · subst hd
      rw [hself, update_self]
      rw [entries_put hi, mem_insert, h.entry, hc]
      constructor
      · rintro (rfl | ⟨ht, -⟩)
        · exact ⟨h.adding d t hc, nofun⟩
        · exact ⟨ht, nofun⟩
      rintro ⟨ht, -⟩
      by_cases htn : t = np
      · exact .inl htn
      · exact .inr ⟨ht, fun he => htn (Pc.adding.inj he).symm⟩
    · rw [hother d hd, update_of_ne hd]; exact h.entry d t
  · intro d
    by_cases hd : d = c
    · subst hd; rw [hself]; exact (h.once d).put hnew
    · rw [hother d hd]; exact h.once d
  · intro d
    by_cases hd : d = c
    · subst hd
      rw [hself]
      rw [entries_put hi, card_insert_of_notMem hnew, ← hcard, UInt32.toNat_add]
      simp only [threadmax] at hroom
      simp only [UInt32.reduceToNat]
      omega
    · rw [hother d hd]; exact h.count d
  · intro d t ht; rw [(hsame d).1]; exact h.leader d t ((hmem d t).mp ht)
  · intro d x hd
    rw [hmem]
    rw [hpc] at hd
    by_cases hdc : d = c
    · subst hdc; rw [update_self] at hd; cases hd
    · rw [update_of_ne hdc] at hd; exact h.adding d x hd
  · intro d hd
    rw [hpc] at hd
    by_cases hdc : d = c
    · subst hdc; rw [update_self] at hd; cases hd
    · rw [update_of_ne hdc] at hd; rw [hother d hdc]; exact h.room d hd
  · intro d hd hp t
    rw [hmem]
    rw [hpc] at hd
    by_cases hdc : d = c
    · subst hdc; rw [update_self] at hd; cases hd
    · rw [update_of_ne hdc] at hd; rw [hother d hdc] at hp; exact h.left d hd hp t

theorem Exact.cull (h : Exact s) (hb : Base s) (thread : (s.proc p).type = .thread)
    (dead : (s.proc p).state = .zombie) (parent : (s.proc p).parent = some par) (hok : Tracked s (.cull p)) :
    Exact ((s.removechild par p).mod p clearProc) := by
  have hmp : Member s par p := ⟨thread, by rw [dead]; rfl, parent⟩
  have hin : p ∈ entries (s.proc par).threads := (h.entry par p).mpr ⟨hmp, hok par p parent⟩
  have hne : par ≠ p := ne_of_live (hb.parent p par parent) (by rw [dead]; rfl)
  obtain ⟨i, hi, heq⟩ := removechild_found hin
  rw [heq]
  generalize hs : ((s.mod par fun x => { x with
    threads := update (s.proc par).threads i none, threadi := x.threadi - 1 }).mod p clearProc) = s'
  have hpar : s'.proc par = { s.proc par with
    threads := update (s.proc par).threads i none, threadi := (s.proc par).threadi - 1 } := by
    rw [← hs]
    simp [hne]
  have hself : s'.proc p = clearProc (s.proc p) := by rw [← hs]; simp [Ne.symm hne]
  have hother : ∀ d, d ≠ par → d ≠ p → s'.proc d = s.proc d := fun d h1 h2 => by
    rw [← hs]
    simp [h1, h2]
  have hpc : s'.pc = s.pc := by rw [← hs]; rfl
  have htype : ∀ d, (s'.proc d).type = (s.proc d).type := fun d => by
    by_cases h1 : d = par
    · subst h1; rw [hpar]
    by_cases h2 : d = p
    · subst h2; rw [hself]; rfl
    · rw [hother d h1 h2]
  have htab : ∀ d, d ≠ par → (s'.proc d).threads = (s.proc d).threads ∧ (s'.proc d).threadi = (s.proc d).threadi :=
    fun d h1 => by
      by_cases h2 : d = p
      · subst h2; rw [hself]; exact ⟨rfl, rfl⟩
      · rw [hother d h1 h2]; exact ⟨rfl, rfl⟩
  have hmem : ∀ d t, Member s' d t ↔ Member s d t ∧ t ≠ p := fun d t => by
    by_cases h2 : t = p
    · subst h2
      unfold Member
      rw [hself]
      simp [clearProc]
    by_cases h1 : t = par
    · subst h1
      unfold Member
      rw [hpar]
      simp [h2]
    · unfold Member; rw [hother t h1 h2]; simp [h2]
  have hthreadi : (s'.proc par).threadi.toNat = (s.proc par).threadi.toNat - 1 := by
    have hpos : 0 < (entries (s.proc par).threads).card := card_pos.mpr ⟨p, hin⟩
    rw [← h.count par] at hpos
    have hle : (1 : UInt32) ≤ (s.proc par).threadi := UInt32.le_iff_toNat_le.mpr hpos
    rw [hpar]
    exact UInt32.toNat_sub_of_le _ _ hle
  -- the thread has one parent, who is not in `addchild`
  have honly : ∀ d, Member s d p → d = par := fun d hd => Option.some.inj (hd.2.2.symm.trans parent)
  constructor
  · intro d t
    rw [hmem, hpc]
    by_cases h1 : d = par
    · subst h1
      rw [hpar]
      rw [entries_drop (h.once d) hi, mem_erase, h.entry]
      tauto
    rw [(htab d h1).1, h.entry]
    constructor
    · rintro ⟨ht, ha⟩
      refine ⟨⟨ht, ?_⟩, ha⟩
      rintro rfl
      exact h1 (honly d ht)
    · rintro ⟨⟨ht, -⟩, ha⟩; exact ⟨ht, ha⟩
  · intro d
    by_cases h1 : d = par
    · subst h1; rw [hpar]; exact (h.once d).drop
    · rw [(htab d h1).1]; exact h.once d
  · intro d
    by_cases h1 : d = par
    · subst h1
      rw [hthreadi, hpar]
      rw [entries_drop (h.once d) hi, card_erase_of_mem hin, ← h.count d]
    · rw [(htab d h1).1, (htab d h1).2]; exact h.count d
  · intro d t ht; rw [htype]; exact h.leader d t ((hmem d t).mp ht).1
  · intro d x hd
    rw [hpc] at hd
    have hx := h.adding d x hd
    refine (hmem d x).mpr ⟨hx, ?_⟩
    rintro rfl
    exact hok d x hx.2.2 hd
  · intro d hd
    rw [hpc] at hd
    obtain ⟨hp, hroom⟩ := h.room d hd
    refine ⟨(htype d).trans hp, ?_⟩
    by_cases h1 : d = par
    · subst h1; omega
    · rw [(htab d h1).2]; exact hroom
  · intro d hd hp t ht
    rw [hpc] at hd
    rw [htype] at hp
    exact h.left d hd hp t ((hmem d t).mp ht).1

theorem Exact.leave (h : Exact s) (hb : Base s) (hc : s.pc c = .leaving) : Exact (s.leave c) := by
  have hl : (s.proc c).state.live = true := hb.busy c (by rw [hc]; exact Pc.noConfusion)
  have htype := leave_field Proc.type (fun _ _ _ _ _ _ _ => rfl) s c
  have hno : ∀ t, ¬Member s c t := fun t ht => h.left c hc (h.leader c t ht) t ht
  refine h.same hb (fun d => ⟨?_, ?_⟩) (fun d t => ?_) (fun d _ => htype d) fun d => ?_
  · exact leave_field Proc.threads (fun _ _ _ _ _ _ _ => rfl) s c d
  · exact leave_field Proc.threadi (fun _ _ _ _ _ _ _ => rfl) s c d
  · have hocc : ((s.leave c).proc t).state.occupied = (s.proc t).state.occupied := by
      by_cases htc : t = c
      · subst htc; rw [leave_state_self, occupied_of_live hl]; rfl
      · exact (leave_state htc).occupied
    unfold Member
    rw [htype, hocc, leave_parent]
    constructor
    · rintro ⟨h1, h2, h3⟩
      split at h3
      · next hpar => exact absurd ⟨h1, h2, hpar⟩ (hno t)
      · exact ⟨h1, h2, h3⟩
    · rintro ⟨h1, h2, h3⟩; rw [if_neg fun hpar => hno t ⟨h1, h2, hpar⟩]; exact ⟨h1, h2, h3⟩
  · rw [leave_pc]
    by_cases hdc : d = c
    · subst hdc
      rw [update_self]
      exact .inr (fine_plain hl (fun np hnp => by rw [hc] at hnp; cases hnp) rfl nofun)
    · rw [update_of_ne hdc]; exact .inl rfl

theorem Exact.none_of_zero (h : Exact s) (hc : (s.proc c).threadi = 0) (here : ∀ np, s.pc c ≠ .adding np) (t : Ref) :
    ¬Member s c t := fun ht => by
  have hmem := (h.entry c t).mpr ⟨ht, here t⟩
  have hcard := h.count c
  rw [hc] at hcard
  rw [card_eq_zero.mp hcard.symm] at hmem
  exact absurd hmem (notMem_empty t)

theorem not_adding {k} (hk : s.pc c = k) (hne : k.clones = false) (np : Ref) : s.pc c ≠ .adding np := fun h => by
  rw [hk] at h
  subst h
  cases hne

theorem Exact.step (h : Exact s) (hb : Base s) (hok : Tracked s a) (hs : Step s a s') : Exact s' := by
  cases hs with
  | mild hm => exact h.mild hb hm
  | @fork c np here free =>
    have hcnp : c ≠ np := ne_of_live here.live (by rw [free]; rfl)
    refine (h.taken hb free).goto (hb.taken free) (fine_plain ?_ (not_adding here.2 rfl) rfl (by simp))
    simpa [State.taken, hcnp] using here.live
  | @clone c np stack here may free =>
    have hcnp : c ≠ np := ne_of_live here.live (by rw [free]; rfl)
    have hproc : (s.taken np).proc c = s.proc c := by simp [State.taken, hcnp]
    refine (h.taken hb free).goto (hb.taken free) ⟨?_, not_adding here.2 rfl, by simp, fun _ => ?_, by simp⟩
    · rw [hproc]; exact here.live
    · rw [hproc]; exact ⟨hok, may.2.2⟩
  | @failed _ c np dir runs here =>
    have hl : (s.proc c).state.live = true := by rw [runs]; rfl
    have hna : ∀ x, s.pc c ≠ .adding x := fun x hx => by
      rw [hx] at here; cases here
    have hg : Exact (s.goto c .user) := h.goto hb (fine_plain hl hna rfl (by simp))
    refine hg.mod (f := fun x => { x with state := .unused, pgdir := dir })
      (hb.goOn rfl (fun hne => absurd rfl hne) (by simp [Pc.exits]))
      ⟨rfl, rfl⟩ (fun d => ?_) fun _ => rfl
    simp [Member, hb.made c np here, Procstate.occupied]
  | forked runs here => exact h.forkInto hb (by rw [runs]; rfl) here
  | cloned runs here => exact h.cloneInto hb (by rw [runs]; rfl) here
  | @added c np par runs here leader =>
    have htype := (h.room c (by rw [here]; rfl)).1
    rw [leader_of_process htype] at leader; cases leader
    exact h.added here
  | @kill c p pid here victim =>
    refine h.mod hb ⟨rfl, rfl⟩ (fun d => ?_) fun _ => rfl
    rw [(killProc_lives _).occupied]
    rfl
  | @wait c s' here hw =>
    have hna : ∀ np, s.pc c ≠ .adding np := here.elim (fun h => not_adding h.2 rfl) fun h => not_adding h.2 rfl
    exact h.waits hb hw (here.elim At.live At.live) hna ⟨rfl, by simp⟩ ⟨rfl, by simp⟩ rfl (by simp)
  | exit here notInit => exact h.goto hb (fine_plain here.live (not_adding here.2 rfl) rfl (by simp))
  | @trap c here notInit =>
    have hm : Exact (s.mod c fun x => { x with killed := true, crashed := true }) :=
      h.mod hb ⟨rfl, rfl⟩ (fun d => Iff.rfl) fun _ => rfl
    refine hm.goto (hb.rewrite (.inl rfl) rfl rfl) (fine_plain ?_ (not_adding here.2 rfl) rfl (by simp))
    simpa using here.live
  | stopping here process => exact h.goto hb (fine_plain here.live (not_adding here.2 rfl) rfl (by simp))
  | noThreads here none =>
    refine h.goto hb ⟨here.live, not_adding here.2 rfl, by simp, by simp [Pc.clones], fun _ hp => ?_⟩
    exact h.none_of_zero (none hp) (not_adding here.2 rfl)
  | @stop c s' here some hw =>
    have hmem : ∀ t, Member (s.killThreads c) c t → Member s c t := fun t ht => by
      obtain ⟨b, hpt, -⟩ := killThreads_proc s c t
      unfold Member at ht
      rw [hpt] at ht
      exact ht
    refine (h.killThreads hb c).waits (hb.killThreads c) hw (killThreads_live here.live) (not_adding here.2 rfl)
      ⟨rfl, by simp⟩ ⟨rfl, by simp⟩ rfl fun _ ht => hok (ht.imp hmem)
  | @stopped c here none =>
    obtain ⟨b, hp, -⟩ := killThreads_proc s c c
    have hk := h.killThreads hb c
    refine hk.goto (hb.killThreads c) ⟨?_, not_adding here.2 rfl, by simp, by simp [Pc.clones], fun _ _ => ?_⟩
    · rw [hp]; exact here.live
    refine hk.none_of_zero ?_ (not_adding here.2 rfl)
    rw [hp]
    exact none
  | join here hw =>
    exact h.waits hb hw here.live (not_adding here.2 rfl) ⟨rfl, by simp⟩ ⟨rfl, by simp⟩ rfl fun _ => hok
  | rejoin here hw =>
    exact h.waits hb hw here.live (not_adding here.2 rfl) ⟨rfl, by simp⟩ ⟨rfl, by simp⟩ rfl (by simp)
  | leave here => exact h.leave hb here.2
  | cull thread dead parent => exact h.cull hb thread dead parent hok

theorem boot_threads (th cl su : Bool) (p : Ref) : ((boot th cl su).proc p).threads = fun _ => none := by
  simp only [boot]
  split
  · rfl
  · split <;> rfl

theorem exact_boot (th cl su : Bool) : Exact (boot th cl su) := by
  have hnone : ∀ c t, ¬Member (boot th cl su) c t := by
    rintro c t ⟨ht, -⟩
    simp only [boot] at ht
    split at ht
    · cases ht
    · split at ht <;> cases ht
  constructor
  · intro c t; simp [boot_threads, hnone]
  · intro c i j v hi; simp [boot_threads] at hi
  · intro c
    have hzero : ((boot th cl su).proc c).threadi = 0 := by
      simp only [boot]
      split
      · rfl
      · split <;> rfl
    simp [boot_threads, hzero, entries]
  · exact fun c t ht => absurd ht (hnone c t)
  · intro c np hc; cases hc
  · intro c hc; cases hc
  · intro c hc; cases hc

theorem exact_of_reachable {th cl su} (h : Reachable Tracked (boot th cl su) s) : Base s ∧ Exact s :=
  h.base (exact_boot th cl su) fun hb he hok hs _ => { he.step hb hok hs with }

def threadsOf (s : State) (c : Ref) : Finset Ref :=
  {t | (s.proc t).state ≠ .unused ∧ (s.proc t).type = .thread ∧ (s.proc t).parent = some c}

structure TableExact (s : State) (c : Ref) : Prop where
  entry : ∀ t, (∃ i, (s.proc c).threads i = some t) ↔ t ∈ threadsOf s c
  once : ∀ i j t, (s.proc c).threads i = some t → (s.proc c).threads j = some t → i = j
  count : (s.proc c).threadi.toNat = (threadsOf s c).card
  limit : (threadsOf s c).card ≤ threadmax

theorem mem_threadsOf (hb : Base s) : t ∈ threadsOf s c ↔ Member s c t := by
  have hocc : (s.proc t).parent = some c → ((s.proc t).state ≠ .unused ↔ (s.proc t).state.occupied = true) := by
    intro hp
    have := hb.orphan t
    rw [hp] at this
    cases hst : (s.proc t).state <;> simp_all [Procstate.occupied]
  simp only [threadsOf, Finset.mem_filter, Finset.mem_univ, true_and, Member]
  tauto

theorem Exact.table (h : Exact s) (hb : Base s) (here : ∀ np, s.pc c ≠ .adding np) : TableExact s c := by
  have hset : threadsOf s c = entries (s.proc c).threads := by
    ext t
    rw [mem_threadsOf hb, h.entry]
    exact ⟨fun ht => ⟨ht, here t⟩, fun ht => ht.1⟩
  constructor
  · intro t; rw [hset, mem_entries]
  · exact h.once c
  · rw [hset]; exact h.count c
  · rw [hset]; exact card_entries_le _

theorem Exact.card_threadsOf (h : Exact s) (hb : Base s) (c : Ref) : (threadsOf s c).card ≤ threadmax := by
  by_cases here : ∃ np, s.pc c = .adding np
  · obtain ⟨np, hc⟩ := here
    have hsub : threadsOf s c ⊆ insert np (entries (s.proc c).threads) := fun t ht => by
      rw [mem_threadsOf hb] at ht
      rw [mem_insert, h.entry, hc]
      by_cases htn : t = np
      · exact .inl htn
      · exact .inr ⟨ht, fun he => htn (Pc.adding.inj he).symm⟩
    have hroom := (h.room c (by rw [hc]; rfl)).2
    rw [h.count c] at hroom
    exact (card_le_card hsub).trans ((card_insert_le _ _).trans hroom)
  · exact (h.table hb (not_exists.mp here)).limit

/-- The table of a process is exact whenever it is not in `clone` before `addchild`, and `clone`
makes no thread more than the table can hold. -/
theorem thread_table_exact {th cl su : Bool} (h : Reachable Tracked (boot th cl su) s) :
    (∀ c, (s.proc c).state ≠ .unused → (s.proc c).type = .process → (∀ np, s.pc c ≠ .adding np) → TableExact s c) ∧
    (∀ c, (threadsOf s c).card ≤ threadmax) ∧
    ∀ c stack s', (threadsOf s c).card = threadmax → s.act (.clone c stack) = some s' → s' = s := by
  obtain ⟨hb, he⟩ := exact_of_reachable h
  refine ⟨fun c _ _ here => he.table hb here, he.card_threadsOf hb, fun c stack s' hcard ha => ?_⟩
  unfold act at ha
  split at ha
  · cases ha
  obtain ⟨here, rfl⟩ := guarded_some ha
  have htab := he.table hb (not_adding here.2 rfl)
  rw [if_neg]
  rintro ⟨-, -, hlt⟩
  rw [htab.count, hcard] at hlt
  exact lt_irrefl _ hlt

theorem table_of_joined : ∃ s, (Member s 2 3 ∧ (s.proc 2).state = .running) ∧ TableExact s 2 := by
  obtain ⟨s, h, hmem, hst, htype, hpc⟩ : ∃ s, Reachable Tracked (boot true true false) s ∧ Member s 2 3 ∧
      (s.proc 2).state = .running ∧ (s.proc 2).type = .process ∧ s.pc 2 = .user :=
        exists_run withThread (by decide +kernel)
  refine ⟨s, ⟨hmem, hst⟩, (thread_table_exact h).1 2 (by rw [hst]; exact Procstate.noConfusion) htype fun np hnp => ?_⟩
  simp [hpc] at hnp

/-- A thread exits and is culled before `clone` enters it in the table, where it then stays. -/
theorem table_with_dangling : ∃ s, Reachable (fun _ _ => True) (boot true true false) s ∧ s.pc 2 = .user ∧
    (s.proc 2).state = .running ∧ (s.proc 2).type = .process ∧ (s.proc 2).threads 0 = some 3 ∧
    (s.proc 2).threadi = 1 ∧ (s.proc 3).state = .unused ∧ threadsOf s 2 = ∅ :=
  exists_run [.run 1, .fork 1, .forked 1 true true, .run 2, .clone 2 0x8000, .cloned 2 true, .run 3, .exit 3, .look 3,
    .leave 3, .cull 3, .added 2] (by decide +kernel)

end Xv6Vsd.Tasks
