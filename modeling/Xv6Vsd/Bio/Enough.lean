import Mathlib.Algebra.Order.BigOperators.Group.Finset
import Xv6Vsd.Bio.Lemmas.Header

/-!
# There is always a buffer

`begin_op` reserves `MAXOPBLOCKS` blocks of the log for each operation, and there are as many
buffers as blocks in the log. An operation that logs two blocks less leaves two buffers for those it
holds without having logged them.
-/

namespace Xv6Vsd.Bio

open Function State List Nat

variable {s s' : State} {b c : Buf} {p q i out back : Nat} {d dev : UInt32} {base : List Key}

def appending : List Instr → Option Nat
  | .logAppend i :: _ => some i
  | _ => none

/-- Processes use one disk, only inside of operations, which log at most `n` blocks each and hold at most two
buffers. -/
def OneDisk (d : UInt32) (n : Nat) (s : State) : Act → Prop
  | .call p (.bread key) => key.dev = d ∧ (s.proc p).op = some d ∧ (s.proc p).holds.length ≤ 1
  | .call p (.logged i _) => MayLog s (s.proc p) i
  | .call p (.beginOp dev) => dev = d ∧ (s.proc p).op = none
  | .call p (.endOp dev) => dev = d ∧ (s.proc p).op = some d ∧ (s.proc p).holds = []
  | .go p => ∀ i ∈ appending (s.proc p).code, ∀ b ∈ (s.proc p).holds[i]?,
    (insert (s.buf b).key.blockno (s.proc p).used).card ≤ n
  | _ => True

instance (s : State) (x : Proc) (i : Nat) : Decidable (MayLog s x i) :=
  inferInstanceAs (Decidable (∀ b ∈ x.holds[i]?, _))

instance (d : UInt32) (n : Nat) (s : State) : DecidablePred (OneDisk d n s)
  | .call p (.bread key) =>
    inferInstanceAs (Decidable (key.dev = d ∧ (s.proc p).op = some d ∧ (s.proc p).holds.length ≤ 1))
  | .call p (.logged i _) => inferInstanceAs (Decidable (MayLog s (s.proc p) i))
  | .call _ (.direct _ _) => inferInstanceAs (Decidable True)
  | .call _ (.brelse _) => inferInstanceAs (Decidable True)
  | .call p (.beginOp dev) => inferInstanceAs (Decidable (dev = d ∧ (s.proc p).op = none))
  | .call p (.endOp dev) =>
    inferInstanceAs (Decidable (dev = d ∧ (s.proc p).op = some d ∧ (s.proc p).holds = []))
  | .go p => inferInstanceAs (Decidable (∀ i ∈ appending (s.proc p).code, ∀ b ∈ (s.proc p).holds[i]?,
    (insert (s.buf b).key.blockno (s.proc p).used).card ≤ n))
  | .intr => inferInstanceAs (Decidable True)

theorem OneDisk.proper {n a} (hd : d ≠ nodev) (h : OneDisk d n s a) : Proper s a := by
  cases a with
  | call p c =>
    cases c with
    | bread key => exact fun he => hd (h.1.symm.trans he)
    | logged i x => exact h
    | beginOp dev => exact ⟨fun he => hd (h.1.symm.trans he), h.2⟩
    | endOp dev => exact .inr (h.1 ▸ h.2.1)
    | direct | brelse => trivial
  | go | intr => trivial

theorem OneDisk.append {n rest} (h : OneDisk d n s (.go p))
    (hcode : (s.proc p).code = .logAppend i :: rest) (hb : (s.proc p).holds[i]? = some b) :
    (insert (s.buf b).key.blockno (s.proc p).used).card ≤ n := by
  rw [OneDisk, hcode] at h
  exact h i rfl b hb

/-! ## The invariant -/

def Fits (d : UInt32) (x : Proc) : Prop := match todo x.code with
  | .bread _ :: _ => x.op = some d ∧ x.holds.length ≤ 1
  | .beginOp dev :: _ => dev = d
  | .endOp dev :: _ => dev = d ∧ x.holds = []
  | _ => True

def left (x : Proc) : Nat := maxopblocks - x.used.card

structure Counted (d : UInt32) (s : State) : Prop where
  logged : Logged s
  size : (s.log d).size ≠ 0
  ops : ∀ p dev, (s.proc p).op = some dev → dev = d
  lhs : ∀ dev, dev ≠ d → (s.log dev).lh = []
  commits : ∀ p dev, Commits s p dev → dev = d
  fits : ∀ p, ¬ Commits s p d → Fits d (s.proc p)
  base : ∀ p, Commits s p d → ∃ out back, Committing s p d [] out back
  holders : ∀ p, (s.proc p).holds ≠ [] → (s.proc p).op = some d ∨ Commits s p d
  two : ∀ p, (s.proc p).holds.length ≤ 2
  used : ∀ p, (s.proc p).op = some d → (s.proc p).used.card ≤ maxopblocks - 2 ∧ ∀ x ∈ (s.proc p).used, x ∈ (s.log d).lh
  room : (s.log d).committing = false → ∀ ps, Ops s d ps → (s.log d).lh.length + ∑ p ∈ ps, left (s.proc p) ≤ logsize
  commit : (s.log d).committing = true → (s.log d).lh.length ≤ logsize - 2

namespace Counted

variable (h : Counted d s)
include h

/-! ## Enough buffers -/

theorem card_dirty : (Finset.univ.filter fun b => (s.buf b).dirty = true ∧ (s.buf b).busy = false).card ≤
    (s.log d).lh.length := by
  have hpin : ∀ b, (s.buf b).dirty = true ∧ (s.buf b).busy = false → Pinned s b := by
    rintro b ⟨hdirty, hfree⟩
    refine ⟨hdirty, fun q hq => ?_⟩
    exact h.logged.inv.notMem_holds hfree q (h.logged.held q b hq)
  have hdev : ∀ b, Pinned s b → (s.buf b).key.dev = d := by
    intro b hb
    by_contra hne
    have := h.logged.pinned b hb
    simp [h.lhs _ hne] at this
  have hreal : ∀ b, Pinned s b → (s.buf b).key.dev ≠ nodev := by
    intro b hb hno
    have := h.logged.pinned b hb
    simp [hno, h.logged.realLh] at this
  calc
    _ ≤ (s.log d).lh.toFinset.card := by
      refine Finset.card_le_card_of_injOn (fun b => (s.buf b).key.blockno) (fun b hb => ?_) fun b hb c hc he => ?_
      · have hb := hpin b (by simpa using hb); simpa [hdev b hb] using h.logged.pinned b hb
      have hb := hpin b (by simpa using hb)
      have hc := hpin c (by simpa using hc)
      refine h.logged.inv.unique b c ?_ (hreal b hb)
      cases hkb : (s.buf b).key with
      | mk dev no =>
        cases hkc : (s.buf c).key with
        | mk dev' no' => have hdb := hdev b hb; have hdc := hdev c hc; simp_all
    _ ≤ (s.log d).lh.length := toFinset_card_le _

theorem card_busy {ps} (hps : ∀ p, (s.proc p).holds ≠ [] → p ∈ ps) :
    (Finset.univ.filter fun b => (s.buf b).busy = true).card ≤ ∑ p ∈ ps, (s.proc p).holds.length := by
  calc
    _ ≤ (ps.biUnion fun p => (s.proc p).holds.toFinset).card := by
      refine Finset.card_le_card fun b hb => ?_
      obtain ⟨p, hp⟩ := h.logged.inv.held b (by simpa using hb)
      rw [Finset.mem_biUnion]
      exact ⟨p, hps p (ne_nil_of_mem hp), mem_toFinset.mpr hp⟩
    _ ≤ ∑ p ∈ ps, (s.proc p).holds.toFinset.card := Finset.card_biUnion_le
    _ ≤ ∑ p ∈ ps, (s.proc p).holds.length := Finset.sum_le_sum fun p _ => toFinset_card_le _

variable {key : Key} {rest : List Instr} (hcode : (s.proc p).code = .bread key :: rest)

include hcode

theorem length_holds_of_bread : (s.proc p).holds.length ≤ 1 := by
  by_cases hc : Commits s p d
  · obtain ⟨out, back, hc⟩ := h.base p hc
    have hplan := hc.plan
    have hlength : (keys s p).length = (s.proc p).holds.length := length_map _
    rw [hcode] at hplan
    generalize keys s p = ks at hplan hlength
    cases hplan with
    | bread same few => rwa [hlength] at few
  · have := h.fits p hc; rw [Fits, hcode, todo_of_waiting rfl] at this; exact this.2

theorem card_lt_of_open (hopen : (s.log d).committing = false) :
    (s.log d).lh.length + (Finset.univ.filter fun b => (s.buf b).busy = true).card < nbuf := by
  obtain ⟨ps, hps⟩ := h.logged.ops d
  have hno : ∀ q, ¬ Commits s q d := fun q hq => by
    simp [h.logged.committing_of_commits hq] at hopen
  have hp : p ∈ ps := by
    have := h.fits p (hno p)
    rw [Fits, hcode, todo_of_waiting rfl] at this
    exact (hps.mem p).mpr this.1
  have hbusy : (Finset.univ.filter fun b => (s.buf b).busy = true).card ≤ ∑ p ∈ ps, (s.proc p).holds.length :=
    h.card_busy fun q hq => (hps.mem q).mpr ((h.holders q hq).resolve_right (hno q))
  -- `p` holds one buffer less than it may
  have hholds : ∑ q ∈ ps, (s.proc q).holds.length < ∑ q ∈ ps, 2 := by
    refine Finset.sum_lt_sum (fun q _ => h.two q) ⟨p, hp, ?_⟩
    exact lt_of_le_of_lt (h.length_holds_of_bread hcode) (by decide)
  have hleft : ∑ q ∈ ps, 2 ≤ ∑ q ∈ ps, left (s.proc q) := by
    refine Finset.sum_le_sum fun q hq => ?_
    have := (h.used q ((hps.mem q).mp hq)).1
    simp only [left, maxopblocks] at this ⊢
    omega
  have hroom := h.room hopen ps hps
  simp only [nbuf, logsize, maxopblocks] at hroom ⊢
  omega

theorem card_lt_of_commit (hclosed : (s.log d).committing = true) :
    (s.log d).lh.length + (Finset.univ.filter fun b => (s.buf b).busy = true).card < nbuf := by
  have hno : ∀ q, (s.proc q).op ≠ some d := fun q hq => by
    simp [h.logged.not_committing_of_op hq] at hclosed
  have hp : Commits s p d := by
    by_contra hc
    have := h.fits p hc
    rw [Fits, hcode, todo_of_waiting rfl] at this
    exact hno p this.1
  have hbusy : (Finset.univ.filter fun b => (s.buf b).busy = true).card ≤ ∑ q ∈ {p}, (s.proc q).holds.length :=
    h.card_busy fun q hq => by
      have := (h.holders q hq).resolve_left (hno q)
      simpa using h.logged.one q p d this hp
  rw [Finset.sum_singleton] at hbusy
  have hone := h.length_holds_of_bread hcode
  have hlh := h.commit hclosed
  simp only [nbuf, logsize, maxopblocks] at hlh ⊢
  omega

theorem scan_ne_full : s.scan key ≠ .full := by
  intro hfull
  have hall : ∀ b, (s.buf b).busy = true ∨ (s.buf b).dirty = true ∧ (s.buf b).busy = false := by
    intro b
    have := scan_full h.logged.inv.full_back hfull b
    cases hb : (s.buf b).busy <;> simp_all
  have hcard : nbuf ≤ (Finset.univ.filter fun b => (s.buf b).busy = true).card +
    (Finset.univ.filter fun b => (s.buf b).dirty = true ∧ (s.buf b).busy = false).card := by
    calc
      nbuf = (Finset.univ : Finset Buf).card := by simp
      _ ≤ _ := Finset.card_le_card fun b _ => by simpa using hall b
      _ ≤ _ := Finset.card_union_le _ _
  have hdirty := h.card_dirty
  have hlt : (s.log d).lh.length + (Finset.univ.filter fun b => (s.buf b).busy = true).card < nbuf := by
    cases hc : (s.log d).committing with
    | false => exact h.card_lt_of_open hcode hc
    | true => exact h.card_lt_of_commit hcode hc
  omega

end Counted

/-! ## Steps -/

attribute [local simp] setProc goOn modLog

theorem Goes.length_holds (hg : Goes s p s') : (s'.proc p).holds.length ≤ (s.proc p).holds.length ∨
    (∃ key rest, (s.proc p).code = .bread key :: rest) ∧ (s'.proc p).holds.length = (s.proc p).holds.length + 1 := by
  have hsame := hg.sameCore
  cases hg with
  | hit code => exact .inr ⟨⟨_, _, code⟩, by rw [got_proc, update_self]; rfl⟩
  | recycle code => exact .inr ⟨⟨_, _, code⟩, by rw [recycled_proc, update_self]; rfl⟩
  | sleep => exact .inl (by simp)
  | brelse =>
    refine .inl ?_
    rw [released_proc, if_pos rfl]
    dsimp only
    split <;> exact length_eraseIdx_le _ _
  | iderw code | await code | store code | unlogged code | logWrite code | logAppend code | bwrite code
  | noBegin code | beginOp code | noEnd code | endLast code | endOp code | enter code | copy code | header code
  | clear code | endCommit code =>
    exact .inl (by rw [(hsame code rfl).holds])

def Quiet (code : List Instr) : Prop := match code with
  | .bread _ :: _ => False
  | .beginOp _ :: _ => False
  | .endOp _ :: _ => False
  | _ => True

theorem Quiet.fits {x} (h : Quiet (todo x.code)) : Fits d x := by
  unfold Quiet at h
  unfold Fits
  split <;> simp_all

theorem Goes.quiet (hg : Goes s p s') (hplain : Plain s (s.proc p) (todo (s.proc p).code)) :
    Quiet (todo (s'.proc p).code) ∨ todo (s'.proc p).code = todo (s.proc p).code ∧
      (s'.proc p).op = (s.proc p).op ∧ (s'.proc p).holds = (s.proc p).holds := by
  cases hg with
  | sleep => exact .inr (by simp)
  | hit code =>
    rw [code] at hplain; cases hplain
    rw [got_proc, update_self]
    dsimp only
    split <;> exact .inl trivial
  | recycle code =>
    rw [code] at hplain; cases hplain
    rw [recycled_proc, update_self]
    exact .inl trivial
  | iderw code => exact .inr (by simp [code, todo])
  | @await b rest code =>
    rw [code] at hplain
    have hrest : todo rest = rest := todo_of_waiting hplain.waiting_eq
    exact .inr (by simp [code, todo_await, hrest])
  | bwrite code =>
    rw [code] at hplain; cases hplain
    rw [written_proc, update_self]
    exact .inl trivial
  | brelse code =>
    rw [code] at hplain; cases hplain
    rw [released_proc, if_pos rfl]
    dsimp only
    split <;> exact .inl trivial
  | unlogged | logWrite | endLast => exact .inl (by simp [Quiet, todo])
  | store code | logAppend code | noBegin code | beginOp code | noEnd code | endOp code =>
    rw [code] at hplain
    cases hplain <;> exact .inl (by simp [appended, Quiet, todo])
  | enter code | copy code | header code | clear code | endCommit code =>
    rw [code] at hplain; cases hplain

namespace Counted

variable (h : Counted d s)
include h

theorem not_commits_of_op (hop : (s.proc p).op = some d) (q : Nat) : ¬ Commits s q d := by
  intro hc
  have := h.logged.committing_of_commits hc
  simp [h.logged.not_committing_of_op hop] at this

variable {rest : List Instr} {ps : Finset Nat}

theorem begins (hcode : (s.proc p).code = .beginOp dev :: rest) : dev = d := by
  have hplain := h.logged.plain_of_head (.beginOp dev :: rest) (by rw [hcode]; rfl) nofun
  have := h.fits p fun hc => hplain.not_mem_endCommit (by rw [Commits, hcode] at hc; exact hc)
  rwa [Fits, hcode, todo_of_waiting rfl] at this

theorem ends (hcode : (s.proc p).code = .endOp dev :: rest) : dev = d ∧ (s.proc p).holds = [] := by
  have hplain := h.logged.plain_of_head (.endOp dev :: rest) (by rw [hcode]; rfl) nofun
  have := h.fits p fun hc => hplain.not_mem_endCommit (by rw [Commits, hcode] at hc; exact hc)
  rwa [Fits, hcode, todo_of_waiting rfl] at this

variable (hg : Goes s p s')

include hg

theorem ops_goes (q : Nat) (dev : UInt32) (hop : (s'.proc q).op = some dev) : dev = d :=
  (hg.op_cases hop).elim (h.ops q dev) fun ⟨_, code⟩ => h.begins code

theorem lhs_goes (dev : UInt32) (hdev : dev ≠ d) : (s'.log dev).lh = [] := by
  have hold := h.lhs dev hdev
  have hlog := hg.log dev
  generalize s'.log dev = l at hlog
  cases hlog with
  | append code at_i on_dev => exact absurd (on_dev ▸ h.ops p _ (h.logged.op_of_append code at_i)) hdev
  | clear => rfl
  | same | endCommit | beginOp | endLast | endOp => exact hold

theorem two_goes (q : Nat) : (s'.proc q).holds.length ≤ 2 := by
  rcases eq_or_ne q p with rfl | hq
  · rcases hg.length_holds with hle | ⟨⟨key, rest, hcode⟩, hone⟩
    · exact hle.trans (h.two q)
    · have := h.length_holds_of_bread hcode; omega
  · rw [hg.others.holds q hq]; exact h.two q

theorem self_goes : (∃ out back, Committing s' p d [] out back) ∨ (∀ dev, ¬ Commits s' p dev) ∧ Fits d (s'.proc p) := by
  rcases h.logged.code p with hplain | ⟨dev, base, out, back, hc, -⟩
  · rcases h.logged.plain_self hg hplain with hplain' | ⟨dev, rest, hcode, hc⟩
    · refine .inr ⟨fun dev hc => hplain'.not_mem_endCommit (mem_todo.mp hc), ?_⟩
      rcases hg.quiet hplain with hquiet | ⟨htodo, hop, hholds⟩
      · exact hquiet.fits
      · have := h.fits p fun hc => hplain.not_mem_endCommit (mem_todo.mp hc)
        simpa only [Fits, htodo, hop, hholds] using this
    · obtain ⟨rfl, hnil⟩ := h.ends hcode; rw [keys, hnil] at hc; exact .inl ⟨0, 0, hc⟩
  · have hd := h.commits p dev hc.commits
    obtain ⟨out, back, hc⟩ := h.base p (hd ▸ hc.commits)
    rcases hc.step h.logged.inv hg with ⟨out', back', hc', -⟩ | hlast
    · exact .inl ⟨out', back', hc'⟩
    have hnil : (s'.proc p).code = [] := by rw [hg.endCommit_inv hlast]; simp
    refine .inr ⟨fun dev hc => ?_, ?_⟩
    · simp [Commits, hnil] at hc
    · rw [Fits, hnil]; trivial

theorem commits_goes (q : Nat) (dev : UInt32) (hc : Commits s' q dev) : dev = d := by
  rcases eq_or_ne q p with rfl | hq
  · rcases h.self_goes hg with ⟨out, back, hself⟩ | ⟨hno, -⟩
    · exact hself.eq_of_commits hc
    · exact absurd hc (hno dev)
  · rw [Commits, hg.others.code q hq] at hc; exact h.commits q dev hc

theorem fits_goes (q : Nat) (hno : ¬ Commits s' q d) : Fits d (s'.proc q) := by
  rcases eq_or_ne q p with rfl | hq
  · rcases h.self_goes hg with ⟨out, back, hself⟩ | ⟨-, hfits⟩
    · exact absurd hself.commits hno
    · exact hfits
  · rw [Commits, hg.others.code q hq] at hno
    simpa only [Fits, hg.others.code q hq, hg.others.op q hq, hg.others.holds q hq] using h.fits q hno

theorem base_goes (q : Nat) (hc : Commits s' q d) : ∃ out back, Committing s' q d [] out back := by
  rcases eq_or_ne q p with rfl | hq
  · rcases h.self_goes hg with hself | ⟨hno, -⟩
    · exact hself
    · exact absurd hc (hno d)
  have ho := hg.others
  rw [Commits, ho.code q hq] at hc
  obtain ⟨out, back, hold⟩ := h.base q hc
  obtain ⟨hlh, hcommitting⟩ := h.logged.log_same hg hc hq
  exact ⟨out, back, hold.frame (ho.code q hq) (ho.holds q hq)
    (fun b hb => h.logged.inv.key_of_held (h.logged.inv.goes hg) hb) (ho.start d) hlh hcommitting⟩

theorem op_of_holds (hno : ¬ Commits s p d) (hp : (s'.proc p).holds ≠ []) : (s.proc p).op = some d := by
  by_cases hnil : (s.proc p).holds = []
  · rcases hg.length_holds with hle | ⟨⟨key, rest, hcode⟩, -⟩
    · rw [hnil] at hle; exact absurd (eq_nil_of_length_eq_zero (le_zero.mp hle)) hp
    · have := h.fits p hno; rw [Fits, hcode, todo_of_waiting rfl] at this; exact this.1
  · exact (h.holders p hnil).resolve_right hno

theorem holds_of_last (hcode : (s.proc p).code = [.endCommit d]) : (s'.proc p).holds = [] := by
  obtain ⟨out, back, hc⟩ := h.base p (by rw [Commits, hcode]; exact mem_cons_self)
  have hplan := hc.plan
  have hlength : (keys s p).length = (s.proc p).holds.length := length_map _
  rw [hcode, todo_of_waiting rfl] at hplan
  generalize keys s p = ks at hplan hlength
  have hnil : ks = [] := by cases hplan; rfl
  rw [hg.endCommit_inv hcode]
  simp only [goOn, setProc, modLog, update_self]
  exact eq_nil_of_length_eq_zero (by rw [← hlength, hnil]; rfl)

theorem holders_goes (q : Nat) (hq : (s'.proc q).holds ≠ []) : (s'.proc q).op = some d ∨ Commits s' q d := by
  rcases eq_or_ne q p with rfl | hqp
  · by_cases hc : Commits s q d
    · obtain ⟨out, back, hc⟩ := h.base q hc
      rcases hc.step h.logged.inv hg with ⟨out', back', hc', -⟩ | hlast
      · exact .inr hc'.commits
      · exact absurd (h.holds_of_last hg hlast) hq
    rcases h.self_goes hg with ⟨out, back, hself⟩ | ⟨hno, -⟩
    · exact .inr hself.commits
    refine .inl ?_
    have hop := h.op_of_holds hg hc hq
    have hlength := hg.length_holds
    have hstep := hg.opStep
    generalize (s'.proc q).used = used at hstep
    generalize (s'.proc q).op = op at hstep
    cases hstep with
    | same | append => exact hop
    | opens code => rw [h.begins code]
    | closes code =>
      have hle := hlength.resolve_right fun hb => by
        obtain ⟨⟨key, rest, hcode⟩, -⟩ := hb
        simp [code] at hcode
      rw [(h.ends code).2] at hle
      exact absurd (eq_nil_of_length_eq_zero (le_zero.mp hle)) hq
  · have ho := hg.others
    rw [ho.holds q hqp] at hq
    rw [Commits, ho.op q hqp, ho.code q hqp]
    exact h.holders q hq

theorem mem_lh {x} (hop : (s.proc q).op = some d) (hx : x ∈ (s.log d).lh) : x ∈ (s'.log d).lh := by
  have hlog := hg.log d
  generalize s'.log d = l at hlog
  cases hlog with
  | append =>
    split
    · exact hx
    · exact mem_append_left _ hx
  | clear code => exact absurd (h.logged.commits_of_clear code) (h.not_commits_of_op hop p)
  | same | endCommit | beginOp | endLast | endOp => exact hx

theorem used_goes (hok : OneDisk d (maxopblocks - 2) s (.go p)) (q : Nat) (hop : (s'.proc q).op = some d) :
    (s'.proc q).used.card ≤ maxopblocks - 2 ∧ ∀ x ∈ (s'.proc q).used, x ∈ (s'.log d).lh := by
  rcases eq_or_ne q p with rfl | hq
  · have hmem := fun x => h.mem_lh (q := q) (x := x) hg
    have happ : ∀ i rest, (s.proc q).code = .logAppend i :: rest →
      ∃ b, (s.proc q).holds[i]? = some b ∧ s' = s.appended q b rest := fun _ _ => hg.logAppend_inv
    have hstep := hg.opStep
    generalize (s'.proc q).used = used at hstep
    generalize (s'.proc q).op = op at hstep hop
    cases hstep with
    | same =>
      obtain ⟨hcard, hsub⟩ := h.used q hop
      exact ⟨hcard, fun x hx => hmem x hop (hsub x hx)⟩
    | @append i rest b code at_i =>
      refine ⟨hok.append code at_i, fun x hx => ?_⟩
      rcases Finset.mem_insert.mp hx with rfl | hx
      · obtain ⟨c, hc, rfl⟩ := happ i rest code
        rw [at_i] at hc; cases hc
        have hdev : (s.buf b).key.dev = d := h.ops q _ (h.logged.op_of_append code at_i)
        rw [appended_log, hdev, update_self]
        split
        · assumption
        · exact mem_append_right _ mem_cons_self
      · exact hmem x hop ((h.used q hop).2 x hx)
    | opens => exact ⟨zero_le _, nofun⟩
    | closes => cases hop
  · rw [hg.others.op q hq] at hop
    rw [hg.others.used q hq]
    obtain ⟨hcard, hsub⟩ := h.used q hop
    exact ⟨hcard, fun x hx => h.mem_lh hg hop (hsub x hx)⟩

theorem size_goes : (s'.log d).size ≠ 0 := by rw [hg.others.size]; exact h.size

omit hg

theorem room_of_same (hps : Ops s' d ps) (hopen : (s.log d).committing = false) (hlh : (s'.log d).lh = (s.log d).lh)
    (hop : ∀ q, (s'.proc q).op = (s.proc q).op) (hused : ∀ q, (s'.proc q).used = (s.proc q).used) :
    (s'.log d).lh.length + ∑ p ∈ ps, left (s'.proc p) ≤ logsize := by
  obtain ⟨qs, hqs⟩ := h.logged.ops d
  have heq : ps = qs := Finset.ext fun q => by rw [hps.mem, hqs.mem, hop]
  have hsum : ∑ p ∈ ps, left (s'.proc p) = ∑ p ∈ qs, left (s.proc p) := by
    rw [heq]
    exact Finset.sum_congr rfl fun q _ => by rw [left, left, hused]
  rw [hsum, hlh]
  exact h.room hopen qs hqs

theorem room_append (hok : OneDisk d (maxopblocks - 2) s (.go p)) (hcode : (s.proc p).code = .logAppend i :: rest)
    (hb : (s.proc p).holds[i]? = some b) (hps : Ops (s.appended p b rest) d ps) :
    ((s.appended p b rest).log d).lh.length + ∑ q ∈ ps, left ((s.appended p b rest).proc q) ≤ logsize := by
  have hop := h.logged.op_of_append hcode hb
  have hdev : (s.buf b).key.dev = d := h.ops p _ hop
  rw [hdev] at hop
  obtain ⟨qs, hqs⟩ := h.logged.ops d
  have heq : ps = qs := Finset.ext fun q => by
    rw [hps.mem, hqs.mem, (Goes.logAppend hcode hb).op hcode rfl]
  have hp : p ∈ qs := (hqs.mem p).mpr hop
  have hroom := h.room (h.logged.not_committing_of_op hop) qs hqs
  have hcard := hok.append hcode hb
  rw [← Finset.add_sum_erase qs _ hp] at hroom
  rw [heq, ← Finset.add_sum_erase qs _ hp]
  have hothers : ∑ q ∈ qs.erase p, left ((s.appended p b rest).proc q) = ∑ q ∈ qs.erase p, left (s.proc q) := by
    refine Finset.sum_congr rfl fun q hq => ?_
    rw [left, left, (Goes.logAppend hcode hb).others.used q (Finset.ne_of_mem_erase hq)]
  have hself : ((s.appended p b rest).proc p).used = insert (s.buf b).key.blockno (s.proc p).used := by
    simp [appended]
  rw [hothers, left, hself, appended_log, hdev, update_self]
  dsimp only [left] at hroom ⊢
  split
  · have := Finset.card_le_card (Finset.subset_insert (s.buf b).key.blockno (s.proc p).used); omega
  next hnew =>
  have hnot : (s.buf b).key.blockno ∉ (s.proc p).used := fun hu => hnew ((h.used p hop).2 _ hu)
  rw [Finset.card_insert_of_notMem hnot] at hcard ⊢
  rw [length_append, length_singleton]
  simp only [maxopblocks] at hcard hroom ⊢
  omega

theorem room_begin (hg : Goes s p s') (hlh : (s'.log d).lh = (s.log d).lh)
    (hout : (s'.log d).outstanding = (s.log d).outstanding + 1)
    (hadm : ((s.log d).lh.length : Int) + ((s.log d).outstanding + 1) * maxopblocks ≤ logsize) (hps : Ops s' d ps) :
    (s'.log d).lh.length + ∑ q ∈ ps, left (s'.proc q) ≤ logsize := by
  have hsum : ∑ q ∈ ps, left (s'.proc q) ≤ ps.card * maxopblocks := by
    refine Finset.sum_le_card_nsmul ps _ maxopblocks fun q _ => ?_
    exact sub_le _ _
  have hcount := hps.count (h.size_goes hg)
  rw [hlh]
  rw [hout] at hcount
  rw [hcount] at hadm
  omega

theorem room_end (hg : Goes s p s') (hnone : (s'.proc p).op = none) (hopen : (s.log d).committing = false)
    (hlh : (s'.log d).lh = (s.log d).lh) (hps : Ops s' d ps) :
    (s'.log d).lh.length + ∑ q ∈ ps, left (s'.proc q) ≤ logsize := by
  obtain ⟨qs, hqs⟩ := h.logged.ops d
  have hne : ∀ q ∈ ps, q ≠ p := by rintro q hq rfl; simp [hps.mem, hnone] at hq
  have hsub : ps ⊆ qs := fun q hq => by
    rw [hqs.mem, ← hg.others.op q (hne q hq)]
    exact (hps.mem q).mp hq
  have hsum : ∑ q ∈ ps, left (s'.proc q) = ∑ q ∈ ps, left (s.proc q) :=
    Finset.sum_congr rfl fun q hq => by rw [left, left, hg.others.used q (hne q hq)]
  have hle : ∑ q ∈ ps, left (s.proc q) ≤ ∑ q ∈ qs, left (s.proc q) := Finset.sum_le_sum_of_subset hsub
  have hroom := h.room hopen qs hqs
  rw [hsum, hlh]
  omega

theorem lh_of_endCommit (hcode : (s.proc p).code = .endCommit d :: rest) : (s.log d).lh = [] := by
  obtain ⟨out, back, hc⟩ := h.base p (commits_of_endCommit hcode)
  have hplan := hc.plan
  rw [hcode] at hplan
  generalize keys s p = ks at hplan
  cases hplan with
  | endCommit empty => exact empty

theorem room_goes (hg : Goes s p s') (hok : OneDisk d (maxopblocks - 2) s (.go p))
    (hopen : (s'.log d).committing = false) (ps : Finset Nat) (hps : Ops s' d ps) :
    (s'.log d).lh.length + ∑ p ∈ ps, left (s'.proc p) ≤ logsize := by
  have hop := hg.op
  have hused := hg.used
  have hg' := hg
  cases hg with
  | logAppend code at_i => exact h.room_append hok code at_i hps
  | beginOp code size open_ admitted =>
    obtain rfl := h.begins code
    exact h.room_begin hg' (by simp) (by simp) admitted hps
  | endOp code size open_ =>
    obtain ⟨rfl, -⟩ := h.ends code
    exact h.room_end hg' (by simp) open_ (by simp) hps
  | endLast code => obtain ⟨rfl, -⟩ := h.ends code; simp at hopen
  | noBegin code size => obtain rfl := h.begins code; exact absurd size h.size
  | noEnd code size => obtain ⟨rfl, -⟩ := h.ends code; exact absurd size h.size
  | clear code =>
    have hc := h.logged.commits_of_clear code
    obtain rfl := h.commits p _ hc
    have hclosed := h.logged.committing_of_commits hc
    simp [hclosed] at hopen
  | @endCommit dev rest code =>
    have hc := commits_of_endCommit code
    obtain rfl := h.commits p _ hc
    have hop := hop code rfl
    have hnone : ps = ∅ := by
      obtain ⟨qs, hqs⟩ := h.logged.ops dev
      rw [← hqs.idle (h.logged.committing_of_commits hc)]
      exact Finset.ext fun q => by rw [hps.mem, hqs.mem, hop]
    rw [hnone, Finset.sum_empty]
    simp [h.lh_of_endCommit code]
  | bwrite code =>
    rw [written_log] at hopen
    exact h.room_of_same hps hopen (by rw [written_log]) (hop code rfl) (hused code rfl nofun)
  | hit code | sleep code | recycle code | iderw code | await code | store code | unlogged code | logWrite code
  | brelse code | enter code | copy code | header code =>
    exact h.room_of_same hps hopen rfl (hop code rfl) (hused code rfl nofun)

theorem commit_goes (hg : Goes s p s') (hcommit : (s'.log d).committing = true) :
    (s'.log d).lh.length ≤ logsize - 2 := by
  have hlog := hg.log d
  generalize s'.log d = l at hlog hcommit
  cases hlog with
  | same => exact h.commit hcommit
  | append code at_i on_dev =>
    have hop := h.logged.op_of_append code at_i
    rw [on_dev] at hop
    simp [h.logged.not_committing_of_op hop] at hcommit
  | clear => exact zero_le _
  | endCommit => cases hcommit
  | beginOp code size open_ | endOp code size open_ => simp [open_] at hcommit
  | endLast code size open_ last =>
    obtain ⟨ps, hps⟩ := h.logged.ops d
    have hop := h.logged.op_of_end code size
    have hroom := h.room open_ ps hps
    have hle : left (s.proc p) ≤ ∑ q ∈ ps, left (s.proc q) :=
      Finset.single_le_sum (f := fun q => left (s.proc q)) (fun q _ => zero_le _) ((hps.mem p).mpr hop)
    have hcard := (h.used p hop).1
    simp only [left, maxopblocks, logsize] at hle hroom hcard ⊢
    omega

theorem goes (hg : Goes s p s') (hok : OneDisk d (maxopblocks - 2) s (.go p)) : Counted d s' where
  logged := h.logged.goes hg
  size := h.size_goes hg
  ops := h.ops_goes hg
  lhs := h.lhs_goes hg
  commits := h.commits_goes hg
  fits := h.fits_goes hg
  base := h.base_goes hg
  holders := h.holders_goes hg
  two := h.two_goes hg
  used := h.used_goes hg hok
  room := h.room_goes hg hok
  commit := h.commit_goes hg

theorem of_others (hlogged : Logged s') (ho : Others s s' p) (hsame : SameCore s s') (hlog : s'.log = s.log)
    (hop : (s'.proc p).op = (s.proc p).op) (hused : (s'.proc p).used = (s.proc p).used)
    (hcode : (s'.proc p).code = (s.proc p).code ∨
      (s.proc p).code = [] ∧ Fits d (s'.proc p) ∧ ∀ dev, ¬ Commits s' p dev) : Counted d s' := by
  have hops : ∀ q, (s'.proc q).op = (s.proc q).op := fun q => by
    rcases eq_or_ne q p with rfl | hq
    · exact hop
    · exact ho.op q hq
  have huseds : ∀ q, (s'.proc q).used = (s.proc q).used := fun q => by
    rcases eq_or_ne q p with rfl | hq
    · exact hused
    · exact ho.used q hq
  have hcodes : ∀ q, (s'.proc q).code = (s.proc q).code ∨
    (s.proc q).code = [] ∧ Fits d (s'.proc q) ∧ ∀ dev, ¬ Commits s' q dev := fun q => by
    rcases eq_or_ne q p with rfl | hq
    · exact hcode
    · exact .inl (ho.code q hq)
  refine ⟨hlogged, by rw [hlog]; exact h.size, fun q dev hq => h.ops q dev (hops q ▸ hq),
    fun dev hdev => by rw [hlog]; exact h.lhs dev hdev, fun q dev hq => ?_, fun q hq => ?_, fun q hq => ?_,
    fun q hq => ?_, fun q => by rw [hsame.holds]; exact h.two q, fun q hq => ?_, fun hopen ps hps => ?_,
    fun hc => by rw [hlog] at hc ⊢; exact h.commit hc⟩
  · rcases hcodes q with he | ⟨-, -, hno⟩
    · rw [Commits, he] at hq; exact h.commits q dev hq
    · exact absurd hq (hno dev)
  · rcases hcodes q with he | ⟨-, hfits, -⟩
    · rw [Commits, he] at hq; simpa only [Fits, he, hops, hsame.holds] using h.fits q hq
    · exact hfits
  · rcases hcodes q with he | ⟨-, -, hno⟩
    · rw [Commits, he] at hq
      obtain ⟨out, back, hc⟩ := h.base q hq
      exact ⟨out, back, hc.frame he (hsame.holds q) (fun b _ => hsame.key b) (by rw [hlog]) (by rw [hlog])
        (by rw [hlog])⟩
    · exact absurd hq (hno d)
  · rw [hsame.holds] at hq
    rw [hops]
    rcases h.holders q hq with hop | hc
    · exact .inl hop
    rcases hcodes q with he | ⟨hnil, -⟩
    · exact .inr (by rwa [Commits, he])
    · simp [Commits, hnil] at hc
  · rw [hops] at hq; rw [huseds, hlog]; exact h.used q hq
  · rw [hlog] at hopen; exact h.room_of_same hps hopen (by rw [hlog]) hops huseds

theorem call {a n} (hd : d ≠ nodev) (hok : OneDisk d n s (.call p a)) (hidle : (s.proc p).code = []) :
    Counted d (s.goOn p a.code) := by
  refine h.of_others (h.logged.call (hok.proper hd) hidle) (.of_proc rfl rfl) (.goOn _) rfl (by simp)
    (by simp) (.inr ⟨hidle, ?_, fun dev => ?_⟩)
  · simp only [goOn, setProc, update_self]
    cases a with
    | bread key => exact hok.2
    | beginOp dev => exact hok.1
    | endOp dev => exact ⟨hok.1, hok.2.2⟩
    | logged | direct | brelse => trivial
  · simp only [Commits, goOn, setProc, update_self]
    exact (plain_call (hok.proper hd)).not_mem_endCommit

theorem served (queue : List Buf) : Counted d (s.served b queue) := by
  have hproc : ∀ q, ((s.served b queue).proc q).op = (s.proc q).op ∧
    ((s.served b queue).proc q).used = (s.proc q).used ∧ ((s.served b queue).proc q).code = (s.proc q).code := by
    intro q
    rw [served_proc]
    split <;> exact ⟨rfl, rfl, rfl⟩
  exact h.of_others (h.logged.served queue) (others_served 0 queue) (sameCore_served queue) (s.served_log queue)
    (hproc 0).1 (hproc 0).2.1 (.inl (hproc 0).2.2)

theorem act_ne_panic (a : Act) : s.act a ≠ .panic "bget: no buffers" := by
  intro ha
  cases a with
  | call p c =>
    simp only [act] at ha
    split at ha <;> cases ha
  | go p => obtain ⟨key, rest, hcode, hfull⟩ := go_full ha; exact h.scan_ne_full hcode hfull
  | intr =>
    simp only [act, ideintr] at ha
    split at ha <;> cases ha

end Counted

theorem counted_binit (disk : Key → Block) {log} (hlog : Fresh log) (hsize : (log d).size ≠ 0) :
    Counted d (binit disk log) := by
  have hproc := binit_proc disk log
  have hlogs := binit_log disk log
  refine ⟨logged_binit disk hlog, by rwa [hlogs], fun p dev => ?_, fun dev _ => by rw [hlogs]; exact (hlog dev).1,
    fun p dev hp => ?_, fun p _ => ?_, fun p hp => ?_, fun p hp => ?_, fun p => ?_, fun p hp => ?_,
    fun _ ps hps => ?_, fun hc => ?_⟩
  · rw [hproc]; nofun
  · rw [Commits, hproc] at hp; cases hp
  · rw [hproc]; trivial
  · rw [Commits, hproc] at hp; cases hp
  · rw [hproc] at hp; exact absurd rfl hp
  · rw [hproc]; exact zero_le _
  · rw [hproc] at hp; cases hp
  · have hnone : ps = ∅ := by
      refine Finset.eq_empty_of_forall_notMem fun p hp => ?_
      rw [hps.mem, hproc] at hp; cases hp
    rw [hnone, hlogs, (hlog d).1]
    exact zero_le _
  · rw [hlogs, (hlog d).2.2] at hc; cases hc

/-- With operations that log at most `MAXOPBLOCKS - 2` blocks `bget` always finds a buffer. -/
theorem always_a_buffer {disk : Key → Block} {log : UInt32 → Log} (hd : d ≠ nodev) (hlog : Fresh log)
    (hsize : (log d).size ≠ 0) (h : Reachable (OneDisk d (maxopblocks - 2)) (binit disk log) s) (a : Act) :
    s.act a ≠ .panic "bget: no buffers" := by
  have hcounted : Counted d s := by
    induction h with
    | start => exact counted_binit disk hlog hsize
    | step _ hok ha ih =>
      cases act_acts ih.logged.inv.full ha with
      | call idle => exact ih.call hd hok idle
      | go awake goes => exact ih.goes goes hok
      | intr => exact ih.served _
  exact hcounted.act_ne_panic a

def emptyLogs (_ : UInt32) : Log := ⟨2, logsize, 0, false, []⟩

def logBlock (p : Nat) (blockno : UInt32) : List Act :=
  [.call p (.bread ⟨0, blockno⟩), .go p, .go p, .intr, .go p, .call p (.logged 0 .zero), .go p, .go p, .go p,
    .call p (.brelse 0), .go p]

theorem a_buffer_for_two_operations : ∃ s : State, (s.log 0).lh = [40, 41] ∧ (s.proc 1).op = some 0 ∧
    s.act (.go 1) ≠ .panic "bget: no buffers" := by
  obtain ⟨s, h, hlh, hop⟩ : ∃ s, Reachable (OneDisk 0 (maxopblocks - 2)) (binit (fun _ => .zero) emptyLogs) s ∧
      (s.log 0).lh = [40, 41] ∧ (s.proc 1).op = some 0 :=
    plays_reachable ([.call 0 (.beginOp 0), .go 0, .call 1 (.beginOp 0), .go 1] ++ logBlock 0 40 ++ logBlock 0 41 ++
      [.call 1 (.bread ⟨0, 42⟩)]) .start (by decide +kernel)
  exact ⟨s, hlh, hop, always_a_buffer (by decide) (fun _ => ⟨rfl, rfl, rfl⟩) (by decide) h (.go 1)⟩

/-- Three operations log 29 blocks, ten each at most, and hold one buffer. -/
theorem bget_without_buffer : ∃ s : State, Reachable (OneDisk 0 maxopblocks) (binit (fun _ => .zero) emptyLogs) s ∧
    s.act (.go 1) = .panic "bget: no buffers" := by
  obtain ⟨s, h, hs⟩ : ∃ s, Reachable (OneDisk 0 maxopblocks) (binit (fun _ => .zero) emptyLogs) s ∧
      (s.act (.go 1)).panics "bget: no buffers" = true :=
    plays_reachable ([.call 0 (.beginOp 0), .go 0, .call 1 (.beginOp 0), .go 1, .call 2 (.beginOp 0), .go 2] ++
      ((range 29).flatMap fun k => logBlock (k / 10) (UInt32.ofNat (100 + k))) ++
      [.call 0 (.bread ⟨0, 200⟩), .go 0, .call 1 (.bread ⟨0, 201⟩)]) .start (by decide +kernel)
  exact ⟨s, h, Res.panics_eq hs⟩

end Xv6Vsd.Bio
