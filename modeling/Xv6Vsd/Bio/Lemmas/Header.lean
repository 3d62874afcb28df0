import Xv6Vsd.Bio.Lemmas.Commit

/-!
# Dirty buffers are in the header of their log

Processes that log only inside of their operations keep every dirty buffer that is not about to be written named in
the header of its log; `commit` clears the header only after it has written them all.
-/

namespace Xv6Vsd.Bio

open Function State List

variable {s s' : State} {b c : Buf} {p q i out back : Nat} {dev : UInt32} {base : List Key}

/-! ## Logs and operations in a step -/

inductive LogStep (s : State) (p : Nat) (dev : UInt32) : Log → Prop
  | same : LogStep s p dev (s.log dev)
  | append {i rest b} (code : (s.proc p).code = .logAppend i :: rest)
    (at_i : (s.proc p).holds[i]? = some b) (on_dev : (s.buf b).key.dev = dev) :
    LogStep s p dev { s.log dev with
      lh := if (s.buf b).key.blockno ∈ (s.log dev).lh then (s.log dev).lh
        else (s.log dev).lh ++ [(s.buf b).key.blockno] }
  | clear {rest} (code : (s.proc p).code = .clear dev :: rest) :
    LogStep s p dev { s.log dev with lh := [] }
  | endCommit {rest} (code : (s.proc p).code = .endCommit dev :: rest) :
    LogStep s p dev { s.log dev with committing := false }
  | beginOp {rest} (code : (s.proc p).code = .beginOp dev :: rest) (size : (s.log dev).size ≠ 0)
    (open_ : (s.log dev).committing = false)
    (admitted : ((s.log dev).lh.length : Int) + ((s.log dev).outstanding + 1) * maxopblocks ≤ logsize) :
    LogStep s p dev { s.log dev with outstanding := (s.log dev).outstanding + 1 }
  | endLast {rest} (code : (s.proc p).code = .endOp dev :: rest) (size : (s.log dev).size ≠ 0)
    (open_ : (s.log dev).committing = false) (last : (s.log dev).outstanding = 1) :
    LogStep s p dev { s.log dev with outstanding := (s.log dev).outstanding - 1, committing := true }
  | endOp {rest} (code : (s.proc p).code = .endOp dev :: rest) (size : (s.log dev).size ≠ 0)
    (open_ : (s.log dev).committing = false) (more : (s.log dev).outstanding ≠ 1) :
    LogStep s p dev { s.log dev with outstanding := (s.log dev).outstanding - 1 }

theorem logStep_update {dev' l} (hlog : s'.log = update s.log dev' l) (h : LogStep s p dev' l) :
    LogStep s p dev (s'.log dev) := by
  rw [hlog, update_apply]
  split
  · next he => rwa [he]
  · exact .same

theorem Goes.log (hg : Goes s p s') (dev : UInt32) : LogStep s p dev (s'.log dev) := by
  cases hg with
  | logAppend code at_i => exact logStep_update rfl (.append code at_i rfl)
  | beginOp code size open_ admitted => exact logStep_update rfl (.beginOp code size open_ admitted)
  | endLast code size open_ last => exact logStep_update rfl (.endLast code size open_ last)
  | endOp code size open_ more => exact logStep_update rfl (.endOp code size open_ more)
  | clear code => exact logStep_update rfl (.clear code)
  | endCommit code => exact logStep_update rfl (.endCommit code)
  | bwrite => rw [written_log]; exact .same
  | hit | sleep | recycle | iderw | await | store | unlogged | logWrite | brelse | noBegin | noEnd | enter | copy
  | header => exact .same

inductive OpStep (s : State) (p : Nat) : Option UInt32 → Finset UInt32 → Prop
  | same : OpStep s p (s.proc p).op (s.proc p).used
  | append {i rest b} (code : (s.proc p).code = .logAppend i :: rest) (at_i : (s.proc p).holds[i]? = some b) :
    OpStep s p (s.proc p).op (insert (s.buf b).key.blockno (s.proc p).used)
  | opens {dev rest} (code : (s.proc p).code = .beginOp dev :: rest) : OpStep s p (some dev) ∅
  | closes {dev rest} (code : (s.proc p).code = .endOp dev :: rest) : OpStep s p none ∅

attribute [local simp] setProc goOn modLog

theorem Goes.opStep (hg : Goes s p s') : OpStep s p (s'.proc p).op (s'.proc p).used := by
  cases hg with
  | hit => rw [got_proc, update_self]; exact .same
  | recycle => rw [recycled_proc, update_self]; exact .same
  | bwrite => rw [written_proc, update_self]; exact .same
  | brelse =>
    rw [released_proc, if_pos rfl]
    dsimp only
    split <;> exact .same
  | logAppend code at_i => simpa [appended] using OpStep.append code at_i
  | beginOp code => simpa using OpStep.opens code
  | endLast code | endOp code => simpa using OpStep.closes code
  | sleep | iderw | await | store | unlogged | logWrite | noBegin | noEnd | enter | copy | header | clear
  | endCommit => simpa [modBuf] using OpStep.same

def Instr.counts : Instr → Bool
  | .beginOp _ | .endOp _ => true
  | _ => false

section

variable (hg : Goes s p s') ⦃instr : Instr⦄ ⦃rest : List Instr⦄ (hcode : (s.proc p).code = instr :: rest)
include hg hcode

theorem Goes.op (hi : instr.counts = false) (q : Nat) : (s'.proc q).op = (s.proc q).op := by
  rcases eq_or_ne q p with rfl | hq
  · have hstep := hg.opStep
    generalize (s'.proc q).op = op at hstep
    generalize (s'.proc q).used = used at hstep
    cases hstep with
    | same | append => rfl
    | opens code | closes code => rw [hcode] at code; cases code; cases hi
  · exact hg.others.op q hq

theorem Goes.used (hi : instr.counts = false) (happend : ∀ i, instr ≠ .logAppend i) (q : Nat) :
    (s'.proc q).used = (s.proc q).used := by
  rcases eq_or_ne q p with rfl | hq
  · have hstep := hg.opStep
    generalize (s'.proc q).op = op at hstep
    generalize (s'.proc q).used = used at hstep
    cases hstep with
    | same => rfl
    | append code => rw [hcode] at code; cases code; exact absurd rfl (happend _)
    | opens code | closes code => rw [hcode] at code; cases code; cases hi
  · exact hg.others.used q hq

theorem Goes.counts (hi : instr.counts = false) (dev : UInt32) : (s'.log dev).outstanding = (s.log dev).outstanding ∧
      ((s'.log dev).committing = true → (s.log dev).committing = true) := by
  have hlog := hg.log dev
  generalize s'.log dev = l at hlog
  cases hlog with
  | same | append | clear => exact ⟨rfl, id⟩
  | endCommit => exact ⟨rfl, nofun⟩
  | beginOp code | endLast code | endOp code => rw [hcode] at code; cases code; cases hi

end

theorem Goes.op_cases (hg : Goes s p s') (hop : (s'.proc q).op = some dev) :
    (s.proc q).op = some dev ∨ ∃ rest, (s.proc p).code = .beginOp dev :: rest := by
  rcases eq_or_ne q p with rfl | hq
  · have hstep := hg.opStep
    generalize (s'.proc q).used = used at hstep
    generalize (s'.proc q).op = op at hstep hop
    cases hstep with
    | same | append => exact .inl hop
    | opens code => cases hop; exact .inr ⟨_, code⟩
    | closes => cases hop
  · rw [hg.others.op q hq] at hop; exact .inl hop

structure Ops (s : State) (dev : UInt32) (ps : Finset Nat) : Prop where
  mem : ∀ p, p ∈ ps ↔ (s.proc p).op = some dev
  none : (s.log dev).size = 0 → ps = ∅
  count : (s.log dev).size ≠ 0 → (s.log dev).outstanding = ps.card
  idle : (s.log dev).committing = true → ps = ∅

section Ops

variable {ps : Finset Nat}

theorem Ops.of_same (h : Ops s dev ps) (hop : ∀ q, (s'.proc q).op = (s.proc q).op)
    (hsize : (s'.log dev).size = (s.log dev).size) (hout : (s'.log dev).outstanding = (s.log dev).outstanding)
    (hcommit : (s'.log dev).committing = true → (s.log dev).committing = true) : Ops s' dev ps where
  mem := fun p => by rw [hop]; exact h.mem p
  none := by rw [hsize]; exact h.none
  count := by rw [hsize, hout]; exact h.count
  idle := fun hc => h.idle (hcommit hc)

theorem Ops.elsewhere (h : Ops s dev ps) (hop : ∀ q, q ≠ p → (s'.proc q).op = (s.proc q).op)
    (hold : (s.proc p).op ≠ some dev) (hnew : (s'.proc p).op ≠ some dev) (hlog : s'.log dev = s.log dev) :
    Ops s' dev ps where
  mem := fun q => by
    rcases eq_or_ne q p with rfl | hq
    · rw [h.mem]; exact iff_of_false hold hnew
    · rw [hop q hq]; exact h.mem q
  none := by rw [hlog]; exact h.none
  count := by rw [hlog]; exact h.count
  idle := by rw [hlog]; exact h.idle

theorem Ops.insert (h : Ops s dev ps) (hop : ∀ q, q ≠ p → (s'.proc q).op = (s.proc q).op)
    (hold : (s.proc p).op = .none) (hnew : (s'.proc p).op = some dev) (hsize : (s'.log dev).size ≠ 0)
    (hsize' : (s'.log dev).size = (s.log dev).size)
    (hout : (s'.log dev).outstanding = (s.log dev).outstanding + 1) (hopen : (s'.log dev).committing = false) :
    Ops s' dev (insert p ps) where
  mem := fun q => by
    rw [Finset.mem_insert]
    rcases eq_or_ne q p with rfl | hq
    · exact iff_of_true (.inl rfl) hnew
    · rw [hop q hq, ← h.mem q]; exact or_iff_right hq
  none := fun hz => absurd hz hsize
  count := fun _ => by
    have hp : p ∉ ps := by rw [h.mem, hold]; nofun
    rw [hout, h.count (hsize' ▸ hsize), Finset.card_insert_of_notMem hp]
    push_cast
    rfl
  idle := by rw [hopen]; nofun

theorem Ops.erase (h : Ops s dev ps) (hop : ∀ q, q ≠ p → (s'.proc q).op = (s.proc q).op)
    (hold : (s.proc p).op = some dev) (hnew : (s'.proc p).op = .none)
    (hsize : (s'.log dev).size = (s.log dev).size)
    (hout : (s'.log dev).outstanding = (s.log dev).outstanding - 1)
    (hlast : (s'.log dev).committing = true → (s.log dev).outstanding = 1) : Ops s' dev (ps.erase p) := by
  have hp : p ∈ ps := (h.mem p).mpr hold
  have hne : (s.log dev).size ≠ 0 := fun hz => by rw [h.none hz] at hp; cases hp
  have hcard := h.count hne
  have hcard' := Finset.card_erase_of_mem hp
  have hpos := Finset.card_pos.mpr ⟨p, hp⟩
  refine ⟨fun q => ?_, fun hz => absurd (hsize ▸ hz) hne, fun _ => ?_, fun hc => ?_⟩
  · rw [Finset.mem_erase]
    rcases eq_or_ne q p with rfl | hq
    · exact iff_of_false (fun hq => hq.1 rfl) (by rw [hnew]; nofun)
    · rw [hop q hq, ← h.mem q]; exact and_iff_right hq
  · rw [hout]; omega
  · have := hlast hc; exact Finset.card_eq_zero.mp (by omega)

end Ops

/-! ## The invariant -/

def Commits (s : State) (p : Nat) (dev : UInt32) : Prop := .endCommit dev ∈ (s.proc p).code

def Installed (s : State) (dev : UInt32) (back : Nat) : Prop :=
  ∀ t < back, ∀ b, (s.buf b).key = home dev (s.log dev).lh t → ¬ Pinned s b

structure Logged (s : State) : Prop where
  inv : Inv s
  held : ∀ p b, waiting (s.proc p).code = some b → b ∈ (s.proc p).holds
  code : ∀ p, Plain s (s.proc p) (todo (s.proc p).code) ∨
    ∃ dev base out back, Committing s p dev base out back ∧ Installed s dev back
  one : ∀ p q dev, Commits s p dev → Commits s q dev → p = q
  ops : ∀ dev, ∃ ps, Ops s dev ps
  realOp : ∀ p dev, (s.proc p).op = some dev → dev ≠ nodev
  pinned : ∀ b, Pinned s b → (s.buf b).key.blockno ∈ (s.log (s.buf b).key.dev).lh
  realLh : (s.log nodev).lh = []

theorem mem_todo {code} : .endCommit dev ∈ code ↔ .endCommit dev ∈ todo code := by
  unfold todo
  split <;> simp

theorem Committing.commits (h : Committing s p dev base out back) : Commits s p dev :=
  mem_todo.mpr (h.plan.mem_endCommit.mpr rfl)

theorem Committing.eq_of_commits {dev'} (h : Committing s p dev base out back) (hc : Commits s p dev') : dev' = dev :=
  h.plan.mem_endCommit.mp (mem_todo.mp hc)

theorem commits_of_endCommit {rest} (hcode : (s.proc p).code = .endCommit dev :: rest) : Commits s p dev := by
  rw [Commits, hcode]
  exact mem_cons_self

theorem Goes.commits (hg : Goes s p s') (hc : Commits s' p dev) : Commits s p dev ∨ (s.log dev).committing = false := by
  unfold Commits at hc ⊢
  cases hg with
  | hit code =>
    rw [got_proc, update_self] at hc
    dsimp only at hc
    rw [code]
    split at hc <;> simp_all
  | recycle code => rw [recycled_proc, update_self] at hc; simp_all
  | brelse code =>
    rw [released_proc, if_pos rfl] at hc
    dsimp only at hc
    rw [code]
    split at hc <;> simp_all
  | bwrite code => rw [written_proc, update_self] at hc; simp_all
  | endLast code size open_ =>
    simp only [setProc, update_self] at hc
    simp only [mem_cons, reduceCtorEq, Instr.endCommit.injEq, false_or] at hc
    rcases hc with rfl | hc
    · exact .inr open_
    · exact .inl (by rw [code]; exact mem_cons_of_mem _ hc)
  | @enter f dev' rest code =>
    simp only [goOn, setProc, update_self, mem_append] at hc
    exact .inl (by rw [code]; exact mem_cons_of_mem _ (hc.resolve_left (s.endCommit_notMem_body f)))
  | logAppend code => simp_all [appended]
  | sleep code | iderw code | await code | store code | unlogged code | logWrite code | noBegin code | beginOp code
  | noEnd code | endOp code | copy code | header code | clear code | endCommit code =>
    simp_all

namespace Logged

variable (h : Logged s)
include h

theorem plain_of_head (code : List Instr) (hcode : todo (s.proc p).code = code)
    (hno : ∀ {dev start base lh out back ks}, ¬ Plan dev start base lh out back ks code) :
    Plain s (s.proc p) code := by
  rcases h.code p with hp | ⟨dev, base, out, back, hc, -⟩
  · rwa [hcode] at hp
  · have := hc.plan; rw [hcode] at this; exact absurd this hno

theorem committing_of_head (code : List Instr) (hcode : todo (s.proc p).code = code) (hno : ¬ Plain s (s.proc p) code) :
    ∃ dev base out back, Committing s p dev base out back ∧ Installed s dev back := by
  rcases h.code p with hp | hc
  · exact absurd (hcode ▸ hp) hno
  · exact hc

theorem op_of_append {rest} (hcode : (s.proc p).code = .logAppend i :: rest) (hb : (s.proc p).holds[i]? = some b) :
    (s.proc p).op = some (s.buf b).key.dev := by
  have := h.plain_of_head (.logAppend i :: rest) (by rw [hcode]; rfl) nofun
  cases this with
  | logAppend op => exact op b hb

theorem not_committing_of_op (hop : (s.proc p).op = some dev) : (s.log dev).committing = false := by
  obtain ⟨ps, hps⟩ := h.ops dev
  have hp := (hps.mem p).mpr hop
  rw [← Bool.not_eq_true]
  intro hc
  simp [hps.idle hc] at hp

theorem committing_of_commits (hc : Commits s p dev) : (s.log dev).committing = true := by
  rcases h.code p with hp | ⟨dev', base, out, back, hcm, -⟩
  · exact absurd (mem_todo.mp hc) hp.not_mem_endCommit
  · rw [hcm.eq_of_commits hc]; exact hcm.committing

theorem commits_of_clear {rest} (hcode : (s.proc p).code = .clear dev :: rest) : Commits s p dev := by
  obtain ⟨dev', base, out, back, hc, -⟩ := h.committing_of_head (.clear dev :: rest) (by rw [hcode]; rfl) nofun
  have hplan := hc.plan
  rw [hcode] at hplan
  generalize keys s p = ks at hplan
  cases hplan with
  | clear => exact hc.commits

theorem log_same (hg : Goes s p s') (hq : Commits s q dev) (hqp : q ≠ p) :
    (s'.log dev).lh = (s.log dev).lh ∧ (s'.log dev).committing = (s.log dev).committing := by
  have hcommitting := h.committing_of_commits hq
  have hlog := hg.log dev
  generalize s'.log dev = l at hlog
  cases hlog with
  | same => exact ⟨rfl, rfl⟩
  | append code at_i on_dev =>
    have hop := h.op_of_append code at_i
    rw [on_dev] at hop
    simp [h.not_committing_of_op hop] at hcommitting
  | clear code => exact absurd (h.one q p dev hq (h.commits_of_clear code)) hqp
  | endCommit code => exact absurd (h.one q p dev hq (commits_of_endCommit code)) hqp
  | beginOp code size open_ | endLast code size open_ => rw [open_] at hcommitting; cases hcommitting
  | endOp code size open_ => rw [open_] at hcommitting; cases hcommitting

end Logged

/-! ## Steps -/

section Frame

variable {x x' : Proc} {code : List Instr}

theorem MayLog.frame (h : MayLog s x i) (hholds : x'.holds = x.holds) (hop : x'.op = x.op)
    (hkey : ∀ b ∈ x.holds, (s'.buf b).key = (s.buf b).key)
    (hsize : ∀ dev, (s'.log dev).size = (s.log dev).size) : MayLog s' x' i := by
  intro b hb
  rw [hholds] at hb
  rw [hsize, hkey b (mem_of_getElem? hb), hop]
  exact h b hb

theorem Plain.frame (h : Plain s x code) (hholds : x'.holds = x.holds) (hop : x'.op = x.op)
    (hkey : ∀ b ∈ x.holds, (s'.buf b).key = (s.buf b).key)
    (hsize : ∀ dev, (s'.log dev).size = (s.log dev).size) : Plain s' x' code := by
  cases h with
  | idle => exact .idle
  | bread real => exact .bread real
  | logged may => exact .logged (may.frame hholds hop hkey hsize)
  | logWrite may => exact .logWrite (may.frame hholds hop hkey hsize)
  | logAppend op =>
    refine .logAppend fun b hb => ?_
    rw [hholds] at hb
    rw [hop, hkey b (mem_of_getElem? hb)]
    exact op b hb
  | direct => exact .direct
  | bwrite => exact .bwrite
  | brelse => exact .brelse
  | beginOp real op => exact .beginOp real (hop.trans op)
  | endOp op => exact .endOp (by rw [hsize, hop]; exact op)

theorem Inv.key_of_held (h : Inv s) (hc : Change s s') (hb : b ∈ (s.proc q).holds) :
    (s'.buf b).key = (s.buf b).key := by
  by_contra hne
  have := (hc.recycled hne).1
  simp [h.busy q b hb] at this

theorem Committing.frame (h : Committing s q dev base out back) (hcode : (s'.proc q).code = (s.proc q).code)
    (hholds : (s'.proc q).holds = (s.proc q).holds)
    (hkey : ∀ b ∈ (s.proc q).holds, (s'.buf b).key = (s.buf b).key)
    (hstart : (s'.log dev).start = (s.log dev).start) (hlh : (s'.log dev).lh = (s.log dev).lh)
    (hcommitting : (s'.log dev).committing = (s.log dev).committing) : Committing s' q dev base out back where
  plan := by
    have hkeys : keys s' q = keys s q := by rw [keys, hholds, map_congr_left hkey]; rfl
    rw [hcode, hkeys, hstart, hlh]
    exact h.plan
  real := h.real
  committing := hcommitting.trans h.committing

end Frame

namespace Logged

variable (h : Logged s)
include h

theorem installed (hg : Goes s p s') (hi : Installed s dev back) (hlh : (s'.log dev).lh = (s.log dev).lh)
    (hc : (s.log dev).committing = true) : Installed s' dev back := by
  intro t ht b hb hpin
  obtain ⟨hkey, hold | ⟨i, rest, code, hbi⟩⟩ := hg.pinned hpin
  · rw [hkey, hlh] at hb; exact hi t ht b hb hold
  have hop := h.op_of_append code hbi
  rw [← hkey, hb] at hop
  have hopen : (s.log dev).committing = false := h.not_committing_of_op hop
  simp [hopen] at hc

theorem code_other (hg : Goes s p s') (hqp : q ≠ p) : Plain s' (s'.proc q) (todo (s'.proc q).code) ∨
    ∃ dev base out back, Committing s' q dev base out back ∧ Installed s' dev back := by
  have ho := hg.others
  have hkey : ∀ b ∈ (s.proc q).holds, (s'.buf b).key = (s.buf b).key := fun b hb => h.inv.key_of_held (h.inv.goes hg) hb
  rcases h.code q with hplain | ⟨dev, base, out, back, hc, hi⟩
  · rw [ho.code q hqp]; exact .inl (hplain.frame (ho.holds q hqp) (ho.op q hqp) hkey ho.size)
  obtain ⟨hlh, hcommitting⟩ := h.log_same hg hc.commits hqp
  exact .inr ⟨dev, base, out, back, hc.frame (ho.code q hqp) (ho.holds q hqp) hkey (ho.start dev) hlh hcommitting,
    h.installed hg hi hlh hc.committing⟩

theorem plain_self (hg : Goes s p s') (hplain : Plain s (s.proc p) (todo (s.proc p).code)) :
    Plain s' (s'.proc p) (todo (s'.proc p).code) ∨
      ∃ dev rest, (s.proc p).code = .endOp dev :: rest ∧ Committing s' p dev (keys s p) 0 0 := by
  have hsame := hg.sameCore
  have hsize := hg.others.size
  have hop := hg.op
  cases hg with
  | hit code =>
    rw [code] at hplain; cases hplain
    rw [got_proc, update_self]
    dsimp only
    split <;> exact .inl .idle
  | recycle code =>
    rw [code] at hplain; cases hplain
    rw [recycled_proc, update_self]
    exact .inl .idle
  | sleep code =>
    rw [code] at hplain
    cases hplain with
    | bread real =>
      refine .inl ?_
      simp only [setProc, update_self, code]
      exact .bread real
  | iderw code =>
    have hs := hsame code rfl
    have ho := hop code rfl
    rw [code] at hplain
    refine .inl ?_
    have := hplain.frame (hs.holds p) (ho p) (fun b _ => hs.key b) hsize
    simpa [todo] using this
  | @await b rest code =>
    have hs := hsame code rfl
    have ho := hop code rfl
    rw [code] at hplain
    have hrest : Plain s (s.proc p) rest := hplain
    refine .inl ?_
    have := hrest.frame (hs.holds p) (ho p) (fun b _ => hs.key b) hsize
    simpa [todo_of_waiting hrest.waiting_eq] using this
  | store code =>
    have hs := hsame code rfl
    have ho := hop code rfl
    rw [code] at hplain
    cases hplain with
    | logged may =>
      have := Plain.logWrite (may.frame (hs.holds p) (ho p) (fun b _ => hs.key b) hsize)
      exact .inl (by simpa [todo] using this)
    | direct => exact .inl (by simpa [todo] using Plain.bwrite)
  | @unlogged i rest b code =>
    rw [code] at hplain; cases hplain
    exact .inl (by simpa [todo] using Plain.bwrite)
  | @logWrite i rest b code at_i size =>
    have hs := hsame code rfl
    have ho := hop code rfl
    rw [code] at hplain
    cases hplain with
    | logWrite may =>
      have hlog : Plain s (s.proc p) [.logAppend i] := .logAppend fun c hc => by
        rw [at_i] at hc; cases hc
        exact (may b at_i).resolve_left size
      have := hlog.frame (hs.holds p) (ho p) (fun b _ => hs.key b) hsize
      exact .inl (by simpa [todo] using this)
  | logAppend code =>
    rw [code] at hplain; cases hplain
    exact .inl (by simpa [appended, todo] using Plain.idle)
  | bwrite code =>
    rw [code] at hplain; cases hplain
    exact .inl (by simpa [written_proc, todo] using Plain.idle)
  | brelse code =>
    rw [code] at hplain; cases hplain
    rw [released_proc, if_pos rfl]
    dsimp only
    split <;> exact .inl .idle
  | @endLast dev rest code size open_ last =>
    have hs := hsame code rfl
    rw [code] at hplain
    cases hplain with
    | endOp op =>
      refine .inr ⟨dev, [], code, ?_, h.realOp p dev (op.resolve_left size), ?_⟩
      · rw [hs.keys_eq]; simpa [todo] using Plan.commit (.endCommit rfl)
      · simp
  | noBegin code | beginOp code | noEnd code | endOp code =>
    rw [code] at hplain; cases hplain
    exact .inl (by simpa [todo] using Plain.idle)
  | enter code | copy code | header code | clear code | endCommit code =>
    rw [code] at hplain; cases hplain

theorem lh_of_committing (hg : Goes s p s') (hc : Committing s p dev base out back)
    (hclear : ∀ rest, (s.proc p).code ≠ .clear dev :: rest) : (s'.log dev).lh = (s.log dev).lh := by
  have hlog := hg.log dev
  generalize s'.log dev = l at hlog
  cases hlog with
  | append code at_i on_dev =>
    have hop := h.op_of_append code at_i
    rw [on_dev] at hop
    have hopen := h.not_committing_of_op hop
    simp [hc.committing] at hopen
  | clear code => exact absurd code (hclear _)
  | same | endCommit | beginOp | endLast | endOp => rfl

variable {rest : List Instr} (hg : Goes s p s')

include hg

theorem installed_succ (hc : Committing s p dev base out back) (hi : Installed s' dev back)
    (hcode : (s.proc p).code = .bwrite 0 .install :: rest) (hlh : (s'.log dev).lh = (s.log dev).lh)
    (hkeys : keys s p = home dev (s.log dev).lh back :: slot dev (s.log dev).start back :: base) :
    Installed s' dev (back + 1) := by
  intro t ht b hb hpin
  rcases Nat.lt_succ_iff_lt_or_eq.mp ht with hlt | rfl
  · exact hi t hlt b hb hpin
  obtain ⟨c, hc0, rfl⟩ := hg.bwrite_inv hcode
  have hkc : (s.buf c).key = home dev (s.log dev).lh t := by
    have := congrArg (fun ks => ks[0]?) hkeys
    simpa [keys, hc0] using this
  have hcb : c = b := by
    refine h.inv.unique c b ?_ (by rw [hkc]; exact hc.real)
    rw [← (sameCore_written (s := s) (p := p) (b := c) _ rest).key b, hb, hlh, hkc]
  exact hpin.2 p (by simp [written_proc, waiting, hcb])

theorem committing_self (hc : Committing s p dev base out back) (hi : Installed s dev back) :
    Plain s' (s'.proc p) (todo (s'.proc p).code) ∨
      ∃ dev base out back, Committing s' p dev base out back ∧ Installed s' dev back := by
  rcases hc.step h.inv hg with ⟨out', back', hc', hmove⟩ | hlast
  · refine .inr ⟨dev, base, out', back', hc', ?_⟩
    cases hmove with
    | stay hclear => exact h.installed hg hi (h.lh_of_committing hg hc hclear) hc.committing
    | out code =>
      exact h.installed hg hi (h.lh_of_committing hg hc (by rw [code]; nofun)) hc.committing
    | back code all lt holds =>
      have hlh := h.lh_of_committing hg hc (by rw [code]; nofun)
      exact h.installed_succ hg hc (h.installed hg hi hlh hc.committing) code hlh holds
    | clear => exact nofun
  · refine .inl ?_
    rw [hg.endCommit_inv hlast]
    simpa [todo] using Plain.idle

omit hg in
theorem waiting_rest {instr} (hcode : (s.proc p).code = instr :: rest) : waiting rest = none := by
  rcases h.code p with hp | ⟨dev, base, out, back, hc, -⟩
  · rw [hcode] at hp
    cases instr
    case iderw => exact hp.waiting_eq
    case await => exact hp.waiting_eq
    all_goals cases hp <;> rfl
  have hplan := hc.plan
  rw [hcode] at hplan
  cases instr
  case iderw => exact hplan.waiting_eq
  case await => exact hplan.waiting_eq
  all_goals
    cases hplan
    all_goals first | rfl | exact Plan.waiting_eq (by assumption)

theorem held_goes (q : Nat) (b : Buf) (hb : waiting (s'.proc q).code = some b) : b ∈ (s'.proc q).holds := by
  rcases eq_or_ne q p with rfl | hq
  · have hsame := hg.sameCore
    cases hg with
    | hit code =>
      rw [got_proc, update_self] at hb ⊢
      dsimp only at hb ⊢
      split at hb
      · simp [h.waiting_rest code] at hb
      · cases hb; exact mem_cons_self
    | recycle code => rw [recycled_proc, update_self] at hb ⊢; cases hb; exact mem_cons_self
    | sleep code => simp only [setProc, update_self] at hb ⊢; exact h.held q b hb
    | iderw code =>
      simp only [goOn, setProc, update_self] at hb ⊢
      exact h.held q b (by rw [code]; exact hb)
    | bwrite code at_i =>
      rw [written_proc, update_self] at hb ⊢
      cases hb
      exact mem_of_getElem? at_i
    | brelse code =>
      rw [released_proc, if_pos rfl] at hb
      dsimp only at hb
      split at hb
      all_goals simp [h.waiting_rest code] at hb
    | @enter f dev rest code =>
      obtain ⟨dev', base, out, back, hc, -⟩ := h.committing_of_head (.enter f dev :: rest) (by rw [code]; rfl) nofun
      have hplan := hc.plan
      rw [code] at hplan
      simp [hplan.enter.waiting_eq] at hb
    | unlogged | logWrite | endLast => simp [waiting] at hb
    | logAppend code => simp [appended, h.waiting_rest code] at hb
    | await code | store code | noBegin code | beginOp code | noEnd code | endOp code | copy code | header code
    | clear code | endCommit code => simp [h.waiting_rest code] at hb
  · rw [hg.others.code q hq] at hb; rw [hg.others.holds q hq]; exact h.held q b hb

theorem one_goes (q r : Nat) (dev : UInt32) (hq : Commits s' q dev) (hr : Commits s' r dev) : q = r := by
  have hother : ∀ q, q ≠ p → Commits s' q dev → Commits s q dev := by
    intro q hqp hc
    rwa [Commits, hg.others.code q hqp] at hc
  have hmixed : ∀ q, q ≠ p → Commits s' q dev → Commits s' p dev → q = p := by
    intro q hqp hc hp
    have hold := hother q hqp hc
    rcases hg.commits hp with hp | hopen
    · exact h.one q p dev hold hp
    · simp [h.committing_of_commits hold] at hopen
  rcases eq_or_ne q p with rfl | hqp <;> rcases eq_or_ne r q with rfl | hrq
  · rfl
  · exact (hmixed r hrq hr hq).symm
  · rfl
  rcases eq_or_ne r p with rfl | hrp
  · exact hmixed q hqp hq hr
  · exact h.one q r dev (hother q hqp hq) (hother r hrp hr)

theorem pinned_goes (b : Buf) (hb : Pinned s' b) : (s'.buf b).key.blockno ∈ (s'.log (s'.buf b).key.dev).lh := by
  obtain ⟨hkey, hold | ⟨i, rest, code, hbi⟩⟩ := hg.pinned hb
  · have hmem := h.pinned b hold
    have hlog := hg.log (s.buf b).key.dev
    rw [hkey]
    generalize s'.log (s.buf b).key.dev = l at hlog
    cases hlog with
    | same | endCommit | beginOp | endLast | endOp => exact hmem
    | append =>
      split
      · exact hmem
      · exact mem_append_left _ hmem
    | @clear rest code =>
      obtain ⟨dev, base, out, back, hc, hi⟩ := h.committing_of_head (.clear _ :: rest) (by rw [code]; rfl) nofun
      have hplan := hc.plan
      rw [code] at hplan
      generalize keys s p = ks at hplan
      cases hplan with
      | clear all =>
        obtain ⟨t, ht, hget⟩ := getElem_of_mem hmem
        refine absurd hold (hi t (all ▸ ht) b ?_)
        rw [home, getD_eq_getElem _ _ ht, hget]
  · obtain ⟨c, hc, rfl⟩ := hg.logAppend_inv code
    rw [hbi] at hc; cases hc
    rw [hkey, appended_log, update_self]
    split
    · assumption
    · exact mem_append_right _ mem_cons_self

omit hg in
theorem op_of_begin (hcode : (s.proc p).code = .beginOp dev :: rest) : dev ≠ nodev ∧ (s.proc p).op = none := by
  have := h.plain_of_head (.beginOp dev :: rest) (by rw [hcode]; rfl) nofun
  cases this with
  | beginOp real op => exact ⟨real, op⟩

omit hg in
theorem op_of_end (hcode : (s.proc p).code = .endOp dev :: rest) (hsize : (s.log dev).size ≠ 0) :
    (s.proc p).op = some dev := by
  have := h.plain_of_head (.endOp dev :: rest) (by rw [hcode]; rfl) nofun
  cases this with
  | endOp op => exact op.resolve_left hsize

theorem ops_goes (dev : UInt32) : ∃ ps, Ops s' dev ps := by
  obtain ⟨ps, hps⟩ := h.ops dev
  have hop := hg.op
  have hcounts := hg.counts
  have ho := hg.others
  cases hg with
  | @beginOp dev' rest code size open_ admitted =>
    have hnone := (h.op_of_begin code).2
    rcases eq_or_ne dev dev' with rfl | hd
    · refine ⟨insert p ps, hps.insert ho.op hnone ?_ ?_ (ho.size dev) ?_ ?_⟩
      all_goals simp [size, open_]
    · refine ⟨ps, hps.elsewhere ho.op (by rw [hnone]; nofun) ?_ ?_⟩
      all_goals simp [hd, hd.symm]
  | @endLast dev' rest code size open_ last | @endOp dev' rest code size open_ last =>
    have hsome := h.op_of_end code size
    rcases eq_or_ne dev dev' with rfl | hd
    · refine ⟨ps.erase p, hps.erase ho.op hsome ?_ (ho.size dev) ?_ ?_⟩
      all_goals simp [open_, last]
    · refine ⟨ps, hps.elsewhere ho.op (by rw [hsome]; simp [hd.symm]) ?_ ?_⟩
      all_goals simp [hd]
  | noBegin | noEnd =>
    refine ⟨ps, hps.of_same (fun q => ?_) rfl rfl id⟩
    simp only [goOn, setProc, update_apply]
    split
    · next hq => rw [hq]
    · rfl
  | hit code | sleep code | recycle code | iderw code | await code | store code | unlogged code | logWrite code
  | logAppend code | bwrite code | brelse code | enter code | copy code | header code | clear code
  | endCommit code =>
    have hcount := hcounts code rfl dev
    exact ⟨ps, hps.of_same (hop code rfl) (ho.size dev) hcount.1 hcount.2⟩

theorem realOp_goes (q : Nat) (dev : UInt32) (hop : (s'.proc q).op = some dev) : dev ≠ nodev :=
  (hg.op_cases hop).elim (h.realOp q dev) fun ⟨_, code⟩ => (h.op_of_begin code).1

theorem realLh_goes : (s'.log nodev).lh = [] := by
  have hlog := hg.log nodev
  generalize s'.log nodev = l at hlog
  cases hlog with
  | append code at_i on_dev =>
    have hop := h.op_of_append code at_i
    exact absurd on_dev (h.realOp p _ hop)
  | clear => rfl
  | same | endCommit | beginOp | endLast | endOp => exact h.realLh

theorem goes : Logged s' where
  inv := h.inv.change (h.inv.goes hg)
  held := h.held_goes hg
  code := fun q => by
    rcases eq_or_ne q p with rfl | hq
    · rcases h.code q with hplain | ⟨dev, base, out, back, hc, hi⟩
      · rcases h.plain_self hg hplain with hplain | ⟨dev, rest, -, hc⟩
        · exact .inl hplain
        · exact .inr ⟨dev, keys s q, 0, 0, hc, nofun⟩
      · exact h.committing_self hg hc hi
    · exact h.code_other hg hq
  one := h.one_goes hg
  ops := h.ops_goes hg
  realOp := h.realOp_goes hg
  pinned := h.pinned_goes hg
  realLh := h.realLh_goes hg

omit hg

theorem of_others (hinv : Inv s') (ho : Others s s' p) (hsame : SameCore s s')
    (hop : (s'.proc p).op = (s.proc p).op) (hlog : s'.log = s.log) (hpin : ∀ b, Pinned s' b → Pinned s b)
    (hcode : (s'.proc p).code = (s.proc p).code ∨ Plain s (s.proc p) (s'.proc p).code) : Logged s' := by
  have hops : ∀ q, (s'.proc q).op = (s.proc q).op := by
    intro q
    rcases eq_or_ne q p with rfl | hq
    · exact hop
    · exact ho.op q hq
  have hcases : ∀ q, (s'.proc q).code = (s.proc q).code ∨ Plain s (s.proc q) (s'.proc q).code := by
    intro q
    rcases eq_or_ne q p with rfl | hq
    · exact hcode
    · exact .inl (ho.code q hq)
  have hkey : ∀ q, ∀ b ∈ (s.proc q).holds, (s'.buf b).key = (s.buf b).key := fun _ b _ => hsame.key b
  have hinstalled : ∀ dev back, Installed s dev back → Installed s' dev back := by
    intro dev back hi t ht b hb hp
    rw [hsame.key, hlog] at hb
    exact hi t ht b hb (hpin b hp)
  have hcommits : ∀ q dev, Commits s' q dev → Commits s q dev := by
    intro q dev hc
    rcases hcases q with he | hp
    · rwa [Commits, he] at hc
    · exact absurd hc hp.not_mem_endCommit
  refine ⟨hinv, fun q b hb => ?_, fun q => ?_,
    fun q r dev hq hr => h.one q r dev (hcommits q dev hq) (hcommits r dev hr),
    fun dev => ?_, fun q dev hq => h.realOp q dev (hops q ▸ hq), fun b hb => ?_, by rw [hlog]; exact h.realLh⟩
  · rcases hcases q with he | hp
    · rw [he] at hb; rw [hsame.holds]; exact h.held q b hb
    · simp [hp.waiting_eq] at hb
  · rcases hcases q with he | hp
    · rw [he]
      rcases h.code q with hplain | ⟨dev, base, out, back, hc, hi⟩
      · exact .inl (hplain.frame (hsame.holds q) (hops q) (hkey q) ho.size)
      · exact .inr ⟨dev, base, out, back, hc.frame he (hsame.holds q) (hkey q) (by rw [hlog]) (by rw [hlog])
          (by rw [hlog]),
          hinstalled dev back hi⟩
    · rw [todo_of_waiting hp.waiting_eq]
      exact .inl (hp.frame (hsame.holds q) (hops q) (hkey q) ho.size)
  · obtain ⟨ps, hps⟩ := h.ops dev
    exact ⟨ps, hps.of_same hops (by rw [hlog]) (by rw [hlog]) (by rw [hlog]; exact id)⟩
  · rw [hsame.key, hlog]; exact h.pinned b (hpin b hb)

theorem call {a} (hok : Proper s (.call p a)) (hidle : (s.proc p).code = []) : Logged (s.goOn p a.code) := by
  have ho : Others s (s.goOn p a.code) p := .of_proc rfl rfl
  refine h.of_others (h.inv.same (.goOn _)) ho (.goOn _) (by simp) rfl (fun b hb => ?_) (.inr ?_)
  · exact ho.pinned hb hb.1 (by rw [hidle]; nofun)
  · simpa using plain_call hok

theorem served (queue : List Buf) : Logged (s.served b queue) := by
  have hcode : ∀ q, ((s.served b queue).proc q).code = (s.proc q).code := by
    intro q
    rw [served_proc]
    split <;> rfl
  have hop : ∀ q, ((s.served b queue).proc q).op = (s.proc q).op := by
    intro q
    rw [served_proc]
    split <;> rfl
  refine h.of_others (h.inv.same (sameCore_served queue)) (others_served 0 queue) (sameCore_served queue) (hop 0)
    (s.served_log queue) (fun c hc => ⟨?_, fun q => ?_⟩) (.inl (hcode 0))
  · have := hc.1
    rw [served_buf, update_apply] at this
    split at this
    · cases this
    · exact this
  · rw [← hcode]; exact hc.2 q

end Logged

def Fresh (log : UInt32 → Log) : Prop :=
  ∀ dev, (log dev).lh = [] ∧ (log dev).outstanding = 0 ∧ (log dev).committing = false

theorem logged_binit (disk : Key → Block) {log} (hlog : Fresh log) : Logged (binit disk log) where
  inv := inv_binit disk log
  held := fun p b hb => by
    rw [binit_proc] at hb; cases hb
  code := fun p => by
    rw [binit_proc]
    exact .inl .idle
  one := fun p q dev hp => by
    rw [Commits, binit_proc] at hp; cases hp
  ops := fun dev => by
    refine ⟨∅, fun p => ?_, fun _ => rfl, fun _ => ?_, fun _ => rfl⟩
    · rw [binit_proc]; simp [boot]
    · rw [binit_log, (hlog dev).2.1]; rfl
  realOp := fun p dev hp => by
    rw [binit_proc] at hp; cases hp
  pinned := fun b hb => by
    have := hb.1
    rw [binit_buf] at this; cases this
  realLh := by rw [binit_log]; exact (hlog nodev).1

end Xv6Vsd.Bio
