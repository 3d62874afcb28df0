import Xv6Vsd.Disk.Lemmas.Records
import Xv6Vsd.Log.Model

/-!
# What a commit and a recovery leave on the platter

`d` is the disk on entry to `commit`. A platter reached by cutting the commit anywhere is `Before`
(the header is still empty), `Committed` (the header names the transaction and the copies are in the
log) or `After` (installed and erased). Replaying the log moves only forward through the three.
-/

namespace Xv6Vsd

open Prog Disk List

namespace Disk

/-- The blocks the log itself uses for the transaction in `d`: its header and one copy per block. -/
def InLog (d : Disk) (b : Nat) : Prop := d.log.start ≤ b ∧ b ≤ d.log.start + d.log.lh.length

def Named (d : Disk) (b : Nat) : Prop := ∃ x ∈ d.log.lh, x.toNat = b

/-- The buffers and the in-memory log are lost, `initlog` sets the log up again. -/
def reboot (d : Disk) : Disk := { d with
    cache := d.platter
    busy := fun _ => false
    log := ⟨d.sb.logstart, d.sb.nlog, 0, false, []⟩ }

variable (d : Disk) (b : Nat) (x : Block) (lh : List UInt32)

@[simp] theorem bwrite_log : (d.bwrite b x).log = d.log := rfl
@[simp] theorem bwrite_sb : (d.bwrite b x).sb = d.sb := rfl
@[simp] theorem setLh_lh : (d.setLh lh).log.lh = lh := rfl
@[simp] theorem setLh_start : (d.setLh lh).log.start = d.log.start := rfl
@[simp] theorem setLh_sb : (d.setLh lh).sb = d.sb := rfl
@[simp] theorem setLh_busy : (d.setLh lh).busy = d.busy := rfl

@[simp] theorem bwrite_cache_self : (d.bwrite b x).cache b = x := by
  simp [bwrite]
@[simp] theorem bwrite_platter_self : (d.bwrite b x).platter b = x := by
  simp [bwrite]

variable {b : Nat} {d : Disk}

theorem bwrite_cache_of_ne (d : Disk) {c} (x : Block) (h : c ≠ b) :
    (d.bwrite b x).cache c = d.cache c := by simp [bwrite, Function.update_of_ne h]
theorem bwrite_platter_of_ne (d : Disk) {b c} (x : Block) (h : c ≠ b) :
    (d.bwrite b x).platter c = d.platter c := by simp [bwrite, Function.update_of_ne h]

theorem copyBlock_ok {a d'} (h : d.copyBlock a b = .ok () d') : d' = d.bwrite a (d.cache b) := by
  unfold copyBlock at h
  split at h <;> cases h
  rfl

theorem copyBlock_free {a} (hd : d.busy = fun _ => false) (hab : a ≠ b) :
    d.copyBlock a b = .ok () (d.bwrite a (d.cache b)) := by
  simp [copyBlock, hd, hab]

theorem named_home (d : Disk) {i} (hi : i < d.log.lh.length) : d.Named (d.home i) :=
  ⟨d.log.lh.getD i 0, by rw [getD_eq_getElem _ _ hi]; exact getElem_mem hi, rfl⟩

theorem Named.home_index (h : d.Named b) : ∃ i < d.log.lh.length, d.home i = b := by
  obtain ⟨x, hx, rfl⟩ := h
  obtain ⟨i, hi, rfl⟩ := getElem_of_mem hx
  exact ⟨i, hi, by rw [home, getD_eq_getElem _ _ hi]⟩

theorem inLog_slot (d : Disk) {i} (hi : i < d.log.lh.length) : d.InLog (d.slot i) := by
  simp only [InLog, slot]; omega

theorem inLog_start (d : Disk) : d.InLog d.log.start := by simp only [InLog]; omega

end Disk

namespace Log

/-! ## The single steps -/

@[simp] theorem lhN_exec (e : Disk) : lhN.exec e = .ok e.log.lh.length e := rfl
@[simp] theorem clearLh_exec (e : Disk) : clearLh.exec e = .ok () (e.setLh []) := rfl

variable {e e' d : Disk}

theorem lhN_reach (h : Reach lhN e e') : e' = e := by
  rcases h.act_cases with rfl | ⟨a, ha⟩
  · rfl
  · cases ha; rfl

theorem clearLh_reach (h : Reach clearLh e e') : e' = e ∨ e' = e.setLh [] := by
  rcases h.act_cases with rfl | ⟨a, ha⟩
  · exact .inl rfl
  · cases ha; exact .inr rfl

theorem writeHead_ok (h : writeHead.exec e = .ok () e') :
    e' = e.bwrite e.log.start ((e.cache e.log.start).setHeader e.log.lh) := by
  rw [writeHead, exec_act] at h
  split at h <;> cases h
  rfl

theorem writeHead_free (hb : e.busy = fun _ => false) :
    writeHead.exec e = .ok () (e.bwrite e.log.start ((e.cache e.log.start).setHeader e.log.lh)) := by
  rw [writeHead, exec_act, hb]
  rfl

theorem writeHead_reach (h : Reach writeHead e e') :
    e' = e ∨ e' = e.bwrite e.log.start ((e.cache e.log.start).setHeader e.log.lh) := by
  rcases h.act_cases with rfl | ⟨⟨⟩, ha⟩
  · exact .inl rfl
  · exact .inr (writeHead_ok (by rw [writeHead, exec_act]; exact ha))

theorem readHead_ok (h : readHead.exec e = .ok () e') : e' = e.setLh (e.cache e.log.start).header := by
  rw [readHead, exec_act] at h
  split at h <;> cases h
  rfl

theorem readHead_free (hb : e.busy = fun _ => false) :
    readHead.exec e = .ok () (e.setLh (e.cache e.log.start).header) := by
  rw [readHead, exec_act, hb]
  rfl

theorem readHead_reach (h : Reach readHead e e') : e' = e ∨ e' = e.setLh (e.cache e.log.start).header := by
  rcases h.act_cases with rfl | ⟨⟨⟩, ha⟩
  · exact .inl rfl
  · exact .inr (readHead_ok (by rw [readHead, exec_act]; exact ha))

/-! ## The three stages -/

structure Before (d : Disk) (P : Nat → Block) : Prop where
  clean : (P d.log.start).headerN = 0
  same : ∀ b, ¬ d.InLog b → P b = d.platter b

/-- The platter `P` holds the transaction in its log; its home locations may be old or new. -/
structure Committed (d : Disk) (P : Nat → Block) : Prop where
  header : (P d.log.start).header = d.log.lh
  copies : ∀ i < d.log.lh.length, P (d.slot i) = d.cache (d.home i)
  named : ∀ b, d.Named b → P b = d.platter b ∨ P b = d.cache b
  rest : ∀ b, ¬ d.InLog b → ¬ d.Named b → P b = d.platter b

structure After (d : Disk) (P : Nat → Block) : Prop where
  clean : (P d.log.start).headerN = 0
  named : ∀ b, d.Named b → P b = d.cache b
  rest : ∀ b, ¬ d.InLog b → ¬ d.Named b → P b = d.platter b

/-! ## Replaying -/

/-- `install_trans`, then the header is cleared: what `commit` and `recover_from_log` share. -/
def replay : Prog Disk LogEv Unit := do
  installTrans
  clearLh
  writeHead

theorem recoverFromLog_eq : recoverFromLog = readHead >>= fun _ => replay := rfl

/-! ## What every step keeps -/

section Made

variable {P : {δ : Type} → (Disk → LogEv) → (Disk → Res Disk δ) → Prop} (hn : Made P lhN)
    (hcopy : ∀ (lab : Disk → LogEv) (a b : Disk → Nat), Made P (act lab fun d => d.copyBlock (a d) (b d)))
    (hhead : Made P writeHead) (hclear : Made P clearLh)
include hn hcopy hhead hclear

theorem made_replay : Made P replay :=
  (hn.bind fun _ => made_loop fun _ => hcopy ..).bind fun _ => hclear.bind fun _ => hhead

theorem made_commit : Made P commit := by
  refine hn.bind fun n => ?_
  split
  · refine (hn.bind fun _ => made_loop fun _ => hcopy ..).bind fun _ => hhead.bind fun _ => ?_
    exact made_replay hn hcopy hhead hclear
  · exact made_ret ()

end Made

section Keeps

variable {γ : Type} {g : Disk → γ} (hw : ∀ d b x, g (d.bwrite b x) = g d) (hl : ∀ d lh, g (d.setLh lh) = g d)
include hw hl

theorem keeps_steps : Keeps g lhN ∧
    (∀ (lab : Disk → LogEv) (a b : Disk → Nat), Keeps g (act lab fun d => d.copyBlock (a d) (b d))) ∧
    Keeps g writeHead ∧ Keeps g clearLh := by
  refine ⟨keeps_act fun d _ d' h => by cases h; rfl, fun lab a b => keeps_act fun d _ d' h => ?_,
    keeps_act fun d _ d' h => ?_, keeps_act fun d _ d' h => by cases h; exact hl d []⟩
  · rw [copyBlock_ok h, hw]
  · rw [writeHead_ok ((exec_act _ _ _).trans h), hw]

theorem keeps_commit : Keeps g commit :=
  have ⟨hn, hcopy, hhead, hclear⟩ := keeps_steps hw hl
  made_commit hn hcopy hhead hclear

theorem keeps_recoverFromLog : Keeps g recoverFromLog :=
  have ⟨hn, hcopy, hhead, hclear⟩ := keeps_steps hw hl
  .bind (keeps_act fun d _ d' h => by rw [readHead_ok ((exec_act _ _ _).trans h), hl])
    fun _ => made_replay hn hcopy hhead hclear

end Keeps

structure Installing (d : Disk) (i : Nat) (e : Disk) : Prop where
  start : e.log.start = d.log.start
  lh : e.log.lh = d.log.lh
  platter : Committed d e.platter
  copies : ∀ j < d.log.lh.length, e.cache (d.slot j) = d.cache (d.home j)
  done : ∀ j < i, e.platter (d.home j) = d.cache (d.home j)

section

variable {d : Disk} (hout : ∀ b, d.Named b → ¬ d.InLog b)
include hout

theorem home_ne_inLog {i} (hi : i < d.log.lh.length) {b} (hb : d.InLog b) : d.home i ≠ b :=
  fun h => hout _ (d.named_home hi) (h ▸ hb)

theorem Installing.step {i} (hi : i < d.log.lh.length) {e} (h : Installing d i e) :
    Installing d (i + 1) (e.bwrite (d.home i) (e.cache (d.slot i))) := by
  have hx : e.cache (d.slot i) = d.cache (d.home i) := h.copies i hi
  refine ⟨h.start, h.lh, ⟨?_, ?_, ?_, ?_⟩, ?_, ?_⟩
  · rw [bwrite_platter_of_ne _ _ (home_ne_inLog hout hi d.inLog_start).symm]; exact h.platter.header
  · intro j hj
    rw [bwrite_platter_of_ne _ _ (home_ne_inLog hout hi (d.inLog_slot hj)).symm]
    exact h.platter.copies j hj
  · intro b hb
    by_cases hbi : b = d.home i
    · subst hbi; rw [bwrite_platter_self]; exact .inr hx
    · rw [bwrite_platter_of_ne _ _ hbi]; exact h.platter.named b hb
  · intro b hb hn
    have hbi : b ≠ d.home i := fun hbi => hn (hbi ▸ d.named_home hi)
    rw [bwrite_platter_of_ne _ _ hbi]
    exact h.platter.rest b hb hn
  · intro j hj
    rw [bwrite_cache_of_ne _ _ (home_ne_inLog hout hi (d.inLog_slot hj)).symm]
    exact h.copies j hj
  intro j hj
  by_cases hji : d.home j = d.home i
  · rw [hji, bwrite_platter_self]; exact hx
  rw [bwrite_platter_of_ne _ _ hji]
  exact h.done j (by rcases Nat.lt_succ_iff_lt_or_eq.mp hj with h | rfl
                     · exact h
                     · exact absurd rfl hji)

end

theorem Installing.home_eq {i} (h : Installing d i e) (j : Nat) : e.home j = d.home j := by rw [home, home, h.lh]

theorem Installing.slot_eq {i} (h : Installing d i e) (j : Nat) : e.slot j = d.slot j := by rw [slot, slot, h.start]

theorem After.erased (hout : ∀ b, d.Named b → ¬ d.InLog b) (hnamed : ∀ b, d.Named b → e.platter b = d.cache b)
    (hrest : ∀ b, ¬ d.InLog b → ¬ d.Named b → e.platter b = d.platter b) (x : Block) :
    After d (e.bwrite d.log.start (x.setHeader [])).platter := by
  have hne : ∀ b, ¬ d.InLog b → b ≠ d.log.start := fun b hb he => hb (he ▸ d.inLog_start)
  refine ⟨?_, fun b hb => ?_, fun b hb hn => ?_⟩
  · rw [bwrite_platter_self]
    exact headerN_setHeader x (show ([] : List UInt32).length ≤ 30 from Nat.zero_le _)
  · rw [bwrite_platter_of_ne _ _ (hne b (hout b hb))]; exact hnamed b hb
  · rw [bwrite_platter_of_ne _ _ (hne b hb)]; exact hrest b hb hn

theorem Installing.finish (hout : ∀ b, d.Named b → ¬ d.InLog b) (h : Installing d d.log.lh.length e) (x : Block) :
    After d (e.bwrite d.log.start (x.setHeader [])).platter := by
  refine .erased hout (fun b hb => ?_) h.platter.rest x
  obtain ⟨i, hi, rfl⟩ := hb.home_index
  exact h.done i hi

end Log

end Xv6Vsd
