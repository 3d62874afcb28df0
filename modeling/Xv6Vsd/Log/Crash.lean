import Xv6Vsd.Log.Lemmas.Replay

/-! # A crash never leaves a transaction half done -/

namespace Xv6Vsd

open Prog Disk

namespace Log

/-- `Recovers d d'`: after a crash that left the disk `d`, some recoveries are cut short by further
crashes and the next one ends with the disk `d'`. -/
inductive Recovers : Disk → Disk → Prop
  | done {d d'} (h : recoverFromLog.exec d.reboot = .ok () d') : Recovers d d'
  | crash {d d1 d'} (h : Reach recoverFromLog d.reboot d1) (h' : Recovers d1 d') : Recovers d d'

/-! ## Replaying a transaction -/

section

variable {d : Disk} (hout : ∀ b, d.Named b → ¬ d.InLog b)
include hout

variable {e e' : Disk}

theorem installTurn {i} (hi : i < d.log.lh.length) (h : Installing d i e)
    (he : e.copyBlock (e.home i) (e.slot i) = .ok () e') : Installing d (i + 1) e' := by
  rw [copyBlock_ok he, h.home_eq, h.slot_eq]
  exact h.step hout hi

variable (h : Installing d 0 e)

include h

theorem installTrans_exec (he : installTrans.exec e = .ok () e') : Installing d d.log.lh.length e' := by
  obtain ⟨n, e1, h1, h2⟩ := bind_ok he
  cases h1
  rw [h.lh] at h2
  refine exec_loop (I := Installing d) (fun i hi s s' hI hs => ?_) h h2
  rw [exec_act] at hs
  exact installTurn hout hi hI hs

theorem installTrans_reach (he : Reach installTrans e e') : ∃ i ≤ d.log.lh.length, Installing d i e' := by
  rcases he.bind_cases with he | ⟨n, e1, h1, he⟩
  · rw [lhN_reach he]; exact ⟨0, Nat.zero_le _, h⟩
  cases h1
  rw [h.lh] at he
  exact he.loop_act (fun i hi _ _ hI hs => installTurn hout hi hI hs) h

theorem replay_exec (he : replay.exec e = .ok () e') : After d e'.platter := by
  obtain ⟨_, e1, h1, he⟩ := bind_ok he
  have hI := installTrans_exec hout h h1
  obtain ⟨_, e2, h2, he⟩ := bind_ok he
  cases h2
  have hfin := hI.finish hout (e1.cache e1.log.start)
  rw [← hI.start] at hfin
  rw [writeHead_ok he]
  exact hfin

theorem replay_reach (he : Reach replay e e') : Committed d e'.platter ∨ After d e'.platter := by
  rcases he.bind_cases with he | ⟨_, e1, h1, he⟩
  · obtain ⟨i, -, hI⟩ := installTrans_reach hout h he; exact .inl hI.platter
  have hI := installTrans_exec hout h h1
  rcases he.bind_cases with he | ⟨_, e2, h2, he⟩
  · rcases clearLh_reach he with rfl | rfl <;> exact .inl hI.platter
  cases h2
  rcases writeHead_reach he with rfl | rfl
  · exact .inl hI.platter
  have hfin := hI.finish hout (e1.cache e1.log.start)
  rw [← hI.start] at hfin
  exact .inr hfin

theorem replay_total (hb : e.busy = fun _ => false) : ∃ e', replay.exec e = .ok () e' := by
  have hturn : ∀ i < d.log.lh.length, ∀ s, (Installing d i s ∧ s.busy = fun _ => false) →
    ∃ s', (act (fun d => LogEv.install (d.home i)) fun d => d.copyBlock (d.home i) (d.slot i)).exec s =
      .ok () s' ∧ (Installing d (i + 1) s' ∧ s'.busy = fun _ => false) := by
    intro i hi s ⟨hI, hs⟩
    have hne : s.home i ≠ s.slot i := by
      rw [hI.home_eq, hI.slot_eq]
      exact home_ne_inLog hout hi (d.inLog_slot hi)
    have hcopy := copyBlock_free hs hne
    exact ⟨_, (exec_act _ _ _).trans hcopy, installTurn hout hi hI hcopy, hs⟩
  obtain ⟨e1, h1, hI, hb1⟩ := loop_total (I := fun i s => Installing d i s ∧ s.busy = fun _ => false) hturn ⟨h, hb⟩
  have hinst : installTrans.exec e = .ok () e1 := by
    refine bind_ok_iff.mpr ⟨d.log.lh.length, e, ?_, h1⟩
    rw [lhN_exec, h.lh]
  have hfin := writeHead_free (e := e1.setLh []) hb1
  exact ⟨_, bind_ok_iff.mpr ⟨(), e1, hinst, bind_ok_iff.mpr ⟨(), e1.setLh [], rfl, hfin⟩⟩⟩

end

/-! ## Replaying an empty header -/

variable {e d : Disk}

theorem installTrans_empty (hlh : e.log.lh = []) : installTrans.exec e = .ok () e := by
  refine bind_ok_iff.mpr ⟨0, e, ?_, rfl⟩
  rw [lhN_exec, hlh]; rfl

theorem replay_empty_reach {e'} (hlh : e.log.lh = []) (he : Reach replay e e') : e'.platter = e.platter ∨
      e'.platter = (e.bwrite e.log.start ((e.cache e.log.start).setHeader [])).platter := by
  rcases he.bind_cases with he | ⟨_, e1, h1, he⟩
  · rcases he.bind_cases with he | ⟨n, e1, h1, he⟩
    · rw [lhN_reach he]; exact .inl rfl
    · cases h1; rw [hlh] at he; cases he; exact .inl rfl
  rw [installTrans_empty hlh] at h1
  cases h1
  rcases he.bind_cases with he | ⟨_, e2, h2, he⟩
  · rcases clearLh_reach he with rfl | rfl <;> exact .inl rfl
  cases h2
  rcases writeHead_reach he with rfl | rfl
  · exact .inl rfl
  · exact .inr rfl

theorem replay_empty_total (hlh : e.log.lh = []) (hb : e.busy = fun _ => false) : ∃ e', replay.exec e = .ok () e' := by
  have hfin := writeHead_free (e := e.setLh []) hb
  exact ⟨_, bind_ok_iff.mpr ⟨(), e, installTrans_empty hlh, bind_ok_iff.mpr ⟨(), e.setLh [], rfl, hfin⟩⟩⟩

/-! ## Recovery moves forward through the stages -/

structure Settled (d e : Disk) : Prop where
  sb : e.sb = d.sb
  stage : Before d e.platter ∨ Committed d e.platter ∨ After d e.platter

theorem Before.writeEmpty (h : Before d e.platter) (x : Block) :
    Before d (e.bwrite d.log.start (x.setHeader [])).platter := by
  refine ⟨?_, fun b hb => ?_⟩
  · rw [bwrite_platter_self]
    exact headerN_setHeader x (show ([] : List UInt32).length ≤ 30 from Nat.zero_le _)
  have hne : b ≠ d.log.start := fun he => hb (he ▸ d.inLog_start)
  rw [bwrite_platter_of_ne _ _ hne]
  exact h.same b hb

section

variable {d : Disk} (hinit : d.log.start = d.sb.logstart) (hout : ∀ b, d.Named b → ¬ d.InLog b)
include hinit

variable {e e' : Disk}

theorem reboot_start (h : Settled d e) : e.reboot.log.start = d.log.start := by
  rw [hinit, ← h.sb]; rfl

theorem Committed.installing (h : Settled d e) (hc : Committed d e.platter) :
    Installing d 0 (e.reboot.setLh (e.reboot.cache e.reboot.log.start).header) := by
  have hs := reboot_start hinit h
  refine ⟨?_, ?_, hc, hc.copies, fun j hj => absurd hj (Nat.not_lt_zero j)⟩
  · rw [setLh_start, hs]
  · rw [setLh_lh, hs]; exact hc.header

theorem reboot_header_nil (h : Settled d e) (hc : (e.platter d.log.start).headerN = 0) :
    (e.reboot.cache e.reboot.log.start).header = [] := by
  rw [reboot_start hinit h]
  exact header_eq_nil hc

include hout

variable (h : Settled d e)

include h

theorem replay_empty_stage (hc : Before d e.platter ∨ After d e.platter)
    (he : Reach replay (e.reboot.setLh (e.reboot.cache e.reboot.log.start).header) e') :
    Before d e'.platter ∨ After d e'.platter := by
  have hnil : (e.reboot.cache e.reboot.log.start).header = [] := by
    rcases hc with hb | ha
    · exact reboot_header_nil hinit h hb.clean
    · exact reboot_header_nil hinit h ha.clean
  rcases replay_empty_reach (by rw [setLh_lh, hnil]) he with hp | hp
  · rw [hp]; exact hc
  rw [hp, setLh_start, reboot_start hinit h]
  rcases hc with hb | ha
  · exact .inl (hb.writeEmpty (e := e.reboot.setLh _) _)
  · exact .inr (.erased (e := e.reboot.setLh _) hout ha.named ha.rest _)

theorem Settled.recover_reach (he : Reach recoverFromLog e.reboot e') : Settled d e' := by
  refine ⟨((keeps_recoverFromLog (fun _ _ _ => rfl) fun _ _ => rfl).reach he).trans h.sb, ?_⟩
  rw [recoverFromLog_eq] at he
  rcases he.bind_cases with he | ⟨_, e1, h1, he⟩
  · rcases readHead_reach he with rfl | rfl <;> exact h.stage
  rw [readHead_ok h1] at he
  rcases h.stage with hb | hc | ha
  · have := replay_empty_stage hinit hout h (.inl hb) he; tauto
  · have := replay_reach hout (hc.installing hinit h) he; tauto
  · have := replay_empty_stage hinit hout h (.inr ha) he; tauto

theorem Settled.recover_exec (he : recoverFromLog.exec e.reboot = .ok () e') :
    Before d e'.platter ∨ After d e'.platter := by
  rw [recoverFromLog_eq] at he
  obtain ⟨_, e1, h1, he⟩ := bind_ok he
  rw [readHead_ok h1] at he
  rcases h.stage with hb | hc | ha
  · exact replay_empty_stage hinit hout h (.inl hb) (.of_exec he)
  · exact .inr (replay_exec hout (hc.installing hinit h) he)
  · exact replay_empty_stage hinit hout h (.inr ha) (.of_exec he)

theorem Settled.recovers (he : Recovers e e') : Before d e'.platter ∨ After d e'.platter := by
  induction he with
  | done he => exact h.recover_exec hinit hout he
  | crash he _ ih => exact ih (h.recover_reach hinit hout he)

theorem Settled.recover_total : ∃ e', recoverFromLog.exec e.reboot = .ok () e' := by
  have hread := readHead_free (e := e.reboot) rfl
  have hrest : ∃ e', replay.exec (e.reboot.setLh (e.reboot.cache e.reboot.log.start).header) = .ok () e' := by
    rcases h.stage with hb | hc | ha
    · exact replay_empty_total (by rw [setLh_lh, reboot_header_nil hinit h hb.clean]) rfl
    · exact replay_total hout (hc.installing hinit h) rfl
    · exact replay_empty_total (by rw [setLh_lh, reboot_header_nil hinit h ha.clean]) rfl
  obtain ⟨e', he'⟩ := hrest
  exact ⟨e', bind_ok_iff.mpr ⟨(), _, hread, he'⟩⟩

end

/-! ## Commit -/

structure Logging (d : Disk) (i : Nat) (e : Disk) : Prop where
  log : e.log = d.log
  head : e.platter d.log.start = d.platter d.log.start
  cache : ∀ b, ¬ d.InLog b → e.cache b = d.cache b
  platter : ∀ b, ¬ d.InLog b → e.platter b = d.platter b
  copies : ∀ j < i, e.platter (d.slot j) = d.cache (d.home j) ∧ e.cache (d.slot j) = d.cache (d.home j)

theorem Logging.before {i} (hclean : (d.platter d.log.start).headerN = 0) (h : Logging d i e) :
    Before d e.platter := ⟨by rw [h.head]; exact hclean, h.platter⟩

section

variable {d : Disk} (hout : ∀ b, d.Named b → ¬ d.InLog b)
include hout

variable {e e' : Disk}

theorem logTurn {i} (hi : i < d.log.lh.length) (h : Logging d i e)
    (he : e.copyBlock (e.slot i) (e.home i) = .ok () e') : Logging d (i + 1) e' := by
  have hslot : e.slot i = d.slot i := by rw [slot, slot, h.log]
  have hhome : e.home i = d.home i := by rw [home, home, h.log]
  have hx : e.cache (d.home i) = d.cache (d.home i) := h.cache _ (hout _ (d.named_home hi))
  have hne : ∀ b, ¬ d.InLog b → b ≠ d.slot i := fun b hb hbi => hb (hbi ▸ d.inLog_slot hi)
  rw [copyBlock_ok he, hslot, hhome, hx]
  refine ⟨h.log, ?_, ?_, ?_, ?_⟩
  · rw [bwrite_platter_of_ne _ _ (by simp only [slot]; omega)]; exact h.head
  · intro b hb; rw [bwrite_cache_of_ne _ _ (hne b hb)]; exact h.cache b hb
  · intro b hb; rw [bwrite_platter_of_ne _ _ (hne b hb)]; exact h.platter b hb
  intro j hj
  rcases Nat.lt_succ_iff_lt_or_eq.mp hj with hj | rfl
  · have hji : d.slot j ≠ d.slot i := by simp only [slot]; omega
    rw [bwrite_platter_of_ne _ _ hji, bwrite_cache_of_ne _ _ hji]
    exact h.copies j hj
  · exact ⟨bwrite_platter_self _ _ _, bwrite_cache_self _ _ _⟩

theorem writeLog_exec (h : Logging d 0 e) (he : writeLog.exec e = .ok () e') : Logging d d.log.lh.length e' := by
  obtain ⟨n, e1, h1, h2⟩ := bind_ok he
  cases h1
  rw [h.log] at h2
  refine exec_loop (I := Logging d) (fun i hi s s' hI hs => ?_) h h2
  rw [exec_act] at hs
  exact logTurn hout hi hI hs

theorem writeLog_reach (h : Logging d 0 e) (he : Reach writeLog e e') : ∃ i ≤ d.log.lh.length, Logging d i e' := by
  rcases he.bind_cases with he | ⟨n, e1, h1, he⟩
  · rw [lhN_reach he]; exact ⟨0, Nat.zero_le _, h⟩
  cases h1
  rw [h.log] at he
  exact he.loop_act (fun i hi _ _ hI hs => logTurn hout hi hI hs) h

theorem Logging.commit (hle : d.log.lh.length ≤ logsize) (h : Logging d d.log.lh.length e) :
    Installing d 0 (e.bwrite e.log.start ((e.cache e.log.start).setHeader e.log.lh)) := by
  have hslot : ∀ j, d.slot j ≠ d.log.start := fun j => by simp only [slot]; omega
  have hne : ∀ b, ¬ d.InLog b → b ≠ d.log.start := fun b hb he => hb (he ▸ d.inLog_start)
  rw [h.log]
  refine ⟨by rw [bwrite_log, h.log], by rw [bwrite_log, h.log], ⟨?_, ?_, ?_, ?_⟩, ?_, ?_⟩
  · rw [bwrite_platter_self]; exact header_setHeader _ hle
  · intro i hi; rw [bwrite_platter_of_ne _ _ (hslot i)]; exact (h.copies i hi).1
  · intro b hb
    rw [bwrite_platter_of_ne _ _ (hne b (hout b hb))]
    exact .inl (h.platter b (hout b hb))
  · intro b hb _; rw [bwrite_platter_of_ne _ _ (hne b hb)]; exact h.platter b hb
  · intro j hj; rw [bwrite_cache_of_ne _ _ (hslot j)]; exact (h.copies j hj).2
  · exact fun j hj => absurd hj (Nat.not_lt_zero j)

theorem commit_reach (hle : d.log.lh.length ≤ logsize) (hclean : (d.platter d.log.start).headerN = 0)
    (he : Reach commit d e) : Settled d e := by
  have h0 : Logging d 0 d := ⟨rfl, rfl, fun _ _ => rfl, fun _ _ => rfl, fun j hj => absurd hj (Nat.not_lt_zero j)⟩
  refine ⟨(keeps_commit (fun _ _ _ => rfl) fun _ _ => rfl).reach he, ?_⟩
  rcases he.bind_cases with he | ⟨n, e1, h1, he⟩
  · rw [lhN_reach he]; exact .inl (h0.before hclean)
  cases h1
  split at he
  · rcases he.bind_cases with he | ⟨_, e1, h1, he⟩
    · obtain ⟨i, -, hI⟩ := writeLog_reach hout h0 he; exact .inl (hI.before hclean)
    have hlog := writeLog_exec hout h0 h1
    rcases he.bind_cases with he | ⟨_, e2, h2, he⟩
    · rcases writeHead_reach he with rfl | rfl
      · exact .inl (hlog.before hclean)
      · exact .inr (.inl (hlog.commit hout hle).platter)
    · rw [writeHead_ok h2] at he; exact .inr (replay_reach hout (hlog.commit hout hle) he)
  · cases he; exact .inl (h0.before hclean)

end

/-! ## The theorem -/

/-- Crash atomicity. Cut `commit` at any step, and any number of recoveries after it: the first
recovery that ends leaves the home locations all old or all new, nothing else changed outside the
log, and the header empty. -/
theorem commit_crash_atomic (d : Disk) (hinit : d.log.start = d.sb.logstart)
    (hle : d.log.lh.length ≤ logsize) (hclean : (d.platter d.log.start).headerN = 0)
    (hout : ∀ b, d.Named b → ¬ d.InLog b) {d1 : Disk} (hcrash : Reach commit d d1) :
    (∃ d2, recoverFromLog.exec d1.reboot = .ok () d2) ∧
    ∀ d2, Recovers d1 d2 →
      ((∀ b, d.Named b → d2.platter b = d.platter b) ∨ (∀ b, d.Named b → d2.platter b = d.cache b)) ∧
      (∀ b, ¬ d.Named b → ¬ d.InLog b → d2.platter b = d.platter b) ∧
      (d2.platter d.log.start).headerN = 0 := by
  have hs := commit_reach hout hle hclean hcrash
  refine ⟨hs.recover_total hinit hout, fun d2 hrec => ?_⟩
  rcases hs.recovers hinit hout hrec with hb | ha
  · exact ⟨.inl fun b hn => hb.same b (hout b hn), fun b _ hb' => hb.same b hb', hb.clean⟩
  · exact ⟨.inr ha.named, fun b hn hb => ha.rest b hb hn, ha.clean⟩

def twoBlocks : Disk where
  present := true
  mounted := true
  sb := ⟨100, 60, 16, 30, 2, 32, 34⟩
  log := ⟨2, 30, 0, true, [50, 51]⟩
  cache b := if b = 50 ∨ b = 51 then fun _ => 7 else Bytes.zero
  platter := fun _ => Bytes.zero
  busy := fun _ => false

theorem twoBlocks_out (b : Nat) : twoBlocks.Named b → ¬ twoBlocks.InLog b := by
  simp [twoBlocks, Disk.Named, Disk.InLog]; omega

def twoBlocksCommitted : Disk :=
  let e := (twoBlocks.bwrite 3 (twoBlocks.cache 50)).bwrite 4 (twoBlocks.cache 51)
  e.bwrite 2 ((e.cache 2).setHeader [50, 51])

theorem commit_crash_atomic_twoBlocks :
    (∃ d2, recoverFromLog.exec twoBlocksCommitted.reboot = .ok () d2) ∧
    ∀ d2, Recovers twoBlocksCommitted d2 →
      ((∀ b, twoBlocks.Named b → d2.platter b = twoBlocks.platter b) ∨
        (∀ b, twoBlocks.Named b → d2.platter b = twoBlocks.cache b)) ∧
      (∀ b, ¬ twoBlocks.Named b → ¬ twoBlocks.InLog b → d2.platter b = twoBlocks.platter b) ∧
      (d2.platter 2).headerN = 0 := by
  have hclean : (twoBlocks.platter twoBlocks.log.start).headerN = 0 := by decide
  have hcrash : Reach commit twoBlocks twoBlocksCommitted :=
    .next rfl (.next rfl (.next rfl (.next rfl (.next rfl (.here _ _)))))
  exact commit_crash_atomic twoBlocks rfl (by decide) hclean twoBlocks_out hcrash

theorem commit_exec {d d1} (hle : d.log.lh.length ≤ logsize) (hclean : (d.platter d.log.start).headerN = 0)
    (hout : ∀ b, d.Named b → ¬ d.InLog b) (he : commit.exec d = .ok () d1) : After d d1.platter := by
  obtain ⟨_, _, h0, he⟩ := bind_ok he
  cases h0
  split at he
  · obtain ⟨_, e1, h1, he⟩ := bind_ok he
    obtain ⟨_, e2, h2, he⟩ := bind_ok he
    have hlog := writeLog_exec hout ⟨rfl, rfl, fun _ _ => rfl, fun _ _ => rfl, fun _ => nofun⟩ h1
    rw [writeHead_ok h2] at he
    exact replay_exec hout (hlog.commit hout hle) he
  · next h0 =>
    cases he
    refine ⟨hclean, fun b ⟨x, hx, _⟩ => ?_, fun _ _ _ => rfl⟩
    exact absurd (List.length_pos_of_mem hx) h0

/-- Durability. Once `commit` has returned, no crash undoes it, however many recoveries are cut short. -/
theorem commit_durable (d : Disk) (hinit : d.log.start = d.sb.logstart) (hle : d.log.lh.length ≤ logsize)
    (hclean : (d.platter d.log.start).headerN = 0) (hout : ∀ b, d.Named b → ¬ d.InLog b) {d1 d2 : Disk}
    (hdone : commit.exec d = .ok () d1) (hrec : Recovers d1 d2) :
    (∀ b, d.Named b → d2.platter b = d.cache b) ∧ ∀ b, ¬ d.Named b → ¬ d.InLog b → d2.platter b = d.platter b := by
  have ha := commit_exec hle hclean hout hdone
  -- recovery starts from a log that names nothing
  let e : Disk := { d.setLh [] with platter := d1.platter }
  have hs : Settled e d1 := ⟨((keeps_commit (g := Disk.sb) (fun _ _ _ => rfl) fun _ _ => rfl).exec hdone :),
    .inl ⟨ha.clean, fun _ _ => rfl⟩⟩
  have hnone : ∀ b, ¬ e.Named b := fun b ⟨x, hx, _⟩ => List.not_mem_nil hx
  have hsame : ∀ b, ¬ d.InLog b → d2.platter b = d1.platter b := by
    intro b hb
    have hb' : ¬ e.InLog b := fun h => hb ⟨h.1, Nat.le_trans h.2 (Nat.le_add_right ..)⟩
    exact (hs.recovers (d := e) hinit (fun b hn => absurd hn (hnone b)) hrec).elim (·.same b hb')
      (·.rest b hb' (hnone b))
  exact ⟨fun b hn => (hsame b (hout b hn)).trans (ha.named b hn), fun b hn hb => (hsame b hb).trans (ha.rest b hb hn)⟩

theorem commit_durable_twoBlocks : ∃ d1 d2, commit.exec twoBlocks = .ok () d1 ∧ Recovers d1 d2 ∧
    d2.platter 50 = twoBlocks.cache 50 ∧ d2.platter 51 = twoBlocks.cache 51 := by
  refine ⟨_, _, rfl, .done rfl, ?_⟩
  have h := (commit_durable twoBlocks rfl (by decide) (by decide) twoBlocks_out rfl (.done rfl)).1
  exact ⟨h 50 ⟨50, by decide, rfl⟩, h 51 ⟨51, by decide, rfl⟩⟩

end Log

end Xv6Vsd
