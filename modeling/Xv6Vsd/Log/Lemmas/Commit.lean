import Xv6Vsd.Log.Lemmas.Moves
import Xv6Vsd.Log.Lemmas.Replay

/-! # A commit does not change what the buffers show -/

namespace Xv6Vsd

open Prog Disk

structure Disk.Alike (d e : Disk) : Prop where
  sb : e.sb = d.sb
  present : e.present = d.present
  mounted : e.mounted = d.mounted
  busy : e.busy = d.busy
  start : e.log.start = d.log.start
  size : e.log.size = d.log.size
  cache : ∀ b, ¬ d.InLog b → e.cache b = d.cache b

namespace Log

variable {d e e' : Disk}

theorem alike_bwrite {b x} (h : d.Alike e) (hb : ¬ d.InLog b → x = d.cache b) : d.Alike (e.bwrite b x) := by
  refine ⟨h.sb, h.present, h.mounted, h.busy, h.start, h.size, fun c hc => ?_⟩
  by_cases hcb : c = b
  · subst hcb; rw [bwrite_cache_self, hb hc]
  · rw [bwrite_cache_of_ne _ _ hcb, h.cache c hc]

theorem alike_writeHead (h : d.Alike e) (he : writeHead.exec e = .ok () e') :
    d.Alike e' ∧ e'.log = e.log ∧ ∀ b ≠ d.log.start, e'.cache b = e.cache b := by
  obtain rfl := writeHead_ok he
  refine ⟨alike_bwrite h fun hb => absurd ?_ hb, rfl, fun b hb => ?_⟩
  · rw [h.start]; exact d.inLog_start
  · rw [bwrite_cache_of_ne]; rwa [h.start]

theorem alike_writeLog (hout : ∀ b, d.Named b → ¬ d.InLog b) (he : writeLog.exec d = .ok () e') :
    d.Alike e' ∧ e'.log = d.log ∧ ∀ j < d.log.lh.length, e'.cache (d.slot j) = d.cache (d.home j) := by
  obtain ⟨n, e1, h1, h2⟩ := bind_ok he
  cases h1
  refine exec_loop (I := fun i e => d.Alike e ∧ e.log = d.log ∧
    ∀ j < i, e.cache (d.slot j) = d.cache (d.home j)) (fun i hi f f' ⟨ha, hl, hc⟩ hf => ?_)
    ⟨⟨rfl, rfl, rfl, rfl, rfl, rfl, fun _ _ => rfl⟩, rfl, by simp⟩ h2
  rw [exec_act] at hf
  have hslot : f.slot i = d.slot i := by simp [slot, hl]
  have hhome : f.home i = d.home i := by simp [home, hl]
  obtain rfl := copyBlock_ok hf
  have hsrc : f.cache (d.home i) = d.cache (d.home i) := ha.cache _ (hout _ (d.named_home hi))
  rw [hslot, hhome, hsrc]
  refine ⟨alike_bwrite ha fun hb => absurd (d.inLog_slot hi) hb, hl, fun j hj => ?_⟩
  by_cases hji : j = i
  · subst hji; rw [bwrite_cache_self]
  · rw [bwrite_cache_of_ne _ _ (by simp only [slot]; omega), hc j (by omega)]

theorem alike_installTrans (h : d.Alike e) (hl : e.log = d.log)
    (hc : ∀ j < d.log.lh.length, e.cache (d.slot j) = d.cache (d.home j))
    (hout : ∀ b, d.Named b → ¬ d.InLog b) (he : installTrans.exec e = .ok () e') :
    d.Alike e' ∧ e'.log = d.log := by
  obtain ⟨n, e1, h1, h2⟩ := bind_ok he
  cases h1
  rw [hl] at h2
  have hturn : ∀ i < d.log.lh.length, ∀ f f' : Disk, (d.Alike f ∧ f.log = d.log ∧
    ∀ j < d.log.lh.length, f.cache (d.slot j) = d.cache (d.home j)) →
    (act (fun d => LogEv.install (d.home i)) fun d => d.copyBlock (d.home i) (d.slot i)).exec f = .ok () f' →
    d.Alike f' ∧ f'.log = d.log ∧ ∀ j < d.log.lh.length, f'.cache (d.slot j) = d.cache (d.home j) := by
    intro i hi f f' ⟨ha, hl, hc⟩ hf
    rw [exec_act] at hf
    have hslot : f.slot i = d.slot i := by simp [slot, hl]
    have hhome : f.home i = d.home i := by simp [home, hl]
    obtain rfl := copyBlock_ok hf
    rw [hslot, hhome, hc i hi]
    refine ⟨alike_bwrite ha fun _ => rfl, hl, fun j hj => ?_⟩
    have hne : d.slot j ≠ d.home i := fun hcon => hout _ (d.named_home hi) (hcon ▸ d.inLog_slot hj)
    rw [bwrite_cache_of_ne _ _ hne, hc j hj]
  obtain ⟨ha, hl', -⟩ := exec_loop hturn ⟨h, hl, hc⟩ h2
  exact ⟨ha, hl'⟩

theorem commit_alike (hout : ∀ b, d.Named b → ¬ d.InLog b) (he : commit.exec d = .ok () e') :
    d.Alike e' ∧ e'.log = { d.log with lh := [] } := by
  obtain ⟨n, e1, h1, h2⟩ := bind_ok he
  cases h1
  split at h2
  · obtain ⟨_, e2, h3, h4⟩ := bind_ok h2
    obtain ⟨ha2, hl2, hc2⟩ := alike_writeLog hout h3
    obtain ⟨_, e3, h5, h6⟩ := bind_ok h4
    obtain ⟨ha3, hl3, hc3⟩ := alike_writeHead ha2 h5
    obtain ⟨_, e4, h7, h8⟩ := bind_ok h6
    have hslots : ∀ j < d.log.lh.length, e3.cache (d.slot j) = d.cache (d.home j) := fun j hj => by
      rw [hc3 _ (by simp only [slot]; omega), hc2 j hj]
    obtain ⟨ha4, hl4⟩ := alike_installTrans ha3 (hl3.trans hl2) hslots hout h7
    obtain ⟨_, e5, h9, h10⟩ := bind_ok h8
    cases h9
    have ha5 : d.Alike (e4.setLh []) := { ha4 with }
    obtain ⟨ha6, hl6, -⟩ := alike_writeHead ha5 h10
    exact ⟨ha6, by rw [hl6, ← hl4]; rfl⟩
  · rename_i hn
    cases h2
    have hnil : d.log.lh = [] := List.eq_nil_of_length_eq_zero (by omega)
    refine ⟨⟨rfl, rfl, rfl, rfl, rfl, rfl, fun _ _ => rfl⟩, ?_⟩
    rw [← hnil]

theorem endOp_alike (hout : d.log.size ≠ 0 → ∀ b, d.Named b → ¬ d.InLog b) {u} (he : endOp.exec d = .ok u e') :
    e' = d ∨ (d.log.size ≠ 0 ∧ d.Alike e' ∧ (e'.log.lh = d.log.lh ∨ e'.log.lh = [])) := by
  obtain ⟨doCommit, d1, h1, h2⟩ := bind_ok he
  rw [exec_act] at h1
  obtain ⟨-, rfl, rfl⟩ | ⟨hsize, -, -, rfl, rfl⟩ | ⟨hsize, -, -, rfl, rfl⟩ := endOpLocked_ok h1
  · cases h2; exact .inl rfl
  · cases h2; exact .inr ⟨hsize, ⟨rfl, rfl, rfl, rfl, rfl, rfl, fun _ _ => rfl⟩, .inl rfl⟩
  obtain ⟨_, d2, h3, h4⟩ := bind_ok h2
  rw [exec_act] at h4; cases h4
  obtain ⟨ha, hl⟩ := commit_alike (d := (d.setOut 0).setCommitting true) (hout hsize) h3
  exact .inr ⟨hsize, { ha with }, .inr (congrArg Log.lh hl)⟩

end Log

end Xv6Vsd
