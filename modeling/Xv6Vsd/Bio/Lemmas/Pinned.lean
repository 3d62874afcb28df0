import Xv6Vsd.Bio.Lemmas.Codes

/-! # What a step leaves alone -/

namespace Xv6Vsd.Bio

open Function State

variable {s s' : State} {b c : Buf} {p q i : Nat} {dev : UInt32}

/-! ## What a step of a process leaves alone -/

structure Others (s s' : State) (p : Nat) : Prop where
  code : ∀ q, q ≠ p → (s'.proc q).code = (s.proc q).code
  holds : ∀ q, q ≠ p → (s'.proc q).holds = (s.proc q).holds
  op : ∀ q, q ≠ p → (s'.proc q).op = (s.proc q).op
  used : ∀ q, q ≠ p → (s'.proc q).used = (s.proc q).used
  size : ∀ dev, (s'.log dev).size = (s.log dev).size
  start : ∀ dev, (s'.log dev).start = (s.log dev).start

theorem Others.of_asleep (hproc : ∀ q, q ≠ p → ∃ o, s'.proc q = { s.proc q with asleep := o })
    (hsize : ∀ dev, (s'.log dev).size = (s.log dev).size) (hstart : ∀ dev, (s'.log dev).start = (s.log dev).start) :
    Others s s' p where
  code := fun q hq => by obtain ⟨o, ho⟩ := hproc q hq; rw [ho]
  holds := fun q hq => by obtain ⟨o, ho⟩ := hproc q hq; rw [ho]
  op := fun q hq => by obtain ⟨o, ho⟩ := hproc q hq; rw [ho]
  used := fun q hq => by obtain ⟨o, ho⟩ := hproc q hq; rw [ho]
  size := hsize
  start := hstart

theorem Others.of_log {x l} (hproc : s'.proc = update s.proc p x) (hlog : s'.log = update s.log dev l)
    (hsize : l.size = (s.log dev).size) (hstart : l.start = (s.log dev).start) : Others s s' p := by
  refine .of_asleep (fun q hq => ⟨_, by rw [hproc, update_of_ne hq]⟩) (fun dev' => ?_) fun dev' => ?_
  · rw [hlog, update_apply]
    split
    · next he => rw [hsize, he]
    · rfl
  · rw [hlog, update_apply]
    split
    · next he => rw [hstart, he]
    · rfl

theorem Others.of_proc {x} (hproc : s'.proc = update s.proc p x) (hlog : s'.log = s.log) : Others s s' p :=
  .of_log hproc (hlog.trans (update_eq_self 0 s.log).symm) rfl rfl

theorem others_written (w : Writer) (rest : List Instr) : Others s (s.written p b w rest) p :=
  .of_proc (s.written_proc rest w) (s.written_log rest w)

theorem others_released (rest : List Instr) : Others s (s.released p i b rest) p := by
  refine .of_asleep (fun q hq => ?_) (fun _ => rfl) fun _ => rfl
  rw [released_proc, if_neg hq]
  dsimp only
  split <;> exact ⟨_, rfl⟩

theorem others_served (p : Nat) (queue : List Buf) : Others s (s.served b queue) p := by
  refine .of_asleep (fun q _ => ?_) (fun _ => by rw [served_log]) fun _ => by rw [served_log]
  rw [served_proc]
  split <;> exact ⟨_, rfl⟩

theorem Goes.others (h : Goes s p s') : Others s s' p := by
  cases h with
  | hit => exact .of_proc (got_proc _ _) rfl
  | recycle => exact .of_proc (recycled_proc _ _ _) rfl
  | bwrite => exact others_written _ _
  | brelse => exact others_released _
  | sleep | iderw | await | store | unlogged | logWrite | noBegin | noEnd | enter | copy | header =>
    exact .of_proc rfl rfl
  | logAppend | beginOp | endLast | endOp | clear | endCommit => exact .of_log rfl rfl rfl rfl

/-! ## Pinned buffers -/

theorem Others.pinned (ho : Others s s' p) (h : Pinned s' c) (hdirty : (s.buf c).dirty = true)
    (hp : waiting (s.proc p).code ≠ some c) : Pinned s c := by
  refine ⟨hdirty, fun q => ?_⟩
  rcases eq_or_ne q p with rfl | hq
  · exact hp
  · rw [← ho.code q hq]; exact h.2 q

theorem Others.pinned_of_buf {y} (ho : Others s s' p) (hbuf : s'.buf = update s.buf b y)
    (hkey : y.key = (s.buf b).key) (hdirty : y.dirty = (s.buf b).dirty) (hp : waiting (s.proc p).code = none)
    (h : Pinned s' c) : (s'.buf c).key = (s.buf c).key ∧ Pinned s c := by
  have hc : (s'.buf c).key = (s.buf c).key ∧ (s'.buf c).dirty = (s.buf c).dirty := by
    rw [hbuf, update_apply]
    split
    · next he => rw [he]; exact ⟨hkey, hdirty⟩
    · exact ⟨rfl, rfl⟩
  exact ⟨hc.1, ho.pinned h (hc.2 ▸ h.1) (by rw [hp]; nofun)⟩

theorem Others.pinned_of_same (ho : Others s s' p) (hbuf : s'.buf = s.buf) (hp : waiting (s.proc p).code = none)
    (h : Pinned s' c) : (s'.buf c).key = (s.buf c).key ∧ Pinned s c :=
  ho.pinned_of_buf (hbuf.trans (update_eq_self c s.buf).symm) rfl rfl hp h

theorem Goes.pinned (hg : Goes s p s') (h : Pinned s' c) : (s'.buf c).key = (s.buf c).key ∧
    (Pinned s c ∨ ∃ i rest, (s.proc p).code = .logAppend i :: rest ∧ (s.proc p).holds[i]? = some c) := by
  have ho := hg.others
  cases hg with
  | hit code => exact (ho.pinned_of_buf (got_buf _ _) rfl rfl (by rw [code]; rfl) h).imp_right .inl
  | @recycle key rest b code new free clean =>
    have hc : c ≠ b := by rintro rfl; have := h.1; simp [recycled_buf] at this
    have hbuf : (s.recycled p b key rest).buf c = s.buf c := by rw [recycled_buf, update_of_ne hc]
    exact ⟨by rw [hbuf], .inl (ho.pinned h (hbuf ▸ h.1) (by rw [code]; rintro ⟨⟩))⟩
  | @iderw b rest code todo =>
    refine ⟨rfl, .inl (ho.pinned h h.1 ?_)⟩
    have := h.2 p
    rw [code]
    simpa [goOn, setProc, waiting] using this
  | @await b rest code valid clean =>
    refine ⟨rfl, .inl (ho.pinned h h.1 ?_)⟩
    rw [code]
    rintro ⟨⟩
    exact absurd h.1 (by simp [goOn, setProc, clean])
  | store code | copy code | header code => exact (ho.pinned_of_buf rfl rfl rfl (by rw [code]; rfl) h).imp_right .inl
  | @logAppend i rest b code at_i =>
    rcases eq_or_ne c b with rfl | hc
    · exact ⟨by rw [appended_buf, update_self], .inr ⟨i, rest, code, at_i⟩⟩
    · have hbuf : (s.appended p b rest).buf c = s.buf c := by rw [appended_buf, update_of_ne hc]
      exact ⟨by rw [hbuf], .inl (ho.pinned h (hbuf ▸ h.1) (by rw [code]; rintro ⟨⟩))⟩
  | @bwrite i w rest b code at_i =>
    have hc : c ≠ b := by rintro rfl; have := h.2 p; simp [written_proc, waiting] at this
    have hbuf : (s.written p b w rest).buf c = s.buf c := by rw [written_buf, update_of_ne hc]
    exact ⟨by rw [hbuf], .inl (ho.pinned h (hbuf ▸ h.1) (by rw [code]; rintro ⟨⟩))⟩
  | brelse code at_i => exact (ho.pinned_of_buf (released_buf _ _) rfl rfl (by rw [code]; rfl) h).imp_right .inl
  | sleep code | unlogged code | logWrite code | noBegin code | beginOp code | noEnd code | endLast code | endOp code
  | enter code | clear code | endCommit code =>
    exact (ho.pinned_of_same rfl (by rw [code]; rfl) h).imp_right .inl

end Xv6Vsd.Bio
