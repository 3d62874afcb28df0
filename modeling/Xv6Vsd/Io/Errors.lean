import Mathlib.Data.Fintype.Basic
import Xv6Vsd.Io.Served

/-!
# Disk errors and the buffer cache (`ide.c`, `bio.c`)

The cache over the driver: `bread`, `bwrite` and `brelse` by whoever has a buffer. The order of the buffers is left out,
so any buffer that is neither busy nor dirty can be recycled.
-/

namespace Xv6Vsd.Ide

open Function State Option Bool

variable {β δ : Type}

inductive Op where
  | free
  | bread
  | read
  | held
  | bwrite
  | wrote
  deriving DecidableEq

def Op.idle : Op → Bool
  | .bread | .bwrite => false
  | _ => true

def Op.mine : Op → Bool
  | .read | .held | .wrote => true
  | _ => false

def Op.returned : Op → Op
  | .bread => .read
  | .bwrite => .wrote
  | o => o

/-- The cache, with the buffers that have been changed since they were last read or written, and those whose last
request
failed. -/
structure Cache (β δ : Type) where
  ide : State β δ
  op : β → Op
  touched : β → Bool
  failed : β → Bool

inductive Bact (β δ : Type) where
  | bread (b : β) (dev blockno : Nat)
  | store (b : β) (data : δ)
  | logWrite (b : β)
  | bwrite (b : β)
  | brelse (b : β)
  | ide (a : Act β δ)

namespace Cache

variable [DecidableEq β]

def set (s : Cache β δ) (b : β) (x : Buf δ) (op : Op) (touched : Bool) : Cache β δ := { s with
    ide := { s.ide with buf := update s.ide.buf b x }
    op := update s.op b op
    touched := update s.touched b touched }

def diskrw (s : Cache β δ) (b : β) (x : Buf δ) (op : Op) : Option (Cache β δ) := (s.ide.act (.call b x)).map fun ide =>
    { ide := ide
      op := update s.op b op
      touched := update s.touched b false
      failed := update s.failed b false }

def bread [Fintype β] (s : Cache β δ) (b : β) (dev blockno : Nat) : Option (Cache β δ) :=
  let x := s.ide.buf b
  if s.op b = .free then
    if x.block = (dev, blockno) then
      if x.valid then some (s.set b { x with busy := true } .read false)
      else s.diskrw b { x with busy := true } .bread
    else if (∀ y, (s.ide.buf y).block ≠ (dev, blockno)) ∧ x.dirty = false then
      s.diskrw b { x with busy := true, valid := false, dev := dev, blockno := blockno } .bread
    else none
  else none

def driver (s : Cache β δ) (a : Act β δ) : Option (Cache β δ) := match a with
  | .call _ _ => none
  | a =>
    (s.ide.act a).map fun ide =>
      { s with
        ide := ide
        op := fun b => if ide.rw b = .out then (s.op b).returned else s.op b
        failed := fun b => if ide.completed = s.ide.completed ++ [b] then !s.ide.dev.ready else s.failed b }

def act [Fintype β] (s : Cache β δ) : Bact β δ → Option (Cache β δ)
  | .bread b dev blockno => s.bread b dev blockno
  | .store b data => if (s.op b).mine then some (s.set b { s.ide.buf b with data := data } .held true) else none
  | .logWrite b =>
    if (s.op b).mine then some (s.set b { s.ide.buf b with dirty := true } .held (s.touched b)) else none
  | .bwrite b => if (s.op b).mine then s.diskrw b { s.ide.buf b with dirty := true } .bwrite else none
  | .brelse b =>
    if (s.op b).mine then some (s.set b { s.ide.buf b with busy := false } .free (s.touched b)) else none
  | .ide a => s.driver a

end Cache

def binit (data : β → δ) (media : Nat × Nat → δ) (port : δ) : Cache β δ where
  ide :=
    start (fun b => { busy := false, valid := false, dirty := false, dev := 2 ^ 32 - 1, blockno := 0, data := data b })
      media port
  op _ := .free
  touched _ := false
  failed _ := false

structure Honest (s : Cache β δ) : Prop where
  read : ∀ b, s.op b = .read → (s.ide.buf b).valid = true → (s.ide.buf b).data = s.ide.dev.media (s.ide.buf b).block
  write : ∀ b, s.op b = .wrote → (s.ide.buf b).dirty = false → s.ide.dev.media (s.ide.buf b).block = (s.ide.buf b).data
  failed : ∀ b, s.failed b = true → (s.ide.buf b).synced = false

/-- Every command ends well, and a buffer is not given back changed: its holder writes it with `bwrite` first. -/
def Faultless (s : Cache β δ) : Bact β δ → Prop
  | .ide (.complete ok) => ok = true
  | .brelse b => s.touched b = false
  | _ => True

/-! ## The invariant -/

def InSync (s : Cache β δ) (b : β) : Prop :=
  if (s.op b).idle then (s.ide.buf b).valid = true ∧ s.touched b = false else (s.ide.buf b).synced = true

structure Good (s : Cache β δ) : Prop where
  ide : ∃ q, Inv s.ide q
  calls : ∀ b, s.ide.rw b = .out ↔ (s.op b).idle = true
  distinct : ∀ x y, x ≠ y → (s.ide.buf x).known = true → (s.ide.buf x).block ≠ (s.ide.buf y).block
  copies : ∀ b, InSync s b → (s.ide.buf b).known = true ∧ (s.ide.buf b).data = s.ide.dev.media (s.ide.buf b).block
  untouched : ∀ b, s.op b ≠ .held → s.touched b = false
  wrote : ∀ b, s.op b = .wrote → (s.ide.buf b).valid = true
  failed : ∀ b, s.failed b = false

variable {s s' : Cache β δ} {b : β}

theorem Good.honest (h : Good s) : Honest s where
  read b hb hvalid := by
    have htouched := h.untouched b (by simp [hb])
    exact (h.copies b (by simp [InSync, hb, Op.idle, hvalid, htouched])).2
  write b hb _ := by
    have htouched := h.untouched b (by simp [hb])
    exact (h.copies b (by simp [InSync, hb, Op.idle, h.wrote b hb, htouched])).2.symm
  failed b hb := by simp [h.failed b] at hb

theorem Good.busy (h : Good s) (hb : s.ide.rw b ≠ .out) : (s.op b).idle = false := by
  rw [← not_eq_true, ← h.calls b]
  exact hb

theorem good_binit (data : β → δ) (media : Nat × Nat → δ) (port : δ) : Good (binit data media port) where
  ide := ⟨[], inv_start _ _ _⟩
  calls b := by simp [binit, start, Op.idle]
  distinct x y _ hx := by simp [binit, start, Buf.known] at hx
  copies b hb := by simp [binit, start, InSync, Op.idle] at hb
  untouched b _ := rfl
  wrote b hb := by cases hb
  failed b := rfl

section Step

variable [DecidableEq β]

/-! ## Steps of the holder -/

theorem Good.set (h : Good s) (hb : (s.op b).idle = true) {x op t}
    (hblock : x.block = (s.ide.buf b).block) (hop : op.idle = true) (ht : op ≠ .held → t = false)
    (hwrote : op ≠ .wrote)
    (hcopy : x.valid = true → t = false → (s.ide.buf b).valid = true ∧ s.touched b = false ∧ x.data =
      (s.ide.buf b).data) :
    Good (s.set b x op t) := by
  have hout := (h.calls b).mpr hb
  have hknown : x.known = (s.ide.buf b).known := by
    simp only [Buf.block, Prod.mk.injEq] at hblock
    simp [Buf.known, hblock]
  have hblocks : ∀ y, (update s.ide.buf b x y).block = (s.ide.buf y).block ∧
    (update s.ide.buf b x y).known = (s.ide.buf y).known := by
    intro y
    by_cases hyb : y = b
    · subst hyb; simpa using ⟨hblock, hknown⟩
    · simp [update_of_ne hyb]
  exact {
    ide := by obtain ⟨q, hq⟩ := h.ide; exact ⟨q, hq.setBuf hout x⟩
    calls := by
      intro y
      by_cases hyb : y = b
      · subst hyb; simp [Cache.set, hout, hop]
      · simpa [Cache.set, update_of_ne hyb] using h.calls y
    distinct := by
      intro y z hyz hy
      simp only [Cache.set, hblocks] at hy ⊢
      exact h.distinct y z hyz hy
    copies := by
      intro y hy
      by_cases hyb : y = b
      · subst hyb
        simp only [InSync, Cache.set, hop, ↓reduceIte, update_self] at hy ⊢
        obtain ⟨hv, htouched, hdata⟩ := hcopy hy.1 hy.2
        have := h.copies y (by simp [InSync, hb, hv, htouched])
        rwa [hknown, hblock, hdata]
      · simp only [InSync, Cache.set, update_of_ne hyb] at hy ⊢; exact h.copies y hy
    untouched := by
      intro y hy
      by_cases hyb : y = b
      · subst hyb; simp only [Cache.set, update_self] at hy ⊢; exact ht hy
      · simp only [Cache.set, update_of_ne hyb] at hy ⊢; exact h.untouched y hy
    wrote := by
      intro y hy
      by_cases hyb : y = b
      · subst hyb; simp only [Cache.set, update_self] at hy; exact absurd hy hwrote
      · simp only [Cache.set, update_of_ne hyb] at hy ⊢; exact h.wrote y hy
    failed := h.failed }

theorem Good.diskrw (h : Good s) (hb : (s.op b).idle = true) {x op} (hop : op.idle = false)
    (hfresh : x.known = true → ∀ y, y ≠ b → (s.ide.buf y).block ≠ x.block) (ha : s.diskrw b x op = some s') :
    Good s' := by
  have hout := (h.calls b).mpr hb
  simp only [Cache.diskrw, act, map_eq_some_iff] at ha
  obtain ⟨ide, hide, rfl⟩ := ha
  split at hide <;> cases hide
  next hc =>
    obtain ⟨-, -, hsync, hknown⟩ := hc
    have hblock := hfresh hknown
    exact {
      ide := by obtain ⟨q, hq⟩ := h.ide; exact ⟨q, hq.call hout (by simpa using hsync) hknown⟩
      calls := by
        intro y
        by_cases hyb : y = b
        · subst hyb; simp [goto, hop]
        · simpa [goto, update_of_ne hyb] using h.calls y
      distinct := by
        intro y z hyz hy
        by_cases hyb : y = b
        · subst hyb; simpa [update_of_ne hyz.symm] using (hblock z hyz.symm).symm
        by_cases hzb : z = b
        · subst hzb; simpa [update_of_ne hyb] using hblock y hyb
        · simp only [update_of_ne hyb, update_of_ne hzb] at hy ⊢; exact h.distinct y z hyz hy
      copies := by
        intro y hy
        by_cases hyb : y = b
        · subst hyb
          simp only [InSync, hop, update_self, false_eq_true, ↓reduceIte] at hy
          simp [hy] at hsync
        · simp only [InSync, goto, update_of_ne hyb] at hy ⊢; exact h.copies y hy
      untouched := by
        intro y hy
        by_cases hyb : y = b
        · subst hyb; simp
        · simp only [update_of_ne hyb] at hy ⊢; exact h.untouched y hy
      wrote := by
        intro y hy
        by_cases hyb : y = b
        · subst hyb; simp only [update_self] at hy; simp [hy, Op.idle] at hop
        · simp only [update_of_ne hyb] at hy ⊢; exact h.wrote y hy
      failed := by
        intro y
        by_cases hyb : y = b
        · subst hyb; simp
        · simpa only [update_of_ne hyb] using h.failed y }

theorem Op.idle_of_mine {o : Op} (h : o.mine = true) : o.idle = true := by
  cases o <;> first | rfl | cases h

/-! ## Steps of the driver -/

structure Driven (s s' : State β δ) : Prop where
  rw : s'.rw = s.rw ∨ ∃ b w, s'.rw = update s.rw b w ∧ s.rw b ≠ .out ∧ (w = .out → s.rw b = .leave)
  buf : s'.buf = s.buf ∧ s'.completed = s.completed ∨
    ∃ b, s.idequeue = some b ∧ s.dev.ready = true ∧ s'.completed = s.completed ++ [b] ∧ (s'.buf b).synced = true ∧
      ∀ y, y ≠ b → s'.buf y = s.buf y

theorem iderw_rw {s s' : State β δ} (h : s.iderw b = some s') :
    ∃ w, s'.rw = update s.rw b w ∧ s.rw b ≠ .out ∧ (w = .out → s.rw b = .leave) := by
  unfold iderw at h
  cases hw : s.rw b with simp only [hw] at h
  | out | asleep => cases h
  | enter | leave => cases h; exact ⟨_, rfl, by simp, by simp⟩
  | acquire | reacquire | walk | test =>
    split at h <;> cases h <;> exact ⟨_, rfl, by simp, by simp⟩
  | start =>
    split at h
    · simp only [idestart, map_map, map_eq_some_iff] at h
      obtain ⟨d, -, rfl⟩ := h
      exact ⟨_, rfl, by simp, by simp⟩
    · cases h; exact ⟨_, rfl, by simp, by simp⟩

theorem wake_rw (s : State β δ) (b : β) :
    (s.wake b).rw = s.rw ∨ ∃ w, (s.wake b).rw = update s.rw b w ∧ s.rw b ≠ .out ∧ (w = .out → s.rw b = .leave) := by
  unfold wake
  split
  · next hb => exact .inr ⟨_, rfl, by simp [hb], by simp⟩
  · exact .inl rfl

variable {q : List β}

theorem finish_driven {s : State β δ} (h : Inv s q) (hi : s.intr = .take) (hq : s.idequeue = some b) :
    Driven s (s.finish b) where
  rw := by
    obtain heq | ⟨w, heq⟩ := wake_rw ({ s with
        idequeue := s.qnext b
        buf := update s.buf b { s.buf b with
            data := if !(s.buf b).dirty && s.dev.ready then s.dev.port else (s.buf b).data
            valid := true
            dirty := false }
        dev := { s.dev with phase := .idle }
        completed := s.completed ++ [b]
        intr := .next } : State β δ) b
    · exact .inl heq
    · exact .inr ⟨b, w, heq⟩
  buf := by
    obtain ⟨-, hcompleted, hbuf⟩ := finish_fields s b
    obtain ⟨-, t, x, hp, -, -, -⟩ := h.done (.inr hi)
    refine .inr ⟨b, hq, by simp [Device.ready, hp], hcompleted, by simp [hbuf, Buf.synced], fun y hy => ?_⟩
    rw [hbuf, update_of_ne hy]

theorem Untouched.driven {s s' : State β δ} (h : Untouched s s')
    (hrw : s'.rw = s.rw ∨ ∃ b w, s'.rw = update s.rw b w ∧ s.rw b ≠ .out ∧ (w = .out → s.rw b = .leave)) :
    Driven s s' :=
  ⟨hrw, .inl ⟨h.buf, h.completed⟩⟩

theorem ideintr_driven {s s' : State β δ} (h : Inv s q) (ha : s.ideintr = some s') : Driven s s' := by
  unfold ideintr at ha
  cases hi : s.intr with simp only [hi] at ha
  | out => cases ha
  | acquire =>
    split at ha <;> cases ha
    exact ⟨.inl rfl, .inl ⟨rfl, rfl⟩⟩
  | take =>
    split at ha
    · cases ha; exact ⟨.inl rfl, .inl ⟨rfl, rfl⟩⟩
    · next b hq => cases ha; exact finish_driven h hi hq
  | next =>
    split at ha
    · cases ha; exact ⟨.inl rfl, .inl ⟨rfl, rfl⟩⟩
    simp only [idestart, map_map, map_eq_some_iff] at ha
    obtain ⟨d, -, rfl⟩ := ha
    exact ⟨.inl rfl, .inl ⟨rfl, rfl⟩⟩
  | leave => cases ha; exact ⟨.inl rfl, .inl ⟨rfl, rfl⟩⟩

theorem Inv.driven {s s' : State β δ} (h : Inv s q) {a : Act β δ} (hcall : ∀ b x, a ≠ .call b x)
    (ha : s.act a = some s') : Driven s s' := by
  cases a with
  | call b x => exact absurd rfl (hcall b x)
  | rw b => exact (iderw_untouched ha).driven (.inr ⟨b, iderw_rw ha⟩)
  | kill b =>
    cases ha
    exact (wake_untouched s b).driven ((wake_rw s b).imp_right fun hw => ⟨b, hw⟩)
  | complete ok =>
    simp only [State.act, map_eq_some_iff] at ha
    obtain ⟨d, -, rfl⟩ := ha
    exact ⟨.inl rfl, .inl ⟨rfl, rfl⟩⟩
  | interrupt =>
    simp only [State.act] at ha
    split at ha <;> cases ha
    exact ⟨.inl rfl, .inl ⟨rfl, rfl⟩⟩
  | intr => exact ideintr_driven h ha

namespace Driven

variable {s s' : State β δ}

theorem out (h : Driven s s') (hb : s.rw b = .out) : s'.rw b = .out := by
  obtain heq | ⟨x, w, heq, hx, -⟩ := h.rw
  · rw [heq, hb]
  · rw [heq, update_of_ne, hb]; rintro rfl; exact hx hb

theorem back (h : Driven s s') (hb : s.rw b ≠ .out) (hout : s'.rw b = .out) : s.rw b = .leave := by
  obtain heq | ⟨x, w, heq, -, hw⟩ := h.rw
  · rw [heq] at hout; exact absurd hout hb
  by_cases hbx : b = x
  · subst hbx; rw [heq, update_self] at hout; exact hw hout
  · rw [heq, update_of_ne hbx] at hout; exact absurd hout hb

end Driven

theorem Op.idle_returned (o : Op) : o.returned.idle = true := by cases o <;> rfl

theorem Op.returned_of_idle {o : Op} (h : o.idle = true) : o.returned = o := by
  cases o <;> first | rfl | cases h

omit [DecidableEq β] in
theorem Inv.queued_unsynced {s : State β δ} (h : Inv s q) (hb : b ∈ q) :
    s.rw b ≠ .out ∧ s.rw b ≠ .leave ∧ (s.buf b).synced = false := by
  have hlocal := h.rw b
  unfold Local at hlocal
  cases hw : s.rw b with simp only [hw] at hlocal
  | out => exact absurd hb hlocal
  | leave => exact absurd hb hlocal.1
  | acquire | enter => exact absurd hb hlocal.2.1
  | walk pp => exact absurd hb hlocal.1.2.1
  | start => exact ⟨by simp, by simp, hlocal.1.2.mp hb⟩
  | test | asleep | reacquire => exact ⟨by simp, by simp, hlocal.2.mp hb⟩

theorem Good.media (h : Good s) {i : State β δ} (ht : Transfers s.ide i) (hb : InSync s b) :
    i.dev.media (s.ide.buf b).block = s.ide.dev.media (s.ide.buf b).block := by
  by_contra hne
  obtain ⟨q, hq⟩ := h.ide
  obtain ⟨x, hx, -, hblock, -⟩ := ht.media _ hne
  have hmem : x ∈ q := List.mem_of_mem_head? (hq.idequeue_eq ▸ hx)
  obtain ⟨hout, -, hsync⟩ := hq.queued_unsynced hmem
  by_cases hxb : x = b
  · subst hxb
    simp [InSync, h.busy hout, hsync] at hb
  · exact h.distinct b x (Ne.symm hxb) (h.copies b hb).1 hblock

theorem Good.driver (h : Good s) {a : Act β δ} (hok : Successful s.ide a) (ha : s.driver a = some s') : Good s' := by
  obtain ⟨hcall, ide, hide, rfl⟩ : (∀ b x, a ≠ .call b x) ∧ ∃ ide, s.ide.act a = some ide ∧ { s with
      ide := ide
      op := fun b => if ide.rw b = .out then (s.op b).returned else s.op b
      failed := fun b => if ide.completed = s.ide.completed ++ [b] then !s.ide.dev.ready else s.failed b } = s' := by
    cases a <;> simp_all [Cache.driver, map_eq_some_iff]
  obtain ⟨q, hq⟩ := h.ide
  have hdriven := hq.driven hcall hide
  have ht := hq.transfers hok hide
  have hhead : ∀ x, s.ide.idequeue = some x → x ∈ q := fun x hx => List.mem_of_mem_head? (hq.idequeue_eq ▸ hx)
  have hblock : ∀ b, (ide.buf b).block = (s.ide.buf b).block := by
    intro b
    obtain ⟨heq, -⟩ | ⟨x, hx, -, -, -, hother⟩ := hdriven.buf
    · rw [heq]
    by_cases hbx : b = x
    · subst hbx; exact (ht.data b (hq.queued_unsynced (hhead b hx)).1).1
    · rw [hother b hbx]
  have hknown : ∀ b, (ide.buf b).known = (s.ide.buf b).known := by
    intro b
    have := hblock b
    simp only [Buf.block, Prod.mk.injEq] at this
    simp [Buf.known, this]
  have hsynced : ∀ b, s.ide.rw b = .leave → (s.ide.buf b).synced = true := by
    intro b hb
    have hlocal := hq.rw b
    simp only [Local, hb] at hlocal
    exact hlocal.2
  have hvalid : ∀ b, (s.ide.buf b).valid = true → (ide.buf b).valid = true := by
    intro b hb
    obtain ⟨heq, -⟩ | ⟨x, -, -, -, hsync, hother⟩ := hdriven.buf
    · rwa [heq]
    by_cases hbx : b = x
    · subst hbx; simp only [Buf.synced, and_eq_true] at hsync; exact hsync.1
    · rwa [hother b hbx]
  -- a buffer whose request does not end in this step
  have hcopy : ∀ b, ide.buf b = s.ide.buf b →
    InSync { s with ide := ide, op := fun b => if ide.rw b = .out then (s.op b).returned else s.op b } b →
    InSync s b := by
    intro b hbuf hb
    by_cases hout : s.ide.rw b = .out
    · have hidle := (h.calls b).mp hout
      simp only [InSync, hdriven.out hout, ↓reduceIte, Op.returned_of_idle hidle, hidle, hbuf] at hb
      simpa only [InSync, hidle, ↓reduceIte] using hb
    by_cases hout' : ide.rw b = .out
    · simp [InSync, h.busy hout, hsynced b (hdriven.back hout hout')]
    · simpa only [InSync, hout', ↓reduceIte, hbuf] using hb
  exact {
    ide := hq.act hok hide
    calls := by
      intro b
      by_cases hout' : ide.rw b = .out
      · simp [hout', Op.idle_returned]
      · have hout : s.ide.rw b ≠ .out := fun hout => hout' (hdriven.out hout)
        simp [hout', h.busy hout]
    distinct := by intro x y hxy hx; simp only [hknown, hblock] at hx ⊢; exact h.distinct x y hxy hx
    copies := by
      intro b hb
      simp only [hknown, hblock]
      by_cases hbuf : ide.buf b = s.ide.buf b
      · have hbefore := hcopy b hbuf hb
        obtain ⟨hk, hdata⟩ := h.copies b hbefore
        exact ⟨hk, by rw [hbuf, h.media ht hbefore, hdata]⟩
      -- the request for `b` has ended
      obtain ⟨heq, -⟩ | ⟨x, hx, -, hcompleted, -, hother⟩ := hdriven.buf
      · exact absurd (congrFun heq b) hbuf
      obtain rfl : b = x := by
        by_contra hbx
        exact hbuf (hother b hbx)
      refine ⟨hq.known (hhead b hx), ?_⟩
      cases hdirty : (s.ide.buf b).dirty with
      | true => obtain ⟨hdata, hmedia⟩ := ht.write b hcompleted hdirty; rw [hdata, hmedia]
      | false => exact ht.read b hcompleted hdirty
    untouched := by
      intro b hb
      apply h.untouched b
      intro hheld
      simp [hheld, Op.returned] at hb
    wrote := by
      intro b hb
      apply hvalid b
      by_cases hout' : ide.rw b = .out
      · simp only [hout', ↓reduceIte] at hb
        by_cases hout : s.ide.rw b = .out
        · rw [Op.returned_of_idle ((h.calls b).mp hout)] at hb; exact h.wrote b hb
        have := hsynced b (hdriven.back hout hout')
        simp only [Buf.synced, and_eq_true] at this
        exact this.1
      · simp only [hout', ↓reduceIte] at hb; exact h.wrote b hb
    failed := by
      intro b
      dsimp only
      split
      · next hcompleted =>
        obtain ⟨-, heq⟩ | ⟨x, -, hready, -⟩ := hdriven.buf
        · exact absurd (heq.symm.trans hcompleted) (append_singleton_ne _ b)
        · simp [hready]
      · exact h.failed b }

/-! ## Runs -/

variable [Fintype β]

theorem Good.bread (h : Good s) {dev blockno} (ha : s.bread b dev blockno = some s') : Good s' := by
  unfold Cache.bread at ha
  dsimp only at ha
  split at ha
  · next hfree =>
    have hidle : (s.op b).idle = true := by rw [hfree]; rfl
    split at ha
    · next hblock =>
      split at ha
      · cases ha
        exact h.set hidle rfl rfl (fun _ => rfl) (by simp) fun hv _ => ⟨hv, h.untouched b (by simp [hfree]), rfl⟩
      refine h.diskrw hidle ?_ ?_ ha
      · rfl
      · exact fun hk y hyb => (h.distinct b y hyb.symm hk).symm
    · split at ha
      · next hmiss =>
        refine h.diskrw hidle ?_ ?_ ha
        · rfl
        · exact fun _ y _ => hmiss.1 y
      · cases ha
  · cases ha

theorem Good.act (h : Good s) {a : Bact β δ} (hok : Faultless s a) (ha : s.act a = some s') : Good s' := by
  cases a with
  | bread b dev blockno => exact h.bread ha
  | store b data =>
    obtain ⟨hm, ⟨⟩⟩ := ite_none_right_eq_some.mp ha
    exact h.set (Op.idle_of_mine hm) rfl rfl (by simp) (by simp) (by simp)
  | logWrite b =>
    obtain ⟨hm, ⟨⟩⟩ := ite_none_right_eq_some.mp ha
    exact h.set (Op.idle_of_mine hm) rfl rfl (by simp) (by simp) fun hv ht => ⟨hv, ht, rfl⟩
  | bwrite b =>
    obtain ⟨hm, ha⟩ := ite_none_right_eq_some.mp ha
    refine h.diskrw (Op.idle_of_mine hm) ?_ ?_ ha
    · rfl
    · exact fun hk y hyb => (h.distinct b y hyb.symm hk).symm
  | brelse b =>
    obtain ⟨hm, ⟨⟩⟩ := ite_none_right_eq_some.mp ha
    exact h.set (Op.idle_of_mine hm) rfl rfl (fun _ => hok) (by simp) fun hv ht => ⟨hv, ht, rfl⟩
  | ide a => apply h.driver _ ha; cases a <;> exact hok

/-- Without errors of the drives the flags tell the truth. -/
theorem flags_honest {data : β → δ} {media : Nat × Nat → δ} {port : δ}
    (h : Run Cache.act Faultless (binit data media port) s) : Honest s := by
  have hgood : Good s := h.invariant (good_binit data media port) fun _ _ _ hg hok ha => hg.act hok ha
  exact hgood.honest

end Step

def request (ok : Bool) : List (Act (Fin 1) Nat) :=
  [.rw 0, .rw 0, .rw 0, .rw 0, .rw 0, .complete ok, .interrupt, .intr, .intr, .intr, .intr, .rw 0, .rw 0, .rw 0]

def readThree (ok : Bool) : List (Bact (Fin 1) Nat) := .bread 0 0 3 :: (request ok).map .ide

def writeNine (ok : Bool) : List (Bact (Fin 1) Nat) := .store 0 9 :: .bwrite 0 :: (request ok).map .ide

instance (s : Cache β δ) (a : Bact β δ) : Decidable (Faultless s a) := by
  unfold Faultless
  split <;> infer_instance

theorem flags_honest_write :
    ∃ s : Cache (Fin 1) Nat, Run Cache.act Faultless (binit (fun _ => 0) Prod.snd 0) s ∧ s.op 0 = .wrote ∧
      s.ide.dev.media (0, 3) = 9 ∧ Honest s := by
  obtain ⟨s, hrun, hop, hmedia⟩ :
      ∃ s : Cache (Fin 1) Nat, Run Cache.act Faultless (binit (fun _ => 0) Prod.snd 0) s ∧ s.op 0 = .wrote ∧
        s.ide.dev.media (0, 3) = 9 :=
    exists_run (readThree true ++ writeNine true) (by decide +kernel)
  exact ⟨s, hrun, hop, hmedia, flags_honest hrun⟩

/-- A read that fails gives a valid buffer without the block, and a write that fails a clean buffer that is not on the
disk. -/
theorem failed_request_looks_done :
    (∃ s : Cache (Fin 1) Nat, Run Cache.act (fun _ _ => True) (binit (fun _ => 0) Prod.snd 0) s ∧ s.op 0 = .read ∧
      s.failed 0 = true ∧ (s.ide.buf 0).synced = true ∧ (s.ide.buf 0).data ≠ s.ide.dev.media (s.ide.buf 0).block) ∧
    (∃ s : Cache (Fin 1) Nat, Run Cache.act (fun _ _ => True) (binit (fun _ => 0) Prod.snd 0) s ∧ s.op 0 = .wrote ∧
      s.failed 0 = true ∧ (s.ide.buf 0).synced = true ∧ s.ide.dev.media (s.ide.buf 0).block ≠ (s.ide.buf 0).data) :=
  ⟨exists_run (readThree false) (by decide +kernel), exists_run (readThree true ++ writeNine false) (by decide +kernel)⟩

end Xv6Vsd.Ide
