import Xv6Vsd.Io.Ide

/-!
# The disk driver serves each request once

The invariant ties each call of `iderw` to the queue, and the drives to the first buffer of the queue. The one who takes
a step under `idelock` is the only one inside, so nothing but membership in the queue matters for the others.
-/

namespace Xv6Vsd.Ide

open Function State List Option Nat Bool

variable {β δ : Type}

/-! ## The registers -/

theorem realdisk_eq {dev} (h : dev < 2) : realdisk dev = dev := by
  obtain rfl | rfl : dev = 0 ∨ dev = 1 := by omega
  · rfl
  · rfl

theorem drive_toNat {dev} (h : dev < 2) :
    (UInt8.ofNat (0xe0 ||| ((dev &&& 1) <<< 4) ||| 0)).toNat = 224 + 16 * dev := by
  obtain rfl | rfl : dev = 0 ∨ dev = 1 := by omega
  · rfl
  · rfl

theorem Buf.block_regs {x : Buf δ} (h : x.known = true) : x.regs.block = x.block := by
  simp only [Buf.known, and_eq_true, decide_eq_true_eq, FSSIZE] at h
  obtain ⟨hdev, hblk⟩ := h
  have h24 : x.blockno >>> 24 &&& 0x0f = 0 := by
    rw [shiftRight_eq_div_pow, div_eq_of_lt (by omega), zero_and]
  have hmask : ∀ n, n &&& 0xff = n % 256 := fun n => and_two_pow_sub_one_eq_mod n 8
  simp only [Buf.regs, Regs.block, Buf.block, sectorPerBlock, mul_one, realdisk_eq hdev, h24, drive_toNat hdev]
  simp only [hmask, shiftRight_eq_div_pow, UInt8.toNat_ofNat', mod_mod]
  ext
  · dsimp only; omega
  · dsimp only; omega

/-! ## The invariant -/

def Rw.inside : Rw β → Bool
  | .enter | .walk _ | .start | .test | .leave => true
  | _ => false

def Intr.inside : Intr → Bool
  | .take | .next | .leave => true
  | _ => false

def Waits (s : State β δ) (q : List β) (b : β) : Prop := (s.buf b).known ∧ (b ∈ q ↔ (s.buf b).synced = false)

def Asks (s : State β δ) (q : List β) (b : β) : Prop := (s.buf b).known ∧ b ∉ q ∧ (s.buf b).synced = false

def Local (s : State β δ) (q : List β) (b : β) : Prop := match s.rw b with
  | .out => b ∉ q
  | .acquire | .enter => Asks s q b
  | .walk pp => Asks s q b ∧ s.qnext b = none ∧ ∃ l1 l2, q = l1 ++ l2 ∧ pp = l1.getLast?
  | .start => Waits s q b ∧ ∃ q0, q = q0 ++ [b] ∧ (q0 = [] → s.dev.current = none)
  | .test | .asleep | .reacquire => Waits s q b
  | .leave => b ∉ q ∧ (s.buf b).synced = true

def Linked (s : State β δ) (q : List β) : Prop := match s.dev.phase with
  | .idle => s.dev.irq = false ∧ s.intr ≠ .acquire ∧ s.intr ≠ .take ∧
    (q ≠ [] → s.intr = .next ∨ ∃ b, s.rw b = .start ∧ q = [b])
  | .busy t => s.dev.irq = false ∧ (s.intr = .out ∨ s.intr = .leave) ∧ ∃ b, q.head? = some b ∧ t = (s.buf b).task
  | .done t ok => ok = true ∧
    (s.dev.irq = true ∧ (s.intr = .out ∨ s.intr = .leave) ∨ s.dev.irq = false ∧ (s.intr = .acquire ∨ s.intr = .take)) ∧
    (∃ b, q.head? = some b ∧ t = (s.buf b).task) ∧
    t.write.elim (s.dev.port = s.dev.media t.block) (s.dev.media t.block = ·)

structure Inv (s : State β δ) (q : List β) : Prop where
  links : Links s.qnext s.idequeue q
  nodup : q.Nodup
  inside : ∀ b, (s.rw b).inside = true → s.lock = some (.rw b)
  handler : s.intr.inside = true → s.lock = some .intr
  rw : ∀ b, Local s q b
  linked : Linked s q
  queued : s.queued = s.completed ++ q
  started : s.started = s.completed ++ (if s.dev.current.isSome then q.take 1 else [])

variable {s s' : State β δ} {q q' : List β} {b : β}

theorem Local.other (h : Local s q b) (hout : (s.rw b).inside = false) (hrw : s'.rw b = s.rw b)
    (hbuf : s'.buf b = s.buf b) (hq : b ∈ q' ↔ b ∈ q) : Local s' q' b := by
  unfold Local at h ⊢
  rw [hrw]
  cases hw : s.rw b with
  | out | acquire | asleep | reacquire => simpa only [hw, Asks, Waits, hbuf, hq] using h
  | enter | walk | start | test | leave => rw [hw] at hout; cases hout

theorem Local.same (h : Local s q b) (hrw : s'.rw b = s.rw b) (hbuf : s'.buf b = s.buf b)
    (hnext : s'.qnext b = s.qnext b) (hdev : s.dev.current = none → s'.dev.current = none) : Local s' q b := by
  unfold Local at h ⊢
  rw [hrw]
  cases hw : s.rw b with
  | start =>
    simp only [hw, Waits] at h
    obtain ⟨hwaits, q0, hq, hcur⟩ := h
    exact ⟨by rwa [Waits, hbuf], q0, hq, fun h0 => hdev (hcur h0)⟩
  | _ => simpa only [hw, Asks, Waits, hbuf, hnext] using h

theorem idle_of_current {d : Device δ} (h : d.current = none) : d.phase = .idle := by
  unfold Device.current at h
  split at h
  · next hp => exact hp
  · cases h
  · cases h

namespace Inv

theorem idequeue_eq (h : Inv s q) : s.idequeue = q.head? := h.links.eq_head?

theorem outside (h : Inv s q) {o} (hl : s.lock = o) (hne : o ≠ some (.rw b)) : (s.rw b).inside = false := by
  cases hin : (s.rw b).inside with
  | false => rfl
  | true => exact absurd (hl.symm.trans (h.inside b hin)) hne

theorem intr_outside (h : Inv s q) {o} (hl : s.lock = o) (hne : o ≠ some .intr) : s.intr.inside = false := by
  cases hin : s.intr.inside with
  | false => rfl
  | true => exact absurd (hl.symm.trans (h.handler hin)) hne

theorem head_of_current (h : Inv s q) {t} (ht : s.dev.current = some t) :
    ∃ b, q.head? = some b ∧ t = (s.buf b).task := by
  have hlinked := h.linked
  unfold Linked at hlinked
  unfold Device.current at ht
  cases hp : s.dev.phase with
  | idle => simp [hp] at ht
  | busy t' => simp only [hp, some.injEq] at ht hlinked; exact ht ▸ hlinked.2.2
  | done t' ok => simp only [hp, some.injEq] at ht hlinked; exact ht ▸ hlinked.2.2.1

theorem current_of_nil (h : Inv s []) : s.dev.current = none := by
  cases hc : s.dev.current with
  | none => rfl
  | some t => obtain ⟨b, hb, -⟩ := h.head_of_current hc; cases hb

theorem nil_of_lock (h : Inv s q) (hl : s.lock = some (.rw b)) (hb : s.rw b ≠ .start) (hc : s.dev.current = none) :
    q = [] := by
  by_contra hne
  have hlinked := h.linked
  simp only [Linked, idle_of_current hc] at hlinked
  obtain hnext | ⟨x, hx, -⟩ := hlinked.2.2.2 hne
  · have := h.handler (by rw [hnext]; rfl); simp [hl] at this
  have := h.inside x (by rw [hx]; rfl)
  simp only [hl, some.injEq, Holder.rw.injEq] at this
  exact hb (this ▸ hx)

end Inv

theorem Linked.frame (h : Linked s q) (hdev : s'.dev = s.dev) (hintr : s'.intr = s.intr)
    (hhead : ∀ b, q.head? = some b → q'.head? = some b ∧ s'.buf b = s.buf b)
    (hidle : s.dev.current = none → (q ≠ [] → s.intr = .next ∨ ∃ b, s.rw b = .start ∧ q = [b]) → q' ≠ [] →
      s.intr = .next ∨ ∃ b, s'.rw b = .start ∧ q' = [b]) : Linked s' q' := by
  have hfirst : ∀ {t}, (∃ b, q.head? = some b ∧ t = (s.buf b).task) → ∃ b, q'.head? = some b ∧ t = (s'.buf b).task := by
    rintro t ⟨b, hb, ht⟩
    exact ⟨b, (hhead b hb).1, by rw [ht, (hhead b hb).2]⟩
  unfold Linked at h ⊢
  unfold Device.current at hidle
  rw [hdev, hintr]
  cases hp : s.dev.phase with
  | idle => simp only [hp] at h hidle; exact ⟨h.1, h.2.1, h.2.2.1, hidle trivial h.2.2.2⟩
  | busy t => simp only [hp] at h; exact ⟨h.1, h.2.1, hfirst h.2.2⟩
  | done t ok => simp only [hp] at h; exact ⟨h.1, h.2.1, hfirst h.2.2.1, h.2.2.2⟩

theorem Linked.same (h : Linked s q) (hdev : s'.dev = s.dev) (hintr : s'.intr = s.intr)
    (hbuf : ∀ b ∈ q, s'.buf b = s.buf b) (hstart : ∀ b, s.rw b = .start → q = [b] → s'.rw b = .start) :
    Linked s' q := by
  refine h.frame hdev hintr (fun b hb => ⟨hb, hbuf b (mem_of_mem_head? hb)⟩) fun _ hq hne => ?_
  obtain hnext | ⟨b, hb, rfl⟩ := hq hne
  · exact .inl hnext
  · exact .inr ⟨b, hstart b hb rfl, rfl⟩

/-! ## The device -/

variable {l : Option (Holder β)}

theorem links_deref {l1 l2} (h : Links s.qnext s.idequeue (l1 ++ l2)) : Links s.qnext (s.deref l1.getLast?) l2 := by
  have hgen : ∀ (o : Option β) (pp : Option β), s.deref pp = o → Links s.qnext o (l1 ++ l2) →
    Links s.qnext (s.deref (l1.getLast?.or pp)) l2 := by
    clear h
    induction l1 with
    | nil => intro o pp hpp hl; simpa [hpp] using hl
    | cons x l1 ih =>
      intro o pp _ hl
      have := ih _ (some x) rfl hl.2
      rw [getLast?_cons]
      cases hlast : l1.getLast? <;> simpa [hlast] using this
  simpa using hgen _ none rfl h

theorem idestart_eq (hk : (s.buf b).known = true) (hc : s.dev.current = none) : s.idestart b =
      some { s with dev := { s.dev with phase := .busy (s.buf b).task }, started := s.started ++ [b] } := by
  simp only [idestart, Device.start, idle_of_current hc, map_some, Buf.task, Buf.block_regs hk]

variable (h : Inv s q)

include h

theorem Inv.known (hb : b ∈ q) : (s.buf b).known = true := by
  have hlocal := h.rw b
  unfold Local at hlocal
  cases hw : s.rw b with simp only [hw] at hlocal
  | out | leave => simp_all
  | acquire | enter => exact hlocal.1
  | walk pp | start => exact hlocal.1.1
  | test | asleep | reacquire => exact hlocal.1

theorem Inv.quiet (hc : s.dev.current = none) :
    s.dev.irq = false ∧ s.intr ≠ .acquire ∧ s.intr ≠ .take := by
  have hlinked := h.linked
  simp only [Linked, idle_of_current hc] at hlinked
  exact ⟨hlinked.1, hlinked.2.1, hlinked.2.2.1⟩

theorem Inv.startNext (hi : s.intr = .next) (hq : s.idequeue = some b) :
    ∃ s', s.idestart b = some s' ∧ Inv { s' with intr := .leave } q := by
  have hlock := h.handler (by simp [hi, Intr.inside])
  have hhead : q.head? = some b := by rw [← h.idequeue_eq, hq]
  have hc : s.dev.current = none := by
    have hlinked := h.linked
    unfold Linked at hlinked
    unfold Device.current
    cases hp : s.dev.phase <;> simp_all
  obtain ⟨hirq, -, -⟩ := h.quiet hc
  refine ⟨_, idestart_eq (h.known (mem_of_mem_head? hhead)) hc, ?_⟩
  exact { h with
    handler := fun _ => hlock
    rw := fun y => (h.rw y).other (h.outside hlock (by simp)) rfl rfl Iff.rfl
    linked := ⟨hirq, .inr rfl, b, hhead, rfl⟩
    started := by
      have hstarted := h.started
      simp only [hc, isSome_none, false_eq_true, ↓reduceIte, append_nil] at hstarted
      cases q with
      | nil => cases hhead
      | cons x q =>
        obtain rfl : x = b := by simpa using hhead
        simp [hstarted, Device.current] }

theorem Inv.complete {d} (hd : s.dev.complete true = some d) : Inv { s with dev := d } q := by
  have hlinked := h.linked
  have hstarted := h.started
  unfold Linked at hlinked
  unfold Device.complete at hd
  cases hp : s.dev.phase with
  | idle | done t ok => simp [hp] at hd
  | busy t =>
    simp only [hp, ↓reduceIte, some.injEq] at hd hlinked
    subst hd
    have hcur : s.dev.current = some t := by simp [Device.current, hp]
    exact { h with
      rw := fun y => (h.rw y).same rfl rfl rfl (by simp [hcur])
      linked := by
        refine ⟨rfl, .inl ⟨rfl, hlinked.2.1⟩, hlinked.2.2, ?_⟩
        cases t.write <;> simp
      started := by
        rw [hcur] at hstarted
        exact hstarted }

theorem Inv.interrupt (hirq : s.dev.irq = true) (hi : s.intr = .out) :
    Inv { s with dev := { s.dev with irq := false }, intr := .acquire } q := by
  have hlinked := h.linked
  unfold Linked at hlinked
  have hkept : Linked { s with dev := { s.dev with irq := false }, intr := .acquire } q := by
    unfold Linked
    cases hp : s.dev.phase with
    | idle | busy t => simp_all
    | done t ok => simp only [hp] at hlinked; exact ⟨hlinked.1, .inr ⟨rfl, .inl rfl⟩, hlinked.2.2⟩
  exact { h with
    handler := by simp [Intr.inside]
    rw := fun y => (h.rw y).same rfl rfl rfl id
    linked := hkept }

theorem Inv.intr {i} (hlock : ∀ y, (s.rw y).inside = true → l = some (.rw y))
    (hin : i.inside = true → l = some .intr) (hlinked : Linked { s with intr := i, lock := l } q) :
    Inv { s with intr := i, lock := l } q where
  links := h.links
  nodup := h.nodup
  inside := hlock
  handler := hin
  rw y := (h.rw y).same rfl rfl rfl id
  linked := hlinked
  queued := h.queued
  started := h.started

theorem Inv.done (hi : s.intr = .acquire ∨ s.intr = .take) :
    s.dev.irq = false ∧ ∃ t b, s.dev.phase = .done t true ∧ q.head? = some b ∧ t = (s.buf b).task ∧
      t.write.elim (s.dev.port = s.dev.media t.block) (s.dev.media t.block = ·) := by
  have hlinked := h.linked
  unfold Linked at hlinked
  cases hp : s.dev.phase with simp only [hp] at hlinked
  | idle =>
    obtain hi | hi := hi
    · exact absurd hi hlinked.2.1
    · exact absurd hi hlinked.2.2.1
  | busy t => obtain hi | hi := hi <;> simp [hi] at hlinked
  | done t ok =>
    obtain ⟨rfl, hirq, ⟨b, hb, ht⟩, hdata⟩ := hlinked
    refine ⟨?_, t, b, rfl, hb, ht, hdata⟩
    obtain hi | hi := hi <;> simpa [hi] using hirq

omit h in
theorem inv_start (buf : β → Buf δ) (media : Nat × Nat → δ) (port : δ) : Inv (start buf media port) [] where
  links := rfl
  nodup := nodup_nil
  inside b hb := by cases hb
  handler h := by cases h
  rw b := by simp [Local, start]
  linked := ⟨rfl, by simp [start], by simp [start], fun h => absurd rfl h⟩
  queued := rfl
  started := rfl

theorem Inv.serves : Serves s q where
  links := h.links
  current t ht := by rw [h.idequeue_eq]; exact h.head_of_current ht
  queued := h.queued
  started := h.started
  going hne := by
    have hlinked := h.linked
    unfold Linked at hlinked
    unfold Device.current
    cases hp : s.dev.phase with
    | idle => simp only [hp] at hlinked; exact .inr (hlinked.2.2.2 hne)
    | busy t | done t ok => exact .inl rfl
  returns b hb := by have hlocal := h.rw b; simp only [Local, hb] at hlocal; exact hlocal.2

omit h

/-! ## What is transferred -/

structure Untouched (s s' : State β δ) : Prop where
  media : s'.dev.media = s.dev.media
  completed : s'.completed = s.completed
  buf : s'.buf = s.buf

theorem append_singleton_ne (l : List β) (b : β) : l ≠ l ++ [b] := by
  intro h; simpa using congrArg length h

theorem transfers_of (hmedia : s'.dev.media = s.dev.media) (hdone : s'.completed = s.completed)
    (hbuf : ∀ b, s.rw b ≠ .out → s'.buf b = s.buf b) : Transfers s s' where
  media l hl := absurd (congrFun hmedia l) hl
  order hne := absurd hdone hne
  write b hb := absurd (hdone.symm.trans hb) (append_singleton_ne _ b)
  read b hb := absurd (hdone.symm.trans hb) (append_singleton_ne _ b)
  data b hb := ⟨congrArg Buf.block (hbuf b hb), fun _ => hbuf b hb⟩

theorem Untouched.transfers (h : Untouched s s') : Transfers s s' :=
  transfers_of h.media h.completed fun b _ => congrFun h.buf b

theorem idestart_untouched (h : s.idestart b = some s') : Untouched s s' := by
  simp only [idestart, map_eq_some_iff] at h
  obtain ⟨d, hd, rfl⟩ := h
  have hmedia : d.media = s.dev.media := by
    unfold Device.start at hd
    split at hd <;> cases hd
    rfl
  exact ⟨hmedia, rfl, rfl⟩

theorem Inv.transfers_complete (h : Inv s q) {d} (hd : s.dev.complete true = some d) :
    Transfers s { s with dev := d } := by
  have hlinked := h.linked
  unfold Linked at hlinked
  unfold Device.complete at hd
  cases hp : s.dev.phase with
  | idle | done t ok => simp [hp] at hd
  | busy t =>
    simp only [hp, ↓reduceIte, Option.some.injEq] at hd hlinked
    subst hd
    obtain ⟨b, hb, rfl⟩ := hlinked.2.2
    exact {
      media := by
        intro l hl
        refine ⟨b, by rw [h.idequeue_eq, hb], ?_⟩
        cases hdirty : (s.buf b).dirty with
        | false => simp [Buf.task, hdirty] at hl
        | true =>
          simp only [Buf.task, hdirty, ↓reduceIte, Option.elim] at hl ⊢
          by_cases hlb : l = (s.buf b).block
          · exact ⟨trivial, hlb, by rw [hlb, update_self]⟩
          · exact absurd (update_of_ne hlb _ _) hl
      order := fun hne => absurd rfl hne
      write := fun x hx => absurd hx (append_singleton_ne _ x)
      read := fun x hx => absurd hx (append_singleton_ne _ x)
      data := fun x _ => ⟨rfl, fun _ => rfl⟩ }
section Step

variable [DecidableEq β] {w : Rw β} {n : β → Option β}

/-! ## Steps that leave the queue as it is -/

variable (h : Inv s q)

include h

theorem Inv.move (hn : ∀ x, x ≠ b → n x = s.qnext x) (hb : b ∈ q → n b = s.qnext b)
    (hlock : ∀ x, x ≠ b → (s.rw x).inside = true → l = some (.rw x)) (hin : w.inside = true → l = some (.rw b))
    (hintr : s.intr.inside = true → l = some .intr) (hstart : s.rw b = .start → q ≠ [b])
    (hw : Local { s.goto b w with qnext := n, lock := l } q b) :
    Inv { s.goto b w with qnext := n, lock := l } q where
  links := by
    refine h.links.congr fun x hx => ?_
    by_cases hxb : x = b
    · subst hxb; exact hb hx
    · exact hn x hxb
  nodup := h.nodup
  inside x hx := by
    by_cases hxb : x = b
    · subst hxb; simp only [goto, update_self] at hx; exact hin hx
    · simp only [goto, update_of_ne hxb] at hx; exact hlock x hxb hx
  handler := hintr
  rw x := by
    by_cases hxb : x = b
    · subst hxb; exact hw
    · refine (h.rw x).same ?_ rfl (hn x hxb) id
      simp only [goto, update_of_ne hxb]
  linked := by
    refine h.linked.same rfl rfl (fun _ _ => rfl) fun x hx hq => ?_
    have hxb : x ≠ b := by rintro rfl; exact hstart hx hq
    simpa only [goto, update_of_ne hxb] using hx
  queued := h.queued
  started := h.started

theorem Inv.take (hl : s.lock = none) (hn : s.rw b ≠ .start) (hw : Local { s.goto b w with lock := some (.rw b) } q b) :
    Inv { s.goto b w with lock := some (.rw b) } q := by
  refine h.move (fun _ _ => rfl) (fun _ => rfl) ?_ (fun _ => rfl) ?_ (fun hs => absurd hs hn) hw
  · intro x _ hx; simp [h.outside hl (by simp)] at hx
  · intro hx; simp [h.intr_outside hl (by simp)] at hx

theorem Inv.drop (hl : s.lock = some (.rw b)) (hn : s.rw b ≠ .start) (hin : w.inside = false)
    (hw : Local { s.goto b w with lock := none } q b) : Inv { s.goto b w with lock := none } q := by
  refine h.move (fun _ _ => rfl) (fun _ => rfl) ?_ (by simp [hin]) ?_ (fun hs => absurd hs hn) hw
  · intro x hxb hx; simp [h.outside hl (by simpa using hxb.symm)] at hx
  · intro hx; simp [h.intr_outside hl (by simp)] at hx

theorem Inv.keep (hl : s.lock = some (.rw b)) (hn : s.rw b = .start → q ≠ [b])
    (hw : Local (s.goto b w) q b) : Inv (s.goto b w) q := by
  refine h.move (fun _ _ => rfl) (fun _ => rfl) ?_ (fun _ => hl) h.handler hn hw
  intro x _ hx
  exact h.inside x hx

theorem Inv.wake (b : β) : Inv (s.wake b) q := by
  unfold State.wake
  split
  · next hb =>
    have hlocal := h.rw b
    refine h.move (fun _ _ => rfl) (fun _ => rfl) (fun x _ => h.inside x) (by simp [Rw.inside]) h.handler
      (by simp [hb]) ?_
    simp only [Local, hb] at hlocal
    simp only [Local, goto, update_self]
    exact hlocal
  · exact h

theorem Inv.setBuf (hout : s.rw b = .out) (x : Buf δ) : Inv { s with buf := update s.buf b x } q := by
  have hb : b ∉ q := by simpa [Local, hout] using h.rw b
  exact { h with
    rw := by
      intro y
      by_cases hyb : y = b
      · subst hyb; simpa [Local, hout] using hb
      · refine (h.rw y).same rfl ?_ rfl id
        simp only [update_of_ne hyb]
    linked := by
      refine h.linked.same rfl rfl (fun y hy => ?_) fun _ hy _ => hy
      have hyb : y ≠ b := by rintro rfl; exact hb hy
      simp only [update_of_ne hyb] }

theorem Inv.call {x} (hout : s.rw b = .out) (hs : x.synced = false) (hk : x.known = true) :
    Inv { s.goto b .acquire with buf := update s.buf b x } q := by
  have hb : b ∉ q := by simpa [Local, hout] using h.rw b
  refine (h.setBuf hout x).move (fun _ _ => rfl) (fun _ => rfl) (fun y _ => h.inside y) (by simp [Rw.inside]) h.handler
    (by simp [hout]) ?_
  simp [Local, goto, Asks, hb, hs, hk]

/-! ## The insertion -/

theorem Inv.advance {pp x} (hb : s.rw b = .walk pp) (hx : s.deref pp = some x) : Inv (s.goto b (.walk (some x))) q := by
  have hlocal := h.rw b
  simp only [Local, hb] at hlocal
  obtain ⟨hasks, hnext, l1, l2, rfl, rfl⟩ := hlocal
  have hrest := links_deref h.links
  rw [hx] at hrest
  refine h.keep (h.inside b (by simp [hb, Rw.inside])) (by simp [hb]) ?_
  simp only [Local, goto, update_self]
  cases l2 with
  | nil => cases hrest
  | cons y l2 =>
    obtain rfl : x = y := by have := hrest.1; simpa using this
    exact ⟨hasks, hnext, l1 ++ [x], l2, by simp, by simp⟩

omit h in
theorem links_insert (h : Links s.qnext s.idequeue q) (hq : q.Nodup) (hb : b ∉ q) (hnext : s.qnext b = none) :
    Links (s.setPtr q.getLast? b).qnext (s.setPtr q.getLast? b).idequeue (q ++ [b]) := by
  obtain rfl | ⟨l, t, rfl⟩ := q.eq_nil_or_concat
  · exact ⟨rfl, hnext⟩
  · simp only [setPtr, concat_eq_append, getLast?_concat, Option.elim, append_assoc] at h hq hb ⊢
    exact Queue.Links.push h hq hb hnext

theorem Inv.insert {pp} (hb : s.rw b = .walk pp) (hx : s.deref pp = none) :
    Inv { (s.setPtr pp b).goto b .start with queued := s.queued ++ [b] } (q ++ [b]) := by
  have hlocal := h.rw b
  simp only [Local, hb] at hlocal
  obtain ⟨⟨hknown, hbq, hsync⟩, hnext, l1, l2, hq, rfl⟩ := hlocal
  have hlock := h.inside b (by simp [hb, Rw.inside])
  -- the loop has gone through the whole queue
  obtain rfl : l2 = [] := by
    have hrest := links_deref (hq ▸ h.links)
    rw [hx] at hrest
    cases l2 with
    | nil => rfl
    | cons y l2 => cases hrest.1
  rw [append_nil] at hq
  subst hq
  have hother : ∀ y, y ≠ b → (s.rw y).inside = false := fun y hy => h.outside hlock (by simpa using hy.symm)
  exact {
    links := links_insert h.links h.nodup hbq hnext
    nodup := by
      rw [nodup_append]
      refine ⟨h.nodup, nodup_singleton b, ?_⟩
      rintro x hx y hy rfl
      exact hbq (by simpa using (mem_singleton.mp hy) ▸ hx)
    inside := by
      intro y hy
      by_cases hyb : y = b
      · rw [hyb]; exact hlock
      · simp only [setPtr, goto, update_of_ne hyb] at hy; exact h.inside y hy
    handler := h.handler
    rw := by
      intro y
      by_cases hyb : y = b
      · subst hyb
        simp only [Local, goto, update_self]
        refine ⟨⟨hknown, by simp [setPtr, hsync]⟩, q, rfl, ?_⟩
        rintro rfl
        exact h.current_of_nil
      · refine (h.rw y).other (hother y hyb) ?_ rfl (by simp [hyb])
        simp only [setPtr, goto, update_of_ne hyb]
    linked := by
      refine h.linked.frame rfl rfl (fun x hx => ⟨by simp [head?_append, hx], rfl⟩) fun hc _ _ => .inr ⟨b, ?_⟩
      rw [h.nil_of_lock hlock (by simp [hb]) hc]
      exact ⟨by simp [goto], rfl⟩
    queued := by simp only [setPtr, goto, h.queued, append_assoc]
    started := by
      have hstarted := h.started
      simp only [setPtr, goto, hstarted]
      cases hc : s.dev.current with
      | none => rfl
      | some t =>
        obtain ⟨x, hx, -⟩ := h.head_of_current hc
        cases q with
        | nil => cases hx
        | cons y q => simp }

/-! ## The start of a command -/

theorem Inv.startFirst (hb : s.rw b = .start) (hq : s.idequeue = some b) :
    ∃ s', s.idestart b = some s' ∧ Inv (s'.goto b .test) q := by
  have hlock := h.inside b (by simp [hb, Rw.inside])
  have hlocal := h.rw b
  simp only [Local, hb] at hlocal
  obtain ⟨hwaits, q0, rfl, hcur⟩ := hlocal
  obtain rfl : q0 = [] := by
    cases q0 with
    | nil => rfl
    | cons x q0 =>
      have hx : x = b := by simpa [h.idequeue_eq] using hq
      have := h.nodup
      simp [hx] at this
  have hc := hcur rfl
  obtain ⟨hirq, hacq, -⟩ := h.quiet hc
  have hin := h.intr_outside hlock (by simp)
  refine ⟨_, idestart_eq hwaits.1 hc, ?_⟩
  exact { h with
    inside := by
      intro y hy
      by_cases hyb : y = b
      · rw [hyb]; exact hlock
      · simp only [goto, update_of_ne hyb] at hy; exact h.inside y hy
    rw := by
      intro y
      by_cases hyb : y = b
      · subst hyb; simp only [Local, goto, update_self]; exact hwaits
      · refine (h.rw y).other (h.outside hlock (by simpa using Ne.symm hyb)) ?_ rfl Iff.rfl
        simp only [goto, update_of_ne hyb]
    linked := by
      refine ⟨hirq, ?_, b, rfl, rfl⟩
      cases hi : s.intr <;> simp_all [goto, Intr.inside]
    started := by
      have hstarted := h.started
      simp only [hc, isSome_none, false_eq_true, ↓reduceIte, append_nil] at hstarted
      simp [goto, hstarted, Device.current] }

/-! ## The end of a command -/

theorem Inv.finish (hi : s.intr = .take) (hq : s.idequeue = some b) : ∃ q', q = b :: q' ∧ Inv (s.finish b) q' := by
  have hlock := h.handler (by simp [hi, Intr.inside])
  obtain ⟨hirq, t, x, hp, hx, -, -⟩ := h.done (.inr hi)
  cases q with
  | nil => cases hx
  | cons y q' =>
    obtain rfl : y = b := by have := h.idequeue_eq; simpa [hq] using this.symm
    obtain ⟨hy, hnodup⟩ := nodup_cons.mp h.nodup
    refine ⟨q', rfl, Inv.wake ?_ y⟩
    exact {
      links := h.links.2
      nodup := hnodup
      inside := h.inside
      handler := fun _ => hlock
      rw := by
        intro z
        by_cases hzy : z = y
        · subst hzy
          -- the request has been waiting outside the lock
          have hout := h.outside hlock (show _ ≠ some (Holder.rw z) by simp)
          have hlocal := h.rw z
          unfold Local at hlocal ⊢
          cases hw : s.rw z with
          | out => simp [hw] at hlocal
          | acquire => simp [hw, Asks] at hlocal
          | asleep | reacquire =>
            simp only [hw] at hlocal ⊢
            exact ⟨by simpa [Buf.known] using hlocal.1, by simp [Buf.synced, hy]⟩
          | _ => simp [hw, Rw.inside] at hout
        · refine (h.rw z).other (h.outside hlock (by simp)) rfl ?_ (by simp [hzy])
          simp only [update_of_ne hzy]
      linked := ⟨hirq, by simp, by simp, fun _ => .inl rfl⟩
      queued := by simp [h.queued]
      started := by simp [h.started, Device.current, hp] }

/-! ## Steps and runs -/

theorem Inv.iderw (ha : s.iderw b = some s') : ∃ q', Inv s' q' := by
  have hlocal := h.rw b
  unfold Local at hlocal
  unfold State.iderw at ha
  cases hw : s.rw b with simp only [hw] at ha hlocal
  | out | asleep => cases ha
  | acquire =>
    split at ha <;> cases ha
    next hl =>
      exact ⟨q, h.take hl (by simp [hw]) (by simpa [Local, goto, Asks] using hlocal)⟩
  | enter =>
    cases ha
    have hl := h.inside b (by simp [hw, Rw.inside])
    refine ⟨q, h.move (fun x hx => update_of_ne hx _ _) (fun hb => absurd hb hlocal.2.1)
      (fun x _ => h.inside x) (fun _ => hl) h.handler (by simp [hw]) ?_⟩
    simp only [Local, goto, update_self]
    exact ⟨hlocal, trivial, [], q, rfl, rfl⟩
  | walk pp =>
    split at ha
    · next x hx => cases ha; exact ⟨q, h.advance hw hx⟩
    · next hx => cases ha; exact ⟨q ++ [b], h.insert hw hx⟩
  | start =>
    split at ha
    · next hq =>
      obtain ⟨s1, hs1, hinv⟩ := h.startFirst hw hq
      simp only [hs1, map_some, some.injEq] at ha
      subst ha
      exact ⟨q, hinv⟩
    · next hq =>
      cases ha
      refine ⟨q, h.keep (h.inside b (by simp [hw, Rw.inside])) (fun _ => ?_) ?_⟩
      · rintro rfl; exact hq h.idequeue_eq
      · simp only [Local, goto, update_self]; exact hlocal.1
  | test =>
    have hl := h.inside b (by simp [hw, Rw.inside])
    split at ha
    · next hs =>
      cases ha
      refine ⟨q, h.keep hl (by simp [hw]) ?_⟩
      simp only [Local, goto, update_self]
      exact ⟨by simp [hlocal.2, hs], hs⟩
    · cases ha
      refine ⟨q, h.drop hl (by simp [hw]) rfl ?_⟩
      simp only [Local, goto, update_self]
      exact hlocal
  | reacquire =>
    split at ha <;> cases ha
    next hl =>
      refine ⟨q, h.take hl (by simp [hw]) ?_⟩
      simp only [Local, goto, update_self]
      exact hlocal
  | leave =>
    cases ha
    refine ⟨q, h.drop (h.inside b (by simp [hw, Rw.inside])) (by simp [hw]) rfl ?_⟩
    simp only [Local, goto, update_self]
    exact hlocal.1

theorem Inv.ideintr (ha : s.ideintr = some s') : ∃ q', Inv s' q' := by
  unfold State.ideintr at ha
  cases hi : s.intr with simp only [hi] at ha
  | out => cases ha
  | acquire =>
    split at ha <;> cases ha
    next hl =>
      obtain ⟨hirq, t, b, hp, hb, ht, hdata⟩ := h.done (.inl hi)
      refine ⟨q, h.intr (fun y hy => ?_) (fun _ => rfl) ?_⟩
      · simp [h.outside hl (by simp)] at hy
      · simp only [Linked, hp]; exact ⟨trivial, .inr ⟨hirq, .inr trivial⟩, ⟨b, hb, ht⟩, hdata⟩
  | take =>
    split at ha
    · next hq => obtain ⟨-, t, b, -, hb, -, -⟩ := h.done (.inr hi); simp [← h.idequeue_eq, hq] at hb
    · next b hq => cases ha; obtain ⟨q', -, hinv⟩ := h.finish hi hq; exact ⟨q', hinv⟩
  | next =>
    split at ha
    · next hq =>
      cases ha
      have hl := h.handler (by simp [hi, Intr.inside])
      obtain rfl : q = [] := by simpa [hq] using h.idequeue_eq.symm
      obtain ⟨hirq, -, -⟩ := h.quiet h.current_of_nil
      refine ⟨[], h.intr (fun y hy => ?_) (fun _ => hl) ?_⟩
      · simp [h.outside hl (by simp)] at hy
      have hc := h.current_of_nil
      unfold Device.current at hc
      unfold Linked
      cases hp : s.dev.phase <;> simp_all
    · next b hq =>
      obtain ⟨s1, hs1, hinv⟩ := h.startNext hi hq
      simp only [hs1, map_some, some.injEq] at ha
      subst ha
      exact ⟨q, hinv⟩
  | leave =>
    cases ha
    have hl := h.handler (by simp [hi, Intr.inside])
    refine ⟨q, h.intr (fun y hy => ?_) (by simp [Intr.inside]) ?_⟩
    · simp [h.outside hl (by simp)] at hy
    · have hlinked := h.linked; unfold Linked at hlinked ⊢; cases hp : s.dev.phase <;> simp_all

theorem Inv.act {a} (hok : Successful s a) (ha : s.act a = some s') : ∃ q', Inv s' q' := by
  cases a with
  | call b x =>
    simp only [State.act] at ha
    split at ha <;> cases ha
    next hc => exact ⟨q, h.call hc.1 (by simpa using hc.2.2.1) hc.2.2.2⟩
  | rw b => exact h.iderw ha
  | kill b => cases ha; exact ⟨q, h.wake b⟩
  | complete ok =>
    cases hok
    simp only [State.act, map_eq_some_iff] at ha
    obtain ⟨d, hd, rfl⟩ := ha
    exact ⟨q, h.complete hd⟩
  | interrupt =>
    simp only [State.act] at ha
    split at ha <;> cases ha
    next hc => exact ⟨q, h.interrupt hc.1 hc.2⟩
  | intr => exact h.ideintr ha

/-! ## What a step transfers -/

omit h in
theorem iderw_untouched (h : s.iderw b = some s') : Untouched s s' := by
  unfold iderw at h
  cases hw : s.rw b with simp only [hw] at h
  | out | asleep => cases h
  | enter | leave => cases h; exact ⟨rfl, rfl, rfl⟩
  | acquire | reacquire | walk | test => split at h <;> cases h <;> exact ⟨rfl, rfl, rfl⟩
  | start =>
    split at h
    · obtain ⟨s1, hs1, rfl⟩ := map_eq_some_iff.mp h
      have := idestart_untouched hs1
      exact ⟨this.media, this.completed, this.buf⟩
    · cases h; exact ⟨rfl, rfl, rfl⟩

omit h in
theorem wake_untouched (s : State β δ) (b : β) : Untouched s (s.wake b) := by
  unfold wake
  split <;> exact ⟨rfl, rfl, rfl⟩

omit h in
theorem finish_fields (s : State β δ) (b : β) :
    (s.finish b).dev.media = s.dev.media ∧ (s.finish b).completed = s.completed ++ [b] ∧
      (s.finish b).buf = update s.buf b { s.buf b with
          data := if !(s.buf b).dirty && s.dev.ready then s.dev.port else (s.buf b).data
          valid := true
          dirty := false } := by
  unfold finish wake
  dsimp only
  split <;> exact ⟨rfl, rfl, rfl⟩

theorem Inv.transfers_finish (hi : s.intr = .take) (hq : s.idequeue = some b) : Transfers s (s.finish b) := by
  obtain ⟨-, t, x, hp, hx, rfl, hdata⟩ := h.done (.inr hi)
  obtain rfl : x = b := by rw [← h.idequeue_eq, hq] at hx; simpa using hx.symm
  obtain ⟨hmedia, hcompleted, hbuf⟩ := finish_fields s x
  have hlast : ∀ y, (s.finish x).completed = s.completed ++ [y] → y = x := by
    intro y hy
    rw [hcompleted] at hy
    simpa using hy.symm
  have hready : s.dev.ready = true := by simp [Device.ready, hp]
  exact {
    media := fun l hl => absurd (congrFun hmedia l) hl
    order := fun _ => ⟨x, hq, hcompleted⟩
    write := by
      intro y hy hdirty
      obtain rfl := hlast y hy
      simp only [Buf.task, hdirty, ↓reduceIte, Option.elim] at hdata
      rw [hmedia, hbuf]
      exact ⟨by simp [hdirty], hdata⟩
    read := by
      intro y hy hdirty
      obtain rfl := hlast y hy
      simp only [Buf.task, hdirty, false_eq_true, ↓reduceIte, Option.elim] at hdata
      rw [hmedia, hbuf]
      simp [hdirty, hready, hdata]
    data := by
      intro y _
      rw [hbuf, hcompleted]
      by_cases hyx : y = x
      · subst hyx; exact ⟨by simp [Buf.block], fun hne => absurd rfl hne⟩
      · rw [update_of_ne hyx]
        exact ⟨rfl, fun _ => rfl⟩ }

theorem Inv.transfers_ideintr (ha : s.ideintr = some s') : Transfers s s' := by
  have hsame : ∀ {i l}, Transfers s { s with intr := i, lock := l } := transfers_of rfl rfl fun _ _ => rfl
  unfold State.ideintr at ha
  cases hi : s.intr with simp only [hi] at ha
  | out => cases ha
  | acquire =>
    split at ha <;> cases ha
    exact hsame
  | take =>
    split at ha
    · cases ha; exact hsame
    · next b hq => cases ha; exact h.transfers_finish hi hq
  | next =>
    split at ha
    · cases ha; exact hsame
    next b hq =>
    rw [map_eq_some_iff] at ha
    obtain ⟨s1, hs1, rfl⟩ := ha
    have hun := idestart_untouched hs1
    exact transfers_of hun.media hun.completed fun b _ => congrFun hun.buf b
  | leave => cases ha; exact hsame

theorem Inv.transfers {a} (hok : Successful s a) (ha : s.act a = some s') : Transfers s s' := by
  cases a with
  | call b x =>
    simp only [State.act] at ha
    split at ha <;> cases ha
    next hc =>
      have hother : ∀ y, s.rw y ≠ .out → update s.buf b x y = s.buf y := by
        rintro y hy
        refine update_of_ne ?_ _ _
        rintro rfl
        exact hy hc.1
      exact transfers_of rfl rfl hother
  | rw b => exact (iderw_untouched ha).transfers
  | kill b => cases ha; exact (wake_untouched s b).transfers
  | complete ok =>
    cases hok
    simp only [State.act, map_eq_some_iff] at ha
    obtain ⟨d, hd, rfl⟩ := ha
    exact h.transfers_complete hd
  | interrupt =>
    simp only [State.act] at ha
    split at ha <;> cases ha
    exact transfers_of rfl rfl fun _ _ => rfl
  | intr => exact h.transfers_ideintr ha

omit h

theorem inv_of_run {buf media port} (h : Run State.act Successful (start buf media port) s) : ∃ q, Inv s q := by
  apply h.invariant (P := fun s => ∃ q, Inv s q) ⟨[], inv_start buf media port⟩
  rintro s a s' ⟨q, hinv⟩ hok ha
  exact hinv.act hok ha

/-- The requests are served in the order of the queue, each once, and each transfers its own block. -/
theorem ide_serves {buf : β → Buf δ} {media : Nat × Nat → δ} {port : δ}
    (h : Run State.act Successful (start buf media port) s) :
    (∃ q, Serves s q) ∧ ∀ a s', Successful s a → s.act a = some s' → Transfers s s' := by
  obtain ⟨q, hinv⟩ := inv_of_run h
  exact ⟨⟨q, hinv.serves⟩, fun a s' hok ha => hinv.transfers hok ha⟩

instance (s : State β δ) : ∀ a, Decidable (Successful s a)
  | .complete ok => inferInstanceAs (Decidable (ok = true))
  | .call .. | .rw _ | .kill _ | .interrupt | .intr => inferInstanceAs (Decidable True)

def bufOf (valid dirty : Bool) (n data : Nat) : Buf Nat :=
  { busy := true, valid := valid, dirty := dirty, dev := 0, blockno := n, data := data }

theorem ide_serves_two :
    ∃ s : State Bool Nat, Run State.act Successful (start (fun _ => bufOf false false 0 0) Prod.snd 0) s ∧
      s.completed = [false, true] ∧ (s.buf false).data = 3 ∧ s.dev.media (0, 4) = 9 ∧ ∃ q, Serves s q := by
  obtain ⟨s, hrun, hdone, hread, hwrite⟩ : ∃ s,
    Run act Successful (start (fun _ : Bool => bufOf false false 0 0) Prod.snd 0) s ∧
      s.completed = [false, true] ∧ (s.buf false).data = 3 ∧ s.dev.media (0, 4) = 9 :=
    exists_run [.call false (bufOf false false 3 0), .rw false, .rw false, .rw false, .rw false, .rw false,
      .call true (bufOf true true 4 9), .rw true, .rw true, .rw true, .rw true, .rw true, .rw true,
      .complete true, .interrupt, .intr, .intr, .intr, .intr, .complete true, .interrupt, .intr, .intr, .intr, .intr]
      (by decide +kernel)
  exact ⟨s, hrun, hdone, hread, hwrite, (ide_serves hrun).1⟩

end Step

end Xv6Vsd.Ide
