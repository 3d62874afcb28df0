import Mathlib.Data.Fintype.Basic
import Xv6Vsd.Lib.Run

/-!
# Messages and `MSGWAIT` (`proc.c`)

One process receives and any number of others send to it, each step of `precvwait`, `precvmsg` and `psendmsg` by itself.
The mailbox is the list of its messages.
-/

namespace Xv6Vsd.Wakeup

inductive Call where
  | precvwait
  | precvmsg
  deriving DecidableEq

inductive Receiver where
  | out
  | acquire (k : Call)
  | test (k : Call)
  | release (k : Call)
  /-- `proc->state = MSGWAIT` -/
  | msgwait (k : Call)
  /-- `acquire(&ptable.lock); sched()` -/
  | sched (k : Call)
  | off (k : Call)
  /-- `release(&ptable.lock); acquire(mbox->lock)` -/
  | reacquire (k : Call)
  /-- read the mailbox, and take the message out of it in `precvmsg` -/
  | take (k : Call)
  | leave
  /-- `mbox->head` was nil -/
  | trap
  deriving DecidableEq

inductive Sender (μ : Type) where
  | out
  | acquire (m : μ)
  | append (m : μ)
  | release
  | test
  /-- `p->state = RUNNABLE` -/
  | wake
  deriving DecidableEq

inductive Procstate where
  | runnable
  | running
  | msgwait
  deriving DecidableEq

inductive Holder (ι : Type) where
  | receiver
  | sender (i : ι)
  deriving DecidableEq

structure State (ι μ : Type) where
  receiver : Receiver
  sender : ι → Sender μ
  state : Procstate
  lock : Option (Holder ι)
  mail : List μ

inductive Act (ι μ : Type) where
  | recv (k : Call)
  | receiver
  | run
  | send (i : ι) (m : μ)
  | sender (i : ι)

variable {ι μ : Type}

namespace State

variable [DecidableEq ι]

def stepReceiver (s : State ι μ) : Option (State ι μ) := match s.receiver with
  | .acquire k => if s.lock = none then some { s with lock := some .receiver, receiver := .test k } else none
  | .test k => some { s with receiver := if s.mail.isEmpty then .release k else .take k }
  | .release k => some { s with lock := none, receiver := .msgwait k }
  | .msgwait k => some { s with state := .msgwait, receiver := .sched k }
  | .sched k => some { s with receiver := .off k }
  | .reacquire k => if s.lock = none then some { s with lock := some .receiver, receiver := .take k } else none
  | .take k =>
      match s.mail, k with
      | [], _ => some { s with receiver := .trap }
      | _ :: _, .precvwait => some { s with receiver := .leave }
      | _ :: mail, .precvmsg => some { s with mail := mail, receiver := .leave }
  | .leave => some { s with lock := none, receiver := .out }
  | .out | .off _ | .trap => none

def goto (s : State ι μ) (i : ι) (x : Sender μ) : State ι μ := { s with sender := Function.update s.sender i x }

def stepSender (s : State ι μ) (i : ι) : Option (State ι μ) := match s.sender i with
  | .out => none
  | .acquire m => if s.lock = none then some { s.goto i (.append m) with lock := some (.sender i) } else none
  | .append m => some { s.goto i .release with mail := s.mail ++ [m] }
  | .release => some { s.goto i .test with lock := none }
  | .test => some (s.goto i (if s.state = .msgwait then .wake else .out))
  | .wake => some { s.goto i .out with state := .runnable }

def act (s : State ι μ) : Act ι μ → Option (State ι μ)
  | .recv k => if s.receiver = .out then some { s with receiver := .acquire k } else none
  | .receiver => s.stepReceiver
  | .run =>
      match s.receiver, s.state with
      | .off k, .runnable => some { s with receiver := .reacquire k, state := .running }
      | _, _ => none
  | .send i m =>
      match s.sender i with
      | .out => some (s.goto i (.acquire m))
      | _ => none
  | .sender i => s.stepSender i

end State

def start (ι μ : Type) : State ι μ where
  receiver := .out
  sender _ := .out
  state := .running
  lock := none
  mail := []

def Receiver.drowsy : Receiver → Bool
  | .msgwait _ => true
  | _ => false

def Receiver.asleep : Receiver → Bool
  | .off _ => true
  | _ => false

def Sender.tests : Sender μ → Bool
  | .release | .test => true
  | _ => false

def Sender.busy : Sender μ → Bool
  | .release | .test | .wake => true
  | _ => false

def Lost (s : State ι μ) : Prop :=
  s.receiver.asleep = true ∧ s.state = .msgwait ∧ s.mail ≠ [] ∧ ∀ i, (s.sender i).busy = false

/-- No sender tests the state between the receiver's test and its `MSGWAIT`, unless the mailbox is still empty or
another
sender has still to test it. -/
def Timely (s : State ι μ) (a : Act ι μ) : Prop :=
  ∀ i, a = .sender i → s.sender i = .test → s.receiver.drowsy = true → s.mail ≠ [] → ∃ j, j ≠ i ∧ (s.sender j).tests =
    true

def Receiver.locks : Receiver → Bool
  | .test _ | .release _ | .take _ | .leave => true
  | _ => false

def Sender.locks : Sender μ → Bool
  | .append _ | .release => true
  | _ => false

def Receiver.waits : Receiver → Bool
  | .sched _ | .off _ => true
  | _ => false

def Receiver.found : Receiver → Bool
  | .release _ | .msgwait _ | .sched _ | .off _ => true
  | _ => false

theorem tests_busy {x : Sender μ} (h : x.tests = true) : x.busy = true := by
  cases x <;> first | rfl | cases h

structure Attended (s : State ι μ) : Prop where
  held : s.receiver.locks = true → s.lock = some .receiver
  owned : ∀ i, (s.sender i).locks = true → s.lock = some (.sender i)
  empty : ∀ k, s.receiver = .release k → s.mail = []
  drowsy : s.receiver.drowsy = true → s.mail ≠ [] → ∃ i, (s.sender i).tests = true
  waits : s.receiver.waits = true → s.state = .msgwait → s.mail ≠ [] → ∃ i, (s.sender i).busy = true

namespace Attended

variable {s s' : State ι μ} {i : ι} {x : Sender μ}

theorem of_not_found (held : s.receiver.locks = true → s.lock = some .receiver)
    (owned : ∀ i, (s.sender i).locks = true → s.lock = some (.sender i)) (hf : s.receiver.found = false) :
      Attended s where
  held := held
  owned := owned
  empty k hk := by rw [hk] at hf; cases hf
  drowsy hd := by cases hr : s.receiver <;> rw [hr] at hd hf <;> cases hd; cases hf
  waits hw := by cases hr : s.receiver <;> rw [hr] at hw hf <;> cases hw <;> cases hf

theorem not_owned (h : Attended s) (hl : s.receiver.locks = true) (i : ι) : (s.sender i).locks = false := by
  by_contra hi
  have hlock := h.owned i (by simpa using hi)
  simp [h.held hl] at hlock

theorem not_held (h : Attended s) (hl : (s.sender i).locks = true) : s.receiver.locks = false := by
  by_contra hr
  have hlock := h.held (by simpa using hr)
  simp [h.owned i hl] at hlock

theorem free (h : Attended s) (hl : s.lock = none) (i : ι) : (s.sender i).locks = false := by
  by_contra hi
  have hlock := h.owned i (by simpa using hi)
  simp [hl] at hlock

theorem receiver (h : Attended s) (ha : s.stepReceiver = some s') : Attended s' := by
  unfold State.stepReceiver at ha
  cases hr : s.receiver with simp only [hr] at ha
  | out | off | trap => simp at ha
  | acquire k | reacquire k =>
      split at ha <;> cases ha
      next hl => exact of_not_found (fun _ => rfl) (fun i hi => by simp [h.free hl i] at hi) rfl
  | test k =>
      cases ha
      have hl : s.receiver.locks = true := by rw [hr]; rfl
      split
      · rename_i hmail
        exact { held := fun _ => h.held hl, owned := h.owned, empty := fun _ _ => by simpa using hmail
                drowsy := nofun, waits := nofun }
      · exact of_not_found (fun _ => h.held hl) h.owned rfl
  | release k =>
      cases ha
      have hl : s.receiver.locks = true := by rw [hr]; rfl
      exact { held := nofun, owned := fun i hi => by simp [h.not_owned hl i] at hi, empty := nofun
              drowsy := fun _ hm => absurd (h.empty k hr) hm, waits := nofun }
  | msgwait k =>
      cases ha
      refine { held := nofun, owned := h.owned, empty := nofun, drowsy := nofun, waits := fun _ _ hm => ?_ }
      obtain ⟨i, hi⟩ := h.drowsy (by rw [hr]; rfl) hm
      exact ⟨i, tests_busy hi⟩
  | sched k =>
      cases ha
      exact { held := nofun, owned := h.owned, empty := nofun, drowsy := nofun
              waits := fun _ => h.waits (by rw [hr]; rfl) }
  | take k =>
      have hl : s.receiver.locks = true := by rw [hr]; rfl
      split at ha <;> cases ha
      · exact of_not_found nofun h.owned rfl
      · exact of_not_found (fun _ => h.held hl) h.owned rfl
      · exact of_not_found (fun _ => h.held hl) h.owned rfl
  | leave =>
      cases ha
      have hl : s.receiver.locks = true := by rw [hr]; rfl
      exact of_not_found nofun (fun i hi => by simp [h.not_owned hl i] at hi) rfl

theorem start : Attended (start ι μ) := of_not_found nofun nofun rfl

variable [DecidableEq ι]

attribute [local simp] State.goto

theorem still {f : Sender μ → Bool} (hx : f (s.sender i) = true → f x = true) (h : ∃ j, f (s.sender j) = true) :
    ∃ j, f ((s.goto i x).sender j) = true := by
  obtain ⟨j, hj⟩ := h
  by_cases hij : j = i
  · subst hij; exact ⟨j, by simpa using hx hj⟩
  · exact ⟨j, by simpa [hij] using hj⟩

theorem goto (h : Attended s) (hx : x.locks = false)
    (hd : s.receiver.drowsy = true → s.mail ≠ [] → ∃ j, ((s.goto i x).sender j).tests = true)
    (hw : s.state = .msgwait → (s.sender i).busy = true → x.busy = true) : Attended (s.goto i x) where
  held := h.held
  owned j hj := by
    by_cases hij : j = i
    · subst hij; simp [hx] at hj
    · exact h.owned j (by simpa [hij] using hj)
  empty := h.empty
  drowsy := hd
  waits hr hs hm := still (hw hs) (h.waits hr hs hm)

theorem sender (h : Attended s) (hok : Timely s (.sender i)) (ha : s.stepSender i = some s') : Attended s' := by
  unfold State.stepSender at ha
  cases hi : s.sender i with simp only [hi] at ha
  | out => cases ha
  | acquire m =>
      split at ha <;> cases ha
      next hl =>
        refine { held := fun hr => ?_, owned := fun j hj => ?_, empty := h.empty, drowsy := fun hr hm => ?_
                 waits := fun hr hs hm => ?_ }
        · have hlock := h.held hr; rw [hl] at hlock; cases hlock
        · by_cases hij : j = i
          · rw [hij]
          · simp [hij, h.free hl j] at hj
        · exact still (by simp [hi, Sender.tests]) (h.drowsy hr hm)
        · exact still (by simp [hi, Sender.busy]) (h.waits hr hs hm)
  | append m =>
      cases ha
      have hl : (s.sender i).locks = true := by rw [hi]; rfl
      refine { held := h.held, owned := fun j hj => ?_, empty := fun k hk => ?_
               drowsy := fun _ _ => ⟨i, by simp [Sender.tests]⟩
               waits := fun _ _ _ => ⟨i, by simp [Sender.busy]⟩ }
      · by_cases hij : j = i
        · rw [hij]; exact h.owned i hl
        · exact h.owned j (by simpa [hij] using hj)
      · have hr := h.not_held hl; rw [show s.receiver = .release k from hk] at hr; cases hr
  | release =>
      cases ha
      have hl : (s.sender i).locks = true := by rw [hi]; rfl
      refine { held := fun hr => ?_, owned := fun j hj => ?_, empty := h.empty, drowsy := fun hr hm => ?_
               waits := fun hr hs hm => ?_ }
      · exact absurd (h.not_held hl) (by simpa using hr)
      · by_cases hij : j = i
        · simp [hij, Sender.locks] at hj
        have hlock := h.owned j (by simpa [hij] using hj)
        rw [h.owned i hl] at hlock; cases hlock
        exact absurd rfl hij
      · exact still (fun _ => rfl) (h.drowsy hr hm)
      · exact still (fun _ => rfl) (h.waits hr hs hm)
  | test =>
      cases ha
      refine h.goto ?_ (fun hr hm => ?_) fun hs _ => ?_
      · split <;> rfl
      · obtain ⟨j, hij, hj⟩ := hok i rfl hi hr hm; exact ⟨j, by simpa [hij] using hj⟩
      · rw [if_pos hs]; rfl
  | wake =>
      cases ha
      have hn : Attended { s with state := Procstate.runnable } := ⟨h.held, h.owned, h.empty, h.drowsy, nofun⟩
      exact hn.goto rfl (fun hr hm => still (by simp [hi, Sender.tests]) (h.drowsy hr hm)) nofun

theorem act {a : Act ι μ} (h : Attended s) (hok : Timely s a) (ha : s.act a = some s') : Attended s' := by
  cases a with simp only [State.act] at ha
  | recv | run =>
      split at ha <;> cases ha
      exact of_not_found nofun h.owned rfl
  | receiver => exact h.receiver ha
  | send i m =>
      split at ha <;> cases ha
      next hi =>
        exact h.goto rfl (fun hr hm => still (by simp [hi, Sender.tests]) (h.drowsy hr hm)) (by simp [hi, Sender.busy])
  | sender i => exact h.sender hok ha

end Attended

/-- In runs in which no sender tests the state too early no wake-up is lost. -/
theorem no_lost_wakeup [DecidableEq ι] {s : State ι μ} (h : Run State.act Timely (start ι μ) s) : ¬Lost s := by
  rintro ⟨hr, hs, hm, hno⟩
  have hinv := h.invariant Attended.start fun _ _ _ h hok ha => h.act hok ha
  have hwaits : s.receiver.waits = true := by
    cases hrec : s.receiver <;> rw [hrec] at hr <;> cases hr
    rfl
  obtain ⟨i, hi⟩ := hinv.waits hwaits hs hm
  simp [hno i] at hi

deriving instance DecidableEq for Act

instance (s : State Unit Nat) (a : Act Unit Nat) : Decidable (Timely s a) := by
  unfold Timely
  infer_instance

theorem no_lost_wakeup_one : ∃ s :
    State Unit Nat, (Run State.act Timely (start Unit Nat) s ∧ s.receiver = .off .precvmsg ∧
    s.state = .msgwait ∧ s.mail = [7]) ∧ ¬Lost s := by
  obtain ⟨s, h⟩ : ∃ s, Run State.act Timely (start Unit Nat) s ∧
      s.receiver = .off .precvmsg ∧ s.state = .msgwait ∧ s.mail = [7] :=
    exists_run [.recv .precvmsg, .receiver, .receiver, .receiver, .receiver, .receiver, .send () 7, .sender (),
      .sender ()] (by decide +kernel)
  exact ⟨s, h, no_lost_wakeup h.1⟩

/-- The message comes between the receiver's test and its `MSGWAIT`. -/
theorem wakeup_lost : ∃ s : State Unit Nat, Run State.act (fun _ _ => True) (start Unit Nat) s ∧ Lost s := by
  obtain ⟨s, h, h1, h2, h3, h4⟩ : ∃ s : State Unit Nat, Run State.act (fun _ _ => True) (start Unit Nat) s ∧
      s.receiver.asleep = true ∧ s.state = .msgwait ∧ s.mail ≠ [] ∧ (s.sender ()).busy = false :=
    exists_run [.recv .precvmsg, .receiver, .receiver, .receiver, .send () 7, .sender (), .sender (), .sender (),
      .sender (), .receiver, .receiver] (by decide +kernel)
  exact ⟨s, h, h1, h2, h3, fun _ => h4⟩

/-! ## Processes that are killed -/

inductive KillAct (ι μ : Type) where
  | step (a : Act ι μ)
  | kill

/-- `kill` makes a process in `MSGWAIT` runnable; `p->killed` is looked at when it returns to the user. -/
def State.killAct [DecidableEq ι] (s : State ι μ) : KillAct ι μ → Option (State ι μ)
  | .step a => s.act a
  | .kill => some (if s.state = .msgwait then { s with state := .runnable } else s)

def Receiver.resumed : Receiver → Bool
  | .reacquire _ | .take _ => true
  | _ => false

def Answered (s : State ι μ) : KillAct ι μ → Prop
  | .step (.sender i) => s.sender i = .wake → s.receiver.waits = true → s.mail ≠ []
  | .step _ => True
  | .kill => s.state = .msgwait → s.receiver.waits = true → s.mail ≠ []

def FindsMessage (s : State ι μ) : Prop := s.receiver ≠ .trap ∧ (s.receiver.resumed = true → s.mail ≠ [])

structure Supplied (s : State ι μ) : Prop where
  finds : FindsMessage s
  runnable : s.receiver.waits = true → s.state ≠ .msgwait → s.mail ≠ []

namespace Supplied

variable {s s' : State ι μ}

theorem of_awake {r} (hr : s.receiver = r) (h1 : r.waits = false) (h2 : r.resumed = false) (h3 : r ≠ .trap) :
    Supplied s := by
  subst hr
  exact ⟨⟨h3, fun h => absurd h (by simp [h2])⟩, fun h => absurd h (by simp [h1])⟩

theorem receiver [DecidableEq ι] (h : Supplied s) (ha : s.stepReceiver = some s') : Supplied s' := by
  unfold State.stepReceiver at ha
  cases hr : s.receiver with simp only [hr] at ha
  | out | off | trap => cases ha
  | acquire k =>
    split at ha <;> cases ha
    exact of_awake rfl rfl rfl nofun
  | test k =>
    cases ha
    split
    · exact of_awake rfl rfl rfl nofun
    · next hm => exact ⟨⟨nofun, fun _ he => hm (List.isEmpty_iff.mpr he)⟩, nofun⟩
  | release k | leave => cases ha; exact of_awake rfl rfl rfl nofun
  | msgwait k => cases ha; exact ⟨⟨nofun, nofun⟩, fun _ hs => absurd rfl hs⟩
  | sched k => cases ha; exact ⟨⟨nofun, nofun⟩, fun _ => h.runnable (by rw [hr]; rfl)⟩
  | reacquire k =>
    have hm := h.finds.2 (by rw [hr]; rfl)
    split at ha <;> cases ha
    exact ⟨⟨nofun, fun _ => hm⟩, nofun⟩
  | take k =>
    have hm := h.finds.2 (by rw [hr]; rfl)
    split at ha <;> cases ha
    · next he => exact absurd he hm
    · exact of_awake rfl rfl rfl nofun
    · exact of_awake rfl rfl rfl nofun

theorem keep (h : Supplied s) (hr : s'.receiver = s.receiver) (hm : s.mail ≠ [] → s'.mail ≠ [])
    (hs : s'.receiver.waits = true → s'.state ≠ .msgwait → s.state ≠ .msgwait ∨ s.mail ≠ []) : Supplied s' := by
  refine ⟨⟨hr ▸ h.finds.1, fun hg => hm (h.finds.2 (hr ▸ hg))⟩, fun hw hn => hm ?_⟩
  obtain hn | hn := hs hw hn
  · exact h.runnable (hr ▸ hw) hn
  · exact hn

theorem killAct [DecidableEq ι] {a} (h : Supplied s) (hok : Answered s a) (ha : s.killAct a = some s') :
    Supplied s' := by
  cases a with
  | kill =>
    cases ha
    split
    · next hw => exact h.keep rfl id fun hr _ => .inr (hok hw hr)
    · exact h
  | step a =>
    simp only [State.killAct] at ha
    cases a with simp only [State.act] at ha
    | receiver => exact h.receiver ha
    | recv k =>
      split at ha <;> cases ha
      exact of_awake rfl rfl rfl nofun
    | run =>
      split at ha <;> cases ha
      next hr hs => exact ⟨⟨nofun, fun _ => h.runnable (by rw [hr]; rfl) (by rw [hs]; nofun)⟩, nofun⟩
    | send i m =>
      split at ha <;> cases ha
      exact h.keep rfl id fun _ hn => .inl hn
    | sender i =>
      simp only [State.stepSender] at ha
      cases hi : s.sender i with simp only [hi] at ha
      | out => cases ha
      | acquire m =>
        split at ha <;> cases ha
        exact h.keep rfl id fun _ hn => .inl hn
      | append m => cases ha; exact h.keep rfl (fun _ => by simp) fun _ hn => .inl hn
      | release | test => cases ha; exact h.keep rfl id fun _ hn => .inl hn
      | wake => cases ha; exact h.keep rfl id fun hw _ => .inr (hok hi hw)

end Supplied

/-- In runs in which the receiver is woken only over a message, it never finds an empty mailbox. -/
theorem receiver_finds_message [DecidableEq ι] {s : State ι μ} (h : Run State.killAct Answered (start ι μ) s) :
    FindsMessage s :=
  (h.invariant (Supplied.of_awake rfl rfl rfl nofun) fun _ _ _ h hok ha => h.killAct hok ha : Supplied s).finds

instance (s : State Unit Nat) (a : KillAct Unit Nat) : Decidable (Answered s a) := by
  unfold Answered
  split <;> infer_instance

theorem receiver_finds_message_one : ∃ s : State Unit Nat, Run State.killAct Answered (start Unit Nat) s ∧
    s.receiver = .take .precvmsg ∧ FindsMessage s := by
  obtain ⟨s, h, hs⟩ : ∃ s, Run State.killAct Answered (start Unit Nat) s ∧ s.receiver = .take .precvmsg :=
    exists_run ([.recv .precvmsg, .receiver, .receiver, .receiver, .receiver, .receiver, .send () 7, .sender (),
      .sender (), .sender (), .sender (), .sender (), .run, .receiver].map .step) (by decide +kernel)
  exact ⟨s, h, hs, receiver_finds_message h⟩

/-- A process that is killed while it waits for a message goes on with an empty mailbox. -/
theorem killed_receiver_traps : ∃ s : State Unit Nat, Run State.killAct (fun _ _ => True) (start Unit Nat) s ∧
    s.receiver = .trap :=
  exists_run ([.recv .precvwait, .receiver, .receiver, .receiver, .receiver, .receiver].map .step ++ [.kill] ++
    [.run, .receiver, .receiver].map .step) (by decide +kernel)

end Xv6Vsd.Wakeup
