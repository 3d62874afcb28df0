import Xv6Vsd.Lib.Prog
import Xv6Vsd.Proc.Lemmas.Steps

/-!
# `ptable.lock`

The functions of `proc.c` as the sequences of what they do with `ptable.lock`. Other processors change the table
whenever
the lock is not held, so it is given anew each time the lock is acquired and each time `sched` returns.
-/

namespace Xv6Vsd.Tasks

open Prog State Function

inductive Lock where
  | ptable
  | lk
  deriving DecidableEq

inductive LockEv where
  | acquire (l : Lock) (held : Bool)
  | release (l : Lock) (held : Bool)
  | sched (held : Bool)
  | wait1 (held : Bool)
  | table

/-- The lock is acquired when it is not held, released when it is held, and held at the entries of `sched` and
`wait1`. -/
def LockEv.Fine : LockEv → Prop
  | .acquire _ held => held = false
  | .release _ held | .sched held | .wait1 held => held = true
  | .table => True

structure Path where
  held : Lock → Bool
  table : State
  later : List State

abbrev Steps (α : Type) : Type 1 := Prog Path LockEv α

namespace Path

def next (s : Path) : Res Path Unit := match s.later with
  | [] => .block
  | t :: ts => .ok () { s with table := t, later := ts }

def hold (s : Path) (l : Lock) (b : Bool) : Path := { s with held := update s.held l b }

end Path

def acquire (l : Lock) : Steps Unit := act (fun s => .acquire l (s.held l)) fun s =>
    if s.held l then .panic "acquire"
    else
      match l with
      | .ptable => (s.hold l true).next
      | .lk => .ok () (s.hold l true)

def release (l : Lock) : Steps Unit :=
  act (fun s => .release l (s.held l)) fun s => if s.held l then .ok () (s.hold l false) else .panic "release"

def sched (c : Ref) : Steps Unit := act (fun s => .sched (s.held .ptable)) fun s =>
    if ¬s.held .ptable then .panic "sched ptable.lock"
    else if (s.table.proc c).state = .running then .panic "sched running"
    else s.next

def onTable {α : Type} (f : State → α × State) : Steps α :=
  act (fun _ => .table) fun s => .ok (f s.table).1 { s with table := (f s.table).2 }

def setState (c : Ref) (st : Procstate) : Steps Unit := onTable fun t => ((), t.mod c fun x => { x with state := st })

def never {α : Type} : Steps α := act (fun _ => .table) fun _ => .block

def wait1Loop (c : Ref) : (n : Nat) → Steps (Option UInt32)
  | 0 => never
  | n + 1 => do
    match ← onTable fun t => (t.answer c, t.wait1 c .user .user .user) with
    | some r =>
      release .ptable
      return r
    | none =>
      sched c
      wait1Loop c n

def wait1 (c : Ref) (n : Nat) : Steps (Option UInt32) := do
  act (fun s => .wait1 (s.held .ptable)) fun s => .ok () s
  wait1Loop c n

def wait (c : Ref) (n : Nat) : Steps (Option UInt32) := do
  acquire .ptable
  wait1 c n

def joinLoop (c : Ref) (n : Nat) : (m : Nat) → Steps Unit
  | 0 => never
  | m + 1 => do
    match ← wait1 c n with
    | some _ => joinLoop c n m
    | none => return

def wakeup (chan : Nat) : Steps Unit := do
  acquire .ptable
  onTable fun t => ((), t.wakeup1 chan)
  release .ptable

def hasThreads (t : State) (c : Ref) : Bool := (t.proc c).type = .process && (t.proc c).threadi ≠ 0

def joinThreads (c : Ref) (n : Nat) : Steps Unit := do
  acquire .ptable
  onTable fun t => ((), t.killThreads c)
  if ← onTable fun t => (decide ((t.proc c).threadi ≠ 0), t) then joinLoop c n (n + 1) else release .ptable

def stop (m : String) : Steps Unit := act (fun _ => .table) fun _ => .panic m

def depart (c : Ref) : Steps Unit := do
  acquire .ptable
  onTable fun t => ((), t.leave c)
  sched c
  stop "zombie exit"

def exit (c : Ref) (n : Nat) : Steps Unit := do
  if ← onTable fun t => (decide (c = t.initproc), t) then stop "init exiting"
  else
    -- `fileclose` and `end_op` wake up others
    wakeup 0
    if ← onTable fun t => (hasThreads t c, t) then joinThreads c n
    depart c

def yield (c : Ref) : Steps Unit := do
  acquire .ptable
  setState c .runnable
  sched c
  release .ptable

/-- `own` says that the lock given to `sleep` is `ptable.lock`. -/
def sleep (c : Ref) (chan : Nat) (own : Bool) : Steps Unit := do
  if ¬own then
    acquire .ptable
    release .lk
  onTable fun t => ((), t.mod c fun x => { x with state := .sleeping, chan := chan })
  sched c
  onTable fun t => ((), t.mod c fun x => { x with chan := 0 })
  if ¬own then
    release .ptable
    acquire .lk

def kill (c : Ref) (pid : UInt32) : Steps Int := do
  acquire .ptable
  let r ← onTable fun t => t.kill c pid
  release .ptable
  return r

inductive Entry where
  | exit
  | wait
  | wait1
  | yield
  | sleep (chan : Nat) (own : Bool)
  | kill (pid : UInt32)

namespace Entry

def held : Entry → Lock → Bool
  | .wait1, .ptable => true
  | .sleep _ own, .ptable => own
  | .sleep _ own, .lk => !own
  | _, _ => false

def steps (c : Ref) (n : Nat) : Entry → Steps Unit
  | .exit => Tasks.exit c n
  | .wait => do let _ ← Tasks.wait c n
  | .wait1 => do let _ ← Tasks.wait1 c n
  | .yield => Tasks.yield c
  | .sleep chan own => Tasks.sleep c chan own
  | .kill pid => do let _ ← Tasks.kill c pid

end Entry

def LockPanic (m : String) : Prop := m = "acquire" ∨ m = "release" ∨ m = "sched ptable.lock"

structure Obeys {α : Type} (Q : α → Path → Prop) (p : Steps α) (s : Path) : Prop where
  fine : Always LockEv.Fine p s
  calm : ∀ m, p.exec s = .panic m → ¬LockPanic m
  post : Post Q p s

section Rules

variable {α β : Type} {Q R : α → Path → Prop} {S : β → Path → Prop} {p : Steps α} {q : α → Steps β} {s : Path}

theorem obeys_pure {a} (h : Q a s) : Obeys Q (pure a : Steps α) s := ⟨always_pure a s, nofun, post_pure h⟩

theorem Obeys.bind (hp : Obeys Q p s) (hq : ∀ a s', Q a s' → Obeys S (q a) s') : Obeys S (p >>= q) s where
  fine := hp.fine.bind fun a s' he => (hq a s' (hp.post a s' he)).fine
  calm m he := by
    rw [exec_bind, Res.bind_eq_panic] at he
    rcases he with he | ⟨a, s', h1, h2⟩
    · exact hp.calm m he
    · exact (hq a s' (hp.post a s' h1)).calm m h2
  post := hp.post.bind fun a s' ha => (hq a s' ha).post

theorem Obeys.mono (hp : Obeys Q p s) (h : ∀ a s', Q a s' → R a s') : Obeys R p s := ⟨hp.fine, hp.calm, hp.post.mono h⟩

theorem obeys_act {lab f} (hfine : (lab s).Fine)
    (hcalm : ∀ m, f s = .panic m → ¬LockPanic m) (hpost : ∀ a s', f s = .ok a s' → Q a s') :
    Obeys Q (act lab f) s where
  fine e he := by rw [trace_act, List.mem_singleton] at he; rwa [he]
  calm m he := hcalm m (by rwa [exec_act] at he)
  post a s' he := hpost a s' (by rwa [exec_act] at he)

end Rules

variable {c : Ref} {n m : Nat} {l : Lock} {s : Path} {t : State} {ts : List State}

theorem next_ok {s' u} (h : s.next = .ok u s') : s'.held = s.held ∧ s.later = s'.table :: s'.later := by
  unfold Path.next at h
  split at h <;> cases h
  next hlater => exact ⟨rfl, hlater⟩

theorem next_calm (s : Path) (m : String) : s.next ≠ .panic m := by
  unfold Path.next
  split <;> nofun

theorem obeys_acquire (hs : s.held .ptable = false) :
    Obeys (fun _ s' => s'.held = update s.held .ptable true ∧ s.later = s'.table :: s'.later)
      (acquire .ptable) s := by
  refine obeys_act hs (fun m hm => ?_) fun u s' hs' => ?_
  · rw [hs] at hm; exact absurd hm (next_calm _ m)
  · rw [hs] at hs'; exact next_ok hs'

theorem obeys_reacquire (hs : s.held .lk = false) : Obeys (fun _ _ => True) (acquire .lk) s := by
  refine obeys_act hs (fun m hm => ?_) fun _ _ _ => trivial
  simp [hs] at hm

theorem obeys_release (hs : s.held l = true) :
    Obeys (fun _ s' => s'.held = update s.held l false) (release l) s := by
  refine obeys_act hs (fun m hm => ?_) fun u s' hs' => ?_
  · simp [hs] at hm
  · rw [hs] at hs'; cases hs'; rfl

theorem obeys_sched (hs : s.held .ptable = true) :
    Obeys (fun _ s' => s'.held = s.held ∧ s.later = s'.table :: s'.later) (sched c) s := by
  refine obeys_act hs (fun m hm => ?_) fun u s' hs' => ?_
  · rw [if_neg (by simp [hs])] at hm
    split at hm
    · cases hm; simp [LockPanic]
    · exact absurd hm (next_calm _ m)
  · rw [if_neg (by simp [hs])] at hs'
    split at hs'
    · cases hs'
    · exact next_ok hs'

theorem obeys_onTable {α : Type} {f : State → α × State} :
    Obeys (fun a s' => a = (f s.table).1 ∧ s' = { s with table := (f s.table).2 }) (onTable f) s := by
  refine obeys_act trivial nofun fun a s' hs' => ?_
  cases hs'
  exact ⟨rfl, rfl⟩

theorem obeys_table {α β : Type} {f : State → α × State} {q : α → Steps β} {Q}
    (hq : Obeys Q (q (f s.table).1) { s with table := (f s.table).2 }) : Obeys Q (onTable f >>= q) s :=
  obeys_onTable.bind (by rintro _ _ ⟨rfl, rfl⟩; exact hq)

theorem obeys_stop {m Q} (hm : ¬LockPanic m) : Obeys Q (stop m) s := by
  refine obeys_act trivial (fun m' h => ?_) nofun
  cases h
  exact hm

theorem obeys_never {α Q} : Obeys Q (never : Steps α) s := obeys_act trivial nofun nofun

theorem exec_release (hs : s.held l = true) : (release l).exec s = .ok () (s.hold l false) := by
  simp [release, hs]

/-! ## `wait1` -/

section Held

variable (hs : s.held .ptable = true)

include hs

theorem obeys_wait1Loop : Obeys (fun _ s' => s'.held = update s.held .ptable false) (wait1Loop c n) s := by
  induction n generalizing s with
  | zero => exact obeys_never
  | succ n ih =>
    refine obeys_onTable.bind fun r s1 h₁ => ?_
    have hheld : s1.held = s.held := by rw [h₁.2]
    rw [← hheld] at hs ⊢
    cases r with
    | some r => exact (obeys_release hs).bind fun _ _ h => obeys_pure h
    | none =>
      refine (obeys_sched hs).bind fun _ s2 h₂ => ?_
      rw [← h₂.1] at hs ⊢
      exact ih hs

theorem obeys_enter :
    Obeys (fun _ s' => s' = s) (act (fun s => .wait1 (s.held .ptable)) fun s => .ok () s : Steps Unit) s := by
  refine obeys_act hs nofun fun a s' h => ?_
  cases h
  rfl

theorem obeys_wait1 : Obeys (fun _ s' => s'.held = update s.held .ptable false) (wait1 c n) s := by
  refine (obeys_enter hs).bind ?_
  rintro _ _ rfl
  exact obeys_wait1Loop hs

/-- While it waits for its threads, an exiting process does not find a child process that has exited. -/
def Quiet (c : Ref) : (n : Nat) → (t : State) → (ts : List State) → Prop
  | 0, _, _ => True
  | n + 1, t, ts => (∀ p, ¬Dead t c p) ∧ ((∀ p, (t.proc p).parent ≠ some c) ∨ (t.proc c).killed = true ∨
    match ts with
    | [] => True
    | t' :: ts' => Quiet c n t' ts')

theorem wait1Loop_quiet (hq : Quiet c n s.table s.later) : Post (fun r _ => r = none) (wait1Loop c n) s := by
  induction n generalizing s with
  | zero => exact obeys_never.post
  | succ n ih =>
    obtain ⟨hdead, hq⟩ := hq
    have hspec := scan_spec s.table c
    refine obeys_onTable.post.bind fun r s1 h₁ => ?_
    have hheld : s1.held .ptable = true := by rw [h₁.2]; exact hs
    have hanswer : r = s.table.answer c := h₁.1
    rw [hanswer]
    unfold answer
    cases hscan : s.table.scan c with
    | reap p | crash p => rw [hscan] at hspec; exact absurd hspec.1 (hdead p)
    | childless => exact (obeys_release hheld).post.bind fun _ _ _ => post_pure rfl
    | again =>
      rw [hscan] at hspec
      obtain ⟨-, ⟨p, hp⟩, hkill⟩ := hspec
      refine (obeys_sched hheld).post.bind fun _ s2 h₂ => ?_
      refine ih (by rw [h₂.1]; exact hheld) ?_
      rcases hq with hno | hk | hq
      · exact absurd hp (hno p)
      · simp [hkill] at hk
      have hlater : s.later = s2.table :: s2.later := by rw [← h₂.2, h₁.2]
      rw [hlater] at hq
      exact hq

theorem wait1Loop_found (hq : ¬Quiet c n s.table s.later) :
    ∃ r s', (wait1Loop c n).exec s = .ok (some r) s' ∧ s'.held .ptable = false := by
  induction n generalizing s with
  | zero => exact absurd trivial hq
  | succ n ih =>
    have hspec := scan_spec s.table c
    rw [wait1Loop, exec_bind]
    simp only [onTable, exec_act, Res.ok_bind]
    unfold answer
    cases hscan : s.table.scan c with
    | reap p | crash p =>
      refine ⟨(s.table.proc p).pid, Path.hold { s with table := s.table.wait1 c .user .user .user } .ptable false, ?_,
        ?_⟩
      · simp only [exec_bind]
        rw [exec_release (s := { s with table := s.table.wait1 c .user .user .user }) hs]
        rfl
      · simp [Path.hold]
    | childless => rw [hscan] at hspec; exact absurd ⟨hspec.1, hspec.2.imp_right .inl⟩ hq
    | again =>
      rw [hscan] at hspec
      have hrest : ∃ t ts, s.later = t :: ts ∧ ¬Quiet c n t ts := by
        by_contra hno
        refine hq ⟨hspec.1, .inr (.inr ?_)⟩
        split
        · trivial
        rename_i t ts h
        by_contra hn
        exact hno ⟨t, ts, h, hn⟩
      obtain ⟨t, ts, hlater, hn⟩ := hrest
      have hsched : (sched c).exec { s with table := s.table.wait1 c .user .user .user } =
        .ok () { s with table := t, later := ts } := by
        have hst : ((s.table.wait1 c .user .user .user).proc c).state ≠ .running := by
          unfold State.wait1
          rw [hscan]
          simp
        simp [sched, hs, hst, Path.next, hlater]
      simp only [exec_bind]
      rw [hsched]
      exact ih hs hn

theorem obeys_joinLoop (hq : Quiet c n s.table s.later) :
    Obeys (fun _ s' => s'.held = update s.held .ptable false) (joinLoop c n (m + 1)) s := by
  have hwait := obeys_wait1 (c := c) (n := n) hs
  have hnone : Post (fun r _ => r = none) (wait1 c n) s := by
    refine (obeys_enter hs).post.bind ?_
    rintro _ _ rfl
    exact wait1Loop_quiet hs hq
  refine Obeys.bind ⟨hwait.fine, hwait.calm, hwait.post.and hnone⟩ ?_
  rintro _ s' ⟨hheld, rfl⟩
  exact obeys_pure hheld

theorem joinLoop_unlocked (hq : ¬Quiet c n s.table s.later) : ¬Always LockEv.Fine (joinLoop c n (n + 1)) s := by
  intro hfine
  obtain ⟨r, s', he, hheld⟩ := wait1Loop_found hs hq
  have hturn : Always LockEv.Fine (joinLoop c n n) s' := by
    refine hfine.rest (a := some r) ?_
    rw [wait1, exec_bind, exec_act]
    exact he
  cases n with
  | zero => exact hq trivial
  | succ k =>
    have henter := hturn.start.start (.wait1 (s'.held .ptable)) (by rw [trace_act]; exact List.mem_singleton_self _)
    rw [hheld] at henter; cases henter

end Held

/-! ## The functions -/

theorem obeys_wakeup {chan} (hs : s.held .ptable = false) :
    Obeys (fun _ s' => s'.held .ptable = false ∧ ∃ t, s.later = t :: s'.later ∧ s'.table = t.wakeup1 chan)
      (wakeup chan) s := by
  refine (obeys_acquire hs).bind fun _ s1 h₁ => ?_
  refine obeys_onTable.bind fun _ s2 h₂ => ?_
  refine obeys_act (by simp [LockEv.Fine, h₂.2, h₁.1]) (fun m hm => ?_) fun _ s3 h3 => ?_
  · simp [h₂.2, h₁.1] at hm
  rw [if_pos (by simp [h₂.2, h₁.1])] at h3
  cases h3
  rw [h₂.2]
  exact ⟨by simp [Path.hold], s1.table, h₁.2, rfl⟩

/-- The exiting process has no threads, or finds no child process that has exited while it waits for them. -/
def JoinsQuietly (c : Ref) (n : Nat) (t : State) (ts : List State) : Prop :=
  c ≠ t.initproc → ∀ t0 t1 rest, ts = t0 :: t1 :: rest → hasThreads t0 c = true → (t1.proc c).threadi ≠ 0 →
    Quiet c n (t1.killThreads c) rest

theorem killThreads_threadi (t : State) (c p : Ref) : ((t.killThreads c).proc p).threadi = (t.proc p).threadi := by
  simp only [State.killThreads]
  split <;> rfl

theorem obeys_joinThreads (hs : s.held .ptable = false)
    (hq : ∀ t rest, s.later = t :: rest → (t.proc c).threadi ≠ 0 → Quiet c n (t.killThreads c) rest) :
    Obeys (fun _ s' => s'.held .ptable = false) (joinThreads c n) s := by
  refine (obeys_acquire hs).bind fun _ s1 h₁ => ?_
  refine obeys_table ?_
  refine obeys_table ?_
  have hheld : s1.held .ptable = true := by rw [h₁.1]; simp
  split
  · rename_i hth
    rw [decide_eq_true_eq, killThreads_threadi] at hth
    have hloop := obeys_joinLoop (s := { s1 with table := s1.table.killThreads c }) (m := n) hheld (hq _ _ h₁.2 hth)
    exact hloop.mono fun _ s' h => by simp [h]
  · have hrel := obeys_release (s := { s1 with table := s1.table.killThreads c }) hheld
    exact hrel.mono fun _ s' h => by simp [h]

theorem hasThreads_wakeup1 (t : State) (chan : Nat) (c : Ref) : hasThreads (t.wakeup1 chan) c = hasThreads t c := by
  unfold hasThreads; rw [(Mild.wakeup1 chan).type, (Mild.wakeup1 chan).threadi]

variable (hs : s.held .ptable = false)

include hs

theorem obeys_depart : Obeys (fun _ _ => True) (depart c) s := by
  refine (obeys_acquire hs).bind fun _ s1 h₁ => ?_
  refine obeys_table ?_
  exact (obeys_sched (by simp [h₁.1])).bind fun _ _ _ => obeys_stop (by simp [LockPanic])

theorem obeys_exit (hq : JoinsQuietly c n s.table s.later) : Obeys (fun _ _ => True) (exit c n) s := by
  refine obeys_table ?_
  split
  · exact obeys_stop (by simp [LockPanic])
  next hinit =>
  rw [decide_eq_true_eq] at hinit
  refine (obeys_wakeup hs).bind ?_
  rintro _ s1 ⟨hheld, t, hlater, htable⟩
  refine obeys_table ?_
  split
  · rename_i hth
    rw [htable, hasThreads_wakeup1] at hth
    refine (obeys_joinThreads hheld fun t' rest hrest => ?_).bind fun _ _ h => obeys_depart h
    rw [hlater, hrest] at hq
    exact hq hinit t t' rest rfl hth
  · exact obeys_depart hheld

theorem obeys_yield : Obeys (fun _ _ => True) (yield c) s := by
  refine (obeys_acquire hs).bind fun _ s1 h₁ => ?_
  refine obeys_table ?_
  refine (obeys_sched (by simp [h₁.1])).bind fun _ s2 h₂ => ?_
  exact (obeys_release (by simp [h₂.1, h₁.1])).mono fun _ _ _ => trivial

theorem obeys_kill {pid} : Obeys (fun _ _ => True) (kill c pid) s := by
  refine (obeys_acquire hs).bind fun _ s1 h₁ => ?_
  refine obeys_table ?_
  exact (obeys_release (by simp [h₁.1])).bind fun _ _ _ => obeys_pure trivial

omit hs

attribute [local simp] Entry.held

theorem obeys_sleep {chan} {own} (hs : s.held = Entry.held (.sleep chan own)) :
    Obeys (fun _ _ => True) (sleep c chan own) s := by
  cases own with
  | true =>
    refine obeys_table ?_
    refine (obeys_sched (by simp [hs])).bind fun _ s1 _ => ?_
    exact obeys_table (obeys_pure trivial)
  | false =>
    refine (obeys_acquire (by simp [hs])).bind fun _ s1 h₁ => ?_
    refine (obeys_release (by simp [h₁.1, hs])).bind fun _ s2 h₂ => ?_
    refine obeys_table ?_
    refine (obeys_sched (by simp [h₂, h₁.1])).bind fun _ s3 h3 => ?_
    refine obeys_table ?_
    refine (obeys_release (by simp [h3.1, h₂, h₁.1])).bind fun _ s4 h4 => ?_
    exact obeys_reacquire (by simp [h4, h3.1, h₂])

theorem obeys_steps {e : Entry} (hs : s.held = e.held) (hq : e = .exit → JoinsQuietly c n s.table s.later) :
    Obeys (fun _ _ => True) (e.steps c n) s := by
  cases e with
  | exit => exact obeys_exit (by simp [hs]) (hq rfl)
  | wait =>
    refine (obeys_acquire (by simp [hs])).bind fun _ s1 h₁ => ?_
    exact (obeys_wait1 (by simp [h₁.1])).bind fun _ _ _ => obeys_pure trivial
  | wait1 => exact (obeys_wait1 (by simp [hs])).bind fun _ _ _ => obeys_pure trivial
  | yield => exact obeys_yield (by simp [hs])
  | sleep chan own => exact obeys_sleep hs
  | kill pid => exact (obeys_kill (by simp [hs])).bind fun _ _ _ => obeys_pure trivial

theorem exec_acquire (hs : s.held .ptable = false) (hlater : s.later = t :: ts) :
    (acquire .ptable).exec s = .ok () { held := update s.held .ptable true, table := t, later := ts } := by
  simp [acquire, hs, Path.next, Path.hold, hlater]

theorem joinThreads_unlocked {rest} (hs : s.held .ptable = false) (hlater : s.later = t :: rest)
    (hth : (t.proc c).threadi ≠ 0) (hq : ¬Quiet c n (t.killThreads c) rest) :
    ¬Always LockEv.Fine (joinThreads c n) s := by
  intro hfine
  have hrest := ((hfine.rest (exec_acquire hs hlater)).rest (by rw [onTable, exec_act])).rest
    (by rw [onTable, exec_act])
  rw [if_pos (by simpa [killThreads_threadi] using hth)] at hrest
  exact joinLoop_unlocked (by simp) hq hrest

theorem exit_unlocked (hs : s.held .ptable = false) (hq : ¬JoinsQuietly c n s.table s.later) :
    ¬Always LockEv.Fine (exit c n) s := by
  intro hfine
  simp only [JoinsQuietly, not_forall] at hq
  obtain ⟨hinit, t0, t1, rest, hlater, hth, hth', hq⟩ := hq
  have hrest := hfine.rest (by rw [onTable, exec_act])
  rw [if_neg (by simpa using hinit)] at hrest
  have hwake : (wakeup 0).exec s = .ok () { s with table := t0.wakeup1 0, later := t1 :: rest } := by
    rw [wakeup, exec_bind, exec_acquire hs hlater, Res.ok_bind, exec_bind, onTable, exec_act, Res.ok_bind,
      exec_release (by simp), Path.hold, update_idem, ← hs, update_eq_self]
  have hrest := (hrest.rest hwake).rest (by rw [onTable, exec_act])
  simp only [hasThreads_wakeup1, hth, if_true] at hrest
  exact joinThreads_unlocked (s := { s with table := t0.wakeup1 0, later := t1 :: rest }) hs rfl hth' hq hrest.start

/-- On every path through these functions `ptable.lock` is used as it must be, unless the loop of an exiting process
finds a
child process that has exited. -/
theorem lock_discipline (c : Ref) (n : Nat) (e : Entry) (t : State) (ts : List State) :
    (Always LockEv.Fine (e.steps c n) ⟨e.held, t, ts⟩ ∧
      ∀ m, (e.steps c n).exec ⟨e.held, t, ts⟩ = .panic m → ¬LockPanic m) ↔ (e = .exit → JoinsQuietly c n t ts) := by
  constructor
  · rintro ⟨hfine, -⟩ rfl
    by_contra hq
    exact exit_unlocked rfl hq hfine
  · intro hq; have h := obeys_steps (s := ⟨e.held, t, ts⟩) rfl hq; exact ⟨h.fine, h.calm⟩

def panics {α : Type} : Res Path α → Option String
  | .panic m => some m
  | _ => none

/-- A process exits that has a thread and a child process that has exited. -/
theorem exit_without_lock : ∃ t, Reachable (fun _ _ => True) (boot true true false) t ∧ t.At 2 .user ∧
    panics ((Entry.exit.steps 2 1).exec ⟨Entry.exit.held, t, [t, t]⟩) = some "sched ptable.lock" :=
  exists_run [.run 1, .fork 1, .forked 1 true true, .run 2, .clone 2 0x8000, .cloned 2 true, .added 2, .fork 2,
    .forked 2 true true, .run 4, .exit 4, .look 4, .leave 4] (by decide +kernel)

end Xv6Vsd.Tasks
