import Mathlib.Data.UInt
import Xv6Vsd.Lib.Queue

/-!
# Mailboxes (`proc.c`, `sysproc.c`)

The messages of one mailbox, as its critical sections leave them: each section is entered with the mailbox's lock and
left without it, so a run is a list of them. The allocator gives storage that nothing uses, or it
gives nil, which `sys_sendmsg` does not test: what it then puts into the message goes to the memory
of the sender, whose first page is mapped.
-/

namespace Xv6Vsd

open Function List Option

structure Message where
  size : UInt32
  data : Option (List UInt8)
  next : Option Nat

structure Mail where
  head : Option Nat
  tail : Option Nat
  mem : Nat → Option Message

namespace Mail

def setNext (s : Mail) (m next : Option Nat) : Option Mail := match m with
  | none => some s -- a word of the process
  | some m => (s.mem m).map fun msg => { s with mem := update s.mem m (some { msg with next := next }) }

def addMessage (s : Mail) (m : Option Nat) : Option Mail := do
  let s ← s.setNext m none
  if s.head = none ∧ s.tail = none then return { s with head := m, tail := m }
  let s ← s.setNext s.tail m
  return { s with tail := m }

def precvwait (s : Mail) : Option UInt32 := do
  let m ← s.head
  let msg ← s.mem m
  return msg.size

def precvmsg (s : Mail) : Option (Nat × Mail) := do
  let m ← s.head
  let msg ← s.mem m
  let tail := if msg.next = none then none else s.tail
  let s ← ({ s with head := msg.next, tail := tail } : Mail).setNext (some m) none
  return (m, s)

/-- A section of the mailbox's lock, with what the system call does around it. -/
inductive Section where
  /-- `m` is what `kmalloc` returns for the message, `stored` whether it returns storage for the data -/
  | sendmsg (m : Option Nat) (stored : Bool) (data : List UInt8)
  | recvwait
  /-- `own` is what the receiver has at address 0 -/
  | recvmsg (size : UInt32) (own : List UInt8)

inductive Answer where
  | sent
  | size (n : UInt32)
  | bytes (data : List UInt8)

def sysSendmsg (s : Mail) (m : Option Nat) (stored : Bool) (data : List UInt8) : Option Mail := match m with
  | none => s.addMessage none
  | some m =>
    let msg : Message := { size := UInt32.ofNat data.length, data := if stored then some data else none, next := none }
    ({ s with mem := update s.mem m (some msg) } : Mail).addMessage (some m)

def cpysize (msg : Message) (size : UInt32) : UInt32 := if msg.size < size then msg.size else size

def sysRecvmsg (s : Mail) (size : UInt32) (own : List UInt8) : Option (Message × List UInt8 × Mail) := do
  let (m, s) ← s.precvmsg
  let msg ← s.mem m
  return (msg, (msg.data.getD own).take (cpysize msg size).toNat, { s with mem := update s.mem m none })

def enter (s : Mail) : Section → Option (Queued (List UInt8) × Answer × Mail)
  | .sendmsg m stored data => do return (.put data, .sent, ← s.sysSendmsg m stored data)
  | .recvwait => do
    let m ← s.head
    let msg ← s.mem m
    return (.front (msg.data.getD []), .size (← s.precvwait), s)
  | .recvmsg size own => do
    let (msg, data, s) ← s.sysRecvmsg size own
    return (.take (msg.data.getD own), .bytes data, s)

/-- The most that fits into a page behind the header of its block; a larger block overlaps others. -/
abbrev mostBytes : Nat := 4088

/-- A message is sent from memory that `kmalloc` gave, a receive is entered when the mailbox is not empty. -/
def Enabled (s : Mail) : Section → Prop
  | .sendmsg m _ data => (∀ a ∈ m, s.mem a = none) ∧ data.length ≤ mostBytes
  | .recvwait | .recvmsg .. => s.head ≠ none

/-- `kmalloc` does not run out of memory. -/
def Section.Served : Section → Prop
  | .sendmsg m stored _ => m ≠ none ∧ stored = true
  | .recvwait | .recvmsg .. => True

instance (s : Mail) (c : Section) : Decidable (s.Enabled c) := by
  cases c <;> unfold Enabled <;> infer_instance

structure Entry where
  call : Section
  queued : Queued (List UInt8)
  answer : Answer

def run (s : Mail) : List Section → Option (List Entry × Mail)
  | [] => some ([], s)
  | c :: cs =>
    if s.Enabled c then do
      let (e, a, s) ← s.enter c
      let (tr, s) ← s.run cs
      return (⟨c, e, a⟩ :: tr, s)
    else none

/-- What the callers are told: a message goes in as it was sent, `recvwait` returns the size of the first one, and
`recvmsg` fills the buffer with its bytes as far as there is room. -/
def Entry.Right (e : Entry) : Prop := match e.call, e.queued, e.answer with
  | .sendmsg _ _ data, .put d, .sent => d = data
  | .recvwait, .front d, .size n => n.toNat = d.length
  | .recvmsg size _, .take d, .bytes b => b = d.take size.toNat
  | _, _, _ => False

def next (s : Mail) (m : Nat) : Option Nat := (s.mem m).bind Message.next

def data (s : Mail) (m : Nat) : List UInt8 := ((s.mem m).bind Message.data).getD []

structure Nodes (s : Mail) (l : List Nat) : Prop where
  queue : Queue s.next s.head s.tail l
  live : ∀ m ∈ l, ∃ msg d, s.mem m = some msg ∧ msg.data = some d ∧ msg.size.toNat = d.length

variable {s s0 s' : Mail} {m : Nat} {l : List Nat} {data : List UInt8} {size : UInt32} {own d : List UInt8}
  {msg : Message} {c : Section}
  {cs : List Section} {tr : List Entry}

theorem Nodes.notMem (h : s.Nodes l) (hm : s.mem m = none) : m ∉ l := fun hl => by
  obtain ⟨msg, _, hmsg, -⟩ := h.live m hl
  simp [hm] at hmsg

theorem Nodes.first (h : s.Nodes l) (hm : s.head = some m) :
    ∃ l' msg d, l = m :: l' ∧ s.mem m = some msg ∧ msg.data = some d ∧ msg.size.toNat = d.length := by
  have hhead := h.queue.links.eq_head?
  rw [hm] at hhead
  obtain ⟨l', rfl⟩ : ∃ l', l = m :: l' := head?_eq_some_iff.mp hhead.symm
  obtain ⟨msg, d, hmsg⟩ := h.live m mem_cons_self
  exact ⟨l', msg, d, rfl, hmsg⟩

theorem setNext_eq (hm : s.mem m = some msg) (n : Option Nat) :
    s.setNext (some m) n = some { s with mem := update s.mem m (some { msg with next := n }) } := by
  rw [setNext, hm]
  rfl

theorem Nodes.write (h : s.Nodes l) (hm : s.mem m = none) (msg : Message) :
    let s' : Mail := { s with mem := update s.mem m (some msg) }
    s'.Nodes l ∧ l.map s'.data = l.map s.data := by
  have hmem : ∀ n ∈ l, update s.mem m (some msg) n = s.mem n := fun n hn =>
    update_of_ne (fun heq => h.notMem hm (by rwa [← heq])) _ _
  refine ⟨⟨h.queue.congr fun n hn => ?_, fun n hn => ?_⟩, map_congr_left fun n hn => ?_⟩
  · simp only [next, hmem n hn]
  · simp only [hmem n hn]; exact h.live n hn
  · simp only [Mail.data, hmem n hn]

theorem Nodes.push {t last} (h : s.Nodes l) (ht : s.tail = some t) (hl : s.mem t = some last)
    (hml : m ∉ l) (hm : s.mem m = some msg) (hnil : msg.next = none) (hd : msg.data = some d)
    (hsize : msg.size.toNat = d.length) :
    let s' : Mail := { s with tail := some m, mem := update s.mem t (some { last with next := some m }) }
    s'.Nodes (l ++ [m]) ∧ (l ++ [m]).map s'.data = l.map s.data ++ [d] := by
  have htl : t ∈ l := mem_of_getLast? (h.queue.last.symm.trans ht)
  have hne : m ≠ t := fun heq => hml (heq ▸ htl)
  have hdata : ∀ n, ((update s.mem t (some { last with next := some m }) n).bind Message.data).getD [] = s.data n := by
    intro n
    by_cases hn : n = t
    · subst hn; simp [Mail.data, hl]
    · simp [Mail.data, hn]
  intro s'
  refine ⟨⟨?_, fun n hn => ?_⟩, ?_⟩
  · have hnext : s'.next = update s.next t (some m) := by
      funext n
      by_cases hn : n = t
      · subst hn; simp [s', next]
      · simp [s', next, hn]
    rw [hnext]
    refine (ht ▸ h.queue).push hml ?_
    simp [next, hm, hnil]
  · by_cases hnt : n = t
    · subst hnt
      obtain ⟨x, e, hx, hsz⟩ := h.live n htl
      rw [hl] at hx; cases hx
      exact ⟨_, e, update_self _ _ _, hsz⟩
    · simp only [s', update_of_ne hnt]
      rcases mem_append.mp hn with hn | hn
      · exact h.live n hn
      · rw [mem_singleton] at hn; subst hn; exact ⟨msg, d, hm, hd, hsize⟩
  · rw [map_append, map_singleton]
    have hms : s'.data m = d := by rw [show s'.data m = s.data m from hdata m, Mail.data, hm, bind_some, hd, getD_some]
    rw [hms]
    exact congrArg (· ++ [d]) (map_congr_left fun n _ => hdata n)

theorem sysSendmsg_nodes (h : s.Nodes l) (hm : s.mem m = none) (hlen : data.length ≤ mostBytes) :
    ∃ s', s.sysSendmsg (some m) true data = some s' ∧ s'.Nodes (l ++ [m]) ∧ (l ++ [m]).map s'.data =
      l.map s.data ++ [data] := by
  have hsize : (UInt32.ofNat data.length).toNat = data.length :=
    UInt32.toNat_ofNat_of_lt' (lt_of_le_of_lt hlen (by decide))
  obtain ⟨hnodes, hmap⟩ := h.write hm ⟨UInt32.ofNat data.length, some data, none⟩
  have hml := h.notMem hm
  simp only [sysSendmsg, addMessage, if_true]
  rw [setNext_eq (update_self m _ _)]
  simp only [update_idem, bind_eq_bind, bind_some]
  by_cases hnil : s.head = none ∧ s.tail = none
  · rw [if_pos hnil]
    have hl : l = [] := by
      have := h.queue.links.eq_head?
      rw [hnil.1] at this
      exact head?_eq_none_iff.mp this.symm
    subst hl
    refine ⟨_, rfl, ⟨Queue.single ?_, fun n hn => ?_⟩, ?_⟩
    · simp [next]
    · rw [mem_singleton.mp hn]; exact ⟨_, data, update_self _ _ _, rfl, hsize⟩
    · simp [Mail.data]
  · rw [if_neg hnil]
    have htail : s.tail ≠ none := fun ht => hnil ⟨h.queue.nil_iff.mpr ht, ht⟩
    obtain ⟨t, ht⟩ := ne_none_iff_exists'.mp htail
    have htl : t ∈ l := mem_of_getLast? (h.queue.last.symm.trans ht)
    obtain ⟨last, _, hlast, -⟩ := hnodes.live t htl
    simp only [ht]
    rw [setNext_eq (s := { s with tail := some t, mem := _ }) hlast]
    have hpush := hnodes.push ht hlast hml (update_self m _ _) rfl rfl hsize
    rw [hmap] at hpush
    exact ⟨_, rfl, hpush⟩

theorem sysRecvmsg_nodes (h : s.Nodes (m :: l)) (hm : s.mem m = some msg) (size : UInt32) (own : List UInt8) :
    ∃ s', s.sysRecvmsg size own =
        some ({ msg with next := none }, (msg.data.getD own).take (cpysize msg size).toNat, s') ∧
      s'.Nodes l ∧ l.map s'.data = l.map s.data := by
  have hhead : s.head = some m := h.queue.links.1
  have hml := (nodup_cons.mp h.queue.nodup).1
  have hpop := h.queue.pop
  have hnext : s.next m = msg.next := by simp [next, hm]
  rw [hnext] at hpop
  simp only [sysRecvmsg, precvmsg, hhead, hm, Option.bind_eq_bind, Option.bind_some]
  rw [setNext_eq (s := ⟨msg.next, _, s.mem⟩) hm]
  simp only [Option.bind_some, Option.pure_def, update_self, update_idem]
  have hmem : ∀ n ∈ l, update s.mem m none n = s.mem n := fun n hn => update_of_ne (fun heq => hml (by rwa [← heq])) _ _
  refine ⟨_, rfl, ⟨hpop.congr fun n hn => ?_, fun n hn => ?_⟩, map_congr_left fun n hn => ?_⟩
  · simp only [next, hmem n hn]
  · simp only [hmem n hn]; exact h.live n (mem_cons_of_mem m hn)
  · simp only [Mail.data, hmem n hn]

theorem take_cpysize (hsize : msg.size.toNat = d.length) : d.take (cpysize msg size).toNat = d.take size.toNat := by
  unfold cpysize
  split
  · rename_i hlt
    have hle : d.length ≤ size.toNat := by
      rw [← hsize]
      exact le_of_lt (UInt32.lt_iff_toNat_lt.mp hlt)
    rw [hsize, take_length, take_of_length_le hle]
  · rfl

theorem enter_nodes (h : s.Nodes l) (hc : s.Enabled c) (hserved : c.Served) :
    ∃ e a s' l', s.enter c = some (e, a, s') ∧ s'.Nodes l' ∧ Fifo (l.map s.data) [e] (l'.map s'.data) ∧
      Entry.Right ⟨c, e, a⟩ := by
  cases c with
  | sendmsg m stored data =>
    obtain ⟨hm, rfl⟩ := hserved
    obtain ⟨m, rfl⟩ := ne_none_iff_exists'.mp hm
    obtain ⟨s', hs, hn, hmap⟩ := sysSendmsg_nodes h (hc.1 m rfl) hc.2
    refine ⟨.put data, .sent, s', l ++ [m], ?_, hn, ?_, rfl⟩
    · simp [enter, hs]
    · rw [hmap]; exact .put (.nil _)
  | recvwait =>
    obtain ⟨m, hm⟩ := ne_none_iff_exists'.mp hc
    obtain ⟨l', msg, d, rfl, hmsg, hdata, hsize⟩ := h.first hm
    refine ⟨.front d, .size msg.size, s, m :: l', ?_, h, ?_, hsize⟩
    · simp [enter, precvwait, hm, hmsg, hdata]
    have hd : s.data m = d := by simp [Mail.data, hmsg, hdata]
    rw [map_cons, hd]
    exact .front (.nil _)
  | recvmsg size own =>
    obtain ⟨m, hm⟩ := ne_none_iff_exists'.mp hc
    obtain ⟨l', msg, d, rfl, hmsg, hdata, hsize⟩ := h.first hm
    obtain ⟨s', hs, hn, hmap⟩ := sysRecvmsg_nodes h hmsg size own
    rw [hdata, getD_some] at hs
    refine ⟨.take d, .bytes _, s', l', ?_, hn, ?_, take_cpysize hsize⟩
    · simp only [enter, hs]; rfl
    have hd : s.data m = d := by simp [Mail.data, hmsg, hdata]
    rw [map_cons, hd, hmap]
    exact .take (.nil _)

theorem run_nodes (h : s.Nodes l) (hserved : ∀ c ∈ cs, c.Served) (hr : s.run cs = some (tr, s')) :
    ∃ l', s'.Nodes l' ∧ Fifo (l.map s.data) (tr.map Entry.queued) (l'.map s'.data) ∧ ∀ e ∈ tr, e.Right := by
  induction cs generalizing s l tr with
  | nil => cases hr; exact ⟨l, h, .nil _, by simp⟩
  | cons c cs ih =>
    rw [run] at hr
    split at hr
    · rename_i hc
      obtain ⟨e, a, s1, l1, he, hn, hf, hright⟩ := enter_nodes h hc (hserved c mem_cons_self)
      rw [he, bind_eq_bind, bind_some] at hr
      obtain ⟨⟨tr', s2⟩, hrun, hr⟩ := bind_eq_some_iff.mp hr
      cases hr
      obtain ⟨l', hn', hf', hright'⟩ := ih hn (fun c hc => hserved c (mem_cons_of_mem _ hc)) hrun
      refine ⟨l', hn', hf.append hf', ?_⟩
      rintro x (_ | ⟨_, hx⟩)
      · exact hright
      · exact hright' x hx
    · cases hr

theorem takes_eq_nil (hright : ∀ e ∈ tr, e.Right) (hno : ∀ e ∈ tr, ∀ n own, e.call ≠ .recvmsg n own) :
    takes (tr.map Entry.queued) = [] := by
  induction tr with
  | nil => rfl
  | cons e tr ih =>
    have hnil := ih (fun x hx => hright x (mem_cons_of_mem e hx)) fun x hx => hno x (mem_cons_of_mem e hx)
    obtain ⟨c, q, a⟩ := e
    have he := hright _ mem_cons_self
    cases q with
    | put d | front d => exact hnil
    | take d =>
      cases c with
      | sendmsg m stored data | recvwait => exact he.elim
      | recvmsg n own => exact (hno _ mem_cons_self n own rfl).elim

theorem Entry.Right.recvwait {e : Entry} (h : e.Right) (hc : e.call = .recvwait) :
    ∃ d n, e.queued = .front d ∧ e.answer = .size n ∧ n.toNat = d.length := by
  obtain ⟨c, q, a⟩ := e
  cases hc
  cases q with
  | put d | take d => exact h.elim
  | front d =>
    cases a with
    | sent | bytes b => exact h.elim
    | size n => exact ⟨d, n, rfl, rfl, h⟩

theorem Entry.Right.recvmsg {e : Entry} (h : e.Right) (hc : e.call = .recvmsg size own) :
    ∃ d, e.queued = .take d ∧ e.answer = .bytes (d.take size.toNat) := by
  obtain ⟨c, q, a⟩ := e
  cases hc
  cases q with
  | put d | front d => exact h.elim
  | take d =>
    cases a with
    | sent | size n => exact h.elim
    | bytes b => exact ⟨d, rfl, congrArg Answer.bytes h⟩

/-- While `kmalloc` gives memory the mailbox is a queue, and nothing sent between `recvwait` and the
next `recvmsg` changes what the latter gets. -/
theorem mailbox_fifo (hhead : s0.head = none) (htail : s0.tail = none) (hserved : ∀ c ∈ cs, c.Served)
    (hr : s0.run cs = some (tr, s)) :
    (∃ l, s.Nodes l ∧ takes (tr.map Entry.queued) ++ l.map s.data = puts (tr.map Entry.queued)) ∧
      (s.head = none ↔ s.tail = none) ∧ (∀ e ∈ tr, e.Right) ∧
      (∀ tr1 tr2 tr3 w r, tr = tr1 ++ w :: (tr2 ++ r :: tr3) → w.call = .recvwait →
        (∃ n own, r.call = .recvmsg n own) → (∀ e ∈ tr2, ∀ n own, e.call ≠ .recvmsg n own) →
        ∃ n d, w.answer = .size n ∧ r.queued = .take d ∧ n.toNat = d.length) ∧
      ∀ c, s.Enabled c → c.Served → (s.enter c).isSome := by
  have h0 : s0.Nodes [] := ⟨by rw [hhead, htail]; exact Queue.empty _, by simp⟩
  obtain ⟨l, hn, hf, hright⟩ := run_nodes h0 hserved hr
  refine ⟨⟨l, hn, hf.takes_append⟩, hn.queue.nil_iff, hright, ?_, ?_⟩
  · rintro tr1 tr2 tr3 w r rfl hw ⟨size, own, hrc⟩ hno
    obtain ⟨d, n, hwq, hwa, hlen⟩ := (hright w (by simp)).recvwait hw
    obtain ⟨d', hrq, -⟩ := (hright r (by simp)).recvmsg hrc
    have hnil : takes (tr2.map Entry.queued) = [] := takes_eq_nil (fun e he => hright e (by simp [he])) hno
    simp only [map_append, map_cons, hwq, hrq] at hf
    have hd := hf.front_eq_take hnil
    exact ⟨n, d', hwa, hrq, hd ▸ hlen⟩
  · intro c hc hs
    obtain ⟨e, a, s', l', he, -⟩ := enter_nodes hn hc hs
    rw [he]
    rfl

def noMail : Mail := ⟨none, none, fun _ => none⟩

def twoSends : List Section :=
  [.sendmsg (some 1) true [7, 8, 9], .recvwait, .sendmsg (some 2) true [5], .recvmsg 2 []]

theorem mailbox_fifo_two : ∃ tr s, noMail.run twoSends = some (tr, s) ∧
    (∃ l, s.Nodes l ∧ takes (tr.map Entry.queued) ++ l.map s.data = puts (tr.map Entry.queued)) ∧
      ∀ e ∈ tr, e.Right := by
  have hserved : ∀ c ∈ twoSends, c.Served := by simp [twoSends, Section.Served]
  have hrun : noMail.run twoSends = some _ := rfl
  have h := mailbox_fifo rfl rfl hserved hrun
  exact ⟨_, _, hrun, h.1, h.2.2.1⟩

/-- When `kmalloc` has no memory for the second of two messages, it is lost, and the mailbox has a head but no tail. -/
theorem message_lost : ∃ tr s, noMail.run [.sendmsg (some 1) true [7], .sendmsg none true [8]] = some (tr, s) ∧
    s.head = some 1 ∧ s.tail = none ∧ puts (tr.map Entry.queued) = [[7], [8]] ∧
    ¬ ∃ l, s.Nodes l ∧ takes (tr.map Entry.queued) ++ l.map s.data = puts (tr.map Entry.queued) := by
  refine ⟨_, _, rfl, rfl, rfl, rfl, fun ⟨l, hn, _⟩ => ?_⟩
  exact absurd (hn.queue.nil_iff.mpr rfl) (by decide)

end Mail

end Xv6Vsd
