import Mathlib.Data.List.Perm.Subperm
import Xv6Vsd.Lib.Queue
import Xv6Vsd.Lib.Run

/-!
# Mailboxes of user programs (`message.c`)

A mailbox keeps the messages that have been received and not selected in a linked list. `cur` is the message that
`receive` returns next; when it is null, `receive` waits for a message from the kernel. A message is known by its
address, null is `none`. `flush` frees the messages but leaves `head` and `cur` as they are.
-/

namespace Xv6Vsd

open Function List

namespace UserMailbox

/-- A mailbox and the messages. The last four fields only record what has happened. -/
structure State where
  next : Nat → Option Nat
  head : Option Nat
  cur : Option Nat
  messages : Int
  used : List Nat
  received : List Nat
  selected : List Nat
  flushed : List Nat

/-- `receive(mbox)`, where `a` is the message that `recv1` returns if it is called. -/
def receive (s : State) (a : Nat) : State × Nat := match s.cur with
  | none =>
    ({ s with
      next := update s.next a s.head
      head := some a
      cur := some a
      messages := s.messages + 1
      used := a :: s.used
      received := a :: s.received }, a)
  | some msg => ({ s with cur := s.next msg }, msg)

/-- The loop of `selectmsg`: whether it comes to `msg`, and `prev` then. It does not come to an end on a list that
does not. -/
def seek (next : Nat → Option Nat) (msg : Nat) : (fuel : Nat) → (prev cur : Option Nat) → Option (Option (Option Nat))
  | 0, _, _ => none
  | _ + 1, _, none => some none
  | fuel + 1, prev, some cur => if cur = msg then some (some prev) else seek next msg fuel (some cur) (next cur)

def unlink (s : State) (msg : Nat) (prev : Option Nat) : State :=
  let s1 : State := match prev with
    | none => { s with head := s.next msg }
    | some p => { s with next := update s.next p (s.next msg) }
  { s1 with
    cur := if s.cur = some msg then s1.next msg else s.cur
    messages := s.messages - 1
    next := update s1.next msg none
    selected := msg :: s.selected }

def selectmsg (s : State) (msg : Nat) : Option State := match seek s.next msg (s.used.length + 1) none s.head with
  | none => none
  | some none => some s
  | some (some prev) => some (unlink s msg prev)

def flushFrom : (fuel : Nat) → State → (cur : Nat) → Option State
  | 0, _, _ => none
  | fuel + 1, s, cur =>
    let after := s.next cur
    let s := { s with messages := s.messages - 1, used := s.used.erase cur, flushed := cur :: s.flushed }
    match after with
    | none => some s
    | some cur => flushFrom fuel s cur

def flush (s : State) : Option State := match s.head with
  | none => some s
  | some cur => flushFrom (s.used.length + 1) s cur

def mailbox : State := ⟨fun _ => none, none, none, 0, [], [], [], []⟩

inductive Op where
  | receive (a : Nat)
  | select (msg : Nat)
  | flush

/-- `malloc` gives storage that is not in use; a message that is selected has been returned by `receive`. -/
def act (s : State) : Op → Option State
  | .receive a => if a ∉ s.used then some (receive s a).1 else none
  | .select msg => if msg ∈ s.received then selectmsg s msg else none
  | .flush => flush s

/-! ## The list -/

structure Holds (s : State) (l : List Nat) : Prop where
  links : Links s.next s.head l
  nodup : l.Nodup
  count : s.messages = l.length
  mem : ∀ m, m ∈ l ↔ m ∈ s.received ∧ m ∉ s.selected ∧ m ∉ s.flushed
  cur : s.cur = none ∨ ∃ m ∈ l, s.cur = some m
  used : ∀ m, m ∈ s.received → m ∈ s.used
  gone : ∀ m, m ∈ s.selected ∨ m ∈ s.flushed → m ∈ s.received

variable {s s' : State} {l xs ys : List Nat} {m : Nat}

theorem seek_notMem {next fuel prev o} (h : Links next o l) (hm : m ∉ l) (hf : l.length < fuel) :
    seek next m fuel prev o = some none := by
  induction l generalizing fuel prev o with
  | nil =>
    obtain _ | fuel := fuel
    · cases hf
    · rw [show o = none from h, seek]
  | cons n l ih =>
    obtain _ | fuel := fuel
    · cases hf
    rw [mem_cons, not_or] at hm
    rw [h.1, seek, if_neg (Ne.symm hm.1)]
    exact ih h.2 hm.2 (by simpa using hf)

theorem seek_mem {next fuel prev o} (h : Links next o (xs ++ m :: ys)) (hm : m ∉ xs) (hf : xs.length < fuel) :
    seek next m fuel prev o = some (some (xs.foldl (fun _ n => some n) prev)) := by
  induction xs generalizing fuel prev o with
  | nil =>
    obtain _ | fuel := fuel
    · cases hf
    · rw [h.1, seek, if_pos rfl]; rfl
  | cons n xs ih =>
    obtain _ | fuel := fuel
    · cases hf
    rw [mem_cons, not_or] at hm
    rw [h.1, seek, if_neg (Ne.symm hm.1)]
    exact ih h.2 hm.2 (by simpa using hf)

namespace Holds

variable (h : Holds s l)
include h

theorem length_le : l.length ≤ s.used.length :=
  (subperm_of_subset h.nodup fun m hm => h.used m ((h.mem m).mp hm).1).length_le

theorem notMem {a} (ha : a ∉ s.used) : a ∉ l := fun hm => ha (h.used a ((h.mem a).mp hm).1)

theorem links_new {a} (ha : a ∉ s.used) : Links (update s.next a s.head) (some a) (a :: l) := by
  refine ⟨rfl, ?_⟩
  rw [update_self]
  exact h.links.congr fun n hn => update_of_ne (by rintro rfl; exact h.notMem ha hn) _ _

theorem receive {a} (ha : a ∉ s.used) : ∃ l', Holds (receive s a).1 l' := by
  unfold UserMailbox.receive
  cases hc : s.cur with
  | none =>
    have hfresh : a ∉ s.received := fun hm => ha (h.used a hm)
    have hkept : a ∉ s.selected ∧ a ∉ s.flushed :=
      ⟨fun hm => hfresh (h.gone a (.inl hm)), fun hm => hfresh (h.gone a (.inr hm))⟩
    refine ⟨a :: l, h.links_new ha, nodup_cons.mpr ⟨h.notMem ha, h.nodup⟩, ?_, fun m => ?_,
      .inr ⟨a, by simp, rfl⟩, ?_, ?_⟩
    · simp [h.count]
    · rw [mem_cons, mem_cons, h.mem m]
      constructor
      · rintro (rfl | ⟨h1, h2⟩)
        · exact ⟨.inl rfl, hkept⟩
        · exact ⟨.inr h1, h2⟩
      rintro ⟨rfl | h1, h2⟩
      · exact .inl rfl
      · exact .inr ⟨h1, h2⟩
    · exact fun m hm => mem_cons.mpr ((mem_cons.mp hm).imp_right (h.used m))
    · exact fun m hm => mem_cons_of_mem a (h.gone m hm)
  | some m =>
    refine ⟨l, h.links, h.nodup, h.count, h.mem, ?_, h.used, h.gone⟩
    obtain hnil | ⟨n, hn, he⟩ := h.cur
    · rw [hc] at hnil; cases hnil
    · rw [hc] at he; cases he; exact h.links.next_mem hn

end Holds

theorem Holds.unlink (h : Holds s (xs ++ m :: ys)) (hmx : m ∉ xs) (hmy : m ∉ ys) :
    Holds (unlink s m (xs.foldl (fun _ n => some n) none)) (xs ++ ys) := by
  have hmem : ∀ n, n ∈ xs ++ ys ↔ n ∈ xs ++ m :: ys ∧ n ≠ m := by
    intro n
    simp only [mem_append, mem_cons]
    constructor
    · rintro (hn | hn)
      · exact ⟨.inl hn, by rintro rfl; exact hmx hn⟩
      · exact ⟨.inr (.inr hn), by rintro rfl; exact hmy hn⟩
    rintro ⟨hn | rfl | hn, hne⟩
    · exact .inl hn
    · exact absurd rfl hne
    · exact .inr hn
  have hafter := h.links.after
  -- the message behind the one that is taken out
  have hnext : s.next m = none ∨ ∃ n ∈ xs ++ ys, s.next m = some n := by
    rw [hafter.eq_head?]
    cases ys with
    | nil => exact .inl rfl
    | cons n ys => exact .inr ⟨n, by simp, rfl⟩
  have hcur : ∀ o, o = s.next m → (if s.cur = some m then o else s.cur) = none ∨
    ∃ n ∈ xs ++ ys, (if s.cur = some m then o else s.cur) = some n := by
    rintro o rfl
    split
    · exact hnext
    next hne =>
    obtain hnil | ⟨n, hn, he⟩ := h.cur
    · exact .inl hnil
    · exact .inr ⟨n, (hmem n).mpr ⟨hn, by rintro rfl; exact hne he⟩, he⟩
  have hnodup : (xs ++ ys).Nodup := h.nodup.sublist (List.Sublist.append_left (sublist_cons_self m ys) xs)
  have hcount : s.messages - 1 = (xs ++ ys).length := by
    rw [h.count]
    simp only [length_append, length_cons]
    omega
  have hleft : ∀ n, n ∈ xs ++ ys ↔ n ∈ s.received ∧ n ∉ m :: s.selected ∧ n ∉ s.flushed := by
    intro n
    rw [hmem, h.mem, mem_cons]
    tauto
  have hgone : ∀ n, n ∈ m :: s.selected ∨ n ∈ s.flushed → n ∈ s.received := by
    rintro n (hn | hn)
    · obtain rfl | hn := mem_cons.mp hn
      · exact ((h.mem n).mp (by simp)).1
      · exact h.gone n (.inl hn)
    · exact h.gone n (.inr hn)
  obtain rfl | ⟨zs, p, rfl⟩ := eq_nil_or_concat' xs
  · refine ⟨?_, hnodup, hcount, hleft, hcur _ rfl, h.used, hgone⟩
    exact hafter.congr fun n hn => update_of_ne (by rintro rfl; exact hmy hn) _ _
  have hp : (zs ++ [p]).foldl (fun _ n => some n) none = some p := by simp
  have hne : m ≠ p := by rintro rfl; exact hmx (by simp)
  rw [hp]
  refine ⟨?_, hnodup, hcount, hleft, hcur _ (update_of_ne hne _ _), h.used, hgone⟩
  have hlinks := h.links
  have hn := h.nodup
  rw [append_assoc] at hlinks hn ⊢
  exact hlinks.skip hn

namespace Holds

variable (h : Holds s l)
include h

theorem select (m : Nat) : ∃ s' l', selectmsg s m = some s' ∧ Holds s' l' := by
  have hlen := h.length_le
  unfold selectmsg
  by_cases hm : m ∈ l
  · obtain ⟨xs, ys, rfl⟩ := append_of_mem hm
    obtain ⟨hxs, hys, hdis⟩ := nodup_append.mp h.nodup
    obtain ⟨hmy, hys⟩ := nodup_cons.mp hys
    have hmx : m ∉ xs := fun hx => hdis m hx m (by simp) rfl
    rw [seek_mem h.links hmx (by simp at hlen; omega)]
    exact ⟨_, xs ++ ys, rfl, h.unlink hmx hmy⟩
  · rw [seek_notMem h.links hm (by omega)]; exact ⟨s, l, rfl, h⟩

end Holds

/-! ## Runs -/

def Unflushed (s : State) : Op → Prop
  | .flush => s.head = none
  | _ => True

instance (s : State) (op : Op) : Decidable (Unflushed s op) := match op with
  | .flush => inferInstanceAs (Decidable (_ = _))
  | .receive _ | .select _ => inferInstanceAs (Decidable True)

def Emptied (s : State) : Prop := s.head = none ∧ s.cur = none ∧ s.messages = 0

structure InOrder (s : State) : Prop where
  holds : ∃ l, Holds s l
  ends : ∀ m, ∃ s', selectmsg s m = some s'
  flush : ∀ s', flush s = some s' → (Emptied s' ↔ s.head = none)

theorem Holds.emptied (h : Holds s l) (hnil : s.head = none) : Emptied s := by
  have hl : l = [] := head?_eq_none_iff.mp (h.links.eq_head?.symm.trans hnil)
  subst hl
  refine ⟨hnil, ?_, h.count⟩
  obtain hc | ⟨m, hm, -⟩ := h.cur
  · exact hc
  · cases hm

theorem flushFrom_head {fuel cur} (h : flushFrom fuel s cur = some s') : s'.head = s.head := by
  induction fuel generalizing s cur with
  | zero => cases h
  | succ fuel ih =>
    rw [flushFrom] at h
    split at h
    · cases h; rfl
    · have hrest := ih h; exact hrest

theorem Holds.inOrder (h : Holds s l) : InOrder s := by
  refine ⟨⟨l, h⟩, fun m => ?_, fun s' hf => ?_⟩
  · obtain ⟨s', _, hs, -⟩ := h.select m; exact ⟨s', hs⟩
  unfold UserMailbox.flush at hf
  cases hh : s.head with
  | none => rw [hh] at hf; cases hf; exact iff_of_true (h.emptied hh) rfl
  | some cur =>
    rw [hh] at hf
    have hsame := flushFrom_head hf
    refine iff_of_false (fun he => ?_) (by simp)
    rw [he.1, hh] at hsame; cases hsame

theorem Holds.act (h : Holds s l) {op} (hop : Unflushed s op) (ha : act s op = some s') : ∃ l', Holds s' l' := by
  cases op with
  | receive a =>
    obtain ⟨hfree, ha⟩ := Option.ite_none_right_eq_some.mp ha
    cases ha
    exact h.receive hfree
  | select m =>
    obtain ⟨-, ha⟩ := Option.ite_none_right_eq_some.mp ha
    obtain ⟨s1, l', hs, hl⟩ := h.select m
    rw [hs] at ha; cases ha
    exact ⟨l', hl⟩
  | flush =>
    have hf : UserMailbox.flush s = some s' := ha
    rw [UserMailbox.flush, show s.head = none from hop] at hf; cases hf
    exact ⟨l, h⟩

theorem holds_mailbox : Holds mailbox [] :=
  ⟨rfl, nodup_nil, rfl, fun m => by simp [mailbox], .inl rfl, fun m hm => (by cases hm), fun m hm => by
    obtain hm | hm := hm <;> cases hm⟩

theorem holds_of_run (h : Run act Unflushed mailbox s) : ∃ l, Holds s l := by
  refine h.invariant (P := fun s => ∃ l, Holds s l) ⟨[], holds_mailbox⟩ fun s op s' hs hop ha => ?_
  obtain ⟨l, hl⟩ := hs
  exact hl.act hop ha

/-- In every run in which a mailbox is flushed only when it is empty, the mailbox is in order. -/
theorem mailbox_in_order (h : Run act Unflushed mailbox s) : InOrder s := by
  obtain ⟨l, hl⟩ := holds_of_run h; exact hl.inOrder

theorem mailbox_in_order_two : ∃ s, Run act Unflushed mailbox s ∧ s.messages = 1 ∧ s.head = some 8 ∧ InOrder s := by
  obtain ⟨s, hrun, hcount, hhead⟩ : ∃ s, Run act Unflushed mailbox s ∧ s.messages = 1 ∧ s.head = some 8 :=
    exists_run [.receive 4, .receive 8, .receive 8, .select 4] (by decide)
  exact ⟨s, hrun, hcount, hhead, mailbox_in_order hrun⟩

/-- After a message is received and the mailbox flushed, `head` and `cur` point to the message that was freed. -/
theorem flush_leaves_dangling : ∃ s, Run act (fun _ _ => True) mailbox s ∧ s.head = some 4 ∧ s.cur = some 4 ∧
    s.messages = 0 ∧ 4 ∈ s.flushed ∧ 4 ∉ s.used ∧ ¬ ∃ l, Holds s l := by
  obtain ⟨s, hrun, hhead, hcur, hcount, hflushed, hused⟩ : ∃ s, Run act (fun _ _ => True) mailbox s ∧ s.head = some 4 ∧
      s.cur = some 4 ∧ s.messages = 0 ∧ 4 ∈ s.flushed ∧ 4 ∉ s.used := exists_run [.receive 4, .flush] (by decide)
  refine ⟨s, hrun, hhead, hcur, hcount, hflushed, hused, fun ⟨l, hl⟩ => ?_⟩
  have hmem : 4 ∈ l := by
    have hfirst := hl.links.eq_head?
    rw [hhead] at hfirst
    exact mem_of_head? hfirst.symm
  exact ((hl.mem 4).mp hmem).2.2 hflushed

/-! ## Scans -/

def receives (s : State) : List Nat → State × List Nat
  | [] => (s, [])
  | a :: as => ((receives (receive s a).1 as).1, (receive s a).2 :: (receives (receive s a).1 as).2)

theorem receives_append (as bs : List Nat) : receives s (as ++ bs) =
    ((receives (receives s as).1 bs).1, (receives s as).2 ++ (receives (receives s as).1 bs).2) := by
  induction as generalizing s with
  | nil => rfl
  | cons a as ih => simp [receives, ih]

theorem receives_rest (h : Links s.next s.cur l) {as} (hlen : as.length = l.length) :
    receives s as = ({ s with cur := none }, l) := by
  induction l generalizing s as with
  | nil => have hcur : s.cur = none := h; rw [eq_nil_of_length_eq_zero hlen, receives, ← hcur]
  | cons m l ih =>
    cases as with
    | nil => cases hlen
    | cons a as =>
      have hfirst : receive s a = ({ s with cur := s.next m }, m) := by rw [receive, h.1]
      rw [receives, hfirst, ih h.2 (Nat.succ.inj hlen)]

theorem Holds.receives_new (h : Holds s l) (hcur : s.cur = none) {a} (ha : a ∉ s.used) {as}
    (hlen : as.length = l.length + 1) : (receives s (a :: as)).2 = a :: a :: l ∧ (receives s (a :: as)).1.cur = none ∧
      (receives s (a :: as)).1.received = a :: s.received := by
  rw [receives, UserMailbox.receive, hcur]
  rw [receives_rest (h.links_new ha) hlen]
  exact ⟨rfl, rfl, rfl⟩

end UserMailbox

end Xv6Vsd
