import Mathlib.Data.Fintype.Card
import Xv6Vsd.Bio.Lemmas.Steps

/-! # One buffer for a block, one process for a buffer -/

namespace Xv6Vsd.Bio

open Function State List

variable {s s' : State} {b c : Buf} {p q i : Nat}

/-! ## What no step but `bget` and `brelse` changes -/

structure SameCore (s s' : State) : Prop where
  next : s'.next = s.next
  prev : s'.prev = s.prev
  key : ∀ b, (s'.buf b).key = (s.buf b).key
  busy : ∀ b, (s'.buf b).busy = (s.buf b).busy
  holds : ∀ p, (s'.proc p).holds = (s.proc p).holds

namespace SameCore

theorem trans {s''} (h : SameCore s s') (h' : SameCore s' s'') : SameCore s s'' where
  next := h'.next.trans h.next
  prev := h'.prev.trans h.prev
  key := fun b => (h'.key b).trans (h.key b)
  busy := fun b => (h'.busy b).trans (h.busy b)
  holds := fun p => (h'.holds p).trans (h.holds p)

theorem setProc {x} (hx : x.holds = (s.proc p).holds) : SameCore s (s.setProc p x) where
  next := rfl
  prev := rfl
  key := fun _ => rfl
  busy := fun _ => rfl
  holds := fun q => by
    rcases eq_or_ne q p with rfl | hq
    · simpa [setProc] using hx
    · simp [State.setProc, update_of_ne hq]

theorem of_buf {y} (hnext : s'.next = s.next) (hprev : s'.prev = s.prev) (hbuf : s'.buf = update s.buf b y)
    (hkey : y.key = (s.buf b).key) (hbusy : y.busy = (s.buf b).busy)
    (hholds : ∀ q, (s'.proc q).holds = (s.proc q).holds) : SameCore s s' where
  next := hnext
  prev := hprev
  key := fun c => by
    rw [hbuf, update_apply]
    split
    · next hc => rw [hc, hkey]
    · rfl
  busy := fun c => by
    rw [hbuf, update_apply]
    split
    · next hc => rw [hc, hbusy]
    · rfl
  holds := hholds

theorem modBuf {g} (hkey : (g (s.buf b)).key = (s.buf b).key) (hbusy : (g (s.buf b)).busy = (s.buf b).busy) :
    SameCore s (s.modBuf b g) :=
  .of_buf rfl rfl rfl hkey hbusy fun _ => rfl

theorem goOn (code : List Instr) : SameCore s (s.goOn p code) := setProc rfl

theorem modLog (dev : UInt32) (g : Log → Log) : SameCore s (s.modLog dev g) :=
  ⟨rfl, rfl, fun _ => rfl, fun _ => rfl, fun _ => rfl⟩

end SameCore

/-! ## The list -/

structure Listed (s : State) (l : List Buf) : Prop where
  ring : Ring s.next s.prev none (l.map some)
  all : ∀ b, b ∈ l

theorem reduceOption_map_some (l : List Buf) : (l.map some).reduceOption = l := by
  change filterMap id _ = l
  rw [filterMap_map, id_comp, filterMap_some]

variable {l : List Buf}

theorem length_le_nbuf (h : l.Nodup) : l.length ≤ nbuf := by simpa using h.length_le_card

namespace Listed

variable {l : List Buf} (h : Listed s l)
include h

theorem nodup : l.Nodup := (nodup_cons.mp h.ring.nodup).2.of_map some

theorem forward_eq : s.forward = l := by
  rw [forward, h.ring.fwd.follow_eq (by simp) (by simpa using length_le_nbuf h.nodup), reduceOption_map_some]

theorem backward_eq : s.backward = l.reverse := by
  rw [backward, h.ring.bwd.follow_eq (by simp) (by simpa using length_le_nbuf h.nodup), ← map_reverse,
    reduceOption_map_some]

end Listed

theorem State.link_next (s : State) (b : Buf) :
    (s.link b).next = update (update s.next (some b) (s.next none)) none (some b) := rfl

theorem State.link_prev (s : State) (b : Buf) :
    (s.link b).prev = update (update s.prev (some b) none) (s.next none) (some b) := by
  simp [link]

theorem State.unlink_next (s : State) (b : Buf) :
    (s.unlink b).next = update s.next (s.prev (some b)) (s.next (some b)) := by
  simp only [unlink, update_apply]
  split <;> rfl

theorem Listed.relink (h : Listed s l) (b : Buf) : ∃ l', Listed ((s.unlink b).link b) l' := by
  obtain ⟨xs, ys, rfl⟩ := append_of_mem (h.all b)
  have hring := h.ring
  rw [map_append, map_cons] at hring
  have hout : Ring (s.unlink b).next (s.unlink b).prev none ((xs ++ ys).map some) := by
    rw [unlink_next, map_append]
    exact hring.unlink
  have hnotin : b ∉ xs ++ ys := by
    have := h.nodup
    simp only [nodup_append, nodup_cons, mem_append, mem_cons] at this ⊢
    grind
  refine ⟨b :: (xs ++ ys), ?_, fun c => ?_⟩
  · rw [link_next, link_prev, map_cons]; exact hout.insert (by simpa using hnotin)
  · have := h.all c; simp only [mem_append, mem_cons] at this ⊢; tauto

theorem ring_foldl_link (bs : List Buf) (h : Ring s.next s.prev none (l.map some)) (hn : (bs.reverse ++ l).Nodup) :
    Ring (bs.foldl State.link s).next (bs.foldl State.link s).prev none ((bs.reverse ++ l).map some) := by
  induction bs generalizing s l with
  | nil => exact h
  | cons b bs ih =>
    rw [reverse_cons, append_assoc] at hn ⊢
    refine ih ?_ hn
    have hb : b ∉ l := (nodup_cons.mp (nodup_append.mp hn).2.1).1
    rw [link_next, link_prev, singleton_append, map_cons]
    exact h.insert (by simpa using hb)

theorem foldl_link (bs : List Buf) (s : State) : bs.foldl State.link s =
    { s with next := (bs.foldl State.link s).next, prev := (bs.foldl State.link s).prev } := by
  induction bs generalizing s with
  | nil => rfl
  | cons b bs ih => rw [foldl_cons, ih]; rfl

variable (disk : Key → Block) (log : UInt32 → Log)

theorem binit_buf : (binit disk log).buf = (boot disk log).buf := by
  rw [binit, foldl_link]

theorem binit_proc : (binit disk log).proc = (boot disk log).proc := by
  rw [binit, foldl_link]

theorem binit_log : (binit disk log).log = log := by
  rw [binit, foldl_link]; rfl

theorem listed_binit : Listed (binit disk log) (List.finRange nbuf).reverse where
  ring := by
    have hstart : Ring (boot disk log).next (boot disk log).prev none (([] : List Buf).map some) :=
      ⟨rfl, rfl, nodup_singleton _⟩
    have := ring_foldl_link (finRange nbuf) hstart (by simpa using nodup_finRange nbuf)
    rwa [append_nil] at this
  all := fun b => by simp

/-! ## The invariant -/

structure Inv (s : State) : Prop where
  listed : ∃ l, Listed s l
  unique : ∀ b c, (s.buf b).key = (s.buf c).key → (s.buf b).key.dev ≠ nodev → b = c
  busy : ∀ p, ∀ b ∈ (s.proc p).holds, (s.buf b).busy = true
  held : ∀ b, (s.buf b).busy = true → ∃ p, b ∈ (s.proc p).holds
  alone : ∀ p q, ∀ b ∈ (s.proc p).holds, b ∈ (s.proc q).holds → p = q
  nodup : ∀ p, (s.proc p).holds.Nodup

theorem inv_binit : Inv (binit disk log) := by
  have hbuf := binit_buf disk log
  have hproc := binit_proc disk log
  refine ⟨⟨_, listed_binit disk log⟩, fun b c _ hdev => ?_, fun p b hb => ?_, fun b hb => ?_, fun p q b hb => ?_,
    fun p => ?_⟩
  · rw [hbuf] at hdev; exact absurd rfl hdev
  · rw [hproc] at hb; cases hb
  · rw [hbuf] at hb; cases hb
  · rw [hproc] at hb; cases hb
  · rw [hproc]; exact nodup_nil

theorem Inv.same (h : Inv s) (hs : SameCore s s') : Inv s' where
  listed := by
    obtain ⟨l, hl⟩ := h.listed
    exact ⟨l, by rw [hs.next, hs.prev]; exact hl.ring, hl.all⟩
  unique := fun b c => by
    rw [hs.key, hs.key]
    exact h.unique b c
  busy := fun p b => by
    rw [hs.holds, hs.busy]
    exact h.busy p b
  held := fun b => by
    rw [hs.busy]
    intro hb
    obtain ⟨p, hp⟩ := h.held b hb
    exact ⟨p, by rwa [hs.holds]⟩
  alone := fun p q b => by
    rw [hs.holds, hs.holds]
    exact h.alone p q b
  nodup := fun p => by
    rw [hs.holds]
    exact h.nodup p

structure Gets (s s' : State) (p : Nat) (b : Buf) (key : Key) : Prop where
  free : (s.buf b).busy = false
  named : (s.buf b).key = key ∨ (∀ c, (s.buf c).key ≠ key) ∧ (s.buf b).dirty = false
  next : s'.next = s.next
  prev : s'.prev = s.prev
  key : ∀ c, (s'.buf c).key = if c = b then key else (s.buf c).key
  busy : ∀ c, (s'.buf c).busy = if c = b then true else (s.buf c).busy
  holds : ∀ q, (s'.proc q).holds = if q = p then b :: (s.proc p).holds else (s.proc q).holds

theorem Inv.notMem_holds (h : Inv s) (hb : (s.buf b).busy = false) (q : Nat) : b ∉ (s.proc q).holds := by
  intro hmem; simp [h.busy q b hmem] at hb

theorem Inv.gets {key} (h : Inv s) (hg : Gets s s' p b key) : Inv s' where
  listed := by
    obtain ⟨l, hl⟩ := h.listed
    exact ⟨l, by rw [hg.next, hg.prev]; exact hl.ring, hl.all⟩
  unique := fun c d => by
    have hnew : ∀ e, (s.buf e).key = key → key.dev ≠ nodev → e = b := by
      intro e he hdev
      rcases hg.named with hb | ⟨hno, -⟩
      · exact h.unique e b (he.trans hb.symm) (he ▸ hdev)
      · exact absurd he (hno e)
    rw [hg.key, hg.key]
    by_cases hc : c = b <;> by_cases hd : d = b
    · exact fun _ _ => hc.trans hd.symm
    · rw [if_pos hc, if_neg hd]; exact fun he hdev => absurd (hnew d he.symm hdev) hd
    · rw [if_neg hc, if_pos hd]; exact fun he hdev => absurd (hnew c he (he ▸ hdev)) hc
    · rw [if_neg hc, if_neg hd]; exact h.unique c d
  busy := fun q c hmem => by
    rw [hg.busy]
    split
    · rfl
    next hc =>
    rw [hg.holds] at hmem
    split at hmem
    · exact h.busy p c ((mem_cons.mp hmem).resolve_left hc)
    · exact h.busy q c hmem
  held := fun c hc => by
    by_cases hcb : c = b
    · exact ⟨p, by rw [hg.holds, if_pos rfl, hcb]; exact mem_cons_self⟩
    rw [hg.busy, if_neg hcb] at hc
    obtain ⟨q, hq⟩ := h.held c hc
    refine ⟨q, ?_⟩
    rw [hg.holds]
    split
    · next hqp => exact mem_cons_of_mem b (hqp ▸ hq)
    · exact hq
  alone := fun q r c => by
    have hnot := h.notMem_holds hg.free
    rw [hg.holds, hg.holds]
    by_cases hcb : c = b
    · rw [hcb]
      split
      · rename_i hq
        split
        · next hr => exact fun _ _ => hq.trans hr.symm
        · exact fun _ hr => absurd hr (hnot r)
      · exact fun hq => absurd hq (hnot q)
    · intro hq hr
      refine h.alone q r c ?_ ?_
      · split at hq
        · next he => exact he ▸ (mem_cons.mp hq).resolve_left hcb
        · exact hq
      split at hr
      · next he => exact he ▸ (mem_cons.mp hr).resolve_left hcb
      · exact hr
  nodup := fun q => by
    rw [hg.holds]
    split
    · exact nodup_cons.mpr ⟨h.notMem_holds hg.free p, h.nodup p⟩
    · exact h.nodup q

structure GivesBack (s s' : State) (p : Nat) (b : Buf) : Prop where
  listed : ∀ l, Listed s l → ∃ l', Listed s' l'
  key : ∀ c, (s'.buf c).key = (s.buf c).key
  busy : ∀ c, (s'.buf c).busy = if c = b then false else (s.buf c).busy
  held : b ∈ (s.proc p).holds
  holds : ∀ q, (s'.proc q).holds = if q = p then (s.proc p).holds.erase b else (s.proc q).holds

theorem Inv.givesBack (h : Inv s) (hg : GivesBack s s' p b) : Inv s' := by
  have hsub : ∀ q c, c ∈ (s'.proc q).holds → c ∈ (s.proc q).holds ∧ c ≠ b := by
    intro q c hc
    rw [hg.holds] at hc
    split at hc
    · next hq => rw [(h.nodup p).mem_erase_iff] at hc; exact ⟨hq ▸ hc.2, hc.1⟩
    next hq =>
    refine ⟨hc, ?_⟩
    rintro rfl
    exact hq (h.alone q p c hc hg.held)
  refine ⟨?_, fun c d => ?_, fun q c hc => ?_, fun c hc => ?_, fun q r c hq hr => ?_, fun q => ?_⟩
  · obtain ⟨l, hl⟩ := h.listed; exact hg.listed l hl
  · rw [hg.key, hg.key]; exact h.unique c d
  · obtain ⟨hmem, hne⟩ := hsub q c hc; rw [hg.busy, if_neg hne]; exact h.busy q c hmem
  · rw [hg.busy] at hc
    split at hc
    · cases hc
    next hne =>
    obtain ⟨q, hq⟩ := h.held c hc
    refine ⟨q, ?_⟩
    rw [hg.holds]
    split
    · next he => exact (mem_erase_of_ne hne).mpr (he ▸ hq)
    · exact hq
  · exact h.alone q r c (hsub q c hq).1 (hsub r c hr).1
  · rw [hg.holds]
    split
    · exact (h.nodup p).erase b
    · exact h.nodup q

/-! ## Steps -/

inductive Change (s s' : State) : Prop
  | same (h : SameCore s s')
  | gets {p : Nat} {b : Buf} {key : Key} (h : Gets s s' p b key)
  | givesBack {p : Nat} {b : Buf} (h : GivesBack s s' p b)

theorem Inv.change (h : Inv s) (hc : Change s s') : Inv s' := by
  cases hc with
  | same hc => exact h.same hc
  | gets hc => exact h.gets hc
  | givesBack hc => exact h.givesBack hc

theorem gets_hit (hfree : (s.buf b).busy = false) (rest : List Instr) : Gets s (s.got p b rest) p b (s.buf b).key where
  free := hfree
  named := .inl rfl
  next := rfl
  prev := rfl
  key := fun c => by
    rw [got_buf, update_apply]
    split <;> rfl
  busy := fun c => by
    rw [got_buf, update_apply]
    split <;> rfl
  holds := fun q => by
    rw [got_proc, update_apply]
    split <;> rfl

theorem gets_recycle {key} (hnew : ∀ c, (s.buf c).key ≠ key) (hfree : (s.buf b).busy = false)
    (hclean : (s.buf b).dirty = false) (rest : List Instr) :
    Gets s (s.recycled p b key rest) p b key where
  free := hfree
  named := .inr ⟨hnew, hclean⟩
  next := rfl
  prev := rfl
  key := fun c => by
    rw [recycled_buf, update_apply]
    split <;> rfl
  busy := fun c => by
    rw [recycled_buf, update_apply]
    split <;> rfl
  holds := fun q => by
    rw [recycled_proc, update_apply]
    split <;> rfl

theorem Listed.of_eq (h : Listed s l) (hnext : s'.next = s.next) (hprev : s'.prev = s.prev) : Listed s' l :=
  ⟨by rw [hnext, hprev]; exact h.ring, h.all⟩

theorem Inv.givesBack_released (h : Inv s) (hb : (s.proc p).holds[i]? = some b) (rest : List Instr) :
    GivesBack s (s.released p i b rest) p b where
  listed := fun l hl => by
    obtain ⟨l', hl'⟩ := hl.relink b
    exact ⟨l', hl'.of_eq rfl rfl⟩
  key := fun c => by
    simp only [released, wakeup, setProc, modBuf, update_apply]
    split
    · next hc => rw [hc]; rfl
    · rfl
  busy := fun c => by
    simp only [released, wakeup, setProc, modBuf, update_apply]
    split <;> rfl
  held := mem_of_getElem? hb
  holds := fun q => by
    have herase : (s.proc p).holds.eraseIdx i = (s.proc p).holds.erase b := by
      obtain ⟨hi, rfl⟩ := List.getElem?_eq_some_iff.mp hb
      exact ((h.nodup p).erase_getElem i hi).symm
    simp only [released, wakeup, setProc, modBuf, update_apply]
    split
    · split <;> exact herase
    · split <;> rfl

theorem sameCore_written (w : Writer) (rest : List Instr) : SameCore s (s.written p b w rest) := by
  refine .of_buf ?_ ?_ (s.written_buf rest w) rfl rfl fun q => ?_
  · unfold written
    split <;> rfl
  · unfold written
    split <;> rfl
  rw [written_proc, update_apply]
  split
  · next hq => rw [hq]
  · rfl

theorem sameCore_appended (rest : List Instr) : SameCore s (s.appended p b rest) := by
  refine .of_buf rfl rfl (s.appended_buf rest) rfl rfl fun q => ?_
  simp only [appended, setProc, update_apply]
  split
  · next hq => rw [hq]
  · rfl

theorem sameCore_served (queue : List Buf) : SameCore s (s.served b queue) := by
  refine .of_buf ?_ ?_ (s.served_buf queue) rfl rfl fun q => ?_
  · unfold served
    split <;> rfl
  · unfold served
    split <;> rfl
  · rw [served_proc]
    split <;> rfl

def Instr.moves : Instr → Bool
  | .bread _ | .brelse _ => true
  | _ => false

theorem Goes.sameCore (hg : Goes s p s') ⦃instr⦄ ⦃rest : List Instr⦄ (hcode : (s.proc p).code = instr :: rest)
    (hi : instr.moves = false) : SameCore s s' := by
  cases hg with
  | hit code | sleep code | recycle code | brelse code => rw [hcode] at code; cases code; cases hi
  | iderw => exact .trans (.goOn (.await _ :: _)) ⟨rfl, rfl, fun _ => rfl, fun _ => rfl, fun _ => rfl⟩
  | await | unlogged | logWrite | noBegin | noEnd | enter => exact .goOn _
  | store | copy | header => exact .trans (.modBuf rfl rfl) (.goOn _)
  | logAppend => exact sameCore_appended _
  | bwrite => exact sameCore_written _ _
  | beginOp | endLast | endOp => exact .trans (.modLog _ _) (.setProc rfl)
  | clear | endCommit => exact .trans (.modLog _ _) (.goOn _)

theorem Inv.goes (h : Inv s) (hg : Goes s p s') : Change s s' := by
  have hsame := hg.sameCore
  cases hg with
  | hit code named free => exact .gets (gets_hit free _)
  | sleep => exact .same (.setProc rfl)
  | recycle code new free clean => exact .gets (gets_recycle new free clean _)
  | brelse code at_i => exact .givesBack (h.givesBack_released at_i _)
  | iderw code | await code | store code | unlogged code | logWrite code | logAppend code | bwrite code
  | noBegin code | beginOp code | noEnd code | endLast code | endOp code | enter code | copy code | header code
  | clear code | endCommit code => exact .same (hsame code rfl)

theorem Inv.full (h : Inv s) : Full s := by
  obtain ⟨l, hl⟩ := h.listed
  intro b
  rw [hl.forward_eq]
  exact hl.all b

theorem Inv.full_back (h : Inv s) (b : Buf) : b ∈ s.backward := by
  obtain ⟨l, hl⟩ := h.listed
  rw [hl.backward_eq]
  exact mem_reverse.mpr (hl.all b)

theorem Inv.act_change {a} (h : Inv s) (ha : s.act a = .ok () s') : Change s s' := by
  cases act_acts h.full ha with
  | call => exact .same (.goOn _)
  | go awake goes => exact h.goes goes
  | intr => exact .same (sameCore_served _)

theorem Reachable.inv {ok disk log} (h : Reachable ok (binit disk log) s) : Inv s := by
  induction h with
  | start => exact inv_binit disk log
  | step _ _ ha ih => exact ih.change (ih.act_change ha)

/-! ## The representation -/

structure Represented (s : State) : Prop where
  list : ∃ l : List Buf, l.Nodup ∧ (∀ b, b ∈ l) ∧ Chain s.next none (l.map some) none ∧
    Chain s.prev none (l.reverse.map some) none ∧ s.forward = l ∧ s.backward = l.reverse
  unique : ∀ b c, (s.buf b).key = (s.buf c).key → (s.buf b).key.dev ≠ nodev → b = c
  busy : ∀ b, (s.buf b).busy = true ↔ ∃ p, b ∈ (s.proc p).holds
  alone : ∀ b p q, b ∈ (s.proc p).holds → b ∈ (s.proc q).holds → p = q
  once : ∀ p, (s.proc p).holds.Nodup
  recycled : ∀ a s' b, s.act a = .ok () s' → (s'.buf b).key ≠ (s.buf b).key →
    (s.buf b).busy = false ∧ (s.buf b).dirty = false

theorem Change.recycled (hc : Change s s') (hb : (s'.buf b).key ≠ (s.buf b).key) :
    (s.buf b).busy = false ∧ (s.buf b).dirty = false := by
  cases hc with
  | same h | givesBack h => exact absurd (h.key b) hb
  | gets h =>
    rw [h.key] at hb
    split at hb
    · next he => rw [he] at hb ⊢; exact ⟨h.free, (h.named.resolve_left hb.symm).2⟩
    · exact absurd rfl hb

theorem reachable_represented {disk : Key → Block} {log : UInt32 → Log}
    (h : Reachable (fun _ _ => True) (binit disk log) s) : Represented s := by
  have hinv := h.inv
  obtain ⟨l, hl⟩ := hinv.listed
  refine ⟨⟨l, hl.nodup, hl.all, hl.ring.fwd, ?_, hl.forward_eq, hl.backward_eq⟩, hinv.unique, fun b => ?_,
    fun b p q => hinv.alone p q b, hinv.nodup, fun a s' b ha hb => (hinv.act_change ha).recycled hb⟩
  · rw [map_reverse]; exact hl.ring.bwd
  · exact ⟨hinv.held b, fun ⟨p, hp⟩ => hinv.busy p b hp⟩

theorem represented_with_sleeper : ∃ s, (s.proc 0).holds = [0] ∧ (s.proc 1).asleep = some 0 ∧
    (s.proc 2).holds = [1] ∧ s.idequeue = [1] ∧ Represented s := by
  obtain ⟨s, h, h0, h1, h2, hq⟩ : ∃ s, Reachable (fun _ _ => True)
    (binit (fun _ => .zero) fun _ => ⟨0, 0, 0, false, []⟩) s ∧
      (s.proc 0).holds = [0] ∧ (s.proc 1).asleep = some 0 ∧ (s.proc 2).holds = [1] ∧ s.idequeue = [1] :=
    plays_reachable [.call 0 (.bread ⟨0, 7⟩), .go 0, .go 0, .intr, .go 0, .call 1 (.bread ⟨0, 7⟩), .go 1,
      .call 2 (.bread ⟨0, 8⟩), .go 2, .go 2] .start (by decide +kernel)
  exact ⟨s, h0, h1, h2, hq, reachable_represented h⟩

end Xv6Vsd.Bio
