import Xv6Vsd.Icache.Model

/-!
# One entry of the inode cache for each inode

The reference counts are exact, so an entry somebody has a pointer to is not recycled, and nobody but
the process that has set `I_BUSY` frees the inode or reads it in.
-/

namespace Xv6Vsd.Icache

open Cache Function Option

variable {c c' : Cache} {p : Nat} {e : Slot} {tr : List Ev} {ev : Ev}
variable {ph : Phase} {x : Entry} {dev inum : Nat} {r : Res Cache Ev}

theorem Phase.slot_of_busySlot (h : ph.busySlot = some e) : ph.slot = some e := by
  cases ph <;> simp_all [Phase.busySlot, Phase.slot]

/-! ## References -/

structure Refs (c : Cache) : Prop where
  count : ∀ e, (c.entry e).ref = c.held.countP fun h => h.2 = e
  once : ∀ e e', 0 < (c.entry e).ref → 0 < (c.entry e').ref → (c.entry e).dev = (c.entry e').dev →
    (c.entry e).inum = (c.entry e').inum → e = e'
  mounts : ∀ e m, (c.entry e).mountpoint = some m → (none, m) ∈ c.held

namespace Refs

variable (h : Refs c)

include h

theorem pos {w} (hw : (w, e) ∈ c.held) : 0 < (c.entry e).ref := by
  rw [h.count]
  exact_mod_cast List.countP_pos_iff.mpr ⟨(w, e), hw, by simp⟩

theorem quiet (hentry : c'.entry = c.entry) (hheld : c'.held = c.held) : Refs c' :=
  ⟨by rw [hentry, hheld]; exact h.count, by rw [hentry]; exact h.once, by rw [hentry, hheld]; exact h.mounts⟩

theorem update (hentry : c'.entry = update c.entry e x) (hd : x.dev = (c.entry e).dev)
    (hi : x.inum = (c.entry e).inum) (hr : 0 < x.ref → 0 < (c.entry e).ref)
    (hcount : ∀ e, (c'.entry e).ref = c'.held.countP fun h => h.2 = e)
    (hheld : ∀ m, (none, m) ∈ c.held → (none, m) ∈ c'.held) (hm : ∀ m, x.mountpoint = some m → (none, m) ∈ c.held) :
    Refs c' := by
  have hsame : ∀ e', (c'.entry e').dev = (c.entry e').dev ∧ (c'.entry e').inum = (c.entry e').inum ∧
      (0 < (c'.entry e').ref → 0 < (c.entry e').ref) := by
    intro e'
    rw [hentry, update_apply]
    split
    · next he => subst he; exact ⟨hd, hi, hr⟩
    · exact ⟨rfl, rfl, id⟩
  refine ⟨hcount, fun e1 e2 h1 h2 hd hi => ?_, fun e' m hmount => hheld m ?_⟩
  · rw [(hsame e1).1, (hsame e2).1] at hd
    rw [(hsame e1).2.1, (hsame e2).2.1] at hi
    exact h.once e1 e2 ((hsame e1).2.2 h1) ((hsame e2).2.2 h2) hd hi
  rw [hentry, update_apply] at hmount
  split at hmount
  · exact hm m hmount
  · exact h.mounts e' m hmount

theorem entry (hentry : c'.entry = Function.update c.entry e x) (hheld : c'.held = c.held)
    (hd : x.dev = (c.entry e).dev) (hi : x.inum = (c.entry e).inum) (hr : x.ref = (c.entry e).ref)
    (hm : ∀ m, x.mountpoint = some m → (none, m) ∈ c.held) : Refs c' := by
  refine h.update hentry hd hi (fun hpos => hr ▸ hpos) (fun e' => ?_) (fun _ => hheld ▸ id) hm
  rw [hheld, ← h.count, hentry, update_apply]
  split
  · next he => rw [hr, he]
  · rfl

theorem take (w : Option Nat) (hpos : 0 < (c.entry e).ref) : Refs (c.take w e) := by
  refine h.update rfl rfl rfl (fun _ => hpos) (fun e' => ?_) (fun _ => List.mem_cons_of_mem _) (h.mounts e)
  have hc := h.count e'
  by_cases he : e' = e
  · subst he; simp [Cache.take, setEntry, hc]
  · simp [Cache.take, setEntry, he, hc, Ne.symm he]

theorem drop (hp : (some p, e) ∈ c.held) : Refs (c.drop p e) := by
  refine h.update rfl rfl rfl (fun _ => h.pos hp) (fun e' => ?_) (fun _ => (List.mem_erase_of_ne (by simp)).mpr)
    (h.mounts e)
  have hc := h.count e'
  have hperm := (List.perm_cons_erase hp).countP_eq fun h => h.2 = e'
  rw [hperm, List.countP_cons] at hc
  by_cases he : e' = e
  · subst he
    simp only [decide_true, ↓reduceIte] at hc
    simp only [Cache.drop, setEntry, update_self]
    omega
  · simp only [Ne.symm he, decide_false, Bool.false_eq_true, ↓reduceIte, Nat.add_zero] at hc
    simpa [Cache.drop, setEntry, he] using hc

theorem recycle {dev inum x} (hnone : c.cached dev inum = none)
    (hfree : (c.entry e).ref = 0) (hd : x.dev = dev) (hi : x.inum = inum) (hr : x.ref = 1)
    (hm : x.mountpoint = none) : Refs { c.setEntry e x with held := (some p, e) :: c.held } := by
  have hother : ∀ e', 0 < (c.entry e').ref → (c.entry e').dev = dev → (c.entry e').inum = inum → False := by
    intro e' h1 h2 h3
    have hall := List.find?_eq_none.mp hnone e' (List.mem_finRange e')
    simp [h1, h2, h3] at hall
  refine ⟨fun e' => ?_, fun e1 e2 h1 h2 hd' hi' => ?_, fun e' m hmm => ?_⟩
  · have hc := h.count e'
    by_cases he : e' = e
    · subst he; rw [hfree] at hc; simp [setEntry, hr, ← hc]
    · simp [setEntry, he, hc, Ne.symm he]
  · by_cases he1 : e1 = e <;> by_cases he2 : e2 = e
    · rw [he1, he2]
    · subst he1
      simp only [setEntry, update_self, update_of_ne he2] at h2 hd' hi'
      exact (hother e2 h2 (hd'.symm.trans hd) (hi'.symm.trans hi)).elim
    · subst he2
      simp only [setEntry, update_self, update_of_ne he1] at h1 hd' hi'
      exact (hother e1 h1 (hd'.trans hd) (hi'.trans hi)).elim
    · simp only [setEntry, update_of_ne he1, update_of_ne he2] at h1 h2 hd' hi'
      exact h.once e1 e2 h1 h2 hd' hi'
  · by_cases he : e' = e
    · subst he; simp [setEntry, hm] at hmm
    · simp only [setEntry, update_of_ne he] at hmm; exact List.mem_cons_of_mem _ (h.mounts e' m hmm)

end Refs

theorem empty_ref (h : c.empty = some e) : (c.entry e).ref = 0 := by simpa using List.find?_some h

theorem iget_cases (h : c.iget p dev inum = .ok ev c') :
    (∃ e m, ev = .tau ∧ c' = c.take (some p) m ∧ 0 < (c.entry e).ref ∧ (m = e ∨ (c.entry e).mountpoint = some m)) ∨
      ∃ e x, ev = .recycle e ∧ c.cached dev inum = none ∧ (c.entry e).ref = 0 ∧
        x = { c.entry e with dev := dev, inum := inum, ref := 1, busy := none, valid := false, mountpoint := none } ∧
        c' = { c.setEntry e x with held := (some p, e) :: c.held } := by
  unfold Cache.iget at h
  split at h
  · rename_i e he
    cases h
    have hpos : 0 < (c.entry e).ref := by
      have hf := List.find?_some he
      simp only [decide_eq_true_eq] at hf
      exact hf.1
    refine .inl ⟨e, _, rfl, rfl, hpos, ?_⟩
    cases hm : (c.entry e).mountpoint with
    | none => exact .inl rfl
    | some m => exact .inr rfl
  · rename_i hnone
    split at h
    · cases h
    rename_i e he
    cases h
    exact .inr ⟨e, _, rfl, hnone, empty_ref he, rfl, rfl⟩

theorem Refs.iget (h : Refs c) (hg : c.iget p dev inum = .ok ev c') : Refs c' := by
  obtain ⟨e, m, -, rfl, hpos, rfl | hm⟩ | ⟨e, x, -, hnone, hfree, rfl, rfl⟩ := iget_cases hg
  · exact h.take _ hpos
  · exact h.take _ (h.pos (h.mounts e m hm))
  · exact h.recycle hnone hfree rfl rfl rfl rfl

/-! ## Calls in progress -/

structure Calls (c : Cache) : Prop where
  held : ∀ p e, (c.phase p).slot = some e → (some p, e) ∈ c.held
  busy : ∀ p e, (c.phase p).busySlot = some e → (c.entry e).busy = some p

structure Change (c : Cache) (p : Nat) (ev : Ev) (c' : Cache) : Prop where
  phase : ∀ q, q ≠ p → c'.phase q = c.phase q
  kept : ∀ q, q ≠ p → ∀ e, (some q, e) ∈ c.held → (some q, e) ∈ c'.held
  busy : ∀ e q, q ≠ p → (c.entry e).busy = some q → (c'.entry e).busy = some q ∨ ev = .recycle e
  selfHeld : ∀ e, (c'.phase p).slot = some e → (some p, e) ∈ c'.held
  selfBusy : ∀ e, (c'.phase p).busySlot = some e → (c'.entry e).busy = some p
  selfCopied : ∀ e, c'.phase p = .copied e → ev = .read e
  valid : ∀ e, (c'.entry e).valid = true → (c.entry e).valid = true ∧ ev ≠ .recycle e ∧ ev ≠ .free e ∨
    c.phase p = .copied e ∧ ev = .locked e
  renamed : ∀ e, (c'.entry e).dev = (c.entry e).dev ∧ (c'.entry e).inum = (c.entry e).inum ∨ ev = .recycle e
  recycle : ∀ e, ev = .recycle e → (c.entry e).ref = 0
  free : ∀ e, ev = .free e → c.phase p = .freeing e
  read : ∀ e, ev = .read e →
    (c'.entry e).din = { c.disk (c.entry e).dev (c.entry e).inum with attrib := (c.entry e).din.attrib }
  locked : ∀ e, ev = .locked e → (c.entry e).valid = true ∨ c.phase p = .copied e

theorem Change.of (hentry : c'.entry = update c.entry e x) (hphase : c'.phase = update c.phase p ph)
    (hkept : ∀ q, q ≠ p → ∀ e, (some q, e) ∈ c.held → (some q, e) ∈ c'.held)
    (hslot : ∀ e', ph.slot = some e' → e' = e ∧ (some p, e) ∈ c'.held) (hbusy : ph.busySlot ≠ none → x.busy = some p)
    (hcopied : ∀ e', ph = .copied e' → ev = .read e')
    (hother : ∀ q, q ≠ p → (c.entry e).busy = some q → x.busy = some q ∨ ev = .recycle e)
    (hvalid : x.valid = true → (c.entry e).valid = true ∧ ev ≠ .recycle e ∧ ev ≠ .free e ∨ c.phase p = .copied e ∧
      ev = .locked e)
    (hname : x.dev = (c.entry e).dev ∧ x.inum = (c.entry e).inum ∨ ev = .recycle e)
    (hev : ev = .tau ∨ (ev = .recycle e ∧ (c.entry e).ref = 0) ∨ (ev = .free e ∧ c.phase p = .freeing e) ∨
      (ev = .read e ∧ x.din = { c.disk (c.entry e).dev (c.entry e).inum with attrib := (c.entry e).din.attrib }) ∨
      (ev = .locked e ∧ ((c.entry e).valid = true ∨ c.phase p = .copied e))) :
    Change c p ev c' := by
  have hself : c'.phase p = ph := by rw [hphase, update_self]
  have hsame : ∀ e', e' ≠ e → c'.entry e' = c.entry e' := fun e' he => by rw [hentry, update_of_ne he]
  have hat : c'.entry e = x := by rw [hentry, update_self]
  constructor
  case phase => exact fun q hq => by rw [hphase, update_of_ne hq]
  case kept => exact hkept
  case busy =>
    intro e' q hq hb
    by_cases he : e' = e
    · subst he; rw [hat]; exact hother q hq hb
    · rw [hsame e' he]; exact .inl hb
  case selfHeld =>
    intro e' hs
    rw [hself] at hs
    obtain ⟨rfl, hh⟩ := hslot e' hs
    exact hh
  case selfBusy =>
    intro e' hs
    rw [hself] at hs
    obtain ⟨rfl, -⟩ := hslot e' (Phase.slot_of_busySlot hs)
    rw [hat]
    exact hbusy (by simp [hs])
  case selfCopied => intro e' hs; rw [hself] at hs; exact hcopied e' hs
  case valid =>
    intro e' hv
    by_cases he : e' = e
    · subst he; rw [hat] at hv; exact hvalid hv
    · rw [hsame e' he] at hv; refine .inl ⟨hv, ?_, ?_⟩ <;> rintro rfl <;> simp_all
  case renamed =>
    intro e'
    by_cases he : e' = e
    · subst he; rw [hat]; exact hname
    · rw [hsame e' he]; exact .inl ⟨rfl, rfl⟩
  case recycle => rintro e' rfl; simp_all
  case free => rintro e' rfl; simp_all
  case read => rintro e' rfl; simp_all
  case locked => rintro e' rfl; simp_all

theorem Change.iget (h : c.iget p dev inum = .ok ev c') : Change c p ev (c'.setPhase p .idle) := by
  obtain ⟨e, m, rfl, rfl, -, -⟩ | ⟨e, x, rfl, -, hfree, rfl, rfl⟩ := iget_cases h
  · refine .of (e := m) rfl rfl (fun q _ e hq => List.mem_cons_of_mem _ hq) ?_ ?_ ?_ ?_ ?_ ?_ ?_ <;>
      simp +contextual [Phase.slot, Phase.busySlot]
  · refine .of (e := e) rfl rfl (fun q _ e hq => List.mem_cons_of_mem _ hq) ?_ ?_ ?_ ?_ ?_ ?_ ?_ <;>
      simp [Phase.slot, Phase.busySlot, hfree]

theorem Change.entry (hentry : c'.entry = update c.entry e x) (hphase : c'.phase = update c.phase p ph)
    (hheld : c'.held = c.held) (hslot : ∀ e', ph.slot = some e' → e' = e ∧ (some p, e) ∈ c.held)
    (hbusy : ph.busySlot ≠ none → x.busy = some p) (hcopied : ∀ e', ph ≠ .copied e')
    (hother : ∀ q, q ≠ p → (c.entry e).busy = some q → x.busy = some q)
    (hvalid : x.valid = true → (c.entry e).valid = true) (hname : x.dev = (c.entry e).dev ∧ x.inum = (c.entry e).inum) :
    Change c p .tau c' := by
  refine .of hentry hphase (fun _ _ _ h => hheld ▸ h) (hheld ▸ hslot) hbusy (fun e' h => absurd h (hcopied e'))
    (fun q hq hb => .inl (hother q hq hb)) (fun hv => .inl ⟨hvalid hv, by simp, by simp⟩)
    (.inl hname) (.inl rfl)

theorem Change.phase_only {disk} (hslot : ph.slot = none) (hc : ∀ e, ph ≠ .copied e) :
    Change c p .tau ({ c with disk := disk }.setPhase p ph) := by
  have hb : ph.busySlot = none := by
    by_contra hne
    obtain ⟨e, he⟩ := ne_none_iff_exists'.mp hne
    simp [Phase.slot_of_busySlot he] at hslot
  refine .of (e := 0) (x := c.entry 0) (by simp [setPhase]) rfl (fun _ _ _ h => h) (by simp [hslot]) (by simp [hb])
    (fun e' h => absurd h (hc e')) (fun _ _ h => .inl h) (fun h => .inl ⟨h, by simp, by simp⟩)
    (.inl ⟨rfl, rfl⟩) (.inl rfl)

attribute [local simp] Phase.slot Phase.busySlot

theorem go_change (hc : Calls c) (h : c.go p = .ok ev c') : Change c p ev c' := by
  have hheld := hc.held p
  have hbusy := hc.busy p
  unfold Cache.go at h
  split at h
  next => cases h
  next dev type inum hph =>
    split at h
    · split at h
      · cases h; exact .phase_only rfl (by simp)
      · cases h; exact .phase_only rfl (by simp)
    · cases h; exact .phase_only rfl (by simp)
  next dev inum hph => obtain ⟨ev', c1, h1, h2⟩ := Res.bind_eq_ok.mp h; cases h2; exact .iget h1
  next e hph =>
    split at h
    · cases h
    rename_i hfree
    cases h
    have hmem := hheld e (by rw [hph]; rfl)
    refine .entry (e := e) rfl rfl rfl (by simp [hmem]) (by simp) (by simp) (fun q _ hb => ?_) id ⟨rfl, rfl⟩
    simp [hb] at hfree
  next e hph =>
    have hmem := hheld e (by rw [hph]; rfl)
    have hown := hbusy e (by rw [hph]; rfl)
    split at h
    · rename_i hv
      cases h
      refine .of (e := e) (x := c.entry e) (by simp [setPhase]) rfl (fun _ _ _ h => h) (by simp)
        (by simp) (by simp) (fun _ _ h => .inl h) (fun h => .inl ⟨h, by simp, by simp⟩)
        (.inl ⟨rfl, rfl⟩) ?_
      simp [hv]
    rename_i hv
    cases h
    refine .of (e := e) rfl rfl (fun _ _ _ h => h) ?_ (fun _ => hown) (by simp) (fun _ _ h => .inl h)
      (fun h => absurd h hv) (.inl ⟨rfl, rfl⟩) ?_
    · intro e' he; cases he; exact ⟨rfl, hmem⟩
    · simp
  next e hph =>
    cases h
    refine .of (e := e) rfl rfl (fun _ _ _ h => h) (by simp) (by simp) (by simp)
      (fun _ _ h => .inl h) (fun _ => .inr ⟨hph, rfl⟩) (.inl ⟨rfl, rfl⟩) ?_
    simp [hph]
  next e hph =>
    cases h
    have hmem := hheld e (by rw [hph]; rfl)
    have hown := hbusy e (by rw [hph]; rfl)
    exact .entry (e := e) rfl rfl rfl (by simp [hmem]) (fun _ => hown) (by simp) (fun _ _ h => h) id ⟨rfl, rfl⟩
  next e hph =>
    cases h
    have hmem := hheld e (by rw [hph]; rfl)
    have hown := hbusy e (by rw [hph]; rfl)
    exact .entry (e := e) rfl rfl rfl (by simp [hmem]) (fun _ => hown) (by simp) (fun _ _ h => h) id ⟨rfl, rfl⟩
  next e hph =>
    cases h
    have hown := hbusy e (by rw [hph]; rfl)
    refine .of (e := e) (x := { c.entry e with
      busy := none, valid := false, mountpoint := none, ref := (c.entry e).ref - 1 })
        (by simp [setPhase, drop, setEntry])
      rfl (fun q hq e' hm => ?_) (by simp) (by simp) (by simp) (fun q hq hb => ?_)
      (by simp) (.inl ⟨rfl, rfl⟩) (by simp [hph])
    · exact (List.mem_erase_of_ne (by simp [hq])).mpr hm
    · rw [hown] at hb; exact absurd (some.inj hb).symm hq

theorem setPhase_self (h : c.phase p = ph) : c.setPhase p ph = c := by
  rw [setPhase, ← h, update_eq_self]

theorem idle_ok (h : act.idle c p r = .ok ev c') : c.phase p = .idle ∧ r = .ok ev c' := by
  unfold act.idle at h
  split at h
  · exact ⟨‹_›, h⟩
  · cases h

theorem holding_ok (h : act.holding c p e r = .ok ev c') :
    (some p, e) ∈ c.held ∧ c.phase p = .idle ∧ r = .ok ev c' := by
  unfold act.holding at h
  split at h
  · exact ⟨‹_›, idle_ok h⟩
  · cases h

theorem owning_ok (h : act.owning c p e r = .ok ev c') :
    (c.entry e).busy = some p ∧ c.phase p = .idle ∧ r = .ok ev c' := by
  unfold act.owning at h
  split at h
  · exact ⟨‹_›, idle_ok h⟩
  · cases h

theorem Change.idle (hidle : c.phase p = .idle) (hentry : c'.entry = update c.entry e x) (hphase : c'.phase = c.phase)
    (hkept : ∀ q, q ≠ p → ∀ e, (some q, e) ∈ c.held → (some q, e) ∈ c'.held)
    (hother : ∀ q, q ≠ p → (c.entry e).busy = some q → x.busy = some q)
    (hvalid : x.valid = true → (c.entry e).valid = true) (hname : x.dev = (c.entry e).dev ∧ x.inum = (c.entry e).inum) :
    Change c p .tau c' := by
  have hidle' : c'.phase = update c.phase p .idle := by rw [hphase, ← hidle, update_eq_self]
  refine .of hentry hidle' hkept (by simp) (by simp) (by simp) (fun q hq hb => .inl (hother q hq hb))
    (fun hv => .inl ⟨hvalid hv, by simp, by simp⟩) (.inl hname) (.inl rfl)

theorem act_change (hc : Calls c) {a} (h : c.act p a = .ok ev c') : Change c p ev c' := by
  cases a with
  | go => exact go_change hc h
  | iget dev inum =>
    obtain ⟨hidle, h⟩ := idle_ok h
    have hg := Change.iget h
    have hsame : c'.phase p = .idle := by
      obtain ⟨_, _, -, rfl, -⟩ | ⟨_, _, -, -, -, -, rfl⟩ := iget_cases h <;> exact hidle
    rwa [setPhase_self hsame] at hg
  | idup e | iref e =>
    obtain ⟨-, hidle, h⟩ := holding_ok h
    cases h
    exact .idle (e := e) hidle rfl rfl (fun _ _ _ hm => List.mem_cons_of_mem _ hm) (fun _ _ hb => hb) id ⟨rfl, rfl⟩
  | ialloc dev type => obtain ⟨-, h⟩ := idle_ok h; cases h; exact .phase_only rfl (by simp)
  | ilock e =>
    obtain ⟨hmem, hidle, h⟩ := holding_ok h
    split at h
    · cases h
      exact .idle (e := e) (x := c.entry e) hidle (by simp) rfl (fun _ _ _ hm => hm) (fun _ _ hb => hb) id ⟨rfl, rfl⟩
    cases h
    exact .entry (e := e) (x := c.entry e) (by simp [setPhase]) rfl rfl (by simp [hmem])
      (by simp) (by simp) (fun _ _ hb => hb) id ⟨rfl, rfl⟩
  | iunlock e =>
    obtain ⟨hown, hidle, h⟩ := owning_ok h
    split at h
    · cases h
      exact .idle (e := e) (x := c.entry e) hidle (by simp) rfl (fun _ _ _ hm => hm) (fun _ _ hb => hb) id ⟨rfl, rfl⟩
    cases h
    refine .idle (e := e) hidle rfl rfl (fun _ _ _ hm => hm) (fun q hq hb => ?_) id ⟨rfl, rfl⟩
    rw [hown] at hb
    exact absurd (some.inj hb).symm hq
  | iput1 e =>
    obtain ⟨hmem, hidle, h⟩ := holding_ok h
    split at h
    · split at h
      · cases h
      rename_i hfree
      cases h
      refine .entry (e := e) rfl rfl rfl (by simp [hmem]) (by simp) (by simp) (fun q _ hb => ?_) id ⟨rfl, rfl⟩
      simp [hb] at hfree
    · cases h
      exact .idle (e := e) hidle rfl rfl (fun q hq e' hm => (List.mem_erase_of_ne (by simp [hq])).mpr hm)
        (fun _ _ hb => hb) id ⟨rfl, rfl⟩
  | edit e din =>
    obtain ⟨-, hidle, h⟩ := owning_ok h
    cases h
    exact .idle (e := e) hidle rfl rfl (fun _ _ _ hm => hm) (fun _ _ hb => hb) id ⟨rfl, rfl⟩
  | iupdate e =>
    obtain ⟨-, hidle, h⟩ := owning_ok h
    cases h
    exact .idle (e := e) (x := c.entry e) hidle (by simp [iupdate, setDisk]) rfl (fun _ _ _ hm => hm)
      (fun _ _ hb => hb) id ⟨rfl, rfl⟩
  | mount mroot mpoint =>
    obtain ⟨-, -, h⟩ := owning_ok h
    obtain ⟨-, hidle, h⟩ := owning_ok h
    split at h <;> cases h
    exact .idle (e := mpoint) hidle rfl rfl (fun _ _ _ hm => hm) (fun _ _ hb => hb) id ⟨rfl, rfl⟩

theorem go_refs (h : Refs c) (hc : Calls c) (hs : c.go p = .ok ev c') : Refs c' := by
  unfold Cache.go at hs
  split at hs
  next => cases hs
  next =>
    split at hs
    · split at hs <;> cases hs <;> exact h.quiet rfl rfl
    · cases hs; exact h.quiet rfl rfl
  next =>
    obtain ⟨ev', c1, h1, h2⟩ := Res.bind_eq_ok.mp hs
    cases h2
    exact (h.iget h1).quiet rfl rfl
  next =>
    split at hs <;> cases hs
    exact h.entry rfl rfl rfl rfl rfl (h.mounts _)
  next =>
    split at hs
    · cases hs; exact h.quiet rfl rfl
    · cases hs; exact h.entry rfl rfl rfl rfl rfl (h.mounts _)
  next => cases hs; exact h.entry rfl rfl rfl rfl rfl (h.mounts _)
  next => cases hs; exact h.entry rfl rfl rfl rfl rfl (h.mounts _)
  next => cases hs; exact h.entry rfl rfl rfl rfl rfl (h.mounts _)
  next e hph =>
    cases hs
    have hmem := hc.held p e (by rw [hph]; rfl)
    have hclear : Refs (c.setEntry e { c.entry e with busy := none, valid := false, mountpoint := none }) :=
      h.entry rfl rfl rfl rfl rfl (by simp)
    exact (hclear.drop (p := p) hmem).quiet rfl rfl

theorem act_refs (h : Refs c) (hc : Calls c) {a} (hs : c.act p a = .ok ev c') : Refs c' := by
  cases a with
  | go => exact go_refs h hc hs
  | iget dev inum => exact h.iget (idle_ok hs).2
  | idup e | iref e => obtain ⟨hmem, -, hs⟩ := holding_ok hs; cases hs; exact h.take _ (h.pos hmem)
  | ialloc dev type => obtain ⟨-, hs⟩ := idle_ok hs; cases hs; exact h.quiet rfl rfl
  | ilock e =>
    obtain ⟨-, -, hs⟩ := holding_ok hs
    split at hs <;> cases hs <;> exact h.quiet rfl rfl
  | iunlock e =>
    obtain ⟨-, -, hs⟩ := owning_ok hs
    split at hs <;> cases hs
    · exact h.quiet rfl rfl
    · exact h.entry rfl rfl rfl rfl rfl (h.mounts _)
  | edit e din => obtain ⟨-, -, hs⟩ := owning_ok hs; cases hs; exact h.entry rfl rfl rfl rfl rfl (h.mounts _)
  | iput1 e =>
    obtain ⟨hmem, -, hs⟩ := holding_ok hs
    split at hs
    · split at hs <;> cases hs
      exact h.entry rfl rfl rfl rfl rfl (h.mounts _)
    · cases hs; exact h.drop hmem
  | iupdate e => obtain ⟨-, -, hs⟩ := owning_ok hs; cases hs; exact h.quiet rfl rfl
  | mount mroot mpoint =>
    obtain ⟨-, -, hs⟩ := owning_ok hs
    obtain ⟨-, -, hs⟩ := owning_ok hs
    split at hs
    · rename_i hmount
      cases hs
      exact h.entry rfl rfl rfl rfl rfl fun m hm => some.inj hm ▸ hmount
    · cases hs

theorem Refs.not_recycled (h : Refs c) (hc : Calls c) (hch : Change c p ev c') {q} (hq : (c.phase q).slot = some e) :
    ev ≠ .recycle e := by
  intro hev
  have hpos := h.pos (hc.held q e hq)
  rw [hch.recycle e hev] at hpos
  exact absurd hpos (by decide)

theorem Calls.change (hc : Calls c) (h : Refs c) (hch : Change c p ev c') : Calls c' := by
  refine ⟨fun q e hs => ?_, fun q e hs => ?_⟩
  · by_cases hq : q = p
    · subst hq; exact hch.selfHeld e hs
    · rw [hch.phase q hq] at hs; exact hch.kept q hq e (hc.held q e hs)
  by_cases hq : q = p
  · subst hq; exact hch.selfBusy e hs
  · rw [hch.phase q hq] at hs
    exact (hch.busy e q hq (hc.busy q e hs)).resolve_right (h.not_recycled hc hch (Phase.slot_of_busySlot hs))

/-! ## Runs -/

structure Loaded (c : Cache) (tr : List Ev) : Prop where
  valid : ∀ e, (c.entry e).valid = true → readSince e tr = true
  copied : ∀ p e, c.phase p = .copied e → readSince e tr = true

theorem readSince_cons (h : readSince e tr = true) (hr : ev ≠ .recycle e) (hf : ev ≠ .free e) :
    readSince e (ev :: tr) = true := by
  cases ev <;> simp_all [readSince]

theorem readSince_locked (e' : Slot) : readSince e (.locked e' :: tr) = readSince e tr := rfl

theorem Loaded.change (hl : Loaded c tr) (hc : Calls c) (h : Refs c) (hch : Change c p ev c') :
    Loaded c' (ev :: tr) := by
  refine ⟨fun e hv => ?_, fun q e hs => ?_⟩
  · obtain ⟨hv', hr, hf⟩ | ⟨hph, rfl⟩ := hch.valid e hv
    · exact readSince_cons (hl.valid e hv') hr hf
    · rw [readSince_locked]; exact hl.copied p e hph
  by_cases hq : q = p
  · subst hq; rw [hch.selfCopied e hs]; simp [readSince]
  rw [hch.phase q hq] at hs
  refine readSince_cons (hl.copied q e hs) (h.not_recycled hc hch (by rw [hs]; rfl)) fun hev => ?_
  -- who frees the inode has set `I_BUSY`
  have hown := hc.busy p e (by rw [hch.free e hev]; rfl)
  rw [hc.busy q e (by rw [hs]; rfl)] at hown
  exact hq (some.inj hown)

theorem Run.inv {c0} (h0 : c0.Boot) (h : Run c0 tr c) : Refs c ∧ Calls c ∧ Loaded c tr := by
  induction h with
  | nil =>
    refine ⟨⟨fun e => ?_, fun e e' h1 => ?_, fun e m hm => ?_⟩, ⟨fun p e hs => ?_, fun p e hs => ?_⟩,
      ⟨fun e hv => ?_, fun p e hs => ?_⟩⟩
    · simp [h0.ref, h0.held]
    · simp [h0.ref] at h1
    · simp [h0.mountpoint] at hm
    · simp [h0.phase] at hs
    · simp [h0.phase] at hs
    · simp [h0.valid] at hv
    · simp [h0.phase] at hs
  | step p a _ hs ih =>
    obtain ⟨hr, hc, hl⟩ := ih
    have hch := act_change hc hs
    exact ⟨act_refs hr hc hs, hc.change hr hch, hl.change hc hr hch⟩

/-- An inode has at most one entry in use, in every interleaving. An entry gets another inode only
without references, is then not valid, and `ilock` returns only when it has been read from the disk
since. -/
theorem one_entry_per_inode {c0 : Cache} (h0 : c0.Boot) (h : Run c0 tr c) :
    (∀ e e', 0 < (c.entry e).ref → 0 < (c.entry e').ref → (c.entry e).dev = (c.entry e').dev →
      (c.entry e).inum = (c.entry e').inum → e = e') ∧
    ∀ p a ev c', c.act p a = .ok ev c' → ∀ e,
      ((c'.entry e).dev = (c.entry e).dev ∧ (c'.entry e).inum = (c.entry e).inum ∨ ev = .recycle e) ∧
      (ev = .recycle e → (c.entry e).ref = 0 ∧ (c'.entry e).valid = false) ∧
      (ev = .free e → (c'.entry e).valid = false) ∧
      (ev = .read e →
        (c'.entry e).din = { c.disk (c.entry e).dev (c.entry e).inum with attrib := (c.entry e).din.attrib }) ∧
      (ev = .locked e → readSince e tr = true) := by
  obtain ⟨hr, hc, hl⟩ := h.inv h0
  refine ⟨hr.once, fun p a ev c' hs e => ?_⟩
  have hch := act_change hc hs
  have hclear : ev = .recycle e ∨ ev = .free e → (c'.entry e).valid = false := by
    intro hev
    by_contra hv
    have hor := hch.valid e (by simpa using hv)
    obtain rfl | rfl := hev <;> simp at hor
  refine ⟨hch.renamed e, fun hev => ⟨hch.recycle e hev, hclear (.inl hev)⟩, fun hev => hclear (.inr hev),
    hch.read e, fun hev => ?_⟩
  exact (hch.locked e hev).elim (hl.valid e) (hl.copied p e)

def play (check : List Ev → Cache → Bool) : List Ev → Cache → List (Nat × Act) → Bool
  | tr, c, [] => check tr c
  | tr, c, (p, a) :: rest =>
    match c.act p a with
    | .ok ev c' => play check (ev :: tr) c' rest
    | _ => false

theorem play_run {c0} (check : List Ev → Cache → Bool) (acts : List (Nat × Act)) (h : Run c0 tr c)
    (hp : play check tr c acts = true) : ∃ tr' c', Run c0 tr' c' ∧ check tr' c' = true := by
  induction acts generalizing tr c with
  | nil => exact ⟨tr, c, h, hp⟩
  | cons x rest ih =>
    obtain ⟨p, a⟩ := x
    unfold play at hp
    split at hp
    · rename_i ev c' hs
      exact ih (h.step p a hs) hp
    · cases hp

def unlinkedFile : Cache where
  entry _ := ⟨0, 0, 0, none, false, none, Dinode.zero⟩
  disk _ _ := { Dinode.zero with type := tFile }
  ninodes _ := 2
  phase _ := .idle
  held := []

/-- While process 0 frees the inode, process 1 allocates it again and finds the entry still in
use. -/
theorem one_entry_while_freeing : ∃ tr c, Run unlinkedFile tr c ∧ tr.take 3 = [.read 0, .tau, .free 0] ∧
    (c.entry 0).ref = 1 ∧ (c.entry 0).inum = 1 ∧
    ∀ e, 0 < (c.entry e).ref → (c.entry e).dev = 1 → (c.entry e).inum = 1 → e = 0 := by
  have h0 : unlinkedFile.Boot := ⟨fun _ => rfl, fun _ => rfl, fun _ => rfl, fun _ => rfl, rfl⟩
  obtain ⟨tr, c, h, hc⟩ := play_run (fun tr c => tr.take 3 == [.read 0, .tau, .free 0] && (c.entry 0).ref == 1 &&
    (c.entry 0).dev == 1 && (c.entry 0).inum == 1)
    [(0, .iget 1 1), (0, .ilock 0), (0, .go), (0, .go), (0, .go), (0, .iunlock 0), (0, .iput1 0),
      (0, .go), (0, .go), (1, .ialloc 1 tFile), (1, .go), (1, .go), (1, .ilock 0), (0, .go), (1, .go), (1, .go)]
    (.nil : Run unlinkedFile [] unlinkedFile) (by decide +kernel)
  simp only [Bool.and_eq_true, beq_iff_eq] at hc
  obtain ⟨⟨⟨htr, href⟩, hdev⟩, hinum⟩ := hc
  refine ⟨tr, c, h, htr, href, hinum, fun e hpos hd hi => ?_⟩
  exact (one_entry_per_inode h0 h).1 e 0 hpos (by rw [href]; decide) (hd.trans hdev.symm) (hi.trans hinum.symm)

/-- In every interleaving the count of an entry is the number of references to it. Whoever is inside a call and every
mount point has one, and no two processes are at work on an entry that both have locked. -/
theorem references_exact {c0 : Cache} (h0 : c0.Boot) (h : Run c0 tr c) :
    (∀ e, (c.entry e).ref = c.held.countP fun h => h.2 = e) ∧
    (∀ e m, (c.entry e).mountpoint = some m → 0 < (c.entry m).ref) ∧
    (∀ p e, (c.phase p).slot = some e → 0 < (c.entry e).ref) ∧
    ∀ p q e, (c.phase p).busySlot = some e → (c.phase q).busySlot = some e → p = q := by
  obtain ⟨hr, hc, -⟩ := h.inv h0
  refine ⟨hr.count, fun e m hm => hr.pos (hr.mounts e m hm), fun p e hs => hr.pos (hc.held p e hs),
    fun p q e hp hq => ?_⟩
  exact some.inj ((hc.busy p e hp).symm.trans (hc.busy q e hq))

theorem references_exact_locking : ∃ tr c, Run unlinkedFile tr c ∧ (c.phase 1).slot = some 0 ∧ 0 < (c.entry 0).ref ∧
    c.held.countP (·.2 = 0) = 2 := by
  have h0 : unlinkedFile.Boot := ⟨fun _ => rfl, fun _ => rfl, fun _ => rfl, fun _ => rfl, rfl⟩
  obtain ⟨tr, c, h, hc⟩ := play_run (fun _ c => (c.phase 1).slot == some 0 && (c.entry 0).ref == 2)
    [(0, .iget 1 1), (1, .iget 1 1), (0, .ilock 0), (0, .go), (1, .ilock 0)]
    (.nil : Run unlinkedFile [] unlinkedFile) (by decide +kernel)
  simp only [Bool.and_eq_true, beq_iff_eq] at hc
  obtain ⟨hcount, -, hpos, -⟩ := references_exact h0 h
  exact ⟨tr, c, h, hc.1, hpos 1 0 hc.1, mod_cast (hcount 0).symm.trans hc.2⟩

end Xv6Vsd.Icache
