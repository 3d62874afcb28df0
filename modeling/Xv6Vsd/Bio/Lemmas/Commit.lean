import Xv6Vsd.Bio.Lemmas.Pinned

/-!
# The process that commits

Each of its steps follows the plan.
-/

namespace Xv6Vsd.Bio

open Function State

variable {s s' : State} {b c : Buf} {p i out back : Nat} {dev : UInt32} {base : List Key}

def keys (s : State) (p : Nat) : List Key := (s.proc p).holds.map fun b => (s.buf b).key

theorem SameCore.keys_eq (h : SameCore s s') : keys s' p = keys s p := by
  simp only [keys, h.holds, h.key]

theorem Inv.keys_gets {key} (h : Inv s) (hg : Gets s s' p b key) : keys s' p = key :: keys s p := by
  have hold : ∀ c ∈ (s.proc p).holds, (s'.buf c).key = (s.buf c).key := by
    intro c hc
    rw [hg.key, if_neg]
    rintro rfl
    exact h.notMem_holds hg.free p hc
  rw [keys, hg.holds, if_pos rfl, List.map_cons, hg.key, if_pos rfl, List.map_congr_left hold]
  rfl

theorem keys_released (rest : List Instr) : keys (s.released p i b rest) p = (keys s p).eraseIdx i := by
  have hkey : ∀ c, ((s.released p i b rest).buf c).key = (s.buf c).key := by
    intro c
    rw [released_buf, update_apply]
    split
    · next he => rw [he]
    · rfl
  have hholds : ((s.released p i b rest).proc p).holds = (s.proc p).holds.eraseIdx i := by
    rw [released_proc, if_pos rfl]
    dsimp only
    split <;> rfl
  simp only [keys, hkey, hholds, List.eraseIdx_map]

structure Committing (s : State) (p : Nat) (dev : UInt32) (base : List Key) (out back : Nat) : Prop where
  plan : Plan dev (s.log dev).start base (s.log dev).lh out back (keys s p) (todo (s.proc p).code)
  real : dev ≠ nodev
  committing : (s.log dev).committing = true

inductive Move (s : State) (p : Nat) (dev : UInt32) (base : List Key) (out back : Nat) : (out' back' : Nat) → Prop
  | stay (log : ∀ rest, (s.proc p).code ≠ .clear dev :: rest) : Move s p dev base out back out back
  | out {rest} (code : (s.proc p).code = .bwrite 1 .log :: rest) (lt : out < (s.log dev).lh.length)
    (holds : keys s p = home dev (s.log dev).lh out :: slot dev (s.log dev).start out :: base) :
    Move s p dev base out back (out + 1) back
  | back {rest} (code : (s.proc p).code = .bwrite 0 .install :: rest)
    (all : out = (s.log dev).lh.length) (lt : back < (s.log dev).lh.length)
    (holds : keys s p = home dev (s.log dev).lh back :: slot dev (s.log dev).start back :: base) :
    Move s p dev base out back out (back + 1)
  | clear {rest} (code : (s.proc p).code = .clear dev :: rest) (all : back = (s.log dev).lh.length) :
    Move s p dev base out back 0 0

section Step

variable {out' back' : Nat} {ks : List Key} {rest : List Instr}

theorem Committing.todo_eq (h : Committing s p dev base out back)
    (hplan : Plan dev (s.log dev).start base (s.log dev).lh out' back' ks rest)
    (hlog : s'.log dev = s.log dev) (hkeys : keys s' p = ks) (hcode : todo (s'.proc p).code = rest) :
    Committing s' p dev base out' back' :=
  ⟨by rw [hlog, hkeys, hcode]; exact hplan, h.real, by rw [hlog]; exact h.committing⟩

theorem Committing.goes_on (h : Committing s p dev base out back)
    (hplan : Plan dev (s.log dev).start base (s.log dev).lh out' back' ks rest)
    (hlog : s'.log dev = s.log dev) (hkeys : keys s' p = ks) (hcode : (s'.proc p).code = rest) :
    Committing s' p dev base out' back' :=
  h.todo_eq hplan hlog hkeys (by rw [hcode, todo_of_waiting hplan.waiting_eq])

end Step

attribute [local simp] setProc goOn

theorem Committing.step (hinv : Inv s) (hg : Goes s p s') (h : Committing s p dev base out back) :
    (∃ out' back', Committing s' p dev base out' back' ∧ Move s p dev base out back out' back') ∨
      (s.proc p).code = [.endCommit dev] := by
  have hsame := hg.sameCore
  have hplan := h.plan
  cases hg with
  | hit code named free =>
    rw [code] at hplan
    cases hplan with
    | bread same few rest =>
      refine .inl ⟨out, back, h.todo_eq rest rfl (named ▸ hinv.keys_gets (gets_hit free _)) ?_, .stay ?_⟩
      · rw [got_proc, update_self]
        dsimp only
        split
        · exact todo_of_waiting rest.waiting_eq
        · rfl
      · rw [code]; nofun
  | recycle code new free clean =>
    rw [code] at hplan
    cases hplan with
    | bread same few rest =>
      refine .inl ⟨out, back, h.todo_eq rest rfl (hinv.keys_gets (gets_recycle new free clean _)) ?_, .stay ?_⟩
      · rw [recycled_proc, update_self]; rfl
      · rw [code]; nofun
  | sleep code =>
    refine .inl ⟨out, back, h.todo_eq hplan rfl ?_ ?_, .stay (by rw [code]; nofun)⟩
    · exact SameCore.keys_eq (.setProc rfl)
    · simp
  | iderw code =>
    have hkeys := (hsame code rfl).keys_eq (p := p)
    rw [code] at hplan
    refine .inl ⟨out, back, h.todo_eq hplan rfl hkeys ?_, .stay (by rw [code]; nofun)⟩
    simp [todo]
  | await code =>
    have hkeys := (hsame code rfl).keys_eq (p := p)
    rw [code] at hplan
    refine .inl ⟨out, back, h.goes_on hplan rfl hkeys ?_, .stay (by rw [code]; nofun)⟩
    simp [todo]
  | @bwrite i w rest b code =>
    have hkeys := (hsame code rfl).keys_eq (p := p)
    have hlog : (s.written p b w rest).log dev = s.log dev := by rw [written_log]
    rw [code] at hplan
    cases hplan with
    | writeOut lt none_back holds rest =>
      refine .inl ⟨out + 1, back, h.todo_eq rest hlog hkeys ?_, .out code lt holds⟩
      simp [written_proc, todo]
    | writeBack all lt holds rest =>
      refine .inl ⟨out, back + 1, h.todo_eq rest hlog hkeys ?_, .back code all lt holds⟩
      simp [written_proc, todo]
    | writeHeader holds rest =>
      refine .inl ⟨out, back, h.todo_eq rest hlog hkeys ?_, .stay (by rw [code]; nofun)⟩
      simp [written_proc, todo]
  | brelse code at_i =>
    rw [code] at hplan
    cases hplan with
    | brelse rest =>
      refine .inl ⟨out, back, h.goes_on rest rfl (keys_released _) ?_, .stay (by rw [code]; nofun)⟩
      rw [released_proc, if_pos rfl]
      dsimp only
      split <;> rfl
  | enter code =>
    have hkeys := (hsame code rfl).keys_eq (p := p)
    rw [code] at hplan
    refine .inl ⟨out, back, h.goes_on hplan.enter rfl hkeys ?_, .stay (by rw [code]; nofun)⟩
    simp
  | copy code =>
    have hkeys := (hsame code rfl).keys_eq (p := p)
    rw [code] at hplan
    cases hplan with
    | copyOut lt none_back holds rest =>
      refine .inl ⟨out, back, h.goes_on (.writeOut lt none_back holds rest) rfl hkeys ?_, .stay (by rw [code]; nofun)⟩
      simp
    | copyBack all lt holds rest =>
      refine .inl ⟨out, back, h.goes_on (.writeBack all lt holds rest) rfl hkeys ?_, .stay (by rw [code]; nofun)⟩
      simp
  | header code =>
    have hkeys := (hsame code rfl).keys_eq (p := p)
    rw [code] at hplan
    cases hplan with
    | header holds rest =>
      refine .inl ⟨out, back, h.goes_on (.writeHeader holds rest) rfl hkeys ?_, .stay (by rw [code]; nofun)⟩
      simp
  | @clear dev' rest code =>
    have hkeys := (hsame code rfl).keys_eq (p := p)
    rw [code] at hplan
    generalize hks : keys s p = ks at hplan hkeys
    cases hplan with
    | clear all rest =>
      refine .inl ⟨0, 0, ⟨?_, h.real, ?_⟩, .clear code all⟩
      · rw [hkeys]; simpa [modLog, todo_of_waiting rest.waiting_eq] using rest
      · simpa [modLog] using h.committing
  | endCommit code =>
    rw [code] at hplan
    cases hplan with
    | endCommit empty => exact .inr code
  | store code | unlogged code | logWrite code | logAppend code | noBegin code | beginOp code | noEnd code
  | endLast code | endOp code => rw [code] at hplan; cases hplan

end Xv6Vsd.Bio
