import Mathlib.Algebra.Group.Pi.Lemmas
import Mathlib.Tactic.Abel
import Xv6Vsd.Io.Ftable
import Xv6Vsd.Lib.Ledger

/-!
# Reference counts of open files

In every state between two calls the count of an entry of `ftable` is the number of descriptors that point
to it. Within a call the two differ: `dup` fills a descriptor before it counts it, `close` empties it before.
The invariant carries the difference, and each function changes it by what it owes.
-/

namespace Xv6Vsd.Ftable

open Function State List Option Nat

def File.handle (x : File) : Option Handle := match x.type with
  | .inode => some (.ip x.ip)
  | .pipe => some (.pipe x.pipe x.writable)
  | .none => none

def State.Taken (s : State) : Handle → Prop
  | .ip n => n < s.ips
  | .pipe n _ => n < s.pipes

def PipesOk (s : State) : Prop :=
  ∀ n < s.pipes, s.pipe n = ⟨decide (.pipe n false ∉ s.released), decide (.pipe n true ∉ s.released),
    decide (.pipe n false ∈ s.released ∧ .pipe n true ∈ s.released)⟩

structure Inv (s : State) (d : Ptr → Int) : Prop where
  ref : ∀ f, (s.file f).ref = holders s.ofile f + d f
  nonneg : ∀ f, 0 ≤ (s.file f).ref
  free : ∀ f, (s.file f).ref = 0 → (s.file f).handle = none
  ledger : Ledger (fun f => (s.file f).handle) s.Taken s.released
  pipes : PipesOk s
  alive : ∀ p fd, s.ofile (p, fd) ≠ none → s.status p = .live ∨ s.status p = .embryo

section

variable {s s' : State} {d : Ptr → Int} {f g : Ptr} {p np : Ref} {fd : Fd} {x : File}

theorem Inv.ref_pos (h : Inv s d) (hd : 0 ≤ d f) (hs : s.ofile (p, fd) = some f) : 1 ≤ (s.file f).ref := by
  have hpos : 0 < holders s.ofile f := holders_pos.mpr ⟨_, hs⟩
  have := h.ref f
  omega

theorem Inv.ref_pos_of_owed (h : Inv s d) (hd : 1 ≤ d f) : 1 ≤ (s.file f).ref := by
  have := h.ref f; omega

theorem Inv.change (h : Inv s d) {k} (s' : State) (hfile : s'.file = update s.file f x) (hofile : s'.ofile = s.ofile)
    (hstatus : s'.status = s.status) (hk : x.ref = (s.file f).ref + k) (hnonneg : 0 ≤ x.ref)
    (hfree : x.ref = 0 → x.handle = none)
    (hledger : Ledger (update (fun g => (s.file g).handle) f x.handle) s'.Taken s'.released) (hpipes : PipesOk s') :
      Inv s' (d + Pi.single f k) := by
  have hget : ∀ g, s'.file g = if g = f then x else s.file g := fun g => by rw [hfile, update_apply]
  have hhandle : (fun g => (s'.file g).handle) = update (fun g => (s.file g).handle) f x.handle := by
    funext g
    simp only [hget, update_apply]
    split <;> rfl
  refine ⟨fun g => ?_, fun g => ?_, fun g => ?_, ?_, hpipes, ?_⟩
  · rw [hget, hofile, Pi.add_apply, Pi.single_apply]
    have := h.ref g
    split
    · next hgf => subst hgf; omega
    · omega
  · rw [hget]
    split
    · exact hnonneg
    · exact h.nonneg g
  · rw [hget]
    split
    · exact hfree
    · exact h.free g
  · rw [hhandle]; exact hledger
  · rw [hofile, hstatus]; exact h.alive

theorem Inv.recount (h : Inv s d) {k} (hx : x.handle = (s.file f).handle) (hk : x.ref = (s.file f).ref + k)
    (hpos : 0 < x.ref) : Inv (s.setFile f x) (d + Pi.single f k) := by
  refine h.change (s.setFile f x) rfl rfl rfl hk (by omega) (by omega) ?_ h.pipes
  rw [hx, update_eq_self]
  exact h.ledger

structure Allocated (s : State) (f : Ptr) (s' : State) : Prop where
  free : (s.file f).ref = 0
  ref : (s'.file f).ref = 1
  handle : (s'.file f).handle = (s.file f).handle
  others : ∀ g, g ≠ f → s'.file g = s.file g
  status : s'.status = s.status

theorem filealloc_ok (he : s.filealloc = some (f, s')) :
    (s.file f).ref = 0 ∧ s' = s.setFile f { s.file f with ref := 1 } := by
  obtain ⟨g, hg, he⟩ := map_eq_some_iff.mp he
  cases he
  have href := find?_some hg
  exact ⟨of_decide_eq_true href, rfl⟩

theorem allocated (he : s.filealloc = some (f, s')) : Allocated s f s' := by
  obtain ⟨href, rfl⟩ := filealloc_ok he
  refine ⟨href, ?_, ?_, fun g hg => update_of_ne hg .., rfl⟩
  · simp [setFile]
  · simp [setFile, File.handle]

theorem Inv.filealloc (h : Inv s d) (he : s.filealloc = some (f, s')) : Inv s' (d + Pi.single f 1) := by
  obtain ⟨href, rfl⟩ := filealloc_ok he
  apply h.recount
  · rfl
  · simp [href]
  · simp

theorem Inv.filedup (h : Inv s d) (hf : 1 ≤ (s.file f).ref) :
    ∃ s', s.filedup f = .ok s' ∧ Inv s' (d + Pi.single f 1) ∧ s'.ofile = s.ofile ∧ s'.status = s.status := by
  refine ⟨_, if_neg (by omega), ?_, rfl, rfl⟩
  apply h.recount
  · rfl
  · rfl
  · show 0 < (s.file f).ref + 1; omega

theorem add_single_neg (d : Ptr → Int) (f : Ptr) : d + Pi.single f (-1) = d - Pi.single f 1 := by
  rw [Pi.single_neg, sub_eq_add_neg]

theorem mem_snoc {l : List Handle} {a b : Handle} : a ∈ l ++ [b] ↔ a ∈ l ∨ a = b := by simp

theorem PipesOk.iput (h : PipesOk s) (n : Nat) : PipesOk (s.iput n) := by
  intro m hm
  simp only [State.iput, mem_snoc, reduceCtorEq, or_false]
  exact h m hm

theorem PipesOk.pipeclose (h : PipesOk s) (n : Nat) (writable : Bool) : PipesOk (s.pipeclose n writable) := by
  intro m hm
  have hold := h m hm
  simp only [State.pipeclose, mem_snoc, update_apply, Handle.pipe.injEq]
  split
  · next hmn =>
    subst hmn
    rw [hold]
    cases writable with
    | false => by_cases hr : Handle.pipe m true ∈ s.released <;> simp [hr]
    | true => by_cases hr : Handle.pipe m false ∈ s.released <;> simp [hr]
  · next hmn => simp only [hmn, false_and, or_false]; exact hold

theorem Inv.fileclose (h : Inv s d) (hf : 1 ≤ (s.file f).ref) :
    ∃ s', s.fileclose f = .ok s' ∧ Inv s' (d - Pi.single f 1) ∧ s'.ofile = s.ofile ∧ s'.status = s.status := by
  rw [← add_single_neg]
  by_cases hlast : 0 < (s.file f).ref - 1
  · refine ⟨s.setFile f { s.file f with ref := (s.file f).ref - 1 }, ?_, ?_, rfl, rfl⟩
    · rw [State.fileclose, if_neg (by omega), if_pos hlast]
    apply h.recount
    · rfl
    · rfl
    · exact hlast
  have href : 0 = (s.file f).ref + -1 := by omega
  refine ⟨_, (if_neg (by omega)).trans (if_neg hlast), ?_⟩
  cases htype : (s.file f).type with
  | none =>
    have hnone : (s.file f).handle = none := by simp [File.handle, htype]
    refine ⟨h.change _ rfl rfl rfl href (Int.le_refl 0) (fun _ => rfl) ?_ h.pipes, rfl, rfl⟩
    show Ledger (update _ f none) _ _
    rw [← hnone, update_eq_self]
    exact h.ledger
  | inode =>
    have hsome : (s.file f).handle = some (.ip (s.file f).ip) := by simp [File.handle, htype]
    exact ⟨h.change _ rfl rfl rfl href (Int.le_refl 0) (fun _ => rfl) (h.ledger.release hsome)
      (PipesOk.iput h.pipes _), rfl, rfl⟩
  | pipe =>
    have hsome : (s.file f).handle = some (.pipe (s.file f).pipe (s.file f).writable) := by simp [File.handle, htype]
    exact ⟨h.change _ rfl rfl rfl href (Int.le_refl 0) (fun _ => rfl) (h.ledger.release hsome)
      (PipesOk.pipeclose h.pipes _ _), rfl, rfl⟩

/-! ## Descriptors -/

theorem Inv.setSlot {o} (h : Inv s d) (hp : o ≠ none → s.status p = .live ∨ s.status p = .embryo) :
    Inv (s.setSlot p fd o) fun g =>
      d g + (if s.ofile (p, fd) = some g then 1 else 0) - if o = some g then 1 else 0 := by
  refine ⟨fun g => ?_, h.nonneg, h.free, h.ledger, h.pipes, fun q fd' hq => ?_⟩
  · have hcount := holders_update s.ofile (p, fd) o g
    have := h.ref g
    show (s.file g).ref = holders (update s.ofile (p, fd) o) g +
      (d g + (if s.ofile (p, fd) = some g then 1 else 0) - if o = some g then 1 else 0)
    split_ifs at hcount ⊢ <;> omega
  · simp only [State.setSlot, update_apply] at hq
    split at hq
    · next heq => cases heq; exact hp hq
    · exact h.alive q fd' hq

theorem Inv.fill (h : Inv s d) (hfree : s.ofile (p, fd) = none) (hp : s.status p = .live ∨ s.status p = .embryo) :
    Inv (s.setSlot p fd (some f)) (d - Pi.single f 1) := by
  have hset : Inv (s.setSlot p fd (some f)) _ := h.setSlot fun _ => hp
  convert hset using 1
  funext g
  simp [hfree, Pi.single_apply, eq_comm (a := f)]

theorem Inv.empty (h : Inv s d) (hsome : s.ofile (p, fd) = some f) : Inv (s.setSlot p fd none) (d + Pi.single f 1) := by
  have hset : Inv (s.setSlot p fd none) _ := h.setSlot fun hne => absurd rfl hne
  convert hset using 1
  funext g
  simp [hsome, Pi.single_apply, eq_comm (a := f)]

theorem setSlot_ofile (s : State) (p : Ref) (fd : Fd) (o : Option Ptr) (k : Ref × Fd) :
    (s.setSlot p fd o).ofile k = if k = (p, fd) then o else s.ofile k := update_apply ..

theorem Inv.no_files (h : Inv s d) (hp : s.status p = .unused ∨ s.status p = .zombie) (fd : Fd) :
    s.ofile (p, fd) = none := by
  by_contra hsome
  obtain hp | hp := hp
  · simpa [hp] using h.alive p fd hsome
  · simpa [hp] using h.alive p fd hsome

theorem fdalloc_ok (he : s.fdalloc p f = some (fd, s')) : s.ofile (p, fd) = none ∧ s' = s.setSlot p fd (some f) := by
  obtain ⟨g, hg, he⟩ := map_eq_some_iff.mp he
  cases he
  have hfree := find?_some hg
  exact ⟨of_decide_eq_true hfree, rfl⟩

theorem argfd_ok {n} (he : s.argfd p n = some (fd, f)) : s.ofile (p, fd) = some f := by
  rw [argfd] at he
  split at he
  · obtain ⟨g, hg, he⟩ := map_eq_some_iff.mp he; cases he; exact hg
  · cases he

theorem Inv.setStatus {st} (h : Inv s d) (hst : (∀ fd, s.ofile (p, fd) = none) ∨ st = .live ∨ st = .embryo) :
    Inv (s.setStatus p st) d := by
  refine ⟨h.ref, h.nonneg, h.free, h.ledger, h.pipes, fun q fd hq => ?_⟩
  simp only [State.setStatus, update_apply]
  split
  · next hqp => subst hqp; exact hst.resolve_left fun hall => hq (hall fd)
  · exact h.alive q fd hq

/-! ## New files -/

theorem taken_ip (hips : s'.ips = s.ips + 1) (hpipes : s'.pipes = s.pipes) :
    s'.Taken = fun x => s.Taken x ∨ x = .ip s.ips := by
  funext x
  cases x with
  | ip n => simp only [State.Taken, hips, Handle.ip.injEq, eq_iff_iff]; omega
  | pipe n w => simp [State.Taken, hpipes]

theorem Inv.putNew (h : Inv s d) : Inv s.putNew d := by
  refine ⟨h.ref, h.nonneg, h.free, ?_, PipesOk.iput (s := { s with ips := s.ips + 1 }) h.pipes _, h.alive⟩
  have htaken : s.putNew.Taken = _ := taken_ip (s := s) rfl rfl
  rw [htaken]
  exact h.ledger.pass (lt_irrefl s.ips)

theorem Inv.install (h : Inv s d) (hnone : (s.file f).handle = none) (hpos : 0 < (s.file f).ref)
    (hx : x = { s.file f with type := .inode, ip := s.ips, readable := x.readable, writable := x.writable }) :
    Inv ({ s with ips := s.ips + 1 }.setFile f x) d := by
  have href : x.ref = (s.file f).ref := by rw [hx]
  have hhandle : x.handle = some (.ip s.ips) := by rw [hx]; rfl
  have htaken : ({ s with ips := s.ips + 1 }.setFile f x).Taken = _ := taken_ip (s := s) rfl rfl
  rw [← add_zero d, ← Pi.single_zero f]
  refine h.change _ rfl rfl rfl (by omega) (by omega) (by omega) ?_ h.pipes
  rw [htaken, hhandle]
  exact h.ledger.take hnone (lt_irrefl s.ips)

theorem Inv.newPipe (h : Inv s d) (hfg : f ≠ g) (hf : (s.file f).handle = none) (hg : (s.file g).handle = none)
    (hposf : 0 < (s.file f).ref) (hposg : 0 < (s.file g).ref) : Inv (s.newPipe f g) d := by
  have hget : ∀ e, (s.newPipe f g).file e =
    if e = g then { s.file g with type := .pipe, readable := false, writable := true, pipe := s.pipes }
    else if e = f then { s.file f with type := .pipe, readable := true, writable := false, pipe := s.pipes }
    else s.file e := fun e => by
    simp [State.newPipe, State.setFile, update_apply, hfg.symm]
  have hhandle : (fun e => ((s.newPipe f g).file e).handle) = update (update (fun e => (s.file e).handle) f
    (some (.pipe s.pipes false))) g (some (.pipe s.pipes true)) := by
    funext e
    simp only [hget, update_apply]
    split_ifs <;> rfl
  have htaken : (s.newPipe f g).Taken = fun x => (s.Taken x ∨ x = .pipe s.pipes false) ∨ x = .pipe s.pipes true := by
    funext x
    cases x with
    | ip n => simp [State.Taken, State.newPipe, State.setFile]
    | pipe n w =>
      have hpipes : (s.newPipe f g).pipes = s.pipes + 1 := rfl
      simp only [State.Taken, hpipes, Handle.pipe.injEq, eq_iff_iff]
      cases w <;> simp <;> omega
  have hold : ∀ w, ¬ s.Taken (.pipe s.pipes w) := fun w => lt_irrefl s.pipes
  have href : ∀ e, ((s.newPipe f g).file e).ref = (s.file e).ref := by
    intro e
    rw [hget]
    split_ifs with heg hef
    · rw [heg]
    · rw [hef]
    · rfl
  refine ⟨fun e => (href e).trans (h.ref e), fun e => (href e).symm ▸ h.nonneg e, fun e h0 => ?_, ?_, fun n hn => ?_,
    h.alive⟩
  · rw [href] at h0
    rw [hget, if_neg, if_neg]
    · exact h.free e h0
    · rintro rfl; omega
    · rintro rfl; omega
  · rw [hhandle, htaken]
    refine (h.ledger.take hf (hold false)).take ?_ ?_
    · rw [update_of_ne hfg.symm]; exact hg
    · simp [hold]
  · have hnew : ∀ w, .pipe s.pipes w ∉ s.released := fun w hw => hold w (h.ledger.back _ hw)
    show update s.pipe s.pipes ⟨true, true, false⟩ n = _
    by_cases hlast : n = s.pipes
    · subst hlast; simp [hnew, State.newPipe, State.setFile]
    · rw [update_of_ne hlast]; have hn' : n < s.pipes + 1 := hn; exact h.pipes n (by omega)

/-! ## The calls -/

def Ends (e : Except String (Int × State)) : Prop := ∃ v s', e = .ok (v, s') ∧ Inv s' 0

theorem Inv.cast {d'} (h : Inv s d) (hd : d = d') : Inv s d' := hd ▸ h

variable (h : Inv s 0)

include h

theorem Inv.ends (v : Int) : Ends (.ok (v, s)) := ⟨v, s, rfl, h⟩

theorem Inv.sysDup (hp : s.status p = .live) (n : Int) : Ends (s.sysDup p n) := by
  unfold State.sysDup
  split
  · exact h.ends _
  next fd f harg =>
  split
  · exact h.ends _
  next fd' s1 halloc =>
  obtain ⟨hfree, rfl⟩ := fdalloc_ok halloc
  have h1 : Inv (s.setSlot p fd' (some f)) (0 - Pi.single f 1) := h.fill hfree (.inl hp)
  obtain ⟨s2, he, h2, -, -⟩ := h1.filedup (h.ref_pos (Int.le_refl 0) (argfd_ok harg))
  rw [he]
  exact (h2.cast (by abel)).ends _

theorem Inv.sysClose (n : Int) : Ends (s.sysClose p n) := by
  unfold State.sysClose
  split
  · exact h.ends _
  next fd f harg =>
  have h1 := h.empty (argfd_ok harg)
  obtain ⟨s2, he, h2, -, -⟩ := h1.fileclose (h.ref_pos (Int.le_refl 0) (argfd_ok harg))
  rw [he]
  exact (h2.cast (by abel)).ends _

theorem Inv.sysOpen (hp : s.status p = .live) (found denied readable writable : Bool) :
    Ends (s.sysOpen p found denied readable writable) := by
  unfold State.sysOpen
  split
  · exact h.ends _
  split
  · exact h.putNew.ends _
  split
  · exact h.putNew.ends _
  next f s1 halloc =>
  have h1 := h.filealloc halloc
  have hf := allocated halloc
  split
  · obtain ⟨s2, he, h2, -, -⟩ := h1.fileclose hf.ref.ge
    rw [he]
    exact (h2.cast (by abel)).putNew.ends _
  next fd s2 hfd =>
  obtain ⟨hslot, rfl⟩ := fdalloc_ok hfd
  have h2 : Inv (s1.setSlot p fd (some f)) _ := h1.fill hslot (.inl (by rw [hf.status]; exact hp))
  have hnone : (s1.file f).handle = none := hf.handle.trans (h.free f hf.free)
  exact ((h2.install hnone (by rw [State.setSlot, hf.ref]; exact Int.one_pos) rfl).cast (by abel)).ends _

omit h in
theorem Inv.closeBoth (h : Inv s (Pi.single f 1 + Pi.single g 1)) :
    ∃ s1 s2, s.fileclose f = .ok s1 ∧ s1.fileclose g = .ok s2 ∧ Inv s2 0 := by
  have hf : 1 ≤ (Pi.single f 1 + Pi.single g 1 : Ptr → Int) f := by
    simp [Pi.single_apply]
    split <;> simp
  obtain ⟨s1, he1, h1, -, -⟩ := h.fileclose (h.ref_pos_of_owed hf)
  have h1 : Inv s1 (Pi.single g 1) := h1.cast (by abel)
  obtain ⟨s2, he2, h2, -, -⟩ := h1.fileclose (h1.ref_pos_of_owed (f := g) (by simp))
  exact ⟨s1, s2, he1, he2, h2.cast (by abel)⟩

theorem Inv.pipealloc (mem : Bool) : (∃ s', s.pipealloc mem = .ok (none, s') ∧ Inv s' 0) ∨
      ∃ f g s', s.pipealloc mem = .ok (some (f, g), s') ∧ Inv s' (Pi.single f 1 + Pi.single g 1) ∧ s'.status =
        s.status := by
  unfold State.pipealloc
  split
  · exact .inl ⟨s, rfl, h⟩
  next f s1 halloc =>
  have h1 := h.filealloc halloc
  have hf := allocated halloc
  split
  · obtain ⟨s2, he, h2, -, -⟩ := h1.fileclose hf.ref.ge
    rw [he]
    exact .inl ⟨s2, rfl, h2.cast (by abel)⟩
  next g s2 halloc' =>
  have h2 : Inv s2 (Pi.single f 1 + Pi.single g 1) := (h1.filealloc halloc').cast (by abel)
  have hg := allocated halloc'
  split
  · have hne : f ≠ g := by rintro rfl; have := hf.ref.symm.trans hg.free; cases this
    have hsame := hg.others f hne
    refine .inr ⟨f, g, _, rfl, h2.newPipe hne ?_ ?_ ?_ ?_, hg.status.trans hf.status⟩
    · rw [hsame, hf.handle]; exact h.free f hf.free
    · rw [hg.handle]; exact h1.free g hg.free
    · rw [hsame, hf.ref]; exact Int.one_pos
    · rw [hg.ref]; exact Int.one_pos
  · obtain ⟨s3, s4, he3, he4, h4⟩ := h2.closeBoth
    simp only [he3, he4, bind, Except.bind]
    exact .inl ⟨s4, rfl, h4⟩

theorem Inv.sysPipe (hp : s.status p = .live) (mem : Bool) : Ends (s.sysPipe p mem) := by
  unfold State.sysPipe
  obtain ⟨s1, he, h1⟩ | ⟨f, g, s1, he, h1, hst⟩ := h.pipealloc mem
  · rw [he]; exact h1.ends _
  have hp1 : s1.status p = .live := by rw [hst]; exact hp
  simp only [he, bind, Except.bind]
  split
  · obtain ⟨s2, s3, he2, he3, h3⟩ := h1.closeBoth; simp only [he2, he3]; exact h3.ends _
  next fd0 s2 hfd =>
  obtain ⟨hslot, rfl⟩ := fdalloc_ok hfd
  have h2 : Inv (s1.setSlot p fd0 (some f)) _ := h1.fill hslot (.inl hp1)
  split
  · have h3 : Inv ((s1.setSlot p fd0 (some f)).setSlot p fd0 none) (Pi.single f 1 + Pi.single g 1) :=
      (h2.empty (f := f) (update_self ..)).cast (by abel)
    obtain ⟨s4, s5, he4, he5, h5⟩ := h3.closeBoth
    simp only [he4, he5]
    exact h5.ends _
  · next fd1 s3 hfd1 =>
    obtain ⟨hslot1, rfl⟩ := fdalloc_ok hfd1
    exact ((h2.fill (f := g) hslot1 (.inl hp1)).cast (by abel)).ends _

/-! ### Processes -/

omit h in
theorem allocproc_ok {mem} (he : s.allocproc mem = some (np, s')) :
    s.status np = .unused ∧ s' = s.setStatus np .embryo := by
  unfold allocproc at he
  split at he
  · cases he
  next q hq =>
  have hunused := find?_some hq
  split at he <;> cases he
  exact ⟨of_decide_eq_true hunused, rfl⟩

omit h in
theorem Inv.inherit (l : List Fd) (hl : l.Nodup) :
    ∀ s, Inv s 0 → s.status np = .embryo → (∀ fd ∈ l, s.ofile (np, fd) = none) →
      ∃ s', l.foldlM (State.inherit p np) s = .ok s' ∧ Inv s' 0 := by
  induction l with
  | nil => exact fun s h _ _ => ⟨s, rfl, h⟩
  | cons fd l ih =>
    intro s h hst hfree
    obtain ⟨hnot, hl⟩ := nodup_cons.mp hl
    rw [foldlM_cons, State.inherit]
    cases hslot : s.ofile (p, fd) with
    | none => exact ih hl s h hst fun fd' hmem => hfree fd' (mem_cons_of_mem _ hmem)
    | some f =>
      obtain ⟨s1, he, h1, hofile, hstatus⟩ := h.filedup (h.ref_pos (Int.le_refl 0) hslot)
      have hnone : s1.ofile (np, fd) = none := by rw [hofile]; exact hfree fd mem_cons_self
      have h2 : Inv (s1.setSlot np fd (some f)) _ := h1.fill hnone (.inr (by rw [hstatus]; exact hst))
      simp only [he, bind, Except.bind]
      refine ih hl _ (h2.cast (by abel)) (by rw [State.setSlot, hstatus]; exact hst) fun fd' hmem => ?_
      have hfd : fd' ≠ fd := by rintro rfl; exact hnot hmem
      rw [setSlot_ofile, if_neg (by simp [hfd]), hofile]
      exact hfree fd' (mem_cons_of_mem _ hmem)

theorem Inv.inheritAll {mem} (he : s.allocproc mem = some (np, s')) : Ends (s'.inheritAll p np) := by
  obtain ⟨hun, rfl⟩ := allocproc_ok he
  have hfree := h.no_files (.inl hun)
  have h1 : Inv (s.setStatus np .embryo) 0 := h.setStatus (.inr (.inr rfl))
  obtain ⟨s2, he, h2⟩ := Inv.inherit (finRange nofile) (nodup_finRange _) _ h1 (update_self ..) fun fd _ => hfree fd
  rw [inheritAll, he]
  exact Inv.ends (h2.setStatus (.inr (.inl rfl))) _

theorem Inv.fork (mem space : Bool) : Ends (s.fork p mem space) := by
  unfold State.fork
  split
  · exact h.ends _
  next np s1 he =>
  split
  · exact h.inheritAll he
  obtain ⟨hun, rfl⟩ := allocproc_ok he
  have hfree := h.no_files (.inl hun)
  have h1 : Inv (s.setStatus np .embryo) 0 := h.setStatus (.inr (.inr rfl))
  exact Inv.ends (h1.setStatus (.inl hfree)) _

theorem Inv.clone (room mem : Bool) : Ends (s.clone p room mem) := by
  unfold State.clone
  split
  · exact h.ends _
  split
  · exact h.ends _
  · next np s1 he => exact h.inheritAll he

omit h in
theorem Inv.closeSlots (l : List Fd) : ∀ s, Inv s 0 → ∃ s', l.foldlM (State.closeSlot p) s = .ok s' ∧ Inv s' 0 ∧
      ∀ fd, fd ∈ l ∨ s.ofile (p, fd) = none → s'.ofile (p, fd) = none := by
  induction l with
  | nil => exact fun s h => ⟨s, rfl, h, fun fd hfd => hfd.resolve_left not_mem_nil⟩
  | cons fd l ih =>
    intro s h
    rw [foldlM_cons, closeSlot]
    cases hslot : s.ofile (p, fd) with
    | none =>
      obtain ⟨s', he, h', hnone⟩ := ih s h
      refine ⟨s', he, h', fun fd' hfd => hnone fd' ?_⟩
      rw [mem_cons] at hfd
      obtain (rfl | hmem) | hfree := hfd
      · exact .inr hslot
      · exact .inl hmem
      · exact .inr hfree
    | some f =>
      obtain ⟨s1, he, h1, hofile, -⟩ := h.fileclose (h.ref_pos (Int.le_refl 0) hslot)
      have h2 : Inv (s1.setSlot p fd none) _ := h1.empty (by rw [hofile]; exact hslot)
      obtain ⟨s', he', h', hnone⟩ := ih _ (h2.cast (by abel))
      simp only [he, bind, Except.bind]
      refine ⟨s', he', h', fun fd' hfd => hnone fd' ?_⟩
      rw [mem_cons] at hfd
      rw [setSlot_ofile, hofile]
      obtain (rfl | hmem) | hfree := hfd
      · simp
      · exact .inl hmem
      · simp [hfree]

theorem Inv.exit : Ends (s.exit p) ∨ s.exit p = .error "init exiting" := by
  unfold State.exit
  split
  · exact .inr rfl
  obtain ⟨s1, he, h1, hnone⟩ := Inv.closeSlots (p := p) (finRange nofile) s h
  rw [he]
  exact .inl (Inv.ends (h1.setStatus (.inl fun fd => hnone fd (.inl (mem_finRange fd)))) _)

theorem Inv.call (hp : s.status p = .live) (c : Call) : Ends (s.call p c) ∨ s.call p c = .error "init exiting" := by
  cases c with
  | «open» found denied readable writable => exact .inl (h.sysOpen hp ..)
  | pipe mem => exact .inl (h.sysPipe hp mem)
  | dup fd => exact .inl (h.sysDup hp fd)
  | close fd => exact .inl (h.sysClose fd)
  | fork mem space => exact .inl (h.fork mem space)
  | clone room mem => exact .inl (h.clone room mem)
  | exec => exact .inl (h.ends 0)
  | exit => exact h.exit

theorem Inv.act {a} (he : s.act a = some s') : Inv s' 0 := by
  cases a with
  | call p c =>
    obtain ⟨hp, he⟩ := ite_none_right_eq_some.mp he
    obtain ⟨v, s1, hcall, h1⟩ | hcall := h.call hp c
    · rw [hcall] at he; cases he; exact h1
    · rw [hcall] at he; cases he
  | reap p =>
    obtain ⟨hz, he⟩ := ite_none_right_eq_some.mp he
    cases he
    exact h.setStatus (.inl (h.no_files (.inr hz)))

omit h in
theorem start_inv : Inv start 0 := by
  refine ⟨fun f => ?_, fun f => Int.le_refl 0, fun f _ => rfl, ⟨?_, ?_, ?_, nodup_nil, ?_⟩, ?_,
    fun p fd h => absurd rfl h⟩
  · have hnone : holders start.ofile f = 0 := by
      by_contra hne
      obtain ⟨k, hk⟩ := holders_pos.mp (pos_of_ne_zero hne)
      cases hk
    rw [hnone]
    rfl
  · intro f h hf; cases hf
  · intro f g h hf; cases hf
  · rintro (n | ⟨n, w⟩) ht
    · exact absurd ht (not_lt_zero n)
    · exact absurd ht (not_lt_zero n)
  · intro h hh; cases hh
  · exact fun n hn => absurd hn (not_lt_zero n)

/-- The reference counts are exact, and what is behind an open file goes with its last descriptor. -/
structure Exact (s : State) : Prop where
  count : ∀ f, (s.file f).ref = holders s.ofile f
  once : s.released.Nodup
  last : ∀ h, s.Taken h → (h ∈ s.released ↔ ∀ k f, s.ofile k = some f → (s.file f).handle ≠ some h)
  pipes : PipesOk s
  calm : ∀ p c, s.status p = .live → s.call p c ≠ .error "filedup" ∧ s.call p c ≠ .error "fileclose"

theorem Inv.exact : Exact s := by
  refine ⟨fun f => (h.ref f).trans (Int.add_zero _), h.ledger.nodup, fun x hx => ?_, h.pipes, fun p c hp => ?_⟩
  · rw [h.ledger.released_iff hx]
    constructor
    · exact fun hno k f _ => hno f
    intro hno f hf
    -- an entry with something behind it is in use, so a descriptor points to it
    have href : (s.file f).ref ≠ 0 := fun h0 => by
      simp [h.free f h0] at hf
    have hcount : (s.file f).ref = holders s.ofile f := (h.ref f).trans (Int.add_zero _)
    obtain ⟨k, hk⟩ := holders_pos.mp (show 0 < holders s.ofile f by omega)
    exact hno k f hk hf
  · obtain ⟨v, s', he, -⟩ | he := h.call hp c
    · rw [he]; simp
    · rw [he]; simp

omit h

/-- Processes open, duplicate, inherit and close files. -/
theorem open_files_counted (h : Run State.act (fun _ _ => True) start s) : Exact s :=
  (h.invariant (P := fun s => Inv s 0) start_inv fun _ _ _ hi _ ha => hi.act ha).exact

end

theorem open_files_counted_pipe : ∃ s, Run State.act (fun _ _ => True) start s ∧
    s.released = [.pipe 0 true] ∧ (s.file 0).ref = 2 ∧ Exact s := by
  obtain ⟨s, hrun, h1, h2⟩ : ∃ s, Run State.act (fun _ _ => True) start s ∧ s.released = [.pipe 0 true] ∧
      (s.file 0).ref = 2 :=
    exists_run [.call 0 (.pipe true), .call 0 (.fork true true), .call 1 (.close 1), .call 0 (.close 1)]
      (by decide +kernel)
  exact ⟨s, hrun, h1, h2, open_files_counted hrun⟩

end Xv6Vsd.Ftable
