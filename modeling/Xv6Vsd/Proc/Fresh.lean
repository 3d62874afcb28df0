import Xv6Vsd.Proc.Lemmas.Steps

/-!
# What a new process inherits from its slot

`allocproc` does not clear the slot that it takes.
-/

namespace Xv6Vsd.Tasks

open State

inductive Maker where
  | fork
  | clone (stack : UInt32)
  deriving DecidableEq

namespace State

def vacant (s : State) : Option Ref := first fun p => (s.proc p).state = .unused

def Allows (s : State) (c : Ref) : Maker → Prop
  | .fork => True
  | .clone _ => s.MayClone c

instance (s : State) (c : Ref) (k : Maker) : Decidable (s.Allows c k) := by
  cases k <;> unfold Allows <;> infer_instance

def child (s : State) (c : Ref) (k : Maker) : Option Proc := if s.Allows c k then
    s.allocproc.map fun (np, s) =>
      match k with
      | .fork => (s.forkInto c np).proc np
      | .clone stack => (s.cloneInto c np stack).proc np
  else none

end State

deriving instance DecidableEq for Proc

@[mk_iff]
structure Agree (s t : State) : Prop where
  unused : ∀ p, (s.proc p).state = .unused ↔ (t.proc p).state = .unused
  proc : ∀ p, (s.proc p).state ≠ .unused → s.proc p = t.proc p
  nextpid : s.nextpid = t.nextpid
  nextdir : s.nextdir = t.nextdir
  allowthreads : s.allowthreads = t.allowthreads
  useclone : s.useclone = t.useclone

structure Alike (x y : Proc) : Prop where
  killed : x.killed = y.killed
  crashed : x.crashed = y.crashed
  injail : x.injail = y.injail
  rdirpath : x.rdirpath = y.rdirpath
  ssp : x.ssp = y.ssp
  threadi : x.threadi = y.threadi
  threads : x.threads = y.threads
  head : x.head = y.head
  tail : x.tail = y.tail

def Maker.ssp (parent : Proc) : Maker → UInt32
  | .fork => parent.ssp
  | .clone stack => stack + pgsize

/-- A new process has an empty mailbox, is neither killed nor crashed, is in its parent's jail, and has its own
stack. -/
structure Starts (k : Maker) (parent x : Proc) : Prop where
  killed : x.killed = false
  crashed : x.crashed = false
  injail : x.injail = parent.injail
  rdirpath : x.rdirpath = parent.rdirpath
  ssp : x.ssp = k.ssp parent
  head : x.head = none
  tail : x.tail = none

structure Leakless (s t : State) (c : Ref) (k : Maker) : Prop where
  both : (s.child c k).isSome = (t.child c k).isSome
  alike : ∀ x ∈ s.child c k, ∀ y ∈ t.child c k, Alike x y
  left : ∀ x ∈ s.child c k, Starts k (s.proc c) x
  right : ∀ y ∈ t.child c k, Starts k (t.proc c) y

@[mk_iff]
structure Clean (k : Maker) (parent x : Proc) : Prop where
  killed : x.killed = false
  crashed : x.crashed = false
  injail : x.injail = parent.injail
  rdirpath : x.rdirpath = parent.rdirpath
  ssp : k = .fork → x.ssp = parent.ssp
  head : x.head = none
  tail : x.tail = none

@[mk_iff]
structure SameThreads (k : Maker) (x y : Proc) : Prop where
  threadi : k ≠ .fork → x.threadi = y.threadi
  threads : x.threads = y.threads

instance (s t : State) : Decidable (Agree s t) := decidable_of_iff _ (agree_iff s t).symm
instance (k : Maker) (parent x : Proc) : Decidable (Clean k parent x) := decidable_of_iff _ (clean_iff k parent x).symm
instance (k : Maker) (x y : Proc) : Decidable (SameThreads k x y) := decidable_of_iff _ (sameThreads_iff k x y).symm

variable {s t : State} {c np : Ref} {k : Maker}

theorem Agree.vacant (h : Agree s t) : s.vacant = t.vacant := by
  unfold State.vacant
  congr 1
  funext p
  simp only [h.unused p]

theorem Agree.allows (h : Agree s t) (hc : (s.proc c).state ≠ .unused) : s.Allows c k ↔ t.Allows c k := by
  cases k with
  | fork => exact Iff.rfl
  | clone stack => simp only [Allows, MayClone, h.allowthreads, h.useclone, h.proc c hc]

def Maker.fill (s : State) (c : Ref) (x : Proc) : Maker → Proc
  | .fork => forkProc (s.proc c) c s.nextdir { x with state := .embryo, pid := s.nextpid, sid := -1, uid := -2 }
  | .clone stack =>
    cloneProc (s.proc c) (s.leader c) stack { x with state := .embryo, pid := s.nextpid, sid := -1, uid := -2 }

theorem child_some (hc : (s.proc c).state ≠ .unused) (hk : s.Allows c k) (hv : s.vacant = some np) :
    s.child c k = some (k.fill s c (s.proc np)) := by
  have hne : c ≠ np := by rintro rfl; exact hc (by simpa using first_some hv)
  have halloc : s.allocproc = some (np, s.taken np) := by
    unfold allocproc
    rw [show (first fun p => (s.proc p).state = .unused) = some np from hv]
    rfl
  unfold child
  rw [if_pos hk, halloc]
  cases k with
  | fork => simp [Maker.fill, forkInto, taken, mod, hne]
  | clone stack => simp [Maker.fill, cloneInto, leader, taken, mod, hne]

theorem child_none (h : ¬s.Allows c k ∨ s.vacant = none) : s.child c k = none := by
  unfold child
  split
  · rename_i hk
    have hv : (first fun p => (s.proc p).state = .unused) = none := h.resolve_left (not_not_intro hk)
    simp [allocproc, hv]
  · rfl

theorem starts_fill {x} : Starts k (s.proc c) (k.fill s c x) ↔ Clean k (s.proc c) x := by
  cases k with
  | fork => exact ⟨fun h => ⟨h.1, h.2, h.3, h.4, fun _ => h.5, h.6, h.7⟩,
    fun h => ⟨h.1, h.2, h.3, h.4, h.5 rfl, h.6, h.7⟩⟩
  | clone stack => exact ⟨fun h => ⟨h.1, h.2, h.3, h.4, nofun, h.6, h.7⟩, fun h => ⟨h.1, h.2, h.3, h.4, rfl, h.6, h.7⟩⟩

theorem sameThreads_of_alike {x y} (h : Alike (k.fill s c x) (k.fill t c y)) : SameThreads k x y := by
  cases k with
  | fork => exact ⟨fun hk => absurd rfl hk, h.threads⟩
  | clone stack => exact ⟨fun _ => h.threadi, h.threads⟩

theorem alike_fill {x y} (hx : Clean k (s.proc c) x) (hy : Clean k (s.proc c) y) (h : SameThreads k x y) :
    Alike (k.fill s c x) (k.fill t c y) := by
  have hkilled : x.killed = y.killed := hx.killed.trans hy.killed.symm
  have hcrashed : x.crashed = y.crashed := hx.crashed.trans hy.crashed.symm
  have hinjail : x.injail = y.injail := hx.injail.trans hy.injail.symm
  have hrdir : x.rdirpath = y.rdirpath := hx.rdirpath.trans hy.rdirpath.symm
  have hhead : x.head = y.head := hx.head.trans hy.head.symm
  have htail : x.tail = y.tail := hx.tail.trans hy.tail.symm
  cases k with
  | fork =>
    exact ⟨hkilled, hcrashed, hinjail, hrdir, (hx.ssp rfl).trans (hy.ssp rfl).symm, rfl, h.threads, hhead, htail⟩
  | clone stack => exact ⟨hkilled, hcrashed, hinjail, hrdir, rfl, h.threadi nofun, h.threads, hhead, htail⟩

/-- Nothing leaks into a new process exactly when what is left in its slot is what it should start
with, and the thread tables left there are the same. -/
theorem no_leak_iff (h : Agree s t) (c : Ref) (hc : (s.proc c).state ≠ .unused) (k : Maker) :
    Leakless s t c k ↔ ∀ np, s.vacant = some np → s.Allows c k →
      Clean k (s.proc c) (s.proc np) ∧ Clean k (s.proc c) (t.proc np) ∧ SameThreads k (s.proc np) (t.proc np) := by
  have hp : s.proc c = t.proc c := h.proc c hc
  have hct : (t.proc c).state ≠ .unused := fun ht => hc ((h.unused c).mpr ht)
  constructor
  · intro hl np hv hk
    have hs := child_some hc hk hv
    have ht := child_some hct ((h.allows hc).mp hk) (h.vacant ▸ hv)
    refine ⟨starts_fill.mp (hl.left _ hs), ?_, sameThreads_of_alike (hl.alike _ hs _ ht)⟩
    rw [hp]
    exact starts_fill.mp (hl.right _ ht)
  intro hclean
  by_cases hk : s.Allows c k
  · cases hv : s.vacant with
    | none =>
      have hs : s.child c k = none := child_none (.inr hv)
      have ht : t.child c k = none := child_none (.inr (h.vacant ▸ hv))
      exact ⟨by rw [hs, ht], by simp [hs], by simp [hs], by simp [ht]⟩
    | some np =>
      obtain ⟨hleft, hright, hth⟩ := hclean np hv hk
      have hs := child_some hc hk hv
      have ht := child_some hct ((h.allows hc).mp hk) (h.vacant ▸ hv)
      refine ⟨by rw [hs, ht]; rfl, ?_, ?_, ?_⟩
      · rintro _ hx _ hy
        cases hs.symm.trans hx
        cases ht.symm.trans hy
        exact alike_fill hleft hright hth
      · rintro _ hx; cases hs.symm.trans hx; exact starts_fill.mpr hleft
      · rintro _ hy; cases ht.symm.trans hy; exact starts_fill.mpr (hp ▸ hright)
  · have hs : s.child c k = none := child_none (.inl hk)
    have ht : t.child c k = none := child_none (.inl fun ht => hk ((h.allows hc).mpr ht))
    exact ⟨by rw [hs, ht], by simp [hs], by simp [hs], by simp [ht]⟩

def threadEnds (last : Act) : List Act :=
  [.run 1, .fork 1, .forked 1 true true, .run 2, .clone 2 0x8000, .cloned 2 true, .added 2, .run 3, last, .look 3,
    .leave 3,
    .cull 3]

/-- A thread that has exited leaves a slot for the next one, whatever directory is left there. -/
theorem no_leak_after_thread : ∃ s t, (Reachable (fun _ _ => True) (boot true true false) s ∧ Agree s t ∧
    (s.proc 2).state ≠ .unused ∧ s.proc 3 ≠ t.proc 3) ∧ Leakless s t 2 (.clone 0x8000) := by
  obtain ⟨s, h, hagree, hused, hne, hclean⟩ : ∃ s, Reachable (fun _ _ => True) (boot true true false) s ∧
      let t := s.mod 3 fun x => { x with pgdir := none }
      Agree s t ∧ (s.proc 2).state ≠ .unused ∧ s.proc 3 ≠ t.proc 3 ∧
        ∀ np, s.vacant = some np → s.Allows 2 (.clone 0x8000) → Clean (.clone 0x8000) (s.proc 2) (s.proc np) ∧
          Clean (.clone 0x8000) (s.proc 2) (t.proc np) ∧ SameThreads (.clone 0x8000) (s.proc np) (t.proc np) :=
    exists_run (threadEnds (.exit 3)) (by decide +kernel)
  exact ⟨s, _, ⟨h, hagree, hused, hne⟩, (no_leak_iff hagree 2 hused _).mpr hclean⟩

/-- A thread that traps is culled with `crashed` set, and the next process in the slot has crashed before it runs. -/
theorem crashed_leaks : ∃ s t, Reachable (fun _ _ => True) (boot true true false) s ∧
    Reachable (fun _ _ => True) (boot true true false) t ∧ Agree s t ∧ s.At 2 .user ∧
    (s.child 2 .fork).map Proc.crashed = some true ∧ (t.child 2 .fork).map Proc.crashed = some false ∧
    ¬Leakless s t 2 .fork := by
  obtain ⟨s, h, hs⟩ : ∃ s, Reachable (fun _ _ => True) (boot true true false) s ∧ plays act (fun _ _ => True)
      (fun t : State => Agree s t ∧ s.At 2 .user ∧ (s.child 2 .fork).map Proc.crashed = some true ∧
        (t.child 2 .fork).map Proc.crashed = some false) (threadEnds (.exit 3)) (boot true true false) = true :=
    exists_run (threadEnds (.trap 3)) (by decide +kernel)
  obtain ⟨t, ht, hagree, hat, hx, hy⟩ := exists_run _ hs
  refine ⟨s, t, h, ht, hagree, hat, hx, hy, fun hl => ?_⟩
  obtain ⟨x, hsx, hcx⟩ := Option.map_eq_some_iff.mp hx
  obtain ⟨y, hty, hcy⟩ := Option.map_eq_some_iff.mp hy
  have hsame := (hl.alike x hsx y hty).crashed
  simp [hcx, hcy] at hsame

end Xv6Vsd.Tasks
