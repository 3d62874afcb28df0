import Xv6Vsd.Paging.Lemmas.Entries
import Xv6Vsd.Proc.Model

/-!
# The stack of a new thread

`clone` copies the page that `esp` points into to the address it is given, and lays `esp` of the new thread as far below
the end of the copy as `ssp` says that the caller's is below the top of its stack. The copy is made from
the physical page through the caller's page directory.
-/

namespace Xv6Vsd.Paging.Relocate

open Prog Layout List Option Function

/-! ## Bytes -/

abbrev Byte : Type := Nat × Nat

def read (m : Kmem) (b : Byte) : UInt8 := m.page b.1 b.2

def put (m : Kmem) (b : Byte) (v : UInt8) : Kmem := m.write b.1 (update (m.page b.1) b.2 v)

def at? (d : Dir) (a : UInt32) : Option Byte := (d.pte (pageOf a)).map fun x => (x.frame, a.toNat % 4096)

def Writable (d : Dir) (a : UInt32) : Prop := ∃ x, d.pte (pageOf a) = some x ∧ x.write = true

def storeByte (d : Dir) (a : UInt32) (v : Kmem → UInt8) : V Unit := match d.pte (pageOf a) with
  | none => panic "trap"
  | some x => if x.write then act (fun _ => .tau) fun m => .ok ()
    (put m (x.frame, a.toNat % 4096) (v m)) else panic "trap"

def p2v (frame : Nat) : UInt32 := UInt32.ofNat (frame * 4096) + kernbase

/-- Copy the bytes at the places `is` of the page `frame` in this order; the answer is the list of addresses stored
to. -/
def copyEach (d : Dir) (dst : UInt32) (frame : Nat) : List Nat → V (List UInt32)
  | [] => pure []
  | i :: is => do
    storeByte d (dst + UInt32.ofNat i) fun m => m.page frame i
    let stored ← copyEach d dst frame is
    pure ((dst + UInt32.ofNat i) :: stored)

def movePage (d : Dir) (dst : UInt32) (frame : Nat) : V (List UInt32) := copyEach d dst frame
    (if p2v frame < dst ∧ dst < p2v frame + 4096 then (List.range 4096).reverse else List.range 4096)

/-! ## `clone` -/

/-- Who calls `clone`. The image is mapped, each page of it to a page of its own. -/
structure Caller where
  dir : Dir
  sz : UInt32
  esp : UInt32
  ssp : UInt32
  top : UInt32
  allowthreads : Bool
  useclone : Bool
  threadi : Nat
  slot : Bool
  size : sz ≤ kernbase
  mapped : ∀ q, q * 4096 < sz.toNat → ∃ x, dir.pte q = some x ∧ x.write = true ∧ x.frame < 57344
  apart : ∀ p < userpages, ∀ q < userpages, ∀ x y, dir.pte p = some x → dir.pte q = some y → x.frame = y.frame → p = q
  above : top ≤ sz

structure Thread where
  esp : UInt32
  ssp : UInt32
  stored : List UInt32

/-- `none` is -1. That `PTE_P` is not tested makes the page 0 of an entry that is not present. -/
def clone (c : Caller) (stack : UInt32) : V (Option Thread) :=
  if !c.allowthreads then pure none
  else if !c.useclone then pure none
  else if Tasks.threadmax ≤ c.threadi then pure none
  else if !c.slot then pure none
  else
    match c.dir.pde (pageOf c.esp / 1024) with
    | none => panic "clone: parent has no stack page"
    | some t => do
      let frame := ((t.pte (pageOf c.esp % 1024)).map Pte.frame).getD 0
      let spoffset := c.ssp - c.esp
      let stored ← movePage c.dir stack frame
      let esp := stack + 4096
      pure (some ⟨esp - spoffset, esp, stored⟩)

/-- If `clone` succeeds, the kernel has stored only into the page from `stack` on, which is in the image, and the new
thread finds from its `esp` on what the caller has on its stack. -/
def Faithful (c : Caller) (stack : UInt32) (m : Kmem) : Prop := ∀ r m', (clone c stack).exec m = .ok (some r) m' →
    (∀ a ∈ r.stored, stack.toNat ≤ a.toNat ∧ a.toNat < stack.toNat + 4096) ∧
    stack.toNat + 4096 ≤ c.sz.toNat ∧
    (∀ k, c.esp.toNat + k < c.top.toNat →
      (at? c.dir (r.esp + UInt32.ofNat k)).map (read m') = (at? c.dir (c.esp + UInt32.ofNat k)).map (read m)) ∧
    stack.toNat ≤ r.esp.toNat ∧ r.esp.toNat < stack.toNat + 4096

def Runs (c : Caller) (stack : UInt32) : Prop :=
  c.allowthreads = true ∧ c.useclone = true ∧ c.threadi < Tasks.threadmax ∧ c.slot = true ∧ c.dir.Has (pageOf c.esp) ∧
    ∀ k < 4096, Writable c.dir (stack + UInt32.ofNat k)

def Caller.base (c : Caller) : Nat := c.esp.toNat / 4096 * 4096

/-- The new stack is in the image, `ssp` is at most a page above `esp`, and if anything is on the
caller's stack: `ssp` is the end of its page (or the stack is copied onto itself), and the new stack
does not begin inside this page. Or it does, but above the stack, and the bytes that the copy
repeats happen to be where the new thread looks. -/
def Safe (c : Caller) (stack : UInt32) : Prop :=
  stack.toNat + 4096 ≤ c.sz.toNat ∧ 0 < (c.ssp - c.esp).toNat ∧ (c.ssp - c.esp).toNat ≤ 4096 ∧
  (c.top.toNat ≤ c.esp.toNat ∨ c.ssp.toNat = c.base + 4096 ∧ (stack.toNat ≤ c.base ∨ c.base + 4096 ≤ stack.toNat) ∧
      (c.top.toNat ≤ c.ssp.toNat ∨ stack.toNat = c.base) ∨
    c.base < stack.toNat ∧ stack.toNat < c.base + 4096 ∧ c.top.toNat ≤ stack.toNat ∧
      (4096 - (c.ssp - c.esp).toNat) % (stack.toNat - c.base) = c.esp.toNat % 4096 ∧
      c.top.toNat - c.esp.toNat ≤ (c.ssp - c.esp).toNat)

instance (c : Caller) (stack : UInt32) : Decidable (Safe c stack) := inferInstanceAs (Decidable (_ ∧ _))

/-! ## The copy -/

variable {d : Dir} {dst : UInt32} {frame : Nat} {m m' : Kmem}

def filled (m : Kmem) (g : Byte → UInt8) : Kmem := { m with page := fun f i => g (f, i) }

theorem read_filled (m : Kmem) (g : Byte → UInt8) (b : Byte) : read (filled m g) b = g b := rfl

theorem put_filled (m : Kmem) (g : Byte → UInt8) (b : Byte) (v : UInt8) :
    put (filled m g) b v = filled m (update g b v) := by
  have hpage : (put (filled m g) b v).page = (filled m (update g b v)).page := by
    funext f i
    simp only [put, Kmem.write, filled, update_apply, Prod.ext_iff]
    by_cases hf : f = b.1
    · subst hf
      by_cases hi : i = b.2
      · simp [hi]
      · simp [hi]
    · simp [hf]
  simp only [put, Kmem.write, filled] at hpage ⊢
  rw [hpage]

def goal (d : Dir) (dst : UInt32) (i : Nat) : Byte := (at? d (dst + UInt32.ofNat i)).getD (0, 0)

theorem exec_storeByte {a} {v : Kmem → UInt8} {x}
    (hx : d.pte (pageOf a) = some x) (hw : x.write = true) :
    (storeByte d a v).exec m = .ok () (put m (x.frame, a.toNat % 4096) (v m)) := by
  simp only [storeByte, hx, hw, if_true, exec_act]

theorem writable_of_storeByte {a} {v : Kmem → UInt8} {r} (he : (storeByte d a v).exec m = .ok r m') :
    Writable d a := by
  unfold storeByte at he
  split at he
  · simp [panic, exec_act] at he
  next x hx =>
  split at he
  · next hw => exact ⟨x, hx, hw⟩
  · simp [panic, exec_act] at he

theorem exec_copyEach {is : List Nat} (h : ∀ i ∈ is, Writable d (dst + UInt32.ofNat i)) :
    (copyEach d dst frame is).exec m = .ok (is.map fun i => dst + UInt32.ofNat i)
      (is.foldl (fun m i => put m (goal d dst i) (m.page frame i)) m) := by
  induction is generalizing m with
  | nil => rfl
  | cons i is ih =>
    obtain ⟨x, hx, hw⟩ := h i mem_cons_self
    have hgoal : goal d dst i = (x.frame, (dst + UInt32.ofNat i).toNat % 4096) := by simp [goal, at?, hx]
    rw [copyEach, exec_bind, exec_storeByte hx hw, Res.ok_bind, exec_bind, ih fun j hj => h j (mem_cons_of_mem _ hj),
      Res.ok_bind, foldl_cons, hgoal]
    rfl

theorem copyEach_ok {is} {st} (he : (copyEach d dst frame is).exec m = .ok st m') :
    ∀ i ∈ is, Writable d (dst + UInt32.ofNat i) := by
  induction is generalizing m m' st with
  | nil => simp
  | cons i is ih =>
    obtain ⟨_, m1, hs, he⟩ := bind_ok he
    obtain ⟨_, _, hrest, -⟩ := bind_ok he
    exact forall_mem_cons.mpr ⟨writable_of_storeByte hs, ih hrest⟩

theorem foldl_upwards (n : Nat) : (List.range n).foldl (fun m i => put m (goal d dst i) (m.page frame i)) m =
    filled m (upwards (read m) (goal d dst) (fun i => (frame, i)) n) := by
  induction n with
  | zero => rfl
  | succ n ih => rw [range_succ, foldl_append, ih, foldl_cons, foldl_nil, put_filled]; rfl

/-! ## A call -/

variable {c : Caller} {stack : UInt32}

def Caller.stackFrame (c : Caller) : Nat := ((c.dir.pte (pageOf c.esp)).map Pte.frame).getD 0

def order (c : Caller) (stack : UInt32) : List Nat :=
  if p2v c.stackFrame < stack ∧ stack < p2v c.stackFrame + 4096 then (List.range 4096).reverse else List.range 4096

def after (c : Caller) (stack : UInt32) (m : Kmem) : Kmem :=
  (order c stack).foldl (fun m i => put m (goal c.dir stack i) (m.page c.stackFrame i)) m

def newEsp (c : Caller) (stack : UInt32) : UInt32 := stack + 4096 - (c.ssp - c.esp)

theorem mem_order {i} : i ∈ order c stack ↔ i < 4096 := by
  unfold order
  split <;> simp

theorem clone_eq (h1 : c.allowthreads = true) (h2 : c.useclone = true) (h3 : c.threadi < Tasks.threadmax)
    (h4 : c.slot = true) (h5 : c.dir.Has (pageOf c.esp)) : clone c stack = (do
      let stored ← copyEach c.dir stack c.stackFrame (order c stack)
      pure (some ⟨newEsp c stack, stack + 4096, stored⟩)) := by
  obtain ⟨t, ht⟩ := isSome_iff_exists.mp h5
  have hframe : ((t.pte (pageOf c.esp % 1024)).map Pte.frame).getD 0 = c.stackFrame :=
    by simp [Caller.stackFrame, Dir.pte, ht]
  rw [clone, h1, h2, h4, if_neg (by simp), if_neg (by simp), if_neg (Nat.not_le.mpr h3), if_neg (by simp), ht]
  dsimp only
  rw [hframe]
  rfl

theorem exec_clone (h : Runs c stack) : (clone c stack).exec m =
    .ok (some ⟨newEsp c stack, stack + 4096, (order c stack).map fun i => stack + UInt32.ofNat i⟩)
      (after c stack m) := by
  obtain ⟨h1, h2, h3, h4, h5, hw⟩ := h
  rw [clone_eq h1 h2 h3 h4 h5, exec_bind, exec_copyEach fun i hi => hw i (mem_order.mp hi), Res.ok_bind]
  rfl

theorem runs_of_clone {r} (he : (clone c stack).exec m = .ok (some r) m') : Runs c stack := by
  have he' := he
  unfold clone at he
  split at he
  · cases he
  next h1 =>
  split at he
  · cases he
  next h2 =>
  split at he
  · cases he
  next h3 =>
  split at he
  · cases he
  next h4 =>
  split at he
  · simp [panic, exec_act] at he
  next t ht =>
  have h5 : c.dir.Has (pageOf c.esp) := by simp [Dir.Has, ht]
  simp only [Bool.not_eq_true', Bool.not_eq_false] at h1 h2 h4
  rw [clone_eq h1 h2 (Nat.lt_of_not_le h3) h4 h5] at he'
  obtain ⟨st, m1, hcopy, -⟩ := bind_ok he'
  exact ⟨h1, h2, Nat.lt_of_not_le h3, h4, h5, fun k hk => copyEach_ok hcopy k (mem_order.mpr hk)⟩

/-! ## Addresses of the image -/

namespace Caller

theorem small (c : Caller) : c.sz.toNat ≤ 234881024 := by
  by_contra hbig
  let f : Nat → Nat := fun q => ((c.dir.pte q).map Pte.frame).getD 0
  have hpage : ∀ q ∈ Finset.range 57345, ∃ x, c.dir.pte q = some x ∧ x.frame < 57344 := fun q hq => by
    have hq' := Finset.mem_range.mp hq
    obtain ⟨x, hx, -, hlt⟩ := c.mapped q (by omega)
    exact ⟨x, hx, hlt⟩
  have hmaps : ∀ q ∈ Finset.range 57345, f q ∈ Finset.range 57344 := fun q hq => by
    obtain ⟨x, hx, hlt⟩ := hpage q hq
    simpa [f, hx] using hlt
  obtain ⟨p, hp, q, hq, hne, heq⟩ := Finset.exists_ne_map_eq_of_card_lt_of_maps_to (by simp) hmaps
  obtain ⟨x, hx, -⟩ := hpage p hp
  obtain ⟨y, hy, -⟩ := hpage q hq
  have huser : ∀ q ∈ Finset.range 57345, q < userpages := fun q hq => by
    have := Finset.mem_range.mp hq
    simp only [userpages]
    omega
  exact hne (c.apart p (huser p hp) q (huser q hq) x y hx hy (by simpa [f, hx, hy] using heq))

theorem at_mapped {a} (ha : a.toNat < c.sz.toNat) : ∃ b, at? c.dir a = some b := by
  obtain ⟨x, hx, -⟩ := c.mapped (pageOf a) (by unfold pageOf; omega)
  exact ⟨_, by rw [at?, hx]; rfl⟩

theorem at_inj {a b} {l} (ha : a.toNat < 2147483648) (hb : b.toNat < 2147483648)
    (h1 : at? c.dir a = some l) (h2 : at? c.dir b = some l) : a = b := by
  obtain ⟨x, hx, hxl⟩ := map_eq_some_iff.mp h1
  obtain ⟨y, hy, hyl⟩ := map_eq_some_iff.mp h2
  rw [← hxl, Prod.ext_iff] at hyl
  have hpage := c.apart (pageOf a) (by simp only [pageOf, userpages]; omega) (pageOf b)
    (by simp only [pageOf, userpages]; omega) x y hx hy hyl.1.symm
  have hoff := hyl.2
  unfold pageOf at hpage
  exact UInt32.toNat_inj.mp (by omega)

end Caller

theorem at_frame (hlive : c.esp.toNat < c.top.toNat) {j} (hj : j < 4096) :
    at? c.dir (UInt32.ofNat (c.base + j)) = some (c.stackFrame, j) := by
  have habove := UInt32.le_iff_toNat_le.mp c.above
  have hsmall := c.small
  obtain ⟨x, hx, -⟩ := c.mapped (pageOf c.esp) (by unfold pageOf; omega)
  have hnat : (UInt32.ofNat (c.base + j)).toNat = c.base + j := UInt32.toNat_ofNat_of_lt' (by
    simp only [UInt32.size, Caller.base]
    omega)
  have hpage : pageOf (UInt32.ofNat (c.base + j)) = pageOf c.esp := by
    rw [pageOf, hnat, pageOf]
    unfold Caller.base
    omega
  have hoff : (c.base + j) % 4096 = j := by unfold Caller.base; omega
  rw [at?, hpage, hx, hnat, hoff, Caller.stackFrame, hx]
  rfl

section Live

variable (hs : stack.toNat + 4096 ≤ c.sz.toNat)
include hs

theorem at_goal {i : Nat} (hi : i < 4096) : at? c.dir (stack + UInt32.ofNat i) = some (goal c.dir stack i) := by
  have hsmall := c.small
  obtain ⟨b, hb⟩ := c.at_mapped (a := stack + UInt32.ofNat i) (by rw [toNat_add_ofNat (by omega)]; omega)
  rw [goal, hb, getD_some]

theorem goal_inj : ∀ i < 4096, ∀ j < 4096, goal c.dir stack i = goal c.dir stack j → i = j := by
  intro i hi j hj heq
  have hsmall := c.small
  have hi' := toNat_add_ofNat (a := stack) (k := i) (by omega)
  have hj' := toNat_add_ofNat (a := stack) (k := j) (by omega)
  have := c.at_inj (by omega) (by omega) (at_goal hs hi) (heq ▸ at_goal hs hj)
  rw [this] at hi'
  omega

variable (hlive : c.esp.toNat < c.top.toNat)
include hlive

theorem goal_eq_frame {i j} (hi : i < 4096) (hj : j < 4096) :
    goal c.dir stack i = (c.stackFrame, j) ↔ stack.toNat + i = c.base + j := by
  have hsmall := c.small
  have habove := UInt32.le_iff_toNat_le.mp c.above
  have hi' := toNat_add_ofNat (a := stack) (k := i) (by omega)
  have hbase : c.base ≤ c.esp.toNat := by unfold Caller.base; omega
  have hj' : (UInt32.ofNat (c.base + j)).toNat = c.base + j := UInt32.toNat_ofNat_of_lt' (by
    simp only [UInt32.size]
    omega)
  have hg := at_goal hs hi
  have hf := at_frame hlive hj
  constructor
  · intro heq
    rw [heq] at hg
    have := c.at_inj (by omega) (by omega) hg hf
    rw [← hi', this, hj']
  · intro heq
    have : stack + UInt32.ofNat i = UInt32.ofNat (c.base + j) := UInt32.toNat_inj.mp (by omega)
    rw [this, hf] at hg
    exact (some.inj hg).symm

theorem after_eq : after c stack m =
    filled m (upwards (read m) (goal c.dir stack) (fun i => (c.stackFrame, i)) 4096) := by
  have hsmall := c.small
  have habove := UInt32.le_iff_toNat_le.mp c.above
  obtain ⟨x, hx, -, hlt⟩ := c.mapped (pageOf c.esp) (by unfold pageOf; omega)
  have hframe : c.stackFrame < 57344 := by simpa [Caller.stackFrame, hx] using hlt
  have hp2v : 2147483648 ≤ (p2v c.stackFrame).toNat := by
    simp only [p2v, UInt32.toNat_add, UInt32.toNat_ofNat', kernbase, UInt32.reduceToNat, Nat.reducePow]
    omega
  have hup : order c stack = range 4096 := by
    rw [order, if_neg]
    rintro ⟨hlt, -⟩
    rw [UInt32.lt_iff_toNat_lt] at hlt
    omega
  rw [after, hup, foldl_upwards]

def origin (c : Caller) (stack : UInt32) (i : Nat) : Nat :=
  if c.base < stack.toNat ∧ stack.toNat < c.base + 4096 then i % (stack.toNat - c.base) else i

theorem read_after_goal {i} (hi : i < 4096) :
    read (after c stack m) (goal c.dir stack i) = read m (c.stackFrame, origin c stack i) := by
  rw [after_eq hs hlive, read_filled]
  unfold origin
  split
  · rename_i hin
    refine upwards_shift (by omega) (goal_inj hs) (fun i hi j hj => ?_) hi
    rw [goal_eq_frame hs hlive hi hj]
    omega
  · rename_i hout
    refine upwards_apart (goal_inj hs) (fun i hi j hj heq => ?_) hi
    rw [goal_eq_frame hs hlive (by omega) hi] at heq
    omega

theorem read_after_other {a} {b} (ha : at? c.dir a = some b) (hlt : a.toNat < 2147483648)
    (hout : stack.toNat + 4096 ≤ a.toNat) : read (after c stack m) b = read m b := by
  have hsmall := c.small
  rw [after_eq hs hlive, read_filled]
  refine upwards_out fun i hi heq => ?_
  have hi' := toNat_add_ofNat (a := stack) (k := i) (by omega)
  have := c.at_inj (by omega) hlt (heq ▸ at_goal hs hi) ha
  rw [this] at hi'
  omega

end Live

/-! ## All memories -/

def blank : Kmem := ⟨1, [], fun _ => false, 0, fun _ => zeroPage, by decide, by simp⟩

theorem eq_of_read {b b'} (h : ∀ m, read m b = read m b') : b = b' := by
  by_contra hne
  have := h (filled blank fun x => if x = b then 1 else 0)
  simp [read_filled, if_neg (Ne.symm hne)] at this

def delta (c : Caller) : Nat := 4096 - (c.ssp - c.esp).toNat

theorem newEsp_mem (hs : stack.toNat + 4096 ≤ c.sz.toNat) :
    stack.toNat ≤ (newEsp c stack).toNat ∧ (newEsp c stack).toNat < stack.toNat + 4096 ↔
      0 < (c.ssp - c.esp).toNat ∧ (c.ssp - c.esp).toNat ≤ 4096 := by
  have hsmall := c.small
  have hlt := (c.ssp - c.esp).toNat_lt
  unfold newEsp
  generalize c.ssp - c.esp = off at *
  simp only [UInt32.toNat_sub, UInt32.toNat_add, UInt32.reduceToNat, Nat.reducePow]
  omega

theorem toNat_newEsp (hs : stack.toNat + 4096 ≤ c.sz.toNat) (h4 : (c.ssp - c.esp).toNat ≤ 4096) :
    (newEsp c stack).toNat = stack.toNat + delta c := by
  have hsmall := c.small
  unfold newEsp delta
  generalize c.ssp - c.esp = off at *
  simp only [UInt32.toNat_sub, UInt32.toNat_add, UInt32.reduceToNat, Nat.reducePow]
  omega

theorem same_iff (hs : stack.toNat + 4096 ≤ c.sz.toNat) (h4 : (c.ssp - c.esp).toNat ≤ 4096) {k}
    (hk : c.esp.toNat + k < c.top.toNat) :
    (∀ m, (at? c.dir (newEsp c stack + UInt32.ofNat k)).map (read (after c stack m)) =
      (at? c.dir (c.esp + UInt32.ofNat k)).map (read m)) ↔
    if delta c + k < 4096 then c.base + origin c stack (delta c + k) = c.esp.toNat + k
    else stack.toNat + delta c = c.esp.toNat := by
  have hsmall := c.small
  have habove := UInt32.le_iff_toNat_le.mp c.above
  have hlive : c.esp.toNat < c.top.toNat := by omega
  have hd : delta c ≤ 4096 := Nat.sub_le _ _
  have hnew := toNat_newEsp hs h4
  have hold := toNat_add_ofNat (a := c.esp) (k := k) (by omega)
  have hadd := toNat_add_ofNat (a := newEsp c stack) (k := k) (by omega)
  obtain ⟨b, hb⟩ := c.at_mapped (a := c.esp + UInt32.ofNat k) (by omega)
  simp only [hb, map_some]
  split
  · rename_i hin
    have haddr : newEsp c stack + UInt32.ofNat k = stack + UInt32.ofNat (delta c + k) := by
      apply UInt32.toNat_inj.mp
      rw [hadd, toNat_add_ofNat (by omega)]
      omega
    have hbase : c.base ≤ c.esp.toNat := by unfold Caller.base; omega
    have horigin : origin c stack (delta c + k) < 4096 := by
      unfold origin
      split
      · exact lt_of_le_of_lt (Nat.mod_le _ _) hin
      · exact hin
    have hnat : (UInt32.ofNat (c.base + origin c stack (delta c + k))).toNat = c.base + origin c stack (delta c + k) :=
      UInt32.toNat_ofNat_of_lt' (by simp only [UInt32.size]; omega)
    have hfrom := at_frame hlive horigin
    simp only [haddr, at_goal hs hin, map_some, read_after_goal hs hlive hin, some.injEq]
    constructor
    · intro hall
      rw [eq_of_read hall] at hfrom
      have := c.at_inj (by omega) (by omega) hfrom hb
      rw [← hnat, this, hold]
    · intro heq m
      have : UInt32.ofNat (c.base + origin c stack (delta c + k)) = c.esp + UInt32.ofNat k :=
        UInt32.toNat_inj.mp (by omega)
      rw [this, hb] at hfrom
      rw [some.inj hfrom]
  · rename_i hout
    constructor
    · intro hall
      obtain ⟨b', hb', -⟩ := map_eq_some_iff.mp (hall blank)
      have hread : ∀ m, read m b' = read m b := fun m => by
        have := hall m
        rw [hb', map_some, read_after_other hs hlive hb' (by omega) (by omega)] at this
        exact some.inj this
      rw [eq_of_read hread] at hb'
      have := c.at_inj (by omega) (by omega) hb' hb
      rw [this] at hadd
      omega
    · intro heq m
      have : newEsp c stack + UInt32.ofNat k = c.esp + UInt32.ofNat k := UInt32.toNat_inj.mp (by omega)
      rw [this, hb, map_some, read_after_other hs hlive hb (by omega) (by omega)]

theorem origins_iff (hpos : 0 < (c.ssp - c.esp).toNat) (h4 : (c.ssp - c.esp).toNat ≤ 4096)
    (hlive : c.esp.toNat < c.top.toNat) :
    (∀ k, c.esp.toNat + k < c.top.toNat → if delta c + k < 4096 then c.base + origin c stack (delta c + k) =
      c.esp.toNat + k
      else stack.toNat + delta c = c.esp.toNat) ↔
    c.ssp.toNat = c.base + 4096 ∧ (stack.toNat ≤ c.base ∨ c.base + 4096 ≤ stack.toNat) ∧
      (c.top.toNat ≤ c.ssp.toNat ∨ stack.toNat = c.base) ∨
    c.base < stack.toNat ∧ stack.toNat < c.base + 4096 ∧ c.top.toNat ≤ stack.toNat ∧
      delta c % (stack.toNat - c.base) = c.esp.toNat % 4096 ∧ c.top.toNat - c.esp.toNat ≤ (c.ssp - c.esp).toNat := by
  have hsmall := c.small
  have habove := UInt32.le_iff_toNat_le.mp c.above
  have hbase : c.base + c.esp.toNat % 4096 = c.esp.toNat := by unfold Caller.base; omega
  have hssp : c.ssp.toNat = c.base + 4096 ↔ delta c = c.esp.toNat % 4096 := by
    have hlt := c.ssp.toNat_lt
    unfold delta
    rw [UInt32.toNat_sub] at hpos h4 ⊢
    omega
  have hdelta : delta c + (c.ssp - c.esp).toNat = 4096 := by unfold delta; omega
  generalize (c.ssp - c.esp).toNat = off at *
  generalize delta c = δ at *
  unfold origin
  by_cases hin : c.base < stack.toNat ∧ stack.toNat < c.base + 4096
  · simp only [if_pos hin]
    obtain ⟨o, ho⟩ : ∃ o, stack.toNat = c.base + o := ⟨stack.toNat - c.base, by omega⟩
    have hsub : stack.toNat - c.base = o := by omega
    rw [hsub]
    constructor
    · intro h
      have h0 := h 0 (by omega)
      rw [if_pos (by omega), Nat.add_zero, Nat.add_zero] at h0
      have hmod : δ % o = c.esp.toNat % 4096 := by omega
      have hlt : δ % o < o := Nat.mod_lt _ (by omega)
      have hroom : ∀ k, c.esp.toNat + k < c.top.toNat → δ + k < 4096 := fun k hk => by
        by_contra hge
        have := h k hk
        rw [if_neg hge] at this
        omega
      refine .inr ⟨by omega, by omega, ?_, hmod, ?_⟩
      · by_contra htop
        -- the byte at `stack` is the first that comes from the start of the page again
        have hk := h (o - δ % o) (by omega)
        rw [if_pos (hroom _ (by omega))] at hk
        have hwrap : (δ + (o - δ % o)) % o = 0 := by
          have : δ + (o - δ % o) = o * (δ / o + 1) := by
            have := Nat.div_add_mod δ o
            rw [Nat.mul_add, Nat.mul_one]
            omega
          rw [this, Nat.mul_mod_right]
        omega
      · by_contra hlong
        have := hroom (4096 - δ) (by omega)
        omega
    · rintro (⟨-, hout, -⟩ | ⟨-, -, htop, hmod, hlen⟩) k hk
      · omega
      rw [if_pos (by omega)]
      have hsum : (δ + k) % o = c.esp.toNat % 4096 + k := by
        rw [Nat.add_mod, hmod, Nat.mod_eq_of_lt (show k < o by omega), Nat.mod_eq_of_lt (by omega)]
      omega
  · simp only [if_neg hin]
    constructor
    · intro h
      have h0 := h 0 (by omega)
      rw [if_pos (by omega)] at h0
      refine .inl ⟨hssp.mpr (by omega), by omega, ?_⟩
      by_contra hno
      rw [not_or, Nat.not_le] at hno
      have hk := h (4096 - δ) (by omega)
      rw [if_neg (by omega)] at hk
      omega
    · rintro (⟨hs, -, hor⟩ | ⟨h1, h2, -⟩) k hk
      · have hd := hssp.mp hs
        split
        · omega
        · omega
      · exact absurd ⟨h1, h2⟩ hin

/-! ## A caller with one stack page -/

def twoPages : Dir where
  frame := 1000
  pde i := if i = 0 then some ⟨1001, fun j => if j < 2 then some ⟨1002 + j, true, true⟩ else none⟩ else none

theorem twoPages_pte (q : Nat) : twoPages.pte q = if q < 2 then some ⟨1002 + q, true, true⟩ else none := by
  unfold Dir.pte twoPages
  dsimp only
  by_cases h0 : q / 1024 = 0
  · rw [if_pos h0, bind_some, Nat.mod_eq_of_lt (by omega)]
  · rw [if_neg h0, if_neg (by omega)]; rfl

def caller (ssp : UInt32) : Caller where
  dir := twoPages
  sz := 8192
  esp := 8100
  ssp := ssp
  top := 8192
  allowthreads := true
  useclone := true
  threadi := 0
  slot := true
  size := by decide
  mapped q hq := by
    have hlt : q < 2 := by rw [show (8192 : UInt32).toNat = 8192 from rfl] at hq; omega
    refine ⟨_, by rw [twoPages_pte, if_pos hlt], rfl, ?_⟩
    dsimp only
    omega
  apart p _ q _ x y hx hy hxy := by
    rw [twoPages_pte] at hx hy
    obtain ⟨-, hx⟩ := ite_none_right_eq_some.mp hx
    obtain ⟨-, hy⟩ := ite_none_right_eq_some.mp hy
    rw [← Option.some.inj hx, ← Option.some.inj hy] at hxy
    dsimp only at hxy
    omega
  above := by decide

theorem caller_runs (ssp : UInt32) : Runs (caller ssp) 0 := by
  have hesp : pageOf 8100 = 1 := by decide
  have hhas : twoPages.Has (pageOf 8100) := by rw [hesp, Dir.Has]; rfl
  refine ⟨rfl, rfl, (by decide : 0 < Tasks.threadmax), rfl, hhas, fun k hk => ?_⟩
  have hpage : pageOf (0 + UInt32.ofNat k) = 0 := by
    rw [pageOf, toNat_add_ofNat (by rw [show (0 : UInt32).toNat = 0 from rfl]; omega), show (0 : UInt32).toNat =
      0 from rfl]
    omega
  exact ⟨⟨1002, true, true⟩, by rw [hpage]; rfl, rfl⟩

/-- `clone` relocates the stack faithfully, whatever memory holds, if and only if it does not come
to its end or is called safely. -/
theorem clone_faithful_iff (c : Caller) (stack : UInt32) :
    (∀ m, Faithful c stack m) ↔ (Runs c stack → Safe c stack) := by
  constructor
  · intro h hr
    obtain ⟨-, hs, -, hesp⟩ := h blank _ _ (exec_clone hr)
    obtain ⟨hpos, h4⟩ := (newEsp_mem hs).mp hesp
    refine ⟨hs, hpos, h4, ?_⟩
    by_cases hlive : c.esp.toNat < c.top.toNat
    · refine .inr ((origins_iff hpos h4 hlive).mp fun k hk => (same_iff hs h4 hk).mp fun m => ?_)
      exact (h m _ _ (exec_clone hr)).2.2.1 k hk
    · exact .inl (by omega)
  · intro h m r m' he
    have hr := runs_of_clone he
    obtain ⟨hs, hpos, h4, hsafe⟩ := h hr
    have hsmall := c.small
    rw [exec_clone hr, Res.ok.injEq, some.injEq] at he
    obtain ⟨rfl, rfl⟩ := he
    refine ⟨fun a ha => ?_, hs, fun k hk => ?_, (newEsp_mem hs).mpr ⟨hpos, h4⟩⟩
    · obtain ⟨i, hi, rfl⟩ := mem_map.mp ha
      have := mem_order.mp hi
      rw [toNat_add_ofNat (by omega)]
      omega
    · have hlive : c.esp.toNat < c.top.toNat := by omega
      exact (same_iff hs h4 hk).mpr ((origins_iff hpos h4 hlive).mpr (hsafe.resolve_left (by omega)) k hk) m

/-- A process that `exec` has started takes its first page for the new stack. -/
theorem clone_after_exec : Runs (caller 8192) 0 ∧ ∀ m, Faithful (caller 8192) 0 m :=
  ⟨caller_runs 8192, (clone_faithful_iff (caller 8192) 0).mpr fun _ => by decide⟩

/-- `fork` leaves `ssp` of the child as it is in the slot, 0 in a new one: `esp` of the thread is behind its stack. -/
theorem clone_after_fork : Runs (caller 0) 0 ∧ ¬Faithful (caller 0) 0 blank := by
  refine ⟨caller_runs 0, fun h => ?_⟩
  obtain ⟨-, -, -, -, hesp⟩ := h _ _ (exec_clone (caller_runs 0))
  exact absurd hesp (by decide)

end Xv6Vsd.Paging.Relocate
