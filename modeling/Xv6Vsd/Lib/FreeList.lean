import Mathlib.Data.List.Perm.Basic
import Xv6Vsd.Lib.Ring

/-!
# Free lists in address order

Storage is handed out in blocks of units that begin with a header of one unit: a pointer to the next
free block and the number of units. The free blocks form a ring in the order of their addresses.
-/

namespace Xv6Vsd.FreeList

open List Function

abbrev header : Nat := 8

structure Extent where
  addr : Nat
  units : Nat
  deriving DecidableEq

namespace Extent

def stop (b : Extent) : Nat := b.addr + header * b.units

def Has (b : Extent) (x : Nat) : Prop := b.addr ≤ x ∧ x < b.stop

def Gap (b c : Extent) : Prop := b.stop < c.addr

end Extent

def Covers (l : List Extent) (x : Nat) : Prop := ∃ b ∈ l, b.Has x

structure Heap where
  ptr : Nat → Nat
  size : Nat → Nat
  freep : Nat

namespace Heap

/-! ## Freeing -/

def join (h : Heap) (x next : Nat) : Heap := if x + header * h.size x = next then
    { h with size := update h.size x (h.size x + h.size next), ptr := update h.ptr x (h.ptr next) }
  else { h with ptr := update h.ptr x next }

def search (h : Heap) (bp : Nat) : (fuel p : Nat) → Option Nat
  | 0, _ => none
  | fuel + 1, p =>
    if p < bp ∧ bp < h.ptr p then some p
    else if h.ptr p ≤ p ∧ (p < bp ∨ bp < h.ptr p) then some p
    else h.search bp fuel (h.ptr p)

def free (h : Heap) (fuel bp : Nat) : Option Heap :=
  (h.search bp fuel h.freep).map fun p => { (h.join bp (h.ptr p)).join p bp with freep := p }

/-! ## Allocating -/

/-- Walk on from `p` to a block of at least `n` units; `prev` is the block before `p`. The walk ends after one round. -/
def scan (h : Heap) (n : Nat) : (fuel prev p : Nat) → Option (Option (Nat × Nat))
  | 0, _, _ => none
  | fuel + 1, prev, p =>
    if n ≤ h.size p then some (some (prev, p))
    else if p = h.freep then some none
    else h.scan n fuel p (h.ptr p)

def take (h : Heap) (prev p n : Nat) : Nat × Heap :=
  if h.size p = n then (p, { h with ptr := update h.ptr prev (h.ptr p), freep := prev })
  else
    let rest := h.size p - n
    let q := p + header * rest
    (q, { h with size := update (update h.size p rest) q n, freep := prev })

def more (h : Heap) (fuel nu q : Nat) : Option Heap := { h with size := update h.size q nu }.free fuel q

/-- Take `n` units. When no block is large enough a region of `nu` units is added; `answers` says
where, until the system refuses. The result is the block, and the regions that were added. -/
def alloc (fuel n nu : Nat) (answers : List (Option Nat)) (h : Heap) : Option (Option Nat × Heap × List Nat) :=
  match h.scan n fuel h.freep (h.ptr h.freep) with
  | none => none
  | some (some (prev, p)) =>
    let (q, h) := h.take prev p n
    some (some q, h, [])
  | some none =>
    match answers with
    | some q :: answers =>
      match h.more fuel nu q with
      | none => none
      | some h => (alloc fuel n nu answers h).map fun (r, h, got) => (r, h, q :: got)
    | _ => some (none, h, [])

end Heap

/-! ## The ring -/

def start (z : Nat) : List Extent → Nat
  | [] => z
  | b :: _ => b.addr

/-- The headers of the blocks are in memory, each linked to the next one and the last one to `z`. -/
def Linked (h : Heap) (z : Nat) : List Extent → Prop
  | [] => True
  | b :: l => h.size b.addr = b.units ∧ h.ptr b.addr = start z l ∧ Linked h z l

structure Heap.Ring (h : Heap) (base : Nat) (l : List Extent) : Prop where
  linked : Linked h base (⟨base, 0⟩ :: l)
  gaps : (⟨base, 0⟩ :: l).Pairwise Extent.Gap
  pos : ∀ b ∈ l, 0 < b.units
  freep : h.freep ∈ base :: l.map Extent.addr

section

variable {h h' : Heap} {z base a x : Nat} {l A B : List Extent} {b c q : Extent}

theorem start_append (z : Nat) (A B : List Extent) : start z (A ++ B) = start (start z B) A := by
  cases A <;> rfl

theorem linked_append : Linked h z (A ++ B) ↔ Linked h (start z B) A ∧ Linked h z B := by
  induction A with
  | nil => simp [Linked]
  | cons b A ih => simp only [cons_append, Linked, ih, start_append, and_assoc]

theorem Linked.congr (hl : Linked h z l) (hptr : ∀ b ∈ l, h'.ptr b.addr = h.ptr b.addr)
    (hsize : ∀ b ∈ l, h'.size b.addr = h.size b.addr) : Linked h' z l := by
  induction l with
  | nil => trivial
  | cons b l ih =>
    obtain ⟨h1, h2, h3⟩ := hl
    refine ⟨?_, ?_, ih h3 (fun c hc => hptr c (mem_cons_of_mem _ hc)) fun c hc => hsize c (mem_cons_of_mem _ hc)⟩
    · rw [hsize b mem_cons_self, h1]
    · rw [hptr b mem_cons_self, h2]

theorem Linked.size (hl : Linked h z l) (hb : b ∈ l) : h.size b.addr = b.units := by
  induction l with
  | nil => cases hb
  | cons c l ih =>
    obtain ⟨h1, -, h3⟩ := hl
    cases hb with
    | head => exact h1
    | tail _ hb => exact ih h3 hb

theorem Linked.chain (hl : Linked h z (b :: l)) : Chain h.ptr b.addr (l.map Extent.addr) z := by
  induction l generalizing b with
  | nil => exact hl.2.1
  | cons c l ih => exact ⟨hl.2.1, ih hl.2.2⟩

theorem covers_nil : ¬ Covers [] x := by simp [Covers]

theorem covers_cons : Covers (b :: l) x ↔ b.Has x ∨ Covers l x := by simp [Covers]

theorem covers_append : Covers (A ++ B) x ↔ Covers A x ∨ Covers B x := by
  simp [Covers, or_and_right, exists_or]

/-! ## Joining -/

def joined (b : Extent) : List Extent → List Extent
  | [] => [b]
  | c :: l => if b.stop = c.addr then ⟨b.addr, b.units + c.units⟩ :: l else b :: c :: l

theorem start_joined : start z (joined b l) = b.addr := by
  cases l with
  | nil => rfl
  | cons c l =>
    rw [joined]
    split <;> rfl

theorem covers_joined : Covers (joined b l) x ↔ b.Has x ∨ Covers l x := by
  cases l with
  | nil => exact covers_cons
  | cons c l =>
    rw [joined]
    split
    · next hstop =>
      rw [covers_cons, covers_cons, ← or_assoc]
      refine or_congr_left ?_
      simp only [Extent.Has, Extent.stop, header] at hstop ⊢
      omega
    · exact covers_cons

theorem join_frame (h : Heap) (next : Nat) (ha : a ≠ x) :
    (h.join x next).ptr a = h.ptr a ∧ (h.join x next).size a = h.size a := by
  unfold Heap.join
  split <;> simp [ha]

theorem Linked.join_frame (hl : Linked h z l) (next : Nat) (hout : ∀ c ∈ l, c.addr ≠ x) : Linked (h.join x next) z l :=
  hl.congr (fun c hc => (FreeList.join_frame h next (hout c hc)).1)
    fun c hc => (FreeList.join_frame h next (hout c hc)).2

theorem Linked.join (hl : Linked h z l) (hb : h.size b.addr = b.units) (hout : ∀ c ∈ l, c.addr ≠ b.addr)
    (hz : l = [] → b.stop ≠ z) : Linked (h.join b.addr (start z l)) z (joined b l) := by
  have hstop : b.addr + header * h.size b.addr = b.stop := by rw [hb, Extent.stop]
  have hl' := hl.join_frame (start z l) hout
  unfold Heap.join at hl' ⊢
  rw [hstop] at hl' ⊢
  cases l with
  | nil => rw [start, if_neg (hz rfl)]; exact ⟨hb, update_self .., trivial⟩
  | cons c l =>
    obtain ⟨h1, h2, -⟩ := hl
    rw [start] at hl' ⊢
    rw [joined]
    split
    · next hc => rw [if_pos hc] at hl'; exact ⟨by simp [hb, h1], by simp [h2], hl'.2.2⟩
    · next hc => rw [if_neg hc] at hl'; exact ⟨hb, update_self .., hl'⟩

theorem Extent.addr_le_stop (b : Extent) : b.addr ≤ b.stop := Nat.le_add_right ..

theorem Extent.has_addr (hb : 0 < b.units) : b.Has b.addr := by
  simp only [Extent.Has, Extent.stop, header]; omega

theorem gaps_joined (hl : l.Pairwise Extent.Gap) (hb : ∀ c ∈ l, b.stop ≤ c.addr) :
    (joined b l).Pairwise Extent.Gap := by
  cases l with
  | nil => simp [joined]
  | cons c l =>
    obtain ⟨hc, hl⟩ := pairwise_cons.mp hl
    have hbc := hb c mem_cons_self
    rw [joined]
    split
    · next hstop =>
      refine pairwise_cons.mpr ⟨fun e he => ?_, hl⟩
      have := hc e he
      simp only [Extent.Gap, Extent.stop, header] at *
      omega
    refine pairwise_cons.mpr ⟨fun e he => ?_, pairwise_cons.mpr ⟨hc, hl⟩⟩
    cases he with
    | head => simp only [Extent.Gap]; omega
    | tail _ he =>
      have := hc e he
      have := c.addr_le_stop
      simp only [Extent.Gap] at *
      omega

theorem mem_joined (hc : c ∈ joined b l) : c ∈ l ∨ (c.addr = b.addr ∧ b.units ≤ c.units) := by
  cases l with
  | nil => rw [joined, mem_singleton] at hc; exact .inr ⟨by rw [hc], Nat.le_of_eq (by rw [hc])⟩
  | cons e l =>
    rw [joined] at hc
    split at hc
    · obtain rfl | hc := mem_cons.mp hc
      · exact .inr ⟨rfl, Nat.le_add_right ..⟩
      · exact .inl (mem_cons_of_mem _ hc)
    obtain rfl | hc := mem_cons.mp hc
    · exact .inr ⟨rfl, Nat.le_refl _⟩
    · exact .inl hc

theorem joined_eq_cons (b : Extent) (l : List Extent) :
    ∃ c l', joined b l = c :: l' ∧ c.addr = b.addr ∧ b.units ≤ c.units ∧ l'.length ≤ l.length := by
  cases l with
  | nil => exact ⟨b, [], rfl, rfl, Nat.le_refl _, Nat.le_refl _⟩
  | cons c l =>
    rw [joined]
    split
    · exact ⟨_, l, rfl, rfl, Nat.le_add_right .., Nat.le_succ _⟩
    · exact ⟨b, c :: l, rfl, rfl, Nat.le_refl _, Nat.le_refl _⟩

/-! ## Walking along the ring -/

def Behind (h : Heap) (bp p : Nat) : Prop := (p < bp ∧ bp < h.ptr p) ∨ (h.ptr p ≤ p ∧ (p < bp ∨ bp < h.ptr p))

theorem search_chain {bp p fuel} {xs} (hc : Chain h.ptr p xs z) (hex : ∃ q ∈ p :: xs, Behind h bp q)
    (hf : xs.length < fuel) : ∃ q ∈ p :: xs, Behind h bp q ∧ h.search bp fuel p = some q := by
  induction xs generalizing p fuel with
  | nil =>
    obtain _ | fuel := fuel
    · cases hf
    obtain ⟨q, hq, hb⟩ := hex
    obtain rfl := mem_singleton.mp hq
    refine ⟨q, hq, hb, ?_⟩
    rw [Heap.search]
    split
    · rfl
    · next hno => rw [if_pos (hb.resolve_left hno)]
  | cons y xs ih =>
    obtain _ | fuel := fuel
    · cases hf
    rw [Heap.search]
    split
    · next hb => exact ⟨p, mem_cons_self, .inl hb, rfl⟩
    next hno =>
    split
    · next hb => exact ⟨p, mem_cons_self, .inr hb, rfl⟩
    next hno' =>
    obtain ⟨q, hq, hb⟩ := hex
    obtain rfl | hq := mem_cons.mp hq
    · exact absurd hb (not_or.mpr ⟨hno, hno'⟩)
    obtain ⟨q', hq', hb', he⟩ := ih hc.2 ⟨q, hq, hb⟩ (Nat.lt_of_succ_lt_succ hf)
    rw [hc.1]
    exact ⟨q', mem_cons_of_mem _ hq', hb', he⟩

theorem scan_chain {n w fuel} {xs} (hc : Chain h.ptr w xs h.freep) (hout : h.freep ∉ xs)
    (hf : xs.length < fuel) :
    (∃ u ∈ w :: xs, n ≤ h.size (h.ptr u) ∧ h.scan n fuel w (h.ptr w) = some (some (u, h.ptr u))) ∨
      (h.scan n fuel w (h.ptr w) = some none ∧ ∀ y ∈ h.freep :: xs, h.size y < n) := by
  induction xs generalizing w fuel with
  | nil =>
    obtain _ | fuel := fuel
    · cases hf
    rw [Heap.scan]
    split
    · next hfit => exact .inl ⟨w, mem_cons_self, hfit, rfl⟩
    next hfit =>
    have hw : h.ptr w = h.freep := hc
    rw [hw] at hfit
    rw [if_pos hw]
    exact .inr ⟨rfl, by simpa using hfit⟩
  | cons y xs ih =>
    obtain _ | fuel := fuel
    · cases hf
    obtain ⟨hw, hc⟩ := hc
    rw [mem_cons, not_or] at hout
    rw [Heap.scan]
    split
    · next hfit => exact .inl ⟨w, mem_cons_self, hfit, rfl⟩
    next hfit =>
    rw [hw, if_neg (Ne.symm hout.1)]
    obtain ⟨u, hu, hn, he⟩ | ⟨he, hall⟩ := ih hc hout.2 (Nat.lt_of_succ_lt_succ hf)
    · exact .inl ⟨u, mem_cons_of_mem _ hu, hn, he⟩
    refine .inr ⟨he, fun y' hy' => ?_⟩
    rw [hw, Nat.not_le] at hfit
    simp only [mem_cons] at hy'
    obtain rfl | rfl | hy' := hy'
    · exact hall _ mem_cons_self
    · exact hfit
    · exact hall _ (mem_cons_of_mem _ hy')

theorem split_at {bp} (hl : (b :: l).Pairwise Extent.Gap) (hb : b.addr < bp) :
    ∃ A c B, b :: l = A ++ c :: B ∧ c.addr < bp ∧ ∀ e ∈ B, bp ≤ e.addr := by
  induction l generalizing b with
  | nil => exact ⟨[], b, [], rfl, hb, fun e he => by cases he⟩
  | cons c l ih =>
    obtain ⟨-, hl⟩ := pairwise_cons.mp hl
    by_cases hc : c.addr < bp
    · obtain ⟨A, d, B, he, hd, hB⟩ := ih hl hc; exact ⟨b :: A, d, B, by rw [he]; rfl, hd, hB⟩
    refine ⟨[], b, c :: l, rfl, hb, fun e he => ?_⟩
    obtain rfl | he := mem_cons.mp he
    · omega
    · have hgap : c.stop < e.addr := (pairwise_cons.mp hl).1 e he; have := c.addr_le_stop; omega

namespace Heap.Ring

variable (hr : h.Ring base l)
include hr

theorem base_lt (hb : b ∈ l) : base < b.addr := (pairwise_cons.mp hr.gaps).1 b hb

theorem base_le (hb : b ∈ ⟨base, 0⟩ :: l) : base ≤ b.addr := by
  obtain rfl | hb := mem_cons.mp hb
  · exact Nat.le_refl _
  · exact Nat.le_of_lt (hr.base_lt hb)

theorem ptr (he : ⟨base, 0⟩ :: l = A ++ c :: B) : h.ptr c.addr = start base B := by
  have hl := hr.linked
  rw [he, linked_append] at hl
  exact hl.2.2.1

theorem chain : Chain h.ptr base (l.map Extent.addr) base := hr.linked.chain

theorem from_freep : ∃ xs, Chain h.ptr h.freep xs h.freep ∧ (h.freep :: xs).Perm (base :: l.map Extent.addr) :=
  hr.chain.rotate hr.freep

theorem addrs_nodup : (base :: l.map Extent.addr).Nodup := by
  have hlt : ((⟨base, 0⟩ :: l).map Extent.addr).Pairwise (· < ·) := by
    refine pairwise_map.mpr (hr.gaps.imp fun {b c} hgap => ?_)
    have := b.addr_le_stop
    simp only [Extent.Gap] at hgap
    omega
  exact hlt.imp fun hab => Nat.ne_of_lt hab

theorem behind_exists {bp} (hbp : base < bp) (hout : bp ∉ l.map Extent.addr) :
    ∃ q ∈ base :: l.map Extent.addr, Behind h bp q := by
  obtain ⟨A, c, B, he, hc, hB⟩ := split_at hr.gaps hbp
  have hmem : c ∈ ⟨base, 0⟩ :: l := by rw [he]; simp
  refine ⟨c.addr, mem_map_of_mem (f := Extent.addr) hmem, ?_⟩
  rw [Behind, hr.ptr he]
  cases B with
  | nil => exact .inr ⟨hr.base_le hmem, .inl hc⟩
  | cons e B =>
    refine .inl ⟨hc, Nat.lt_of_le_of_ne (hB e mem_cons_self) fun heq => ?_⟩
    have hel : e ∈ ⟨base, 0⟩ :: l := by rw [he]; simp
    obtain rfl | hel := mem_cons.mp hel
    · exact absurd heq (Nat.ne_of_gt hbp)
    · rw [heq] at hout; exact hout (mem_map_of_mem hel)

theorem behind {bp p : Nat} (hbp : base < bp) (hp : p ∈ base :: l.map Extent.addr) (hb : Behind h bp p) :
    ∃ A c B, ⟨base, 0⟩ :: l = A ++ c :: B ∧ c.addr = p ∧ p < bp ∧ ∀ e ∈ B, bp < e.addr := by
  obtain ⟨c, hc, rfl⟩ := mem_map.mp (show p ∈ (⟨base, 0⟩ :: l).map Extent.addr from hp)
  obtain ⟨A, B, he⟩ := append_of_mem hc
  refine ⟨A, c, B, he, rfl, ?_⟩
  have hgaps := hr.gaps
  rw [he, pairwise_append] at hgaps
  have hcB := pairwise_cons.mp hgaps.2.1
  rw [Behind, hr.ptr he] at hb
  cases B with
  | nil =>
    refine ⟨?_, fun e he => by cases he⟩
    simp only [start] at hb
    omega
  | cons e B =>
    have hce : c.stop < e.addr := hcB.1 e mem_cons_self
    have := c.addr_le_stop
    simp only [start] at hb
    refine ⟨by omega, fun d hd => ?_⟩
    obtain rfl | hd := mem_cons.mp hd
    · omega
    · have hed : e.stop < d.addr := (pairwise_cons.mp hcB.2).1 d hd; have := e.addr_le_stop; omega

theorem addr_notMem (hout : ∀ x, b.Has x → ¬ Covers l x) (hpos : 0 < b.units) : b.addr ∉ l.map Extent.addr := by
  intro hmem
  obtain ⟨e, he, heq⟩ := mem_map.mp hmem
  refine hout b.addr (Extent.has_addr hpos) ⟨e, he, ?_⟩
  rw [← heq]
  exact Extent.has_addr (hr.pos e he)

end Heap.Ring

theorem covers_base : Covers (⟨base, 0⟩ :: l) x ↔ Covers l x := by
  rw [covers_cons]
  refine or_iff_right fun hx => ?_
  simp only [Extent.Has, Extent.stop, header] at hx
  omega

theorem mem_joined_joined {e} (he : e ∈ joined c (joined b B)) :
    e ∈ B ∨ (e.addr = b.addr ∧ b.units ≤ e.units) ∨ (e.addr = c.addr ∧ c.units ≤ e.units) := by
  obtain he | he := mem_joined he
  · exact (mem_joined he).imp_right .inl
  · exact .inr (.inr he)

theorem covers_joined_joined : Covers (A ++ joined c (joined b B)) x ↔ Covers (A ++ c :: B) x ∨ b.Has x := by
  rw [covers_append, covers_joined, covers_joined, covers_append, covers_cons]; tauto

theorem joined_joined_large (b c : Extent) (B : List Extent) : ∃ e ∈ joined c (joined b B), b.units ≤ e.units := by
  obtain ⟨d, R, hd, -, hle, -⟩ := joined_eq_cons b B
  rw [hd, joined]
  split
  · exact ⟨_, mem_cons_self, Nat.le_trans hle (Nat.le_add_left ..)⟩
  · exact ⟨d, by simp, hle⟩

structure Between (base : Nat) (b : Extent) (A : List Extent) (c : Extent) (B : List Extent) : Prop where
  gaps : (A ++ c :: B).Pairwise Extent.Gap
  above : base < b.addr
  before : c.stop ≤ b.addr
  lt : c.addr < b.addr
  behind : ∀ e ∈ B, b.stop ≤ e.addr
  pos : 0 < b.units

namespace Between

variable (hb : Between base b A c B)
include hb

theorem ne_of_mem {e} (he : e ∈ B) : e.addr ≠ b.addr := by
  have hstop := hb.behind e he
  have := hb.pos
  simp only [Extent.stop, header] at hstop
  omega

theorem joined_gaps : (A ++ joined c (joined b B)).Pairwise Extent.Gap := by
  obtain ⟨hA, hcB, hAc⟩ := pairwise_append.mp hb.gaps
  obtain ⟨hc, hB⟩ := pairwise_cons.mp hcB
  refine pairwise_append.mpr ⟨hA, gaps_joined (gaps_joined hB hb.behind) fun e he => ?_, fun a ha e he => ?_⟩
  · obtain he | ⟨he, -⟩ := mem_joined he
    · exact Nat.le_of_lt (hc e he)
    · rw [he]; exact hb.before
  have hac : a.stop < c.addr := hAc a ha c mem_cons_self
  obtain he | ⟨he, -⟩ | ⟨he, -⟩ := mem_joined_joined he
  · exact hAc a ha e (mem_cons_of_mem _ he)
  · have := hb.lt; rw [Extent.Gap, he]; omega
  · rw [Extent.Gap, he]; exact hac

theorem linked (hl : Linked h base (A ++ c :: B)) (hsize : h.size b.addr = b.units) (hA : ∀ e ∈ A, e.addr < c.addr) :
    Linked ((h.join b.addr (h.ptr c.addr)).join c.addr b.addr) base (A ++ joined c (joined b B)) := by
  obtain ⟨hlA, hc, hptr, hlB⟩ := linked_append.mp hl
  have hne := Nat.ne_of_lt hb.lt
  have h1B : Linked (h.join b.addr (start base B)) base (joined b B) := by
    refine hlB.join hsize (fun e he => hb.ne_of_mem he) fun _ => ?_
    have := hb.above
    have := b.addr_le_stop
    omega
  have h1c : (h.join b.addr (start base B)).size c.addr = c.units := by
    rw [(join_frame h _ hne).2, hc]
  have hcout : ∀ e ∈ joined b B, e.addr ≠ c.addr := by
    intro e he
    have := hb.lt
    obtain he | ⟨he, -⟩ := mem_joined he
    · have := hb.behind e he; have := b.addr_le_stop; omega
    · omega
  have h2 := h1B.join h1c hcout fun hnil => by
    obtain ⟨d, l', hd, -⟩ := joined_eq_cons b B
    simp [hd] at hnil
  rw [start_joined] at h2
  rw [hptr, linked_append]
  refine ⟨?_, h2⟩
  rw [start_joined]
  have hlt : ∀ e ∈ A, e.addr ≠ b.addr ∧ e.addr ≠ c.addr := by
    intro e he
    have := hA e he
    have := hb.lt
    omega
  exact (hlA.join_frame _ fun e he => (hlt e he).1).join_frame _ fun e he => (hlt e he).2

end Between

end

end Xv6Vsd.FreeList
