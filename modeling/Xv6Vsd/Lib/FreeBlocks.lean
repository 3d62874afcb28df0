import Xv6Vsd.Lib.FreeList

/-! # What freeing and allocating do to the ring -/

namespace Xv6Vsd.FreeList

open Function List Option

section

variable {h h' : Heap} {base a x : Nat} {l A B : List Extent} {b c q : Extent}

namespace Heap.Ring

theorem mem_of_lt (hb : b ∈ ⟨base, 0⟩ :: l) (hlt : base < b.addr) : b ∈ l := by
  obtain rfl | hb := mem_cons.mp hb
  · exact absurd hlt (Nat.lt_irrefl _)
  · exact hb

theorem between {p : Nat} (hr : h.Ring base l) (hpos : 0 < b.units) (hbase : base < b.addr)
    (hout : ∀ x, b.Has x → ¬ Covers l x) (hp : p ∈ base :: l.map Extent.addr) (hb : Behind h b.addr p) :
    ∃ A c B, ⟨base, 0⟩ :: l = A ++ c :: B ∧ c.addr = p ∧ Between base b A c B := by
  obtain ⟨A, c, B, he, rfl, hlt, hB⟩ := hr.behind hbase hp hb
  have hmem : ∀ e ∈ A ++ c :: B, base < e.addr → e ∈ l := by
    rw [← he]
    exact fun e he hlt => mem_of_lt he hlt
  refine ⟨A, c, B, he, rfl, he ▸ hr.gaps, hbase, ?_, hlt, fun e heB => ?_, hpos⟩
  · -- otherwise `c` contains the start of `b`
    by_contra hstop
    by_cases hc : base < c.addr
    · exact hout b.addr (Extent.has_addr hpos) ⟨c, hmem c (by simp) hc, Nat.le_of_lt hlt, Nat.not_le.mp hstop⟩
    have hcL : c ∈ ⟨base, 0⟩ :: l := by rw [he]; simp
    obtain rfl | hcl := mem_cons.mp hcL
    · simp only [Extent.stop, header] at hstop; omega
    · exact hc (hr.base_lt hcl)
  · by_contra hstop
    have heb := hB e heB
    have hel : e ∈ l := hmem e (by simp [heB]) (by omega)
    exact hout e.addr ⟨Nat.le_of_lt heb, Nat.not_le.mp hstop⟩ ⟨e, hel, Extent.has_addr (hr.pos e hel)⟩

theorem joined_base (he : ⟨base, 0⟩ :: l = A ++ c :: B) (hb : Between base b A c B) :
    ∃ l', A ++ joined c (joined b B) = ⟨base, 0⟩ :: l' := by
  cases A with
  | nil =>
    obtain ⟨rfl, rfl⟩ := cons.inj he
    obtain ⟨d, R, hd, haddr, -⟩ := joined_eq_cons b l
    refine ⟨d :: R, ?_⟩
    rw [nil_append, hd, joined, if_neg]
    have := hb.above
    simp only [Extent.stop, header]
    omega
  | cons a A => obtain ⟨rfl, -⟩ := cons.inj he; exact ⟨_, rfl⟩

theorem free {fuel : Nat} (hr : h.Ring base l) (hsize : h.size b.addr = b.units) (hpos : 0 < b.units)
    (hbase : base < b.addr)
    (hout : ∀ x, b.Has x → ¬ Covers l x) (hf : l.length < fuel) :
    ∃ h' l', h.free fuel b.addr = some h' ∧ h'.Ring base l' ∧ (∀ x, Covers l' x ↔ Covers l x ∨ b.Has x) ∧
      (∀ a, a ≠ base → a ≠ b.addr → ¬ Covers l a → h'.size a = h.size a) ∧ (∃ e ∈ l', b.units ≤ e.units) ∧
      l'.length ≤ l.length + 1 := by
  obtain ⟨xs, hchain, hperm⟩ := hr.from_freep
  obtain ⟨p0, hp0, hb0⟩ := hr.behind_exists hbase (hr.addr_notMem hout hpos)
  have hlen : xs.length < fuel := by have := hperm.length_eq; simp at this; omega
  obtain ⟨p, hp, hb, hsearch⟩ := search_chain hchain ⟨p0, hperm.mem_iff.mpr hp0, hb0⟩ hlen
  obtain ⟨A, c, B, he, rfl, hbt⟩ := hr.between hpos hbase hout (hperm.mem_iff.mp hp) hb
  obtain ⟨l', hl'⟩ := joined_base he hbt
  have hgaps := hbt.joined_gaps
  have hA : ∀ e ∈ A, e.addr < c.addr := by
    intro e heA
    have hgap : e.stop < c.addr := (pairwise_append.mp hbt.gaps).2.2 e heA c mem_cons_self
    have := e.addr_le_stop
    omega
  have hlinked := hbt.linked (he ▸ hr.linked) hsize hA
  have hmem : ∀ e ∈ A ++ c :: B, base < e.addr → e ∈ l := by
    rw [← he]
    exact fun e he hlt => mem_of_lt he hlt
  have hcovers : ∀ x, Covers l' x ↔ Covers l x ∨ b.Has x := by
    intro x
    rw [← covers_base, ← hl', covers_joined_joined, ← he, covers_base]
  rw [hl'] at hgaps hlinked
  refine ⟨{ (h.join b.addr (h.ptr c.addr)).join c.addr b.addr with freep := c.addr }, l', ?_,
    ⟨hlinked.congr (fun _ _ => rfl) fun _ _ => rfl,
    hgaps, fun e hel => ?_, ?_⟩, hcovers, fun a ha hab hal => ?_, ?_, ?_⟩
  · rw [Heap.free, hsearch]; rfl
  · have hlt : base < e.addr := (pairwise_cons.mp hgaps).1 e hel
    have heL : e ∈ A ++ joined c (joined b B) := by rw [hl']; exact mem_cons_of_mem _ hel
    obtain heA | heJ := mem_append.mp heL
    · exact hr.pos e (hmem e (by simp [heA]) hlt)
    obtain heB | ⟨-, hle⟩ | ⟨heq, hle⟩ := mem_joined_joined heJ
    · exact hr.pos e (hmem e (by simp [heB]) hlt)
    · exact Nat.lt_of_lt_of_le hpos hle
    · exact Nat.lt_of_lt_of_le (hr.pos c (hmem c (by simp) (heq ▸ hlt))) hle
  · obtain ⟨d, R, hd, hdc, -⟩ := joined_eq_cons c (joined b B)
    have hdL : d ∈ ⟨base, 0⟩ :: l' := by rw [← hl', hd]; simp
    show c.addr ∈ (⟨base, 0⟩ :: l').map Extent.addr
    rw [← hdc]
    exact mem_map_of_mem hdL
  · have hac : a ≠ c.addr := by
      rintro rfl
      have hcL : c ∈ ⟨base, 0⟩ :: l := by rw [he]; simp
      obtain rfl | hcl := mem_cons.mp hcL
      · exact ha rfl
      · exact hal ⟨c, hcl, Extent.has_addr (hr.pos c hcl)⟩
    show ((h.join b.addr (h.ptr c.addr)).join c.addr b.addr).size a = h.size a
    rw [(join_frame _ _ hac).2, (join_frame _ _ hab).2]
  · obtain ⟨e, heJ, hle⟩ := joined_joined_large b c B
    have heL : e ∈ ⟨base, 0⟩ :: l' := by rw [← hl']; exact mem_append_right _ heJ
    obtain rfl | hel := mem_cons.mp heL
    · exact absurd hle (by simp; omega)
    · exact ⟨e, hel, hle⟩
  · obtain ⟨d, R, hd, -, -, hR⟩ := joined_eq_cons b B
    obtain ⟨d', R', hd', -, -, hR'⟩ := joined_eq_cons c (joined b B)
    have hlen := congrArg length he
    have hlen' := congrArg length hl'
    rw [hd'] at hlen'
    rw [hd] at hR'
    simp only [length_cons, length_append] at hlen hlen' hR'
    omega

theorem head_kept (he : ⟨base, 0⟩ :: l = A ++ c :: B) (B' : List Extent) : ∃ l', A ++ c :: B' = ⟨base, 0⟩ :: l' := by
  cases A with
  | nil => obtain ⟨rfl, -⟩ := cons.inj he; exact ⟨B', rfl⟩
  | cons a A => obtain ⟨rfl, -⟩ := cons.inj he; exact ⟨_, rfl⟩

theorem alone_of_gaps (hg : (A ++ b :: B).Pairwise Extent.Gap) (hx : b.Has x) : ¬ Covers (A ++ B) x := by
  obtain ⟨-, hbB, hA⟩ := pairwise_append.mp hg
  rintro ⟨e, he, hex⟩
  obtain he | he := mem_append.mp he
  · have hgap : e.stop < b.addr := hA e he b mem_cons_self
    obtain ⟨-, hlt⟩ := hex
    have := hx.1
    omega
  · have hgap : b.stop < e.addr := (pairwise_cons.mp hbB).1 e he
    obtain ⟨hle, -⟩ := hex
    have := hx.2
    omega

structure Took (h : Heap) (base : Nat) (l : List Extent) (n a : Nat) (h' : Heap) (l' : List Extent) : Prop where
  ring : h'.Ring base l'
  size : h'.size a = n
  above : base < a
  covers : ∀ x, Covers l x ↔ Covers l' x ∨ (⟨a, n⟩ : Extent).Has x
  alone : ∀ x, (⟨a, n⟩ : Extent).Has x → ¬ Covers l' x
  frame : ∀ c, ¬ Covers l c → h'.size c = h.size c

theorem next_of_size {u n} (hr : h.Ring base l) (hu : u ∈ base :: l.map Extent.addr) (hn : 0 < n)
    (hfit : n ≤ h.size (h.ptr u)) :
    ∃ A c v B, ⟨base, 0⟩ :: l = A ++ c :: v :: B ∧ c.addr = u ∧ h.ptr u = v.addr ∧ n ≤ v.units ∧ v ∈ l := by
  obtain ⟨c, hc, rfl⟩ := mem_map.mp (show u ∈ (⟨base, 0⟩ :: l).map Extent.addr from hu)
  obtain ⟨A, B, he⟩ := append_of_mem hc
  have hptr := hr.ptr he
  cases B with
  | nil => rw [hptr, start, hr.linked.1] at hfit; exact absurd hfit (Nat.not_le.mpr hn)
  | cons v B =>
    have hvL : v ∈ ⟨base, 0⟩ :: l := by rw [he]; simp
    rw [hptr, start, hr.linked.size hvL] at hfit
    refine ⟨A, c, v, B, he, rfl, hptr, hfit, ?_⟩
    obtain rfl | hv := mem_cons.mp hvL
    · exact absurd hfit (Nat.not_le.mpr hn)
    · exact hv

theorem lt_of_gaps (hg : (A ++ c :: B).Pairwise Extent.Gap) :
    (∀ e ∈ A, e.stop < c.addr ∧ e.addr < c.addr) ∧ ∀ e ∈ B, c.stop < e.addr ∧ c.addr < e.addr := by
  obtain ⟨-, hcB, hA⟩ := pairwise_append.mp hg
  refine ⟨fun e he => ?_, fun e he => ?_⟩
  · have hgap : e.stop < c.addr := hA e he c mem_cons_self
    exact ⟨hgap, Nat.lt_of_le_of_lt e.addr_le_stop hgap⟩
  · have hgap : c.stop < e.addr := (pairwise_cons.mp hcB).1 e he
    exact ⟨hgap, Nat.lt_of_le_of_lt c.addr_le_stop hgap⟩

theorem gaps_shrink (hg : (A ++ c :: B).Pairwise Extent.Gap) (haddr : b.addr = c.addr) (hstop : b.stop ≤ c.stop) :
    (A ++ b :: B).Pairwise Extent.Gap := by
  obtain ⟨hA, hcB, hAc⟩ := pairwise_append.mp hg
  obtain ⟨hc, hB⟩ := pairwise_cons.mp hcB
  refine pairwise_append.mpr ⟨hA, pairwise_cons.mpr ⟨fun e he => ?_, hB⟩, fun a ha e he => ?_⟩
  · exact Nat.lt_of_le_of_lt hstop (hc e he)
  obtain rfl | he := mem_cons.mp he
  · rw [Extent.Gap, haddr]; exact hAc a ha c mem_cons_self
  · exact hAc a ha e (mem_cons_of_mem _ he)

theorem covers_behind {v} {l'} (B' : List Extent) (he : ⟨base, 0⟩ :: l = A ++ c :: v :: B)
    (hl' : A ++ c :: (B' ++ B) = ⟨base, 0⟩ :: l') (hv : v.Has x ↔ Covers B' x ∨ b.Has x) :
    Covers l x ↔ Covers l' x ∨ b.Has x := by
  rw [← covers_base, he, ← covers_base (l := l'), ← hl']
  simp only [covers_append, covers_cons, hv]
  tauto

variable (hr : h.Ring base l)

include hr

theorem replaced {v} {D l'} (he : ⟨base, 0⟩ :: l = A ++ c :: v :: B)
    (hl' : A ++ c :: (D ++ B) = ⟨base, 0⟩ :: l') (hlinked : Linked h' base (A ++ c :: (D ++ B)))
    (hgaps : (A ++ c :: (D ++ B)).Pairwise Extent.Gap) (hD : ∀ e ∈ D, 0 < e.units) (hp : h'.freep = c.addr) :
    h'.Ring base l' := by
  rw [hl'] at hlinked hgaps
  refine ⟨hlinked, hgaps, fun e hel => ?_, ?_⟩
  · have heL : e ∈ A ++ c :: (D ++ B) := by rw [hl']; exact mem_cons_of_mem _ hel
    have hold : e ∈ ⟨base, 0⟩ :: l → 0 < e.units := fun heL =>
      hr.pos e (mem_of_lt heL ((pairwise_cons.mp hgaps).1 e hel))
    simp only [he, mem_append, mem_cons] at heL hold
    obtain heA | rfl | heD | heB := heL
    · exact hold (.inl heA)
    · exact hold (by simp)
    · exact hD e heD
    · exact hold (by simp [heB])
  · have hcL : c ∈ ⟨base, 0⟩ :: l' := by rw [← hl']; simp
    rw [hp]
    exact mem_map_of_mem (f := Extent.addr) hcL

theorem take_all {v} (he : ⟨base, 0⟩ :: l = A ++ c :: v :: B) (hv : v ∈ l) :
    ∃ l', Took h base l v.units v.addr { h with ptr := update h.ptr c.addr (h.ptr v.addr), freep := c.addr } l' := by
  obtain ⟨l', hl'⟩ := head_kept he B
  have hgaps := hr.gaps
  have hlinked := hr.linked
  rw [he] at hgaps hlinked
  obtain ⟨hA, hB⟩ := lt_of_gaps hgaps
  obtain ⟨hlA, hc, -, hvs, hvp, hlB⟩ := linked_append.mp hlinked
  have hgaps' := hgaps.sublist (List.Sublist.append_left (List.Sublist.cons_cons c (sublist_cons_self v B)) A)
  refine ⟨l', hr.replaced (D := []) he hl' (linked_append.mpr ?_) hgaps' (by simp) rfl, hvs, hr.base_lt hv, fun x => ?_,
    fun x hx => ?_, fun _ _ => rfl⟩
  · refine ⟨hlA.congr (fun e he => ?_) fun _ _ => rfl, hc, ?_, hlB.congr (fun e he => ?_) fun _ _ => rfl⟩
    · exact update_of_ne (Nat.ne_of_lt (hA e he).2) ..
    · show update h.ptr c.addr (h.ptr v.addr) c.addr = start base B; rw [update_self, hvp]
    · exact update_of_ne (Nat.ne_of_gt (hB e (mem_cons_of_mem _ he)).2) ..
  · exact covers_behind [] he hl' (by simp [covers_nil])
  · rw [← covers_base, ← hl', show A ++ c :: B = (A ++ [c]) ++ B by simp]
    refine alone_of_gaps ?_ hx
    simpa using hgaps

theorem take_end {n} {v} (he : ⟨base, 0⟩ :: l = A ++ c :: v :: B) (hv : v ∈ l) (hn : 0 < n)
    (hlt : n < v.units) :
    ∃ l', Took h base l n (v.addr + header * (v.units - n)) { h with
      size := update (update h.size v.addr (v.units - n)) (v.addr + header * (v.units - n)) n
      freep := c.addr } l' := by
  obtain ⟨l', hl'⟩ := head_kept he (⟨v.addr, v.units - n⟩ :: B)
  have hgaps := hr.gaps
  have hlinked := hr.linked
  rw [he] at hgaps hlinked
  obtain ⟨hA, hcB⟩ := lt_of_gaps hgaps
  obtain ⟨-, hB⟩ := lt_of_gaps (A := A ++ [c]) (c := v) (B := B) (by simpa using hgaps)
  obtain ⟨hlA, hc, hcp, hvs, hvp, hlB⟩ := linked_append.mp hlinked
  have hcv := (hcB v mem_cons_self).2
  have hstop : v.stop = v.addr + header * v.units := rfl
  have hsize : ∀ e : Extent, e.addr < v.addr ∨ v.stop < e.addr → update (update h.size v.addr (v.units - n))
    (v.addr + header * (v.units - n)) n e.addr = h.size e.addr := by
    intro e hev
    simp only [header] at hstop ⊢
    rw [update_of_ne (by omega), update_of_ne (by omega)]
  have hgaps' : (A ++ c :: ⟨v.addr, v.units - n⟩ :: B).Pairwise Extent.Gap := by
    have hshrunk := gaps_shrink (A := A ++ [c]) (b := ⟨v.addr, v.units - n⟩) (c := v) (B := B)
      (by simpa using hgaps) rfl ?_
    · simpa using hshrunk
    · simp only [Extent.stop, header]; omega
  refine ⟨l', hr.replaced (D := [⟨v.addr, v.units - n⟩]) he hl' (linked_append.mpr ?_) hgaps' ?_ rfl, update_self ..,
    ?_,
    fun x => ?_, fun x hx hcov => ?_, fun a ha => ?_⟩
  · refine ⟨hlA.congr (fun _ _ => rfl) fun e he => hsize e (.inl (Nat.lt_trans (hA e he).2 hcv)), ?_, hcp, ?_, hvp,
      hlB.congr (fun _ _ => rfl) fun e he => hsize e (.inr (hB e he).1)⟩
    · exact (hsize c (.inl hcv)).trans hc
    show update (update h.size v.addr (v.units - n)) (v.addr + header * (v.units - n)) n v.addr = v.units - n
    simp only [header]
    rw [update_of_ne (by omega), update_self]
  · exact forall_mem_singleton.mpr (Nat.sub_pos_of_lt hlt)
  · have := hr.base_lt hv; omega
  · refine covers_behind [⟨v.addr, v.units - n⟩] he hl' ?_
    simp only [covers_cons, covers_nil, or_false, Extent.Has, Extent.stop, header]
    omega
  · have hvx : v.Has x := by simp only [Extent.Has, Extent.stop, header] at hx ⊢; omega
    have hrest := alone_of_gaps (A := A ++ [c]) (B := B) (by simpa using hgaps) hvx
    rw [← covers_base, ← hl'] at hcov
    simp only [covers_append, covers_cons] at hcov hrest
    obtain hin | hin | hin | hin := hcov
    · exact hrest (.inl (.inl hin))
    · exact hrest (.inl (.inr (.inl hin)))
    · simp only [Extent.Has, Extent.stop, header] at hin hx; omega
    · exact hrest (.inr hin)
  · have hav : ∀ m < v.units, a ≠ v.addr + header * m := by
      rintro m hm rfl
      refine ha ⟨v, hv, Nat.le_add_right .., ?_⟩
      simp only [Extent.stop, header]
      omega
    have h0 := hav 0 (by omega)
    exact (update_of_ne (hav _ (by omega)) ..).trans (update_of_ne (by simpa using h0) ..)

theorem take {u n : Nat} (hu : u ∈ base :: l.map Extent.addr) (hn : 0 < n) (hfit : n ≤ h.size (h.ptr u)) :
    ∃ l', Took h base l n (h.take u (h.ptr u) n).1 (h.take u (h.ptr u) n).2 l' := by
  obtain ⟨A, c, v, B, he, rfl, hptr, hle, hv⟩ := hr.next_of_size hu hn hfit
  have hsize := hr.linked.size (mem_cons_of_mem _ hv)
  rw [Heap.take, hptr, hsize]
  split
  · next heq => subst heq; exact hr.take_all he hv
  · next hne => exact hr.take_end he hv hn (by omega)

theorem scan (n fuel : Nat) (hf : l.length < fuel) : (∃ u ∈ base :: l.map Extent.addr, n ≤ h.size (h.ptr u) ∧
      h.scan n fuel h.freep (h.ptr h.freep) = some (some (u, h.ptr u))) ∨
      (h.scan n fuel h.freep (h.ptr h.freep) = some none ∧ ∀ b ∈ l, b.units < n) := by
  obtain ⟨xs, hchain, hperm⟩ := hr.from_freep
  have hout : h.freep ∉ xs := (nodup_cons.mp (hperm.nodup_iff.mpr hr.addrs_nodup)).1
  have hlen : xs.length < fuel := by have := hperm.length_eq; simp at this; omega
  obtain ⟨u, hu, hfit, he⟩ | ⟨he, hall⟩ := scan_chain (n := n) hchain hout hlen
  · exact .inl ⟨u, hperm.mem_iff.mp hu, hfit, he⟩
  refine .inr ⟨he, fun b hb => ?_⟩
  rw [← hr.linked.size (mem_cons_of_mem _ hb)]
  exact hall _ (hperm.mem_iff.mpr (mem_cons_of_mem _ (mem_map_of_mem hb)))

theorem setSize (ha : a ∉ base :: l.map Extent.addr) (n : Nat) : { h with size := update h.size a n }.Ring base l := by
  refine ⟨hr.linked.congr (fun _ _ => rfl) fun b hb => update_of_ne ?_ .., hr.gaps, hr.pos, hr.freep⟩
  rintro rfl
  exact ha (mem_map_of_mem (f := Extent.addr) hb)

end Heap.Ring

def regions (nu : Nat) (l : List Nat) : List Extent := l.map fun q => ⟨q, nu⟩

/-- What a request for `n` units comes to: `r` is the block and `got` are the regions that were added. -/
structure Served (h : Heap) (base : Nat) (l : List Extent) (n nu : Nat) (answers : List (Option Nat)) (r : Option Nat)
    (h' : Heap) (got : List Nat) (l' : List Extent) : Prop where
  ring : h'.Ring base l'
  asked : got = [] ∨ ∃ q, answers.head? = some (some q) ∧ got = [q]
  covers : ∀ x, Covers l x ∨ Covers (regions nu got) x ↔ Covers l' x ∨ Covers (regions n r.toList) x
  alone : ∀ x, Covers (regions n r.toList) x → ¬ Covers l' x
  size : ∀ a, r = some a → h'.size a = n ∧ base < a
  frame : ∀ c, c ≠ base → ¬ Covers l c → ¬ Covers (regions nu got) c → h'.size c = h.size c
  refused : r = none → ∀ q, answers.head? ≠ some (some q)

namespace Heap.Ring

theorem covers_regions {n q} : Covers (regions n [q]) x ↔ (⟨q, n⟩ : Extent).Has x := by
  simp [regions, Covers]

theorem alloc_found {fuel n u} (hr : h.Ring base l) (nu : Nat) (answers : List (Option Nat)) (hn : 0 < n)
    (hu : u ∈ base :: l.map Extent.addr) (hfit : n ≤ h.size (h.ptr u))
    (hscan : h.scan n fuel h.freep (h.ptr h.freep) = some (some (u, h.ptr u))) :
    ∃ a h' l', alloc fuel n nu answers h = some (some a, h', []) ∧ Took h base l n a h' l' := by
  obtain ⟨l', ht⟩ := hr.take hu hn hfit
  refine ⟨_, _, l', ?_, ht⟩
  unfold Heap.alloc
  rw [hscan]

theorem alloc (hr : h.Ring base l) {fuel n nu} (answers : List (Option Nat)) (hn : 0 < n) (hnu : n ≤ nu)
    (hfresh : ∀ q, answers.head? = some (some q) → base < q ∧ ∀ x, (⟨q, nu⟩ : Extent).Has x → ¬ Covers l x)
    (hf : l.length + 1 < fuel) :
    ∃ r h' got l', alloc fuel n nu answers h = some (r, h', got) ∧ Served h base l n nu answers r h' got l' := by
  obtain ⟨u, hu, hfit, hscan⟩ | ⟨hscan, hall⟩ := hr.scan n fuel (by omega)
  · obtain ⟨a, h', l', he, ht⟩ := hr.alloc_found nu answers hn hu hfit hscan
    refine ⟨some a, h', [], l', he, ht.ring, .inl rfl, fun x => ?_, fun x hx => ?_, fun b hb => ?_,
      fun c _ hc _ => ht.frame c hc, fun hnone => by cases hnone⟩
    · rw [toList_some, covers_regions, ht.covers]; simp [regions, covers_nil]
    · rw [toList_some, covers_regions] at hx; exact ht.alone x hx
    · cases hb; exact ⟨ht.size, ht.above⟩
  -- a region is added if the system gives one, and then a block in it is found
  unfold Heap.alloc
  rw [hscan]
  dsimp only
  split
  · next q answers =>
    obtain ⟨hbase, hout⟩ := hfresh q rfl
    have hpos : 0 < nu := by omega
    have hq : q ∉ base :: l.map Extent.addr := by
      rw [mem_cons, not_or]
      exact ⟨Nat.ne_of_gt hbase, hr.addr_notMem (b := ⟨q, nu⟩) hout hpos⟩
    obtain ⟨h₁, l1, he1, hr1, hcov1, hframe1, ⟨e, hel, hle⟩, hlen1⟩ :=
      (hr.setSize hq nu).free (b := ⟨q, nu⟩) (update_self ..) hpos hbase hout (Nat.lt_of_succ_lt hf)
    rw [Heap.more, he1]
    dsimp only
    obtain ⟨u, hu, hfit, hscan1⟩ | ⟨-, hall1⟩ := hr1.scan n fuel (by omega)
    · obtain ⟨a, h', l', he, ht⟩ := hr1.alloc_found nu answers hn hu hfit hscan1
      rw [he]
      refine ⟨some a, h', [q], l', rfl, ht.ring, .inr ⟨q, rfl, rfl⟩, fun x => ?_, fun x hx => ?_, fun b hb => ?_,
        fun c hc hcl hcq => ?_, fun hnone => by cases hnone⟩
      · rw [toList_some, covers_regions, covers_regions, ← hcov1, ht.covers]
      · rw [toList_some, covers_regions] at hx; exact ht.alone x hx
      · cases hb; exact ⟨ht.size, ht.above⟩
      rw [covers_regions] at hcq
      have hne : c ≠ q := by rintro rfl; exact hcq (Extent.has_addr (b := ⟨c, nu⟩) hpos)
      rw [ht.frame c (by rw [hcov1]; exact not_or.mpr ⟨hcl, hcq⟩), hframe1 c hc hne hcl]
      exact update_of_ne hne ..
    · exact absurd (hall1 e hel) (Nat.not_lt.mpr (Nat.le_trans hnu hle))
  · next hno =>
    refine ⟨none, h, [], l, rfl, hr, .inl rfl, fun x => ?_, fun x hx => ?_, (fun b hb => by cases hb),
      fun _ _ _ _ => rfl, fun _ q hq => ?_⟩
    · simp [regions, covers_nil]
    · simp [regions, covers_nil] at hx
    cases answers with
    | nil => cases hq
    | cons o answers => cases hq; exact hno q answers rfl

end Heap.Ring

end

end Xv6Vsd.FreeList
