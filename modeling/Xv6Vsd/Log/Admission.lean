import Mathlib.Algebra.Order.BigOperators.Group.Finset
import Mathlib.Order.Interval.Finset.Nat
import Xv6Vsd.Log.Isolation

/-!
# Admission to the log

`begin_op` admits an operation as if all `LOGSIZE` blocks of the log could hold copies, but one of
them is the header and `log_write` refuses to grow past `size - 1`.
-/

namespace Xv6Vsd

open Prog List Disk Nat

namespace Log

variable {d : Disk} {g : Group} {may : Finset UInt32 → Prop} {p a n m : Nat}

theorem commit_lh {d'} (h : commit.exec d = .ok () d') : d'.log.lh = [] := by
  obtain ⟨n, d1, h1, h⟩ := bind_ok h
  cases h1
  split at h
  · obtain ⟨_, d2, -, h⟩ := bind_ok h
    obtain ⟨_, d3, -, h⟩ := bind_ok h
    obtain ⟨_, d4, -, h⟩ := bind_ok h
    obtain ⟨_, d5, h5, h⟩ := bind_ok h
    cases h5
    rw [writeHead, exec_act] at h
    split at h <;> cases h
    rfl
  · rename_i hn
    cases h
    exact eq_nil_of_length_eq_zero (by omega)

def promised (g : Group) (inOp : Finset Nat) : Nat := ∑ p ∈ inOp, (maxopblocks - 1 - (g.phase p).used.card)

structure Admitted (g : Group) (inOp : Finset Nat) : Prop where
  iso : Isolated g inOp
  size : g.disk.log.size = logsize
  logged : ∀ p, (g.phase p).used ⊆ g.disk.log.lh.toFinset
  pending : ∀ p used b, g.phase p = .logging used b → (insert b used).card < maxopblocks
  room : g.disk.log.committing = false → g.disk.log.lh.length + promised g inOp ≤ logsize - 2
  empty : g.disk.log.committing = false → inOp = ∅ → g.disk.log.lh = []
  ends : ∀ p rest, g.phase p = .committing rest → ∀ d', rest.exec g.disk = .ok () d' → d'.log.lh = []

section

variable {g : Group} {inOp : Finset Nat} {p : Nat} {ph : Phase} {d : Disk}

theorem promised_insert (hp : p ∉ inOp) :
    promised (g.to p ph d) (insert p inOp) = (maxopblocks - 1 - ph.used.card) + promised g inOp := by
  rw [promised, Finset.sum_insert hp, Group.to_self, promised]
  congr 1
  refine Finset.sum_congr rfl fun q hq => ?_
  rw [Group.to_of_ne _ _ _ (by rintro rfl; exact hp hq)]

variable (g ph d) in
theorem promised_erase (hp : p ∈ inOp) :
    promised (g.to p ph d) (inOp.erase p) + (maxopblocks - 1 - (g.phase p).used.card) = promised g inOp := by
  rw [promised, promised, ← Finset.sum_erase_add _ _ hp]
  congr 1
  refine Finset.sum_congr rfl fun q hq => ?_
  rw [Group.to_of_ne _ _ _ (Finset.ne_of_mem_erase hq)]

variable (g ph d) in
theorem promised_within (hp : p ∈ inOp) : promised (g.to p ph d) inOp + (maxopblocks - 1 - (g.phase p).used.card) =
      promised g inOp + (maxopblocks - 1 - ph.used.card) := by
  have h1 := promised_erase g ph d hp
  have h2 : promised (g.to p ph d) (inOp.erase p) + (maxopblocks - 1 - ph.used.card) = promised (g.to p ph d) inOp := by
    rw [promised, promised, ← Finset.sum_erase_add _ _ hp, Group.to_self]
  omega

theorem promised_le (g : Group) (inOp : Finset Nat) : promised g inOp ≤ (maxopblocks - 1) * inOp.card := by
  rw [promised, mul_comm]; exact Finset.sum_le_card_nsmul _ _ _ fun q _ => sub_le ..

theorem Isolated.inOp_eq {S T} (h : Isolated g S) (hT : ∀ q, q ∈ T ↔ (g.phase q).InOp) : S = T := by
  ext q; rw [h.mem q, hT q]

namespace Admitted

theorem used_eq_empty (h : ¬ ph.InOp) : ph.used = ∅ := by
  cases ph with
  | outside => rfl
  | inside used | logging used b => exact absurd trivial h
  | committing rest => rfl

variable (h : Admitted g inOp)

include h

theorem logged_to (hlh : g.disk.log.lh ⊆ d.log.lh) (hph : ph.used ⊆ d.log.lh.toFinset) (q : Nat) :
    ((g.to p ph d).phase q).used ⊆ d.log.lh.toFinset := by
  by_cases hq : q = p
  · subst hq; rwa [Group.to_self]
  rw [Group.to_of_ne _ _ _ hq]
  intro x hx
  have := h.logged q hx
  simp only [mem_toFinset] at this ⊢
  exact hlh this

theorem pending_to (hph : ∀ used b, ph = .logging used b → (insert b used).card < maxopblocks)
    {q used b} (hq : (g.to p ph d).phase q = .logging used b) :
    (insert b used).card < maxopblocks := by
  rcases Group.to_phase_cases hq with ⟨-, hq⟩ | ⟨-, hq⟩
  · exact hph used b hq
  · exact h.pending q used b hq

theorem open_to {inOp'} (hiso : Isolated (g.to p ph d) inOp')
    (hsize : d.log.size = g.disk.log.size) (hdown : g.disk.log.committing = false)
    (hlh : g.disk.log.lh ⊆ d.log.lh) (hused : ph.used ⊆ d.log.lh.toFinset)
    (hpend : ∀ used b, ph = .logging used b → (insert b used).card < maxopblocks)
    (hroom : d.log.lh.length + promised (g.to p ph d) inOp' ≤ logsize - 2)
    (hempty : d.log.committing = false → inOp' = ∅ → d.log.lh = [])
    (hends : ∀ rest, ph = .committing rest → ∀ d', rest.exec d = .ok () d' → d'.log.lh = []) :
    Admitted (g.to p ph d) inOp' := by
  refine ⟨hiso, hsize.trans h.size, h.logged_to hlh hused, fun q used b => h.pending_to hpend,
    fun _ => hroom, hempty, ?_⟩
  intro q rest hq d' hd'
  rcases Group.to_phase_cases hq with ⟨-, hq⟩ | ⟨-, hq⟩
  · exact hends rest hq d' hd'
  · exact absurd hq (h.iso.no_commit hdown)

theorem append {used b} (hp : g.phase p = .logging used b)
    (hiso : Isolated (g.to p (.inside (insert b used)) (g.disk.logAppend b)) inOp) (hmem : p ∈ inOp)
    (hdown : g.disk.log.committing = false) :
    Admitted (g.to p (.inside (insert b used)) (g.disk.logAppend b)) inOp := by
  have hlogged := h.logged p
  rw [hp] at hlogged
  have hsub : g.disk.log.lh ⊆ (g.disk.logAppend b).log.lh := by
    rw [logAppend_lh]
    split
    · exact List.Subset.refl _
    · exact subset_append_left _ _
  have hb : b ∈ (g.disk.logAppend b).log.lh := by
    rw [logAppend_lh]
    split
    · assumption
    · simp
  refine h.open_to hiso (g.disk.logAppend_size b) hdown hsub ?_ (by simp) ?_ ?_ (by simp)
  · intro x hx
    simp only [Phase.used, Finset.mem_insert, mem_toFinset] at hx ⊢
    rcases hx with rfl | hx
    · exact hb
    · exact hsub (mem_toFinset.mp (hlogged hx))
  · have hsum := promised_within g (.inside (insert b used)) (g.disk.logAppend b) hmem
    have hroom := h.room hdown
    have hcard := h.pending p used b hp
    rw [hp] at hsum
    simp only [Phase.used] at hsum
    rw [logAppend_lh]
    split
    · have := Finset.card_le_card (Finset.subset_insert b used); omega
    rename_i hnew
    have hused : b ∉ used := fun hx => hnew (mem_toFinset.mp (hlogged hx))
    rw [Finset.card_insert_of_notMem hused] at hsum hcard
    simp only [length_append, length_singleton]
    omega
  · intro _ he; rw [he] at hmem; simp at hmem

theorem step (hm : Moved (fun s => s.card < maxopblocks) g p ph d) : ∃ inOp', Admitted (g.to p ph d) inOp' := by
  obtain ⟨inOp', hiso⟩ := h.iso.step hm
  have hz : g.disk.log.size ≠ 0 := by rw [h.size]; decide
  have hin : (g.phase p).InOp → p ∈ inOp := (h.iso.mem p).mpr
  have hcount := h.iso.count
  rw [if_neg hz] at hcount
  refine ⟨inOp', ?_⟩
  cases hm with
  | enterNoLog hp hs => exact absurd hs hz
  | enter hp hs hc hn =>
    have hout : p ∉ inOp := fun hmem => by
      have := (h.iso.mem p).mp hmem
      rwa [hp] at this
    obtain rfl := hiso.inOp_eq (h.iso.mem_insert trivial)
    refine h.open_to hiso rfl hc (List.Subset.refl _) (Finset.empty_subset _) (by simp) ?_ ?_ (by simp)
    · rw [promised_insert hout]
      have hle := promised_le g inOp
      simp only [Phase.used, Finset.card_empty, setOut_lh, logsize, maxopblocks] at hle ⊢
      -- alone in the log the operation finds it empty, else the header's block is not needed
      rcases inOp.eq_empty_or_nonempty with rfl | hne
      · have := h.empty hc rfl; rw [this]; simp [promised]
      · have := Finset.card_pos.mpr hne; omega
    · intro _ he; simp at he
  | @test used b x hp hmay hn =>
    have hmem := hin (by rw [hp]; trivial)
    have hdown := h.iso.flag_down (p := p) (by rw [hp]; trivial)
    obtain rfl := hiso.inOp_eq (h.iso.mem_within (by rw [hp]; trivial) trivial)
    refine h.open_to hiso rfl hdown (List.Subset.refl _) ?_ ?_ ?_ ?_ (by simp)
    · have := h.logged p; rwa [hp] at this
    · rintro _ _ ⟨⟩; exact hmay
    · have := promised_within g (.logging used b) (g.disk.store b.toNat x) hmem
      rw [hp] at this
      simp only [Phase.used] at this
      have := h.room hdown
      rw [store_log]
      omega
    · intro _ he; rw [he] at hmem; simp at hmem
  | append hp =>
    have hmem := hin (by rw [hp]; trivial)
    have hdown := h.iso.flag_down (p := p) (by rw [hp]; trivial)
    obtain rfl := hiso.inOp_eq (h.iso.mem_within (by rw [hp]; trivial) trivial)
    exact h.append hp hiso hmem hdown
  | bwrite x hp hs | leaveNoLog hp hs => exact absurd hs hz
  | leave hp hs hc ho =>
    have hmem := hin (by rw [hp]; trivial)
    obtain rfl := hiso.inOp_eq (h.iso.mem_erase id)
    refine h.open_to hiso rfl hc (List.Subset.refl _) (Finset.empty_subset _) (by simp) ?_ ?_ (by simp)
    · have := promised_erase g .outside (g.disk.setOut (g.disk.log.outstanding - 1)) hmem
      have := h.room hc
      simp only [setOut_lh]
      omega
    intro _ he
    have := Finset.card_erase_of_mem hmem
    have := Finset.card_pos.mpr ⟨p, hmem⟩
    rw [he] at *
    simp only [Finset.card_empty] at *
    omega
  | last hp hs hc ho =>
    have hmem := hin (by rw [hp]; trivial)
    obtain rfl := hiso.inOp_eq (h.iso.mem_erase id)
    refine h.open_to hiso rfl hc (List.Subset.refl _) (Finset.empty_subset _) (by simp) ?_ ?_ ?_
    · have := promised_erase g (.committing Log.commit) ((g.disk.setOut 0).setCommitting true) hmem
      have := h.room hc
      simp only [setOut_lh, setCommitting_lh]
      omega
    · intro hc'; simp at hc'
    · rintro _ ⟨⟩ d' hd'; exact commit_lh hd'
  | commit hp hf =>
    have hup := h.iso.flag p _ hp
    have hctl := (h.iso.rest p _ hp).1.1 _ _ _ hf
    simp only [ctl, Prod.mk.injEq] at hctl
    obtain ⟨hs, -, hc⟩ := hctl
    have hquiet := (hiso.quiet (hc.trans hup)).2
    refine ⟨hiso, hs.trans h.size, ?_, fun q used b => h.pending_to (by simp), ?_, ?_, ?_⟩
    · intro q
      rw [used_eq_empty]
      · exact Finset.empty_subset _
      · rw [← hiso.mem q, hquiet]; simp
    · intro hc'; rw [Group.to_disk, hc, hup] at hc'; cases hc'
    · intro hc'; rw [Group.to_disk, hc, hup] at hc'; cases hc'
    · intro q rest hq d' hd'
      rcases Group.to_phase_cases hq with ⟨-, hq⟩ | ⟨hne, hq⟩
      · cases hq; exact h.ends p _ hp d' (by rw [exec_step, hf]; exact hd')
      · exact absurd (h.iso.one q p _ _ hq hp) hne
  | release hp =>
    have hlh : g.disk.log.lh = [] := h.ends p _ hp _ rfl
    obtain ⟨-, rfl⟩ := h.iso.quiet (h.iso.flag p _ hp)
    obtain rfl := hiso.inOp_eq (h.iso.mem_erase id)
    refine ⟨hiso, h.size, ?_, fun q used b => h.pending_to (by simp), ?_, fun _ _ => hlh, ?_⟩
    · exact h.logged_to (List.Subset.refl _) (Finset.empty_subset _)
    · intro _; simp [hlh, promised]
    intro q rest hq
    rcases Group.to_phase_cases hq with ⟨-, hq⟩ | ⟨hne, hq⟩
    · cases hq
    · exact absurd (h.iso.one q p _ _ hq hp) hne

end Admitted

end

theorem admitted_start (hd : Fresh d) (hs : d.log.size = logsize) : Admitted (.start d) ∅ := by
  refine ⟨isolated_start hd, hs, fun p => Finset.empty_subset _, ?_, ?_, fun _ _ => hd.lh, ?_⟩
  · intro p used b hp; cases hp
  · intro _; simp [Group.start, hd.lh, promised]
  · intro p rest hp; cases hp

theorem Isolated.panic_full {inOp msg} (hI : Isolated g inOp) (hs : Step may g p (.panic msg)) :
    msg = "too big a transaction" ∧ (logsize ≤ g.disk.log.lh.length ∨ g.disk.log.size - 1 ≤ g.disk.log.lh.length) ∧
      (g.phase p).InOp := by
  rcases hs.panic_cases with ⟨used, hp, hz, hmsg⟩ | ⟨used, hp, -, hc⟩ | ⟨rest, hp, hcalm⟩
  · have hin : (g.phase p).InOp := by rw [hp]; trivial
    rcases hmsg with ⟨rfl, hbig⟩ | ⟨-, hout⟩
    · exact ⟨rfl, hbig, hin⟩
    have hcount := hI.count
    have := Finset.card_pos.mpr ⟨p, (hI.mem p).mpr hin⟩
    rw [if_neg hz] at hcount
    omega
  · have := hI.flag_down (p := p) (by rw [hp]; trivial); simp [hc] at this
  · exact absurd (hI.rest p rest hp).2 hcalm

theorem Reachable.no_panic (hd : Fresh d) (hs : d.log.size = logsize)
    (h : Reachable (fun s => s.card < maxopblocks) d g) {msg} :
    ¬ Step may g p (.panic msg) := by
  have hadm : ∃ inOp, Admitted g inOp := by
    refine h.invariant (I := fun g => ∃ inOp, Admitted g inOp) ⟨∅, admitted_start hd hs⟩ ?_
    rintro g g' p ⟨inOp, hI⟩ hs
    obtain ⟨ph, d, hm, rfl⟩ := hs.moved
    exact hI.step hm
  obtain ⟨inOp, hI⟩ := hadm
  intro hpanic
  obtain ⟨-, hbig, hin⟩ := hI.iso.panic_full hpanic
  have hroom := hI.room (hI.iso.flag_down hin)
  have hsize := hI.size
  simp only [logsize, maxopblocks] at hbig hroom hsize
  omega

theorem Reachable.no_outside (hd : Fresh d) (h : Reachable may d g) (p : Nat) :
    ¬ Step may g p (.panic "log_write outside of trans") := by
  obtain ⟨inOp, hI⟩ := h.isolated hd
  intro hpanic
  have := (hI.panic_full hpanic).1
  simp at this

/-- In every interleaving `outstanding` is the number of processes in an operation, and nothing panics but `log_write`
when the log is full. -/
theorem operations_counted (hd : Fresh d) (h : Reachable may d g) :
    (∃ inOp : Finset Nat, (∀ p, p ∈ inOp ↔ (g.phase p).InOp) ∧
      (g.disk.log.size ≠ 0 → g.disk.log.outstanding = inOp.card)) ∧
    ∀ p msg, Step may g p (.panic msg) → msg = "too big a transaction" ∧
      (logsize ≤ g.disk.log.lh.length ∨ g.disk.log.size - 1 ≤ g.disk.log.lh.length) := by
  obtain ⟨inOp, hI⟩ := h.isolated hd
  refine ⟨⟨inOp, hI.mem, fun hs => by rw [hI.count, if_neg hs]⟩, fun p msg hs => ?_⟩
  obtain ⟨hmsg, hbig, -⟩ := hI.panic_full hs
  exact ⟨hmsg, hbig⟩

theorem operations_counted_begin : ∃ g, Reachable (fun _ => True) idleDisk g ∧
    ∃ inOp : Finset Nat, 7 ∈ inOp ∧ g.disk.log.outstanding = inOp.card := by
  have hr : Reachable (fun _ => True) idleDisk _ := .step .start (.beginOp (p := 7) rfl)
  obtain ⟨inOp, hmem, hcount⟩ := (operations_counted fresh_idleDisk hr).1
  exact ⟨_, hr, inOp, (hmem 7).mpr trivial, hcount (by decide)⟩

theorem Step.mono {may'} (hle : ∀ s, may s → may' s) {r} (h : Step may g p r) : Step may' g p r := by
  cases h with
  | beginOp hp => exact .beginOp hp
  | logWrite x hp hmay hsize => exact .logWrite x hp (hle _ hmay) hsize
  | logAppend hp => exact .logAppend hp
  | bwrite x hp hmay hsize => exact .bwrite x hp (hle _ hmay) hsize
  | endOp hp => exact .endOp hp
  | commit hp => exact .commit hp
  | release hp => exact .release hp

theorem Reachable.mono {may'} (hle : ∀ s, may s → may' s) (h : Reachable may d g) : Reachable may' d g := by
  induction h with
  | start => exact .start
  | step _ hs ih => exact ih.step (hs.mono hle)

/-! ## Three operations of ten blocks -/

def blocks (a n : Nat) : Finset UInt32 := (Finset.Ico a n).image UInt32.ofNat

theorem card_blocks_le (a n : Nat) : (blocks a n).card ≤ n - a := Finset.card_image_le.trans (by simp)

theorem insert_blocks (h : a ≤ n) : insert (UInt32.ofNat n) (blocks a n) = blocks a (n + 1) := by
  rw [blocks, blocks, ← Finset.image_insert]
  congr 1
  ext i
  simp only [Finset.mem_insert, Finset.mem_Ico]
  omega

structure Filled (g : Group) (n : Nat) : Prop where
  size : g.disk.log.size = logsize
  outstanding : g.disk.log.outstanding = 3
  lh : g.disk.log.lh = (List.range n).map UInt32.ofNat

theorem ofNat_notMem_range (hn : n < 30) : UInt32.ofNat n ∉ (List.range n).map UInt32.ofNat := by
  intro h
  obtain ⟨i, hi, he⟩ := mem_map.mp h
  have hi := mem_range.mp hi
  have := congrArg UInt32.toNat he
  rw [UInt32.toNat_ofNat_of_lt' (by simp [UInt32.size]; omega),
    UInt32.toNat_ofNat_of_lt' (by simp [UInt32.size]; omega)] at this
  omega

theorem Filled.log (hr : Reachable (fun s => s.card ≤ m) d g) (h : Filled g n) (hp : g.phase p = .inside (blocks a n))
    (hn : n < 29) (ha : a ≤ n) (hm : n + 1 - a ≤ m) :
    ∃ g', Reachable (fun s => s.card ≤ m) d g' ∧
      g'.phase = Function.update g.phase p (.inside (blocks a (n + 1))) ∧ Filled g' (n + 1) := by
  have hlen : g.disk.log.lh.length = n := by rw [h.lh]; simp
  have hcheck : (g.disk.store (UInt32.ofNat n).toNat Bytes.zero).logWriteCheck =
    .ok () (g.disk.store (UInt32.ofNat n).toNat Bytes.zero) := by
    unfold logWriteCheck
    rw [store_log, if_neg (by rw [hlen, h.size]; simp only [logsize, maxopblocks]; omega),
      if_neg (by rw [h.outstanding]; omega)]
  have hmay : (insert (UInt32.ofNat n) (blocks a n)).card ≤ m := by
    rw [insert_blocks ha]
    exact (card_blocks_le a (n + 1)).trans hm
  have h1 : Step (fun s => s.card ≤ m) g p _ :=
    .logWrite (b := UInt32.ofNat n) Bytes.zero hp hmay (by rw [h.size]; decide)
  rw [hcheck, Res.ok_bind] at h1
  have h2 : Step (fun s => s.card ≤ m)
    (g.to p (.logging (blocks a n) (UInt32.ofNat n)) (g.disk.store (UInt32.ofNat n).toNat Bytes.zero)) p _ :=
    .logAppend (Group.to_self _ _ _ _)
  refine ⟨_, (hr.step h1).step h2, ?_, ?_, ?_, ?_⟩
  · rw [insert_blocks ha]; simp [Group.to]
  · exact (logAppend_size _ _).trans h.size
  · exact (logAppend_outstanding _ _).trans h.outstanding
  simp only [Group.to_disk, logAppend_lh, store_log, h.lh,
    if_neg (ofNat_notMem_range (by omega : n < 30)), range_succ, map_append, map_cons,
    map_nil]

theorem Filled.logs (hr : Reachable (fun s => s.card ≤ m) d g) (h : Filled g n) (hp : g.phase p = .inside (blocks a n))
    (ha : a ≤ n) (k : Nat) (hk : n + k ≤ 29) (hm : n + k - a ≤ m) :
    ∃ g', Reachable (fun s => s.card ≤ m) d g' ∧
      g'.phase = Function.update g.phase p (.inside (blocks a (n + k))) ∧ Filled g' (n + k) := by
  induction k with
  | zero => exact ⟨g, hr, by simp [← hp], h⟩
  | succ k ih =>
    obtain ⟨g1, hr1, hp1, h₁⟩ := ih (by omega) (by omega)
    obtain ⟨g2, hr2, hp2, h₂⟩ := h₁.log hr1 (p := p) (a := a) (by rw [hp1]; simp) (by omega) (by omega) (by omega)
    exact ⟨g2, hr2, by rw [hp2, hp1]; simp [add_assoc], h₂⟩

theorem overflow (hm : 10 ≤ m) : ∃ g, Reachable (fun s => s.card ≤ m) idleDisk g ∧
      Step (fun s => s.card ≤ m) g 2 (.panic "too big a transaction") := by
  have b0 : Reachable (fun s => s.card ≤ m) idleDisk _ := .step .start (.beginOp (p := 0) rfl)
  have b1 := b0.step (.beginOp (p := 1) rfl)
  have b2 := b1.step (.beginOp (p := 2) rfl)
  obtain ⟨g1, r1, p1, h₁⟩ := Filled.logs b2 (p := 0) (a := 0) (n := 0) ⟨rfl, rfl, rfl⟩ (by rfl)
    (by omega) 10 (by omega) (by omega)
  obtain ⟨g2, r2, p2, h₂⟩ := h₁.logs r1 (p := 1) (a := 10) (by rw [p1]; rfl) (by omega) 10 (by omega) (by omega)
  obtain ⟨g3, r3, p3, h3⟩ := h₂.logs r2 (p := 2) (a := 20) (by rw [p2, p1]; rfl) (by omega) 9 (by omega) (by omega)
  refine ⟨g3, r3, ?_⟩
  have hlen : g3.disk.log.lh.length = 29 := by rw [h3.lh]; simp
  have hmay : (insert (UInt32.ofNat 29) (blocks 20 29)).card ≤ m := by
    rw [insert_blocks (by omega)]
    exact (card_blocks_le 20 30).trans (by omega)
  have hs : Step (fun s => s.card ≤ m) g3 2 _ := .logWrite (b := UInt32.ofNat 29)
    Bytes.zero (by rw [p3]; simp) hmay (by rw [h3.size]; decide)
  unfold logWriteCheck at hs
  rwa [store_log, if_pos (by rw [hlen, h3.size]; decide)] at hs

/-- The reservation of `begin_op` is sound for operations of at most `m` blocks exactly when `m` is
below `MAXOPBLOCKS`. -/
theorem admission_sound_iff (m : Nat) :
    ((∀ d g p msg, Fresh d → d.log.size = logsize → Reachable (fun s => s.card ≤ m) d g →
      ¬ Step (fun s => s.card ≤ m) g p (.panic msg)) ↔ m < maxopblocks) ∧
    (∀ may d g p, Fresh d → Reachable may d g → ¬ Step may g p (.panic "log_write outside of trans")) := by
  refine ⟨⟨fun hsound => ?_, fun hm d g p msg hd hs hr => ?_⟩, fun may d g p hd hr => hr.no_outside hd p⟩
  · by_contra hm
    obtain ⟨g, hr, hpanic⟩ := overflow (m := m) (not_lt.mp hm)
    exact hsound idleDisk g 2 _ fresh_idleDisk rfl hr hpanic
  · exact (hr.mono fun s hs => Nat.lt_of_le_of_lt hs hm).no_panic hd hs

/-- Three operations of `MAXOPBLOCKS` blocks each. -/
theorem admission_overflow : ∃ g, Reachable (fun s => s.card ≤ maxopblocks) idleDisk g ∧
      Step (fun s => s.card ≤ maxopblocks) g 2 (.panic "too big a transaction") :=
  overflow (le_refl 10)

end Log

end Xv6Vsd
