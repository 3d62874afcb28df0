import Xv6Vsd.Paging.Lemmas.Plenty

/-! # Loading a program -/

namespace Xv6Vsd.Paging

open Prog List Option Bool

variable {F : Ev → Prop} {m m' : Kmem} {t : List Ev} {d d' : Dir} {sz newsz : UInt32} {xs : List UInt8} {l : Link}

/-! ## The loop over the headers -/

theorem meets_loaduvm {addr off filesz out} :
    Meets F (fun _ => True) (fun _ _ m' => m' = m) (loaduvm xs d sz addr off filesz out) m := by
  have hloop : ∀ fuel i out, Meets F (fun _ => True) (fun _ _ m' => m' = m)
    (loaduvmFrom xs d sz addr off filesz.toNat fuel i out) m := by
    intro fuel
    induction fuel with
    | zero => exact fun _ _ => meets_pure rfl
    | succ fuel ih =>
      intro i out
      unfold loaduvmFrom
      split
      · dsimp only
        split
        · exact meets_panic trivial
        split
        · exact meets_pure rfl
        · exact ih _ _
      · exact meets_pure rfl
  unfold loaduvm
  split
  · exact meets_panic trivial
  · exact hloop _ _ _

section Loop

/-! Of an image, what `allocuvm` keeps is kept by the whole load. -/

variable {I : Dir → UInt32 → Kmem → Prop}
  (hI : ∀ d sz newsz m, I d sz m →
    Meets F (fun _ => True) (fun _ r m' => r.1 ≠ 0 → I r.2 r.1 m') (allocuvm d sz newsz) m)
include hI

theorem meets_loadSegments {left off out} (h : I d sz m) :
    Meets F (fun _ => True) (fun _ r m' => r.ok = true → I r.dir r.sz m') (loadSegments xs left off sz d out) m := by
  induction left generalizing off sz d out m with
  | zero => exact meets_pure fun _ => h
  | succ left ih =>
    unfold loadSegments
    dsimp only
    split
    · exact meets_pure fun hok => absurd hok false_ne_true
    split
    · exact ih h
    split
    · exact meets_pure fun hok => absurd hok false_ne_true
    refine (hI _ _ _ _ h).bind ?_
    rintro _ ⟨nsz, d'⟩ m1 hkept
    split
    · exact meets_pure fun hok => absurd hok false_ne_true
    next h0 =>
    refine meets_loaduvm.bind ?_
    rintro _ ⟨loaded, out'⟩ _ rfl
    dsimp only
    split
    · exact ih (hkept h0)
    · exact meets_pure fun hok => absurd hok false_ne_true

theorem execLoad_keeps {ld} (hset : Meets F (fun _ => True) (fun _ r m' => ∀ d, r = some d → I d 0 m') (setupkvm l) m)
    (hF : Always F (execLoad l xs) m) (he : (execLoad l xs).exec m = .ok (some ld) m') (hok : ld.ok = true) :
    I ld.dir ld.sz m' := by
  have hmeets : Meets F (fun _ => True) (fun _ r m' => ∀ ld, r = some ld → ld.ok = true → I ld.dir ld.sz m')
    (execLoad l xs) m := by
    unfold execLoad
    split
    · exact meets_pure nofun
    split
    · exact meets_pure nofun
    refine hset.bind ?_
    rintro _ r m1 hr
    cases r with
    | none => exact meets_pure nofun
    | some d =>
      dsimp only
      rw [← bind_pure_comp]
      refine (meets_loadSegments hI (hr d rfl)).bind fun _ r m' hr => meets_pure fun ld h => ?_
      cases h
      exact hr
  exact (hmeets hF).2 _ _ he ld rfl hok

end Loop

/-! ## Images -/

structure KernelHalf (d : Dir) : Prop where
  has : ∀ q, userpages ≤ q → (d.Has q ↔ KernelPage q)
  closed : ∀ q x, userpages ≤ q → d.pte q = some x → x.user = false

theorem Kernel.half (hd : Kernel KernelPage d) : KernelHalf d where
  has := fun q hq => by
    rw [hd.has]
    simp only [userpages] at hq
    constructor
    · rintro ⟨p, hp, hqp⟩; unfold KernelPage at hp ⊢; omega
    · exact fun h => ⟨q, h, rfl⟩
  closed := fun q x _ hx => by
    by_cases h : KernelPage q
    · obtain ⟨y, hy, huser⟩ := hd.mapped q h; rw [hx, some.injEq] at hy; rw [hy, huser]
    · simp [hd.unmapped q h] at hx

theorem KernelHalf.grow {a newsz} (h : KernelHalf d) (hnew : newsz ≤ 2147483648) (hg : Grown d m a newsz t d' m') :
    KernelHalf d' where
  has := fun q hq => by
    simp only [userpages] at hq
    rw [hg.has, ← h.has q (by simp only [userpages]; exact hq), or_iff_left]
    rintro ⟨p, -, hp, hqp⟩
    omega
  closed := fun q x hq hx => by
    have hq' := hq
    simp only [userpages] at hq'
    rw [hg.outside q (.inr (by omega))] at hx
    exact h.closed q x hq hx

/-- What a load leaves to which no page table was refused: an image of size `sz`, and the kernel above. -/
structure Image (d : Dir) (sz : UInt32) : Prop where
  small : sz.toNat < 2147483648
  has : ∀ q, q * 4096 < sz.toNat → d.Has q
  above : ∀ q, top sz ≤ q * 4096 → q < userpages → d.pte q = none
  kernel : KernelHalf d

theorem Image.empty (hd : Kernel KernelPage d) : Image d 0 where
  small := by decide
  has := fun q hq => by simp at hq
  above := fun q _ hq => hd.unmapped q fun h => by
    unfold KernelPage at h
    simp only [userpages] at hq
    omega
  kernel := hd.half

theorem lt_top {q} : q * 4096 < top sz ↔ q * 4096 < sz.toNat := by unfold top; omega

theorem Image.grow (h : Image d sz) (hle : sz ≤ newsz) (hlt : newsz.toNat < 2147483648)
    (hg : Grown d m (top sz) (top newsz) t d' m') : Image d' newsz where
  small := hlt
  has := fun q hq => by
    rw [hg.has]
    by_cases hold : q * 4096 < sz.toNat
    · exact .inl (h.has q hold)
    · exact .inr ⟨q, Nat.le_of_not_lt fun h => hold (lt_top.mp h), lt_top.mpr hq, rfl⟩
  above := fun q h1 h2 => by
    have htop : top sz ≤ top newsz := by rw [UInt32.le_iff_toNat_le] at hle; unfold top; omega
    rw [hg.outside q (.inr h1)]
    exact h.above q (htop.trans h1) h2
  kernel := h.kernel.grow (by unfold top; omega) hg

theorem Image.allocuvm (h : Image d sz) :
    Meets Granted (fun _ => True) (fun _ r _ => r.1 ≠ 0 → Image r.2 r.1) (allocuvm d sz newsz) m := by
  refine (meets_allocuvm (fun _ h => h) (.inr h.above)).mono fun t r m' hr h0 => ?_
  rcases hr with ⟨-, hn, -⟩ | ⟨-, hn, hd, -⟩ | ⟨hle, -, hlt, ⟨hn, hgrown⟩ | ⟨hn, -⟩⟩
  · exact absurd hn h0
  · rw [hn, hd]; exact h
  · rw [hn]; exact h.grow hle hlt hgrown
  · exact absurd hn h0

theorem execLoad_image {ld} (hF : Always Granted (execLoad l xs) m) (he : (execLoad l xs).exec m = .ok (some ld) m')
    (hok : ld.ok = true) : Image ld.dir ld.sz :=
  execLoad_keeps (I := fun d sz _ => Image d sz) (fun _ _ _ _ h => h.allocuvm)
    ((meets_setupkvm fun _ h => h).mono fun _ _ _ hr d hd => .empty (hr.2.2 d hd).2) hF he hok

/-! ## A memory with room -/

def roomy : Kmem where
  kend := 512
  freelist := List.range' 1000 1100
  refuses := fun _ => false
  asked := 0
  page _ := zeroPage
  kend_pos := kend_pos
  inside := fun f hf => by
    rw [List.mem_range'_1] at hf
    rw [pageOf_phystop]
    omega

/-- A program file without segments. -/
def onlyHeader : List UInt8 := [0x7f, 0x45, 0x4c, 0x46] ++ List.replicate 48 0

theorem execLoad_onlyHeader : Always Served (execLoad Link.small onlyHeader) roomy ∧ ∃ d m',
    (execLoad Link.small onlyHeader).exec roomy = .ok (some ⟨true, d, 0, []⟩) m' ∧ Kernel KernelPage d ∧ Plenty 2 d m' ∧
    m'.kend = 512 := by
  obtain ⟨hall, d, m', hset, hkernel, hplenty⟩ := setupkvm_plenty (l := Link.small) (k := 2) (m := roomy) (fun _ => rfl)
    (by simp [roomy])
  refine ⟨?_, d, m', ?_, hkernel, hplenty, (((meets_setupkvm (E := fun _ => False)
    fun _ => Served.granted) hall).2 _ _ hset).1.kend⟩
  · rw [execLoad, if_neg (by decide), if_neg (by decide)]
    refine hall.bind fun r m1 _ => ?_
    cases r <;> exact always_pure _ _
  · rw [execLoad, if_neg (by decide), if_neg (by decide), exec_bind, hset]; rfl

end Xv6Vsd.Paging
