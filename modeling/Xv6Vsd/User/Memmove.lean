import Xv6Vsd.Lib.Memory

/-! # Moving bytes (`string.c`, `ulib.c`, `user_string.c`) -/

namespace Xv6Vsd.Memory

variable {m : Memory} {a dst src n : UInt32}

def memcpy (m : Memory) (dst src n : UInt32) : Memory := m.memmove dst src n

def userMemmove (m : Memory) (dst src n : UInt32) : Memory := m.copyUp dst src n.toInt32.toInt.toNat

def userMemcpy (m : Memory) (dst src n : UInt32) : Memory := m.userMemmove dst src n

def Moves (m : Memory) (dst src n : UInt32) (m' : Memory) : Prop :=
  ∀ a, m'.byte a = if Among a dst n.toNat then m.byte (src + (a - dst)) else m.byte a

/-- A byte of both ranges is the same as the one which is as far below it as `src` is below `dst`. -/
def Repeats (m : Memory) (dst src n : UInt32) : Prop :=
  src < dst → ∀ a, Among a src n.toNat → Among a dst n.toNat → m.byte a = m.byte (a - (dst - src))

theorem copyUp_moves_iff {k} (hk : k ≤ 2 ^ 32) :
    (∀ a, Among a dst k → (m.copyUp dst src k).byte a = m.byte (src + (a - dst))) ↔
      ∀ a, Among a src k → (a - dst).toNat < (a - src).toNat → m.byte a = m.byte (src + (a - dst)) := by
  have hback : ∀ x y z : UInt32, x + (y - z) - x = y - z := fun x y z => by grind
  constructor
  · intro h a ha hlt
    -- the byte is copied to `b`, but is overwritten before that
    obtain ⟨b, hb⟩ : ∃ b, b - dst = a - src := ⟨dst + (a - src), hback ..⟩
    have hsrc : src + (b - dst) = a := by rw [hb]; grind
    have hin : Among b dst k := by rw [Among, hb]; exact ha
    have hat := copyUp_at (m := m) (s := src) hk hin
    rw [hsrc, hb, if_pos (show Among a dst _ from hlt), h b hin, hsrc] at hat
    rw [hat, h a (Nat.lt_trans hlt ha)]
  · intro h a ha
    induction hi : (a - dst).toNat using Nat.strongRecOn generalizing a with
    | ind i ih =>
      subst hi
      rw [copyUp_at hk ha]
      split
      · next hx =>
        rw [ih _ hx _ (Nat.lt_trans hx ha) rfl]
        refine (h _ ?_ ?_).symm
        · rw [Among, hback]; exact ha
        · rw [hback]; exact hx
      · rfl

theorem overwritten_iff (hd : dst.toNat + n.toNat ≤ 2 ^ 32) (hs : src.toNat + n.toNat ≤ 2 ^ 32)
    (ha : Among a src n.toNat) :
    (a - dst).toNat < (a - src).toNat ↔ src < dst ∧ Among a dst n.toNat := by
  have hdlt := dst.toNat_lt
  have hslt := src.toNat_lt
  simp only [Among, UInt32.toNat_sub, UInt32.lt_iff_toNat_lt] at *
  omega

theorem memmove_moves (hd : dst.toNat + n.toNat ≤ 2 ^ 32) (hs : src.toNat + n.toNat ≤ 2 ^ 32) :
    m.Moves dst src n (m.memmove dst src n) := by
  intro a
  unfold memmove
  split
  · next h =>
    have hdist : dst + n - (src + n) = dst - src := by grind
    have hlt := UInt32.lt_iff_toNat_lt.mp h.1
    have hstart : dst + n - n = dst := by grind
    have hfrom : src + n + (a - (dst + n)) = src + (a - dst) := by grind
    rw [copyDown_byte n.toNat_lt, UInt32.ofNat_toNat, hstart, hfrom]
    rw [hdist, UInt32.toNat_sub_of_le _ _ (UInt32.le_of_lt h.1)]
    omega
  · next h =>
    have hn := Nat.le_of_lt n.toNat_lt
    split
    · next ha =>
      refine (copyUp_moves_iff hn).mpr (fun b hb hlt => absurd ?_ h) a ha
      obtain ⟨hlow, hin⟩ := (overwritten_iff hd hs hb).mp hlt
      refine ⟨hlow, ?_⟩
      have hlt := b.toNat_lt
      have hdlt := dst.toNat_lt
      simp only [Among, UInt32.toNat_sub, UInt32.lt_iff_toNat_lt, UInt32.toNat_add] at *
      omega
    · next ha => exact copyUp_frame hn ha

theorem toNat_toInt32 (n : UInt32) : n.toInt32.toInt.toNat = if n.toNat < 2 ^ 31 then n.toNat else 0 := by
  have hn := n.toNat_lt
  rw [← Int32.toInt_toBitVec, UInt32.toBitVec_toInt32, BitVec.toInt_eq_toNat_bmod, UInt32.toNat_toBitVec, Int.bmod_def]
  split <;> split <;> omega

theorem userMemmove_moves_iff (hd : dst.toNat + n.toNat ≤ 2 ^ 32) (hs : src.toNat + n.toNat ≤ 2 ^ 32) :
    m.Moves dst src n (m.copyUp dst src n.toNat) ↔ m.Repeats dst src n := by
  have hn := Nat.le_of_lt n.toNat_lt
  have hframe : m.Moves dst src n (m.copyUp dst src n.toNat) ↔
      ∀ a, Among a dst n.toNat → (m.copyUp dst src n.toNat).byte a = m.byte (src + (a - dst)) := by
    refine forall_congr' fun a => ?_
    by_cases ha : Among a dst n.toNat
    · simp [ha]
    · simp [ha, copyUp_frame hn ha]
  have hlower : ∀ a, src + (a - dst) = a - (dst - src) := fun a => by grind
  rw [hframe, copyUp_moves_iff hn]
  constructor
  · intro h hlow a ha hin
    rw [h a ha ((overwritten_iff hd hs ha).mpr ⟨hlow, hin⟩), hlower]
  intro h a ha hlt
  obtain ⟨hlow, hin⟩ := (overwritten_iff hd hs ha).mp hlt
  rw [h hlow a ha hin, hlower]

/-- The user's routine takes a signed length, and it always copies upwards. -/
theorem all_move_iff (m : Memory) (hd : dst.toNat + n.toNat ≤ 2 ^ 32) (hs : src.toNat + n.toNat ≤ 2 ^ 32) :
    (∀ f ∈ [memmove, memcpy, userMemmove, userMemcpy], m.Moves dst src n (f m dst src n)) ↔
      if n.toNat < 2 ^ 31 then m.Repeats dst src n
      else ∀ a, Among a dst n.toNat → m.byte a = m.byte (src + (a - dst)) := by
  have hkernel := memmove_moves (m := m) hd hs
  have huser : (∀ f ∈ [memmove, memcpy, userMemmove, userMemcpy], m.Moves dst src n (f m dst src n)) ↔
      m.Moves dst src n (m.userMemmove dst src n) := by
    simp only [List.forall_mem_cons, memcpy, userMemcpy]
    exact ⟨fun h => h.2.2.1, fun h => ⟨hkernel, hkernel, h, h, nofun⟩⟩
  rw [huser, userMemmove, toNat_toInt32]
  split
  · exact userMemmove_moves_iff hd hs
  · refine forall_congr' fun a => ?_
    by_cases ha : Among a dst n.toNat <;> simp [ha, copyUp]

theorem all_move_down : (fresh UInt32.toUInt8).Repeats 0 1 2 ∧
    ∀ f ∈ [memmove, memcpy, userMemmove, userMemcpy],
      (fresh UInt32.toUInt8).Moves 0 1 2 (f (fresh UInt32.toUInt8) 0 1 2) :=
  ⟨nofun, (all_move_iff _ (by decide) (by decide)).mpr nofun⟩

/-- Three bytes 0, 1, 2: the first of them is copied twice. -/
theorem userMemmove_smears : ¬ (fresh UInt32.toUInt8).Moves 1 0 2 ((fresh UInt32.toUInt8).userMemmove 1 0 2) := by
  intro h
  exact absurd (h 2) (by decide)

end Xv6Vsd.Memory
