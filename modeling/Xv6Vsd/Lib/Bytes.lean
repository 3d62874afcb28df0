import Mathlib.Data.Nat.Bitwise

/-!
# Fixed arrays of bytes

Little-endian words and single bits inside an array of `n` bytes. An index outside the array reads
as 0 and is not written.
-/

namespace Xv6Vsd

/-! ## Little-endian numbers -/

def byteAt (v i : Nat) : UInt8 := UInt8.ofNat (v / 256 ^ i)

def le (f : Nat → UInt8) : Nat → Nat
  | 0 => 0
  | n + 1 => le f n + (f n).toNat * 256 ^ n

variable {f g : Nat → UInt8}

theorem le_congr {n} (h : ∀ i < n, f i = g i) : le f n = le g n := by
  induction n with
  | zero => rfl
  | succ n ih => simp only [le]; rw [ih (fun i hi => h i (by omega)), h n (by omega)]

theorem le_byteAt (v n : Nat) : le (byteAt v) n = v % 256 ^ n := by
  induction n with
  | zero => simp [le, Nat.mod_one]
  | succ n ih =>
    have hb : (byteAt v n).toNat = v / 256 ^ n % 256 := by simp [byteAt]
    rw [le, ih, hb, Nat.pow_succ, Nat.mod_mul, Nat.mul_comm (256 ^ n)]

def word16 (f : Nat → UInt8) : UInt16 := UInt16.ofNat (le f 2)
def word32 (f : Nat → UInt8) : UInt32 := UInt32.ofNat (le f 4)

theorem word16_congr (h : ∀ i < 2, f i = g i) : word16 f = word16 g := by
  simp only [word16, le_congr h]

theorem word32_congr (h : ∀ i < 4, f i = g i) : word32 f = word32 g := by
  simp only [word32, le_congr h]

@[simp] theorem word16_byteAt (v : UInt16) : word16 (byteAt v.toNat) = v := by
  have hv := v.toNat_lt
  rw [word16, le_byteAt, Nat.mod_eq_of_lt (by simpa using hv), UInt16.ofNat_toNat]

@[simp] theorem word32_byteAt (v : UInt32) : word32 (byteAt v.toNat) = v := by
  have hv := v.toNat_lt
  rw [word32, le_byteAt, Nat.mod_eq_of_lt (by simpa using hv), UInt32.ofNat_toNat]

theorem toNat_add_ofNat {a : UInt32} {k : Nat} (h : a.toNat + k < 2 ^ 32) :
    (a + UInt32.ofNat k).toNat = a.toNat + k := by
  rw [UInt32.toNat_add, UInt32.toNat_ofNat', Nat.add_mod_mod, Nat.mod_eq_of_lt h]

/-! ## Arrays -/

abbrev Bytes (n : Nat) : Type := Fin n → UInt8

namespace Bytes

variable {n : Nat}

def get (b : Bytes n) (i : Nat) : UInt8 := if h : i < n then b ⟨i, h⟩ else 0

def blit (b : Bytes n) (off m : Nat) (src : Nat → UInt8) : Bytes n :=
  fun j => if off ≤ j.1 ∧ j.1 < off + m then src (j.1 - off) else b j

def zero : Bytes n := fun _ => 0

@[simp] theorem get_zero (i : Nat) : (zero : Bytes n).get i = 0 := by simp [get, zero]

variable {i off : Nat} (b : Bytes n)

theorem get_blit (off m : Nat) (src : Nat → UInt8) (hi : i < n) :
    (b.blit off m src).get i = if off ≤ i ∧ i < off + m then src (i - off) else b.get i := by
  simp [get, blit, hi]

theorem get_blit_in {m} (src : Nat → UInt8) (hi : i < m) (hn : off + m ≤ n) :
    (b.blit off m src).get (off + i) = src i := by
  rw [get_blit b off m src (by omega), if_pos (by omega), Nat.add_sub_cancel_left]

theorem get_blit_out {m} (src : Nat → UInt8) (hi : i < off ∨ off + m ≤ i) :
    (b.blit off m src).get i = b.get i := by
  by_cases h : i < n
  · rw [get_blit b off m src h, if_neg (by omega)]
  · simp [get, h]

/-! ## Words inside an array -/

def u16 (b : Bytes n) (off : Nat) : UInt16 := word16 (fun i => b.get (off + i))
def u32 (b : Bytes n) (off : Nat) : UInt32 := word32 (fun i => b.get (off + i))
def setU32 (b : Bytes n) (off : Nat) (v : UInt32) : Bytes n := b.blit off 4 (byteAt v.toNat)

theorem u32_setU32 (v : UInt32) (h : off + 4 ≤ n) : (b.setU32 off v).u32 off = v := by
  refine Eq.trans (word32_congr fun i hi => ?_) (word32_byteAt v)
  exact get_blit_in b _ hi h

theorem u32_setU32_ne {off'} (v : UInt32) (h : off' + 4 ≤ off ∨ off + 4 ≤ off') :
    (b.setU32 off v).u32 off' = b.u32 off' :=
  word32_congr fun i hi => get_blit_out b _ (by omega)

theorem u32_of_ge (h : n ≤ off) : b.u32 off = 0 := by
  have hget : ∀ i, b.get (off + i) = 0 := fun i => dif_neg (by omega)
  simp only [u32, hget]
  decide

@[simp] theorem u32_zero (off : Nat) : (zero : Bytes n).u32 off = 0 := by
  simp only [u32, get_zero]; decide

/-! ## Bits inside an array -/

def mask (i : Nat) : UInt8 := UInt8.ofNat (2 ^ (i % 8))

def testBit (b : Bytes n) (i : Nat) : Bool := b.get (i / 8) &&& mask i != 0
def setBit (b : Bytes n) (i : Nat) : Bytes n := b.blit (i / 8) 1 (fun _ => b.get (i / 8) ||| mask i)
def clearBit (b : Bytes n) (i : Nat) : Bytes n := b.blit (i / 8) 1 (fun _ => b.get (i / 8) &&& ~~~mask i)

theorem mask_toNat (i : Nat) : (mask i).toNat = 2 ^ (i % 8) := by
  have h : 2 ^ (i % 8) < 2 ^ 8 := Nat.pow_lt_pow_right (by omega) (by omega)
  simp only [mask, UInt8.toNat_ofNat']
  exact Nat.mod_eq_of_lt h

theorem and_mask_ne_zero (x : UInt8) (i : Nat) : (x &&& mask i != 0) = x.toNat.testBit (i % 8) := by
  have h : (x &&& mask i).toNat = (x.toNat.testBit (i % 8)).toNat * 2 ^ (i % 8) := by
    rw [UInt8.toNat_and, mask_toNat, Nat.and_two_pow]
  have hz : x &&& mask i = 0 ↔ (x &&& mask i).toNat = 0 := by
    rw [← UInt8.toNat_inj, UInt8.toNat_zero]
  cases hb : x.toNat.testBit (i % 8) with
  | false => simpa [hb] using hz.mpr (by simp [h, hb])
  | true =>
    have : x &&& mask i ≠ 0 := fun he => by
      have := hz.mp he
      simp [h, hb] at this
    simpa using this

theorem testBit_eq (i : Nat) : b.testBit i = (b.get (i / 8)).toNat.testBit (i % 8) := and_mask_ne_zero _ _

theorem testBit_blit (x : UInt8) {j} (hi : i / 8 < n) : (b.blit (i / 8) 1 fun _ => x).testBit j =
    if i / 8 = j / 8 then x.toNat.testBit (j % 8) else b.testBit j := by
  rw [testBit_eq, testBit_eq]
  by_cases hij : i / 8 = j / 8
  · have hget := get_blit_in b (fun _ => x) (i := 0) (m := 1) (by omega) (show i / 8 + 1 ≤ n by omega)
    rw [Nat.add_zero] at hget
    rw [if_pos hij, ← hij, hget]
  · rw [if_neg hij, get_blit_out b _ (by omega)]

theorem mask_testBit {j} (hij : i / 8 = j / 8) : (mask i).toNat.testBit (j % 8) = decide (i = j) := by
  rw [mask_toNat, Nat.testBit_two_pow]
  exact decide_eq_decide.mpr (by omega)

theorem testBit_setBit {j} (hi : i / 8 < n) : (b.setBit i).testBit j = (decide (i = j) || b.testBit j) := by
  rw [setBit, testBit_blit b _ hi]
  by_cases hij : i / 8 = j / 8
  · rw [if_pos hij, UInt8.toNat_or, Nat.testBit_or, mask_testBit hij, testBit_eq, hij, Bool.or_comm]
  · simp [if_neg hij, show i ≠ j by rintro rfl; exact hij rfl]

theorem testBit_clearBit {j} (hi : i / 8 < n) : (b.clearBit i).testBit j = (decide (i ≠ j) && b.testBit j) := by
  rw [clearBit, testBit_blit b _ hi]
  by_cases hij : i / 8 = j / 8
  · have hnot : (~~~mask i).toNat.testBit (j % 8) = !decide (i = j) := by
      have hlt : j % 8 < 8 := by omega
      rw [← mask_testBit hij, ← UInt8.toNat_toBitVec, ← UInt8.toNat_toBitVec, BitVec.testBit_toNat,
        BitVec.testBit_toNat,
        UInt8.toBitVec_not, BitVec.getLsbD_not, decide_eq_true hlt, Bool.true_and]
    rw [if_pos hij, UInt8.toNat_and, Nat.testBit_and, hnot, testBit_eq, hij, Bool.and_comm, decide_not]
  · simp [if_neg hij, show i ≠ j by rintro rfl; exact hij rfl]

end Bytes

end Xv6Vsd
