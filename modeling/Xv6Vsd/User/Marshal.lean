import Xv6Vsd.Lib.Bytes

/-!
# Marshalling of messages (`message.c`)

A message travels as the four bytes of its sentinel and its payload. `sbrk` finds memory for `malloc`; a process, and so
a payload, is smaller than 2^31 bytes.
-/

namespace Xv6Vsd.Marshal

open List Option

structure Message where
  sentinel : UInt32
  len : UInt32
  payload : List UInt8

structure Mmessage where
  len : UInt32
  data : List UInt8

def Mmessage.byte (mmsg : Mmessage) (i : Nat) : UInt8 := mmsg.data.getD i 0

/-- `malloc` counts units of 8 bytes modulo 2^32; in a block that is too small for its `n` bytes `memset` runs out of
the process. -/
def mallocz (n : UInt32) : Option (List UInt8) :=
  if n.toNat ≤ 8 * ((n + 7) / 8).toNat then some (List.replicate n.toNat 0) else none

/-- `memcpy` of the library takes the count for an `int`. -/
def copied (n : UInt32) : Nat := n.toInt32.toInt.toNat

def memcpy (dst : List UInt8) (src : Nat → UInt8) (n : UInt32) : List UInt8 :=
  (List.range (copied n)).map src ++ dst.drop (copied n)

def marshalMessage (msg : Message) : Option Mmessage := do
  let fixedmsg ← mallocz (4 + msg.len)
  pure ⟨msg.len + 4, (List.range 4).map (byteAt msg.sentinel.toNat) ++
    memcpy (fixedmsg.drop 4) (fun i => msg.payload.getD i 0) msg.len⟩

def unmarshalMessage (mmsg : Mmessage) : Option Message := do
  let payload ← mallocz (mmsg.len - 4)
  pure ⟨word32 mmsg.byte, mmsg.len - 4, memcpy payload (fun i => mmsg.byte (4 + i)) (mmsg.len - 4)⟩

def readEnd (mmsg : Mmessage) : Nat := 4 + copied (mmsg.len - 4)

def recv2 (xs : List UInt8) : Mmessage := ⟨UInt32.ofNat xs.length, xs⟩

/-- `unmarshal_message` gives no more than there is and reads nothing else. -/
def Sound (mmsg : Mmessage) : Prop :=
  ∃ msg, unmarshalMessage mmsg = some msg ∧ msg.len ≤ mmsg.len ∧ readEnd mmsg ≤ mmsg.data.length

variable {n : UInt32}

theorem copied_of_lt (h : n.toNat < 2 ^ 31) : copied n = n.toNat := by
  rw [copied, Int32.toInt, UInt32.toBitVec_toInt32, BitVec.toInt_eq_toNat_of_lt (by show 2 * n.toNat < _; omega)]
  rfl

theorem mallocz_of_lt (h : n.toNat < 2 ^ 31) : mallocz n = some (replicate n.toNat 0) := by
  refine if_pos ?_
  rw [UInt32.toNat_div, UInt32.toNat_add]
  simp
  omega

theorem memcpy_whole {dst} {src : Nat → UInt8} (h : n.toNat < 2 ^ 31) (hd : dst.length = n.toNat) :
    memcpy dst src n = (List.range n.toNat).map src := by
  rw [memcpy, copied_of_lt h, drop_eq_nil_of_le (by omega), append_nil]

theorem unmarshal_marshal {sentinel payload} (h : payload.length + 4 < 2 ^ 31) :
    (marshalMessage ⟨sentinel, UInt32.ofNat payload.length, payload⟩).bind unmarshalMessage =
      some ⟨sentinel, UInt32.ofNat payload.length, payload⟩ := by
  have hlen : (UInt32.ofNat payload.length).toNat = payload.length :=
    UInt32.toNat_ofNat_of_lt' (by simp only [UInt32.size]; omega)
  have hsum : (4 + UInt32.ofNat payload.length).toNat = 4 + payload.length := by
    rw [UInt32.toNat_add, hlen]
    simp
    omega
  have hcopy : (List.range payload.length).map (payload.getD · 0) = payload :=
    ext_getElem (by simp) fun i h1 h2 => by simp [h2]
  have hm : marshalMessage ⟨sentinel, UInt32.ofNat payload.length, payload⟩ =
      some ⟨UInt32.ofNat payload.length + 4, (List.range 4).map (byteAt sentinel.toNat) ++ payload⟩ := by
    rw [marshalMessage, mallocz_of_lt (by dsimp only; omega)]
    simp only [bind_eq_bind, bind_some, Option.pure_def, hsum]
    rw [memcpy_whole (by omega) (by simp [hlen]), hlen, hcopy]
  rw [hm, bind_some, unmarshalMessage, UInt32.add_sub_cancel, mallocz_of_lt (by omega)]
  simp only [bind_eq_bind, bind_some, Option.pure_def, Option.some.injEq, Message.mk.injEq, true_and]
  rw [memcpy_whole (by omega) (by simp), hlen]
  refine ⟨(word32_congr fun i hi => ?_).trans (word32_byteAt sentinel), ?_⟩
  · rw [Mmessage.byte, getD_append _ _ _ _ (by simpa using hi), getD_eq_getElem _ _ (by simpa using hi)]
    simp
  · refine Eq.trans (map_congr_left fun i _ => ?_) hcopy
    rw [Mmessage.byte, getD_append_right _ _ _ _ (by simp), length_map, length_range, Nat.add_sub_cancel_left]

theorem recv2_sound_iff {xs} (h : xs.length < 2 ^ 31) : Sound (recv2 xs) ↔ 4 ≤ xs.length := by
  have hlen : (UInt32.ofNat xs.length).toNat = xs.length :=
    UInt32.toNat_ofNat_of_lt' (by simp only [UInt32.size]; omega)
  have hsub : (UInt32.ofNat xs.length - 4).toNat = (2 ^ 32 - 4 + xs.length) % 2 ^ 32 :=
    by rw [UInt32.toNat_sub, hlen]; rfl
  by_cases h4 : 4 ≤ xs.length
  · refine iff_of_true ⟨_, by rw [unmarshalMessage, recv2, mallocz_of_lt (by dsimp only; omega)]; rfl, ?_, ?_⟩ h4
    · rw [UInt32.le_iff_toNat_le, recv2, hlen]
      dsimp only
      omega
    rw [readEnd, recv2, copied_of_lt (by dsimp only; omega)]
    dsimp only
    omega
  · refine iff_of_false ?_ h4
    rintro ⟨msg, hmsg, -⟩
    have hsmall : mallocz (UInt32.ofNat xs.length - 4) = none := by
      refine if_neg ?_
      rw [UInt32.toNat_div, UInt32.toNat_add, hsub]
      simp
      omega
    rw [unmarshalMessage, recv2, hsmall] at hmsg
    cases hmsg

/-- Messages come back as they were, and a message of the kernel is taken apart safely if and only if it has room for a
sentinel. -/
theorem marshalling_iff (sentinel : UInt32) (payload xs : List UInt8) (hpayload : payload.length + 4 < 2 ^ 31)
    (hxs : xs.length < 2 ^ 31) :
    (marshalMessage ⟨sentinel, UInt32.ofNat payload.length, payload⟩).bind unmarshalMessage =
      some ⟨sentinel, UInt32.ofNat payload.length, payload⟩ ∧ (Sound (recv2 xs) ↔ 4 ≤ xs.length) :=
  ⟨unmarshal_marshal hpayload, recv2_sound_iff hxs⟩

theorem marshalling_two_bytes : (marshalMessage ⟨7, UInt32.ofNat 2, [104, 105]⟩).bind unmarshalMessage =
      some ⟨7, UInt32.ofNat 2, [104, 105]⟩ ∧ (Sound (recv2 [0, 0, 0, 0, 9]) ↔ 4 ≤ [0, 0, 0, 0, 9].length) :=
  marshalling_iff 7 [104, 105] [0, 0, 0, 0, 9] (by decide) (by decide)

/-- For a message of one byte a payload of 4294967293 bytes is asked for, and `memset` runs out of the process. -/
theorem unmarshal_short : (recv2 [1]).len - 4 = 4294967293 ∧ mallocz 4294967293 = none ∧
    unmarshalMessage (recv2 [1]) = none ∧ ¬ Sound (recv2 [1]) := by
  have hsmall : mallocz 4294967293 = none := if_neg (by decide)
  refine ⟨rfl, hsmall, ?_, fun h => absurd ((recv2_sound_iff (by decide)).mp h) (by decide)⟩
  rw [unmarshalMessage, show (recv2 [1]).len - 4 = 4294967293 from rfl, hsmall]
  rfl

end Xv6Vsd.Marshal
