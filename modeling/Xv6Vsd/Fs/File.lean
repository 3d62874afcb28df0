import Xv6Vsd.Fs.Tidy

/-!
# The bytes of a file

A table `T` of the blocks of the inodes and the blocks `C` themselves give every inode a string of
bytes. A block of pointers has 128 of them (`nindirect`) and leads to 65536 bytes, and a file has at most 786432 bytes
(`maxfile * bsize`).
-/

namespace Xv6Vsd

open List

def Place.ofByte (i o : Nat) : Place := .dat i (o / 65536) (o / 512 % 128)

theorem index_eq (off : Nat) : off / bsize / nindirect = off / 65536 ∧ off / bsize % nindirect = off / 512 % 128 := by
  constructor
  · simp only [bsize, nindirect]; omega
  · rfl

def fileByte (T : Place → Nat) (C : Nat → Block) (i o : Nat) : UInt8 := (C (T (.ofByte i o))).get (o % 512)

variable {T T' : Place → Nat} {C C' : Nat → Block} {ino off m : Nat} {src : Nat → UInt8} {x : Block}
variable {i : Nat} {xs : List UInt8}

theorem Place.ofByte_eq {o i' o'} (h : Place.ofByte i o = Place.ofByte i' o') : i = i' ∧ o / 512 = o' / 512 := by
  simp only [Place.ofByte, Place.dat.injEq] at h; omega

/-- A write of `m` bytes at `off` of the inode `ino` overwrites the block `b` of these bytes and no
other data. -/
structure Written (T T' : Place → Nat) (C C' : Nat → Block) (ino off m : Nat) (src : Nat → UInt8) : Prop where
  once : ∀ p q, T' p ≠ 0 → T' p = T' q → p = q
  kept : ∀ i o, T (.ofByte i o) ≠ 0 → T' (.ofByte i o) = T (.ofByte i o)
  there : T' (.ofByte ino off) ≠ 0
  others : ∀ i o, T (.ofByte i o) ≠ 0 → T (.ofByte i o) ≠ T' (.ofByte ino off) →
    C' (T (.ofByte i o)) = C (T (.ofByte i o))
  block : ∃ x : Block, C' (T' (.ofByte ino off)) = x.blit (off % 512) m src ∧
    (T (.ofByte ino off) ≠ 0 → x = C (T (.ofByte ino off)))
  room : off % 512 + m ≤ 512

namespace Written

variable (h : Written T T' C C' ino off m src) {i o : Nat}
include h

theorem byte_in (ho : off ≤ o) (hm : o < off + m) : fileByte T' C' ino o = src (o - off) := by
  obtain ⟨x, hx, -⟩ := h.block
  have hroom := h.room
  have hp : Place.ofByte ino o = Place.ofByte ino off := by
    simp only [Place.ofByte, Place.dat.injEq, true_and]
    omega
  rw [fileByte, hp, hx, show o % 512 = off % 512 + (o - off) by omega]
  exact Bytes.get_blit_in x src (by omega) hroom

theorem byte_out (hT : T (.ofByte i o) ≠ 0) (ho : ¬ (i = ino ∧ off ≤ o ∧ o < off + m)) :
    fileByte T' C' i o = fileByte T C i o := by
  rw [fileByte, fileByte, h.kept i o hT]
  by_cases hb : T (.ofByte i o) = T' (.ofByte ino off)
  · -- another part of the block that is written to
    rw [← h.kept i o hT] at hb
    have hp := h.once _ _ (by rw [h.kept i o hT]; exact hT) hb
    obtain ⟨rfl, hblk⟩ := Place.ofByte_eq hp
    obtain ⟨x, hx, hold⟩ := h.block
    rw [hp] at hT
    rw [hp, ← h.kept _ _ hT, hx, hold hT, ← h.kept _ _ hT]
    exact Bytes.get_blit_out _ src (by omega)
  · rw [h.others i o hT hb]

theorem there_in (ho : off ≤ o) (hm : o < off + m) : T' (.ofByte ino o) ≠ 0 := by
  have hroom := h.room
  have hp : Place.ofByte ino o = Place.ofByte ino off := by
    simp only [Place.ofByte, Place.dat.injEq, true_and]
    omega
  rw [hp]
  exact h.there

end Written

structure Holds (T : Place → Nat) (C : Nat → Block) (i : Nat) (xs : List UInt8) : Prop where
  there : ∀ o < xs.length, T (.ofByte i o) ≠ 0
  byte : ∀ o < xs.length, fileByte T C i o = xs.getD o 0

theorem Holds.congr (h : Holds T C i xs) (hC : ∀ o, T (.ofByte i o) ≠ 0 → C' (T (.ofByte i o)) = C (T (.ofByte i o))) :
    Holds T C' i xs :=
  ⟨h.there, fun o ho => by rw [fileByte, hC o (h.there o ho)]; exact h.byte o ho⟩

def splice (xs : List UInt8) (off : Nat) (ys : List UInt8) : List UInt8 :=
  xs.take off ++ ys ++ xs.drop (off + ys.length)

theorem length_splice (xs ys : List UInt8) (h : off ≤ xs.length) :
    (splice xs off ys).length = max xs.length (off + ys.length) := by
  simp only [splice, length_append, length_take, length_drop]
  omega

theorem getD_splice (xs ys : List UInt8) (h : off ≤ xs.length) (o : Nat) :
    (splice xs off ys).getD o 0 = if off ≤ o ∧ o < off + ys.length then ys.getD (o - off) 0 else xs.getD o 0 := by
  have htake : (xs.take off).length = off := by simp [h]
  simp only [splice, append_assoc]
  by_cases h1 : o < off
  · rw [getD_append _ _ _ _ (by omega), if_neg (by omega)]; simp [getD_eq_getElem?_getD, h1]
  rw [getD_append_right _ _ _ _ (by omega), htake]
  by_cases h2 : o < off + ys.length
  · rw [getD_append _ _ _ _ (by omega), if_pos (by omega)]
  rw [getD_append_right _ _ _ _ (by omega), if_neg (by omega)]
  simp only [getD_eq_getElem?_getD, getElem?_drop]
  rw [show off + ys.length + (o - off - ys.length) = o by omega]

theorem splice_splice (xs ys zs : List UInt8) (h : off ≤ xs.length) :
    splice (splice xs off ys) (off + ys.length) zs = splice xs off (ys ++ zs) := by
  have hlen : (xs.take off ++ ys).length = off + ys.length := by simp [h]
  have htake : (splice xs off ys).take (off + ys.length) = xs.take off ++ ys := by
    rw [splice, ← hlen, take_left]
  have hdrop : (splice xs off ys).drop (off + ys.length) = xs.drop (off + ys.length) := by
    rw [splice, ← hlen, drop_left]
  rw [splice, htake, ← drop_drop, hdrop, drop_drop, splice, length_append, append_assoc,
    append_assoc, append_assoc, append_assoc, Nat.add_assoc]

theorem splice_nil (xs : List UInt8) (off : Nat) : splice xs off [] = xs := by simp [splice]

theorem splice_length (xs ys : List UInt8) : splice xs xs.length ys = xs ++ ys := by simp [splice]

theorem Holds.write (hx : Holds T C ino xs) (h : Written T T' C C' ino off m src) (hoff : off ≤ xs.length) :
    Holds T' C' ino (splice xs off ((List.range m).map src)) := by
  have hlen := length_splice xs ((range m).map src) hoff
  have hget := getD_splice xs ((range m).map src) hoff
  simp only [length_map, length_range] at hlen hget
  refine ⟨fun o ho => ?_, fun o ho => ?_⟩
  · by_cases hin : off ≤ o ∧ o < off + m
    · exact h.there_in hin.1 hin.2
    · have hold := hx.there o (by omega); rw [h.kept _ _ hold]; exact hold
  rw [hget]
  by_cases hin : off ≤ o ∧ o < off + m
  · rw [h.byte_in hin.1 hin.2, if_pos hin, getD_eq_getElem _ _ (by simp; omega)]; simp
  · rw [h.byte_out (hx.there o (by omega)) (by simp [hin]), hx.byte o (by omega), if_neg hin]

theorem Holds.other (hx : Holds T C i xs) (h : Written T T' C C' ino off m src) (hi : i ≠ ino) : Holds T' C' i xs := by
  refine ⟨fun o ho => ?_, fun o ho => ?_⟩
  · have hold := hx.there o ho; rw [h.kept _ _ hold]; exact hold
  · rw [h.byte_out (hx.there o ho) (by simp [hi]), hx.byte o ho]

end Xv6Vsd
