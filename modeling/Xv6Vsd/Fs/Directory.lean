import Xv6Vsd.Fs.Access
import Xv6Vsd.Lib.Table

/-!
# Directories are finite maps

A directory is a file of slots of 16 bytes.
-/

namespace Xv6Vsd

open Prog Function Kernel List Res

/-! ## The bytes of a directory -/

/-- What is told apart of a name: its first `DIRSIZ` bytes up to a NUL. -/
def nameKey (name : List UInt8) : List UInt8 := cstr (name.take dirsiz)

def direntAt (xs : List UInt8) (k : Nat) : Dirent := .dec ((xs.drop (16 * k)).take 16)

def Dirent.live (de : Dirent) : Option (List UInt8 × Nat) :=
  if de.inum = 0 then none else some (nameKey de.name, de.inum.toNat)

def slotAt (xs : List UInt8) (k : Nat) : Option (List UInt8 × Nat) := (direntAt xs k).live

section

variable {xs ys name : List UInt8} {k j inum : Nat}

theorem namecmp_iff {s t} : namecmp s t = true ↔ nameKey s = nameKey t := by
  simp [namecmp, nameKey]

theorem slotAt_of_ge (h : xs.length ≤ 16 * k) : slotAt xs k = none := by
  have hnil : xs.drop (16 * k) = [] := drop_eq_nil_of_le h
  rw [slotAt, direntAt, hnil]
  rfl

theorem drop_take_splice_of_ne (hy : ys.length = 16) (hk : 16 * k ≤ xs.length) (hj : j ≠ k) :
    ((splice xs (16 * k) ys).drop (16 * j)).take 16 = (xs.drop (16 * j)).take 16 := by
  have htake : (xs.take (16 * k)).length = 16 * k := by simp [hk]
  apply ext_getElem?
  intro i
  rw [List.getElem?_take, List.getElem?_take]
  split
  · next hi =>
    rw [List.getElem?_drop, List.getElem?_drop, splice]
    by_cases hlt : j < k
    · rw [append_assoc, List.getElem?_append_left (by omega), List.getElem?_take, if_pos (by omega)]
    rw [List.getElem?_append_right (by simp only [length_append]; omega), List.getElem?_drop]
    congr 1
    simp only [length_append]
    omega
  · rfl

theorem drop_take_splice_self (hy : ys.length = 16) (hk : 16 * k ≤ xs.length) :
    ((splice xs (16 * k) ys).drop (16 * k)).take 16 = ys := by
  have htake : (xs.take (16 * k)).length = 16 * k := by simp [hk]
  rw [splice, append_assoc, drop_append_of_le_length (by omega), drop_of_length_le (by omega),
    nil_append, take_append_of_le_length (by omega), take_of_length_le (by omega)]

theorem slotAt_splice (hy : ys.length = 16) (hk : 16 * k ≤ xs.length) :
    slotAt (splice xs (16 * k) ys) = update (slotAt xs) k (Dirent.dec ys).live := by
  funext j
  by_cases hj : j = k
  · subst hj; rw [update_self, slotAt, direntAt, drop_take_splice_self hy hk]
  · rw [update_of_ne hj, slotAt, direntAt, drop_take_splice_of_ne hy hk hj, slotAt, direntAt]

theorem cstr_pad {l m} (h : l.length ≤ m) : cstr ((List.range m).map fun i => l.getD i 0) = cstr l := by
  induction l generalizing m with
  | nil =>
    cases m with
    | zero => rfl
    | succ m => simp [cstr, range_succ_eq_map]
  | cons a l ih =>
    cases m with
    | zero => simp at h
    | succ m =>
      have hrest := ih (m := m) (by simpa using h)
      simp only [cstr] at hrest ⊢
      rw [range_succ_eq_map, map_cons, map_map]
      simp only [getD_cons_zero, takeWhile_cons]
      split
      · exact congrArg _ hrest
      · rfl

theorem live_bytes (h1 : 1 ≤ inum) (h2 : inum ≤ 65535) :
    (Dirent.dec ((List.range 16).map (Dirent.bytes name inum))).live = some (nameKey name, inum) := by
  have hnum : word16 (fun i => ((List.range 16).map (Dirent.bytes name inum)).getD i 0) = UInt16.ofNat inum := by
    have hv : (UInt16.ofNat inum).toNat = inum := UInt16.toNat_ofNat_of_lt' (by simp only [UInt16.size]; omega)
    refine Eq.trans (word16_congr fun i hi => ?_) (word16_byteAt (UInt16.ofNat inum))
    rw [hv, getD_eq_getElem _ _ (by simp; omega)]
    simp [Dirent.bytes, hi]
  have hv : (UInt16.ofNat inum).toNat = inum := UInt16.toNat_ofNat_of_lt' (by simp only [UInt16.size]; omega)
  have hne : UInt16.ofNat inum ≠ 0 := by
    intro h0
    rw [h0] at hv
    simp at hv
    omega
  have hname : ((List.range 16).map (Dirent.bytes name inum)).drop 2 =
    (List.range 14).map fun i => (name.take dirsiz).getD i 0 := by
    refine ext_getElem (by simp) fun i hi1 hi2 => ?_
    simp only [length_map, length_range] at hi2
    simp only [getElem_drop, getElem_map, getElem_range, Dirent.bytes]
    rw [if_neg (by omega), if_pos (by omega), Nat.add_sub_cancel_left]
  have htake : ((List.range 14).map fun i => (name.take dirsiz).getD i 0).take dirsiz =
    (List.range 14).map fun i => (name.take dirsiz).getD i 0 := take_of_length_le (by simp [dirsiz])
  rw [Dirent.live, Dirent.dec]
  simp only [hnum]
  rw [if_neg hne, hv, hname, nameKey, htake, cstr_pad (by simp [dirsiz]), nameKey]

theorem live_zero : (Dirent.dec ((List.range 16).map fun _ => 0)).live = none := by decide

end

/-! ## Getting and putting an inode -/

def CanGet (s : Kernel) (q : IRef) : Prop := s.icache q ≠ none ∨ s.slots < ninode

section

variable {s s' : Kernel} {r : IRef} {ip : Inode} {c : Nat → List UInt8} {name : List UInt8} {fuel k inum : Nat}

theorem iget_canGet {dev q} (h : (iget dev inum).exec s = .ok q s') : q = ⟨dev, inum⟩ ∧ CanGet s ⟨dev, inum⟩ := by
  rw [iget, exec_tau] at h
  split at h
  · next ip hip => cases h; exact ⟨rfl, .inl (by simp [hip])⟩
  · split at h <;> cases h
    next hlt => exact ⟨rfl, .inr (Nat.lt_of_not_le hlt)⟩

theorem exec_iget {q} (h : CanGet s q) : ∃ s1, (iget q.dev q.inum).exec s = .ok q s1 ∧ (iput q).exec s1 = .ok () s := by
  cases hq : s.icache q with
  | some ip =>
    refine ⟨s.setInode q (some { ip with more := ip.more + 1 }), ?_, ?_⟩
    · rw [iget, exec_tau, hq]
    rw [iput, iput1, exec_bind, exec_act]
    simp only [setInode_icache_self, Inode.doomed, Nat.add_eq_zero_iff, one_ne_zero, and_false, false_and,
      decide_false, Bool.false_eq_true, ↓reduceIte, Kernel.drop, ok_bind, onlyIf, exec_pure]
    congr 1
    simp only [setInode, Nat.add_sub_cancel, update_idem]
    rw [← hq, update_eq_self]
  | none =>
    have hlt : ¬ ninode ≤ s.slots := Nat.not_le.mpr (h.resolve_left (by simp [hq]))
    refine ⟨{ s.setInode q (some ⟨0, false, false, false, s.stale q⟩) with slots := s.slots + 1 }, ?_, ?_⟩
    · rw [iget, exec_tau, hq]; dsimp only; rw [if_neg hlt]
    rw [iput, iput1, exec_bind, exec_act]
    simp only [setInode, update_self, Inode.doomed, Bool.false_eq_true, false_and, and_false,
      decide_false, ↓reduceIte, Kernel.drop, ok_bind, onlyIf, exec_pure]
    congr 1
    simp only [Nat.add_sub_cancel, update_idem]
    rw [← hq, update_eq_self]

/-! ## Looking an entry up -/

structure InDir (s : Kernel) (r : IRef) (ip : Inode) (c : Nat → List UInt8) : Prop where
  arrays : Arrays s r.dev c
  cached : Cached s r ip
  dir : ip.din.type = tDir
  whole : 16 ∣ (c r.inum).length

/-- The inode that an entry leads to: ".." of a mounted root leads to the mount parent, here the root. -/
def leadsTo (r : IRef) (ip : Inode) (name : List UInt8) (inum : Nat) : IRef :=
  ⟨r.dev, if nameKey name = dotdot ∧ ip.mountroot then r.inum else inum⟩

namespace InDir

variable (h : InDir s r ip c)
include h

theorem inum_lt : r.inum < (s.disk r.dev).sb.ninodes := h.arrays.settled.refs r.inum ip h.cached.entry

theorem size : ip.din.size.toNat = (c r.inum).length := by
  rw [← h.arrays.size r.inum h.inum_lt, h.cached.view]

theorem length_le : (c r.inum).length ≤ 786432 := h.arrays.length_le h.inum_lt

theorem not_dev : ip.din.type ≠ tDev := by rw [h.dir]; decide

theorem readDirent (msg : String) (hk : k < (c r.inum).length / 16) :
    (readDirent r (16 * k) msg).exec s = .ok (direntAt (c r.inum) k) s := by
  have hle := h.length_le
  have hoff : (UInt32.ofNat (16 * k)).toNat = 16 * k := UInt32.toNat_ofNat_of_lt' (by simp only [UInt32.size]; omega)
  have hread : readAnswer (c r.inum) (16 * k) 16 = (16, ((c r.inum).drop (16 * k)).take 16) := by
    rw [readAnswer, if_neg (by omega)]
    rw [show min 16 ((c r.inum).length - 16 * k) = 16 by omega]
    rfl
  rw [Xv6Vsd.readDirent, exec_bind, h.arrays.readi h.cached h.not_dev, hoff, show (16 : UInt32).toNat = 16 from rfl,
    hread,
    ok_bind]
  exact exec_pure _ _

theorem dirlookupFrom (name : List UInt8) (fuel k : Nat) (hk : (c r.inum).length / 16 < k + fuel) :
    (dirlookupFrom r name fuel (16 * k)).exec s =
      match Table.find (slotAt (c r.inum)) (nameKey name) ((c r.inum).length / 16 - k) k with
      | none => .ok none s
      | some (inum, i) =>
        (iget r.dev (leadsTo r ip name inum).inum >>= fun next => pure (some (next, 16 * i))).exec s := by
  have hw := h.whole
  induction fuel generalizing k with
  | zero => rw [show (c r.inum).length / 16 - k = 0 by omega]; rfl
  | succ fuel ih =>
    rw [Xv6Vsd.dirlookupFrom, exec_bind, inode_some h.cached.entry, ok_bind, h.size]
    by_cases hlt : k < (c r.inum).length / 16
    · have hsub : (c r.inum).length / 16 - k = (c r.inum).length / 16 - (k + 1) + 1 := by omega
      have hnext := ih (k := k + 1) (by omega)
      rw [if_pos (by omega), exec_bind, h.readDirent _ hlt, ok_bind, hsub]
      by_cases hskip : (direntAt (c r.inum) k).inum = 0 ∨ !namecmp name (direntAt (c r.inum) k).name
      · -- the entry is empty or has another name
        rw [if_pos hskip, Table.find_skip]
        · exact hnext
        intro v hv
        rw [slotAt, Dirent.live] at hv
        obtain ⟨hne, hv⟩ := Option.ite_none_left_eq_some.mp hv
        obtain h0 | h0 := hskip
        · exact hne h0
        have hkey := congrArg Prod.fst (Option.some.inj hv)
        rw [Bool.not_eq_true', ← Bool.not_eq_true, namecmp_iff] at h0
        exact h0 hkey.symm
      · rw [if_neg hskip]
        obtain ⟨hne, hname⟩ := not_or.mp hskip
        have hkey : nameKey name = nameKey (direntAt (c r.inum) k).name := namecmp_iff.mp (by simpa using hname)
        have hslot : slotAt (c r.inum) k = some (nameKey name, (direntAt (c r.inum) k).inum.toNat) := by
          rw [slotAt, Dirent.live, if_neg hne, hkey]
        rw [Table.find_here hslot, exec_bind, inode_some h.cached.entry, ok_bind]
        have hdots : namecmp dotdot (direntAt (c r.inum) k).name = true ↔ nameKey name = dotdot := by
          rw [namecmp_iff, hkey, eq_comm]
          rfl
        simp only [hdots, leadsTo]
    · rw [if_neg (by omega), show (c r.inum).length / 16 - k = 0 by omega]; rfl

theorem dirlookup (name : List UInt8) : (dirlookup r name).exec s =
      match Table.lookup (slotAt (c r.inum)) ((c r.inum).length / 16) (nameKey name) with
      | none => .ok none s
      | some (inum, i) =>
        (iget r.dev (leadsTo r ip name inum).inum >>= fun next => pure (some (next, 16 * i))).exec s := by
  have hfrom := h.dirlookupFrom name (ip.din.size.toNat / 16 + 1) 0 (by rw [h.size]; omega)
  rw [Xv6Vsd.dirlookup, exec_bind, inode_some h.cached.entry, ok_bind, if_neg (by simp [h.dir])]
  exact hfrom

theorem emptyFrom (fuel k : Nat) (hk : (c r.inum).length / 16 < k + fuel) (hle : k ≤ (c r.inum).length / 16) :
    ∃ i ≤ (c r.inum).length / 16, slotAt (c r.inum) i = none ∧ (emptyFrom r fuel (16 * k)).exec s = .ok (16 * i) s := by
  have hw := h.whole
  induction fuel generalizing k with
  | zero => omega
  | succ fuel ih =>
    rw [Xv6Vsd.emptyFrom, exec_bind, inode_some h.cached.entry, ok_bind, h.size]
    by_cases hlt : k < (c r.inum).length / 16
    · rw [if_pos (by omega), exec_bind, h.readDirent _ hlt, ok_bind]
      by_cases h0 : (direntAt (c r.inum) k).inum = 0
      · rw [if_pos h0]
        refine ⟨k, hle, ?_, rfl⟩
        rw [slotAt, Dirent.live, if_pos h0]
      · rw [if_neg h0]; exact ih (k + 1) (by omega) hlt
    · rw [if_neg (by omega)]; exact ⟨k, hle, slotAt_of_ge (by omega), rfl⟩

/-! ## Changing a directory -/

theorem writeEntry {src} (hk : k ≤ (c r.inum).length / 16) {a}
    (he : (writei r src (UInt32.ofNat (16 * k)) 16).exec s = .ok a s') (ha : a = 16) :
    ∃ ip' c', InDir s' r ip' c' ∧
      slotAt (c' r.inum) = update (slotAt (c r.inum)) k (Dirent.dec ((List.range 16).map src)).live ∧
      (c' r.inum).length = max (c r.inum).length (16 * k + 16) := by
  have hle := h.length_le
  have hw := h.whole
  have hoff : (UInt32.ofNat (16 * k)).toNat = 16 * k := UInt32.toNat_ofNat_of_lt' (by simp only [UInt32.size]; omega)
  obtain ⟨-, hn, -⟩ | ⟨-, -, hn⟩ | ⟨-, -, harr, hself, -, -⟩ := h.arrays.writei h.cached h.not_dev he
  · omega
  · omega
  obtain ⟨din, hc', htype⟩ := hself.self
  rw [hoff, show (16 : UInt32).toNat = 16 from rfl] at harr
  have hlen : (splice (c r.inum) (16 * k) ((List.range 16).map src)).length = max (c r.inum).length (16 * k + 16) := by
    rw [length_splice _ _ (by omega), length_map, length_range]
  refine ⟨_, _, ⟨harr, hc', htype.trans h.dir, ?_⟩, ?_, ?_⟩
  · rw [update_self, hlen]; omega
  · rw [update_self, slotAt_splice (by simp) (by omega)]
  · rw [update_self, hlen]

end InDir

/-! ## Directories in order -/

/-- What `sys_unlink` does to a directory: the entry that `dirlookup` finds is overwritten with zeros. -/
def dirunlink (r : IRef) (name : List UInt8) : K Int := do
  match ← dirlookup r name with
  | none => pure (-1)
  | some (ip, off) =>
    iput ip
    let n ← writei r (fun _ => 0) (UInt32.ofNat off) 16
    if n ≠ 16 then panic "unlink: writei" else pure 0

def Kernel.names (s : Kernel) (r : IRef) (x : List UInt8) : Option (Nat × Nat) :=
  (Table.lookup (slotAt (s.contents r.dev r.inum)) ((s.contents r.dev r.inum).length / 16) x).map
    fun e => (e.1, 16 * e.2)

/-- A directory in memory, on a disk that is whole, in which no name is used twice. -/
structure OrderedDir (s : Kernel) (r : IRef) : Prop where
  within : ∃ ip, InDir s r ip (s.contents r.dev)
  distinct : Table.Distinct (slotAt (s.contents r.dev r.inum))

theorem map_update {κ α β} [DecidableEq κ] (f : α → β) (m : κ → Option α) (x : κ) (o : Option α) :
    (fun y => (update m x o y).map f) = update (fun y => (m y).map f) x (o.map f) :=
  comp_update (Option.map f) m x o

theorem InDir.contents (h : InDir s r ip c) : s.contents r.dev r.inum = c r.inum := h.arrays.contents h.inum_lt

theorem InDir.names (h : InDir s r ip c) (x : List UInt8) : s.names r x =
    (Table.lookup (slotAt (c r.inum)) ((c r.inum).length / 16) x).map fun e => (e.1, 16 * e.2) := by
  rw [Kernel.names, h.contents]

theorem InDir.ordered (h : InDir s r ip c) (hd : Table.Distinct (slotAt (c r.inum))) : OrderedDir s r := by
  refine ⟨⟨ip, h.arrays.whole, h.cached, h.dir, ?_⟩, ?_⟩
  · rw [h.contents]; exact h.whole
  · rw [h.contents]; exact hd

namespace InDir

variable (h : InDir s r ip c) (hd : Table.Distinct (slotAt (c r.inum)))
include h

theorem slots_end (i : Nat) (hi : (c r.inum).length / 16 ≤ i) : slotAt (c r.inum) i = none := by
  have hw := h.whole; exact slotAt_of_ge (by omega)

theorem dirlookup_none (hx : Table.lookup (slotAt (c r.inum)) ((c r.inum).length / 16) (nameKey name) = none) :
    (Xv6Vsd.dirlookup r name).exec s = .ok none s := by
  rw [h.dirlookup, hx]

theorem dirlookup_some {i} (hget : CanGet s (leadsTo r ip name inum))
    (hx : Table.lookup (slotAt (c r.inum)) ((c r.inum).length / 16) (nameKey name) = some (inum, i)) :
    ∃ s1, (Xv6Vsd.dirlookup r name).exec s = .ok (some (leadsTo r ip name inum, 16 * i)) s1 ∧
      (iput (leadsTo r ip name inum)).exec s1 = .ok () s := by
  obtain ⟨s1, h1, h2⟩ := exec_iget hget
  have hq : (iget r.dev (leadsTo r ip name inum).inum).exec s = .ok (leadsTo r ip name inum) s1 := h1
  refine ⟨s1, ?_, h2⟩
  rw [h.dirlookup, hx]
  dsimp only
  rw [exec_bind, hq, ok_bind, exec_pure]

theorem dirlookup_ok {o} (he : (Xv6Vsd.dirlookup r name).exec s = .ok o s') :
    (Table.lookup (slotAt (c r.inum)) ((c r.inum).length / 16) (nameKey name) = none ∧ o = none ∧ s' = s) ∨
      ∃ inum i, Table.lookup (slotAt (c r.inum)) ((c r.inum).length / 16) (nameKey name) = some (inum, i) ∧
        o = some (leadsTo r ip name inum, 16 * i) ∧ (iput (leadsTo r ip name inum)).exec s' = .ok () s := by
  cases hx : Table.lookup (slotAt (c r.inum)) ((c r.inum).length / 16) (nameKey name) with
  | none => rw [h.dirlookup_none hx] at he; cases he; exact .inl ⟨rfl, rfl, rfl⟩
  | some e =>
    obtain ⟨inum, i⟩ := e
    have hget : CanGet s (leadsTo r ip name inum) := by
      rw [h.dirlookup, hx] at he
      obtain ⟨q, s1, hq, -⟩ := bind_ok he
      exact (iget_canGet hq).2
    obtain ⟨s1, h1, h2⟩ := h.dirlookup_some hget hx
    rw [h1] at he; cases he
    exact .inr ⟨inum, i, rfl, rfl, h2⟩

include hd

theorem dirlink_ok {a} (h1 : 1 ≤ inum) (h2 : inum ≤ 65535) (he : (dirlink r name inum).exec s = .ok a s') :
    (s.names r (nameKey name) ≠ none ∧ a = -1 ∧ s' = s) ∨ (s.names r (nameKey name) = none ∧ a = 0 ∧ OrderedDir s' r ∧
        ∃ off, s'.names r = update (s.names r) (nameKey name) (some (inum, off))) := by
  have hw := h.whole
  obtain ⟨o, s1, hlook, hrest⟩ := bind_ok he
  obtain ⟨hx, rfl, rfl⟩ | ⟨num, i, hx, rfl, hput⟩ := h.dirlookup_ok hlook
  · refine .inr ⟨by rw [h.names, hx]; rfl, ?_⟩
    obtain ⟨y, s2, hin, he⟩ := bind_ok hrest
    rw [inode_some h.cached.entry] at hin; cases hin
    obtain ⟨k, hk, hfree, hempty⟩ := h.emptyFrom (ip.din.size.toNat / 16 + 1) 0 (by rw [h.size]; omega) (Nat.zero_le _)
    obtain ⟨off, s3, hoff, he⟩ := bind_ok he
    rw [hempty] at hoff; cases hoff
    obtain ⟨n, s4, hwrite, he⟩ := bind_ok he
    split at he
    · rw [exec_panic] at he; cases he
    next hn =>
    cases he
    obtain ⟨ip', c', h', hslots, hlen⟩ := h.writeEntry hk hwrite (not_not.mp hn)
    rw [live_bytes h1 h2] at hslots
    have habs := Table.not_mem_of_lookup hd h.slots_end hx
    refine ⟨rfl, h'.ordered ?_, 16 * k, ?_⟩
    · rw [hslots]; exact hd.put habs
    have hput := Table.lookup_put (v := inum) hd h.slots_end hx hfree
      (show k < max (c r.inum).length (16 * k + 16) / 16 by omega) (by omega)
    rw [funext h'.names, funext h.names, hslots, hlen, hput]
    exact map_update _ _ _ _
  · refine .inl ⟨by rw [h.names, hx]; simp, ?_⟩
    obtain ⟨_, s2, h3, he⟩ := bind_ok hrest
    rw [hput] at h3; cases h3
    cases he
    exact ⟨rfl, rfl⟩

theorem dirunlink_ok {a} (he : (dirunlink r name).exec s = .ok a s') :
    OrderedDir s' r ∧ s'.names r = update (s.names r) (nameKey name) none := by
  have hw := h.whole
  obtain ⟨o, s1, hlook, hrest⟩ := bind_ok he
  obtain ⟨hx, rfl, rfl⟩ | ⟨num, i, hx, rfl, hput⟩ := h.dirlookup_ok hlook
  · cases hrest
    refine ⟨h.ordered hd, (update_eq_self_iff.mpr ?_).symm⟩
    rw [h.names, hx]
    rfl
  obtain ⟨_, s2, h3, he⟩ := bind_ok hrest
  rw [hput] at h3; cases h3
  obtain ⟨n, s4, hwrite, he⟩ := bind_ok he
  split at he
  · rw [exec_panic] at he; cases he
  next hn =>
  cases he
  obtain ⟨hi, hslot⟩ := (Table.lookup_eq_some hd).mp hx
  obtain ⟨ip', c', h', hslots, hlen⟩ := h.writeEntry (Nat.le_of_lt hi) hwrite (not_not.mp hn)
  rw [live_zero] at hslots
  rw [Nat.max_eq_left (by omega)] at hlen
  refine ⟨h'.ordered ?_, ?_⟩
  · rw [hslots]; exact hd.clear
  · rw [funext h'.names, funext h.names, hslots, hlen, Table.lookup_clear hd hslot]
    exact map_update _ _ _ _

end InDir

/-! ## Runs -/

structure MapsNames (s : Kernel) (r : IRef) : Prop where
  size : (s.view r.dev r.inum).size.toNat % 16 = 0
  distinct : ∀ i j x a b, slotAt (s.contents r.dev r.inum) i = some (x, a) →
    slotAt (s.contents r.dev r.inum) j = some (x, b) → i = j
  entry : ∀ x inum off, s.names r x = some (inum, off) ↔
    ∃ k, off = 16 * k ∧ slotAt (s.contents r.dev r.inum) k = some (x, inum)
  notFound : ∀ name, s.names r (nameKey name) = none → (dirlookup r name).exec s = .ok none s
  found : ∀ name inum off ip, s.names r (nameKey name) = some (inum, off) → s.icache r = some ip →
    CanGet s (leadsTo r ip name inum) → ∃ s', (dirlookup r name).exec s = .ok (some (leadsTo r ip name inum, off)) s'
  refused : ∀ name inum off ip num, s.names r (nameKey name) = some (inum, off) → s.icache r = some ip →
    CanGet s (leadsTo r ip name inum) → (dirlink r name num).exec s = .ok (-1) s
  linked : ∀ name num a s', s.names r (nameKey name) = none → 1 ≤ num → num ≤ 65535 →
    (dirlink r name num).exec s = .ok a s' →
    a = 0 ∧ ∃ off, s'.names r = update (s.names r) (nameKey name) (some (num, off))
  unlinked : ∀ name a s', (dirunlink r name).exec s = .ok a s' →
    s'.names r = update (s.names r) (nameKey name) none

theorem OrderedDir.mapsNames (h : OrderedDir s r) : MapsNames s r := by
  obtain ⟨⟨ip, hdir⟩, hd⟩ := h
  have hnone : ∀ x, s.names r x = none →
    Table.lookup (slotAt (s.contents r.dev r.inum)) ((s.contents r.dev r.inum).length / 16) x = none := by
    intro x hx
    simpa [hdir.names] using hx
  have hsome : ∀ x inum off, s.names r x = some (inum, off) → ∃ k, off = 16 * k ∧
    Table.lookup (slotAt (s.contents r.dev r.inum)) ((s.contents r.dev r.inum).length / 16) x = some (inum, k) := by
    intro x inum off hx
    rw [hdir.names, Option.map_eq_some_iff] at hx
    obtain ⟨⟨num, k⟩, hk, he⟩ := hx
    cases he
    exact ⟨k, rfl, hk⟩
  constructor
  case size => rw [hdir.arrays.size r.inum hdir.inum_lt]; exact Nat.mod_eq_zero_of_dvd hdir.whole
  case distinct => exact hd
  case entry =>
    intro x inum off
    constructor
    · intro hx
      obtain ⟨k, rfl, hk⟩ := hsome x inum off hx
      exact ⟨k, rfl, ((Table.lookup_eq_some hd).mp hk).2⟩
    rintro ⟨k, rfl, hk⟩
    have hlt : k < (s.contents r.dev r.inum).length / 16 := by
      by_contra hge
      rw [hdir.slots_end k (by omega)] at hk; cases hk
    rw [hdir.names, (Table.lookup_eq_some hd).mpr ⟨hlt, hk⟩]
    rfl
  case notFound => exact fun name hx => hdir.dirlookup_none (hnone _ hx)
  case found =>
    intro name inum off ip' hx hip hget
    obtain ⟨k, rfl, hk⟩ := hsome _ inum off hx
    rw [hdir.cached.entry] at hip; cases hip
    obtain ⟨s1, h1, -⟩ := hdir.dirlookup_some hget hk
    exact ⟨s1, h1⟩
  case refused =>
    intro name inum off ip' num hx hip hget
    obtain ⟨k, rfl, hk⟩ := hsome _ inum off hx
    rw [hdir.cached.entry] at hip; cases hip
    obtain ⟨s1, h1, h2⟩ := hdir.dirlookup_some hget hk
    rw [dirlink, exec_bind, h1, ok_bind]
    rw [exec_bind, h2, ok_bind, exec_pure]
  case linked =>
    intro name num a s' hx h1 h2 he
    obtain ⟨hne, -⟩ | ⟨-, ha, -, hmap⟩ := hdir.dirlink_ok hd h1 h2 he
    · exact absurd hx hne
    · exact ⟨ha, hmap⟩
  case unlinked => exact fun name a s' he => (hdir.dirunlink_ok hd he).2

inductive DirOp where
  | beginOp
  | endOp
  | link (name : List UInt8) (inum : Nat)
  | unlink (name : List UInt8)

namespace DirOp

def act (r : IRef) (s : Kernel) : DirOp → Option Kernel
  | beginOp => after (Xv6Vsd.beginOp r.dev) s
  | endOp => after (Xv6Vsd.endOp r.dev) s
  | link name inum => after (dirlink r name inum) s
  | unlink name => after (dirunlink r name) s

def Named : DirOp → Prop
  | link _ inum => 1 ≤ inum ∧ inum ≤ 65535
  | _ => True

instance (op : DirOp) : Decidable op.Named := match op with
  | link .. => inferInstanceAs (Decidable (_ ∧ _))
  | beginOp | endOp | unlink _ => inferInstanceAs (Decidable True)

end DirOp

theorem OrderedDir.quiet (h : OrderedDir s r) {d} (hq : (s.disk r.dev).Quiet d) : OrderedDir (s.setDisk r.dev d) r := by
  obtain ⟨⟨ip, hdir⟩, hd⟩ := h
  have hdir' : InDir (s.setDisk r.dev d) r ip (s.contents r.dev) :=
    ⟨hdir.arrays.quiet hq, ⟨hdir.cached.entry, hdir.cached.valid⟩, hdir.dir, hdir.whole⟩
  exact hdir'.ordered hd

theorem OrderedDir.act (h : OrderedDir s r) {op : DirOp} (hop : op.Named) (he : op.act r s = some s') :
    OrderedDir s' r := by
  obtain ⟨⟨ip, hdir⟩, hd⟩ := h
  cases op with
  | beginOp =>
    obtain ⟨_, he⟩ := after_eq_some he
    obtain ⟨-, d, rfl, hq⟩ := beginOp_quiet he
    exact OrderedDir.quiet ⟨⟨ip, hdir⟩, hd⟩ hq
  | endOp =>
    obtain ⟨_, he⟩ := after_eq_some he
    obtain ⟨-, d, rfl, hq⟩ := endOp_quiet (fun _ => hdir.arrays.settled.log) he
    exact OrderedDir.quiet ⟨⟨ip, hdir⟩, hd⟩ hq
  | link name inum =>
    obtain ⟨a, he⟩ := after_eq_some he
    obtain ⟨-, -, rfl⟩ | ⟨-, -, ho, -⟩ := hdir.dirlink_ok hd hop.1 hop.2 he
    · exact ⟨⟨ip, hdir⟩, hd⟩
    · exact ho
  | unlink name => obtain ⟨a, he⟩ := after_eq_some he; exact (hdir.dirunlink_ok hd he).1

structure EmptyDir (s : Kernel) (r : IRef) : Prop where
  whole : Whole s
  mounted : (s.disk r.dev).mounted = true
  entry : ∃ ip, s.icache r = some ip ∧ ip.valid = true ∧ ip.din.type = tDir ∧ ip.din.size = 0

theorem EmptyDir.ordered (h : EmptyDir s r) : OrderedDir s r := by
  obtain ⟨ip, hip, hv, htype, hsize⟩ := h.entry
  have ha := h.whole r.dev h.mounted
  have hc : Cached s r ip := ⟨hip, hv⟩
  have hnil : s.contents r.dev r.inum = [] := by
    have hlen := ha.size r.inum (ha.settled.refs r.inum ip hip)
    rw [show s.view r.dev r.inum = ip.din from hc.view, hsize] at hlen
    exact length_eq_zero_iff.mp hlen.symm
  refine ⟨⟨ip, ha, hc, htype, by rw [hnil]; exact Nat.dvd_zero _⟩, ?_⟩
  rw [hnil]
  intro i j x a b hi
  rw [slotAt_of_ge (Nat.zero_le _)] at hi; cases hi

/-- A directory that is built from an empty one is a finite map. -/
theorem directories_are_maps {s0 : Kernel} (h0 : EmptyDir s0 r) (h : Run (DirOp.act r) (fun _ op => op.Named) s0 s) :
    MapsNames s r := by
  have hordered : OrderedDir s r := h.invariant (P := fun s => OrderedDir s r) h0.ordered
    fun _ _ _ ho hop he => ho.act hop he
  exact hordered.mapsNames

end

def emptyDir (root : Bool) : Inode := ⟨0, true, true, root, { Dinode.zero with type := tDir }⟩

def oneDir (root : Bool) (m : Nat) : Kernel := { oneFile metaBits with
    icache := fun r => if r = ⟨1, 1⟩ then some (emptyDir root)
      else if r.dev = 2 ∧ r.inum < m then some emptyInode else none
    slots := m + 1 }

theorem oneDir_empty (root : Bool) (m : Nat) : EmptyDir (oneDir root m) ⟨1, 1⟩ := by
  refine ⟨whole_of_blank metaBits (by decide +kernel) rfl fun i ip hip => ?_, rfl, emptyDir root, rfl, rfl, rfl, rfl⟩
  simp only [oneDir] at hip
  split at hip
  · next hr => cases hr; cases hip; exact ⟨by decide, rfl, rfl, Dinode.addr_zero⟩
  · rw [if_neg (by simp)] at hip; cases hip

def nameA : List UInt8 := [97]
def nameB : List UInt8 := [98, 98]

theorem directories_are_maps_two : ∃ s, EmptyDir (oneDir false 0) ⟨1, 1⟩ ∧
    Run (DirOp.act ⟨1, 1⟩) (fun _ op => op.Named) (oneDir false 0) s ∧ s.names ⟨1, 1⟩ nameA = none ∧
    s.names ⟨1, 1⟩ nameB = some (6, 16) ∧ MapsNames s ⟨1, 1⟩ := by
  have h0 := oneDir_empty false 0
  obtain ⟨s, hrun, ha, hb⟩ : ∃ s, Run (DirOp.act ⟨1, 1⟩) (fun _ op => op.Named) (oneDir false 0) s ∧
      s.names ⟨1, 1⟩ nameA = none ∧ s.names ⟨1, 1⟩ nameB = some (6, 16) :=
    exists_run [.link nameA 5, .link nameB 6, .unlink nameA] (by decide +kernel)
  exact ⟨s, h0, hrun, ha, hb, directories_are_maps h0 hrun⟩

/-- In a mounted root ".." is not found under the number it was linked with; and with a full inode
cache the lookup of a name that is present panics. -/
theorem directory_leads_elsewhere : ∃ s, EmptyDir (oneDir true 49) ⟨1, 1⟩ ∧
    Run (DirOp.act ⟨1, 1⟩) (fun _ op => op.Named) (oneDir true 49) s ∧
    s.names ⟨1, 1⟩ dotdot = some (5, 0) ∧ (∃ s', (dirlookup ⟨1, 1⟩ dotdot).exec s = .ok (some (⟨1, 1⟩, 0)) s') ∧
    s.names ⟨1, 1⟩ nameA = some (5, 16) ∧ (dirlink ⟨1, 1⟩ nameA 6).exec s = .panic "iget: no inodes" := by
  obtain ⟨s, hrun, hdots, ha, hlook, hlink⟩ : ∃ s, Run (DirOp.act ⟨1, 1⟩) (fun _ op => op.Named) (oneDir true 49) s ∧
      s.names ⟨1, 1⟩ dotdot = some (5, 0) ∧ s.names ⟨1, 1⟩ nameA = some (5, 16) ∧
      ((dirlookup ⟨1, 1⟩ dotdot).exec s).yields (fun a _ => a = some (⟨1, 1⟩, 0)) = true ∧
      ((dirlink ⟨1, 1⟩ nameA 6).exec s).panics "iget: no inodes" = true :=
    exists_run [.link dotdot 5, .link nameA 5] (by decide +kernel)
  obtain ⟨a, s', he, h⟩ := Res.yields_ok hlook
  obtain rfl := of_decide_eq_true h
  exact ⟨s, oneDir_empty true 49, hrun, hdots, ⟨s', he⟩, ha, Res.panics_eq hlink⟩

end Xv6Vsd
