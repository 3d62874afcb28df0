import Xv6Vsd.Fs.File

/-! # Reading a file -/

namespace Xv6Vsd

open Prog Function Kernel List Res

structure Disk.Idle (d : Disk) : Prop where
  mounted : d.mounted = true
  present : d.present = true
  free : ∀ b, d.busy b = false

variable {s : Kernel} {r : IRef} {ip : Inode} {dev b bn : Nat} {α : Type}

theorem Disk.Idle.bread {d : Disk} (h : d.Idle) (b : Nat) :
    d.bread b = if b < fssize then .ok (d.cache b) d else .panic "incorrect blockno" := by
  simp only [Disk.bread, h.present, h.free, Bool.not_true, Bool.false_eq_true, ↓reduceIte]
  by_cases hb : b < fssize
  · rw [if_neg (Nat.not_le.mpr hb), if_pos hb]
  · rw [if_pos (Nat.le_of_not_lt hb), if_neg hb]

theorem exec_edit_none (h : (s.disk dev).Idle) (b : Nat) (g : Block → α) : (edit dev b fun x => (none, g x)).exec s =
      if b < fssize then .ok (g ((s.disk dev).cache b)) s else .panic "incorrect blockno" := by
  rw [edit, exec_act, onDisk, if_pos h.mounted, Disk.edit, h.bread]
  by_cases hb : b < fssize
  · simp only [if_pos hb, ok_bind, Disk.put, setDisk_self]
  · simp only [if_neg hb, panic_bind]

theorem Disk.Idle.update_busy {d : Disk} (h : d.Idle) (b : Nat) : update d.busy b false = d.busy :=
  update_eq_self_iff.mpr (h.free b).symm

theorem exec_bmap_mapped (h : (s.disk r.dev).Idle) (hip : s.icache r = some ip) (hbn : bn < maxfile)
    (haddr : ip.din.addr (bn / nindirect) ≠ 0)
    (hptr : ((s.disk r.dev).cache (ip.din.addr (bn / nindirect)).toNat).u32 (4 * (bn % nindirect)) ≠ 0) :
    (bmap r bn).exec s = if (ip.din.addr (bn / nindirect)).toNat < fssize then
      .ok (((s.disk r.dev).cache (ip.din.addr (bn / nindirect)).toNat).u32 (4 * (bn % nindirect))) s
      else .panic "incorrect blockno" := by
  rw [bmap, bmapG]
  dsimp only [offset2real]
  rw [if_neg (Nat.not_le.mpr hbn), exec_bind, exec_act]
  rw [hip]
  rw [ok_bind, if_neg (fun hc => haddr hc.1), if_neg (by decide), bmapG.bmapPtr]
  rw [exec_bind, inode_some hip, ok_bind]
  rw [exec_bind, exec_act, onDisk, if_pos h.mounted, Disk.hold, h.bread,
    show (offset2real bn).1 = bn / nindirect from rfl]
  by_cases hb : (ip.din.addr (bn / nindirect)).toNat < fssize
  · rw [if_pos hb, if_pos hb]
    rw [ok_bind, ok_bind, ok_bind, if_neg (fun hc => hptr hc.1), if_neg (by decide), release, exec_act, onDisk]
    simp only [setDisk, update_self, Disk.release, Disk.put, ok_bind, update_idem]
    rw [if_pos h.mounted, h.update_busy, update_eq_self]
  · rw [if_neg hb, if_neg hb, panic_bind, panic_bind, panic_bind]

theorem exec_getsuperblock (h : (s.disk dev).mounted = true) : (getsuperblock dev).exec s = .ok (s.disk dev).sb s := by
  rw [getsuperblock, exec_tau, onDisk, if_pos h, ok_bind, setDisk_self]

theorem exec_ilock_load (h : (s.disk r.dev).Idle) (hip : s.icache r = some ip) (hbusy : ip.busy = false)
    (hvalid : ip.valid = false) :
    (ilock r).exec s = if (s.disk r.dev).sb.iblock r.inum < fssize then
      .ok () (s.setInode r (some { ip with
        busy := true
        valid := true
        din := ip.din.update (((s.disk r.dev).cache ((s.disk r.dev).sb.iblock r.inum)).dinode r.inum) }))
      else .panic "incorrect blockno" := by
  let ip1 : Inode := { ip with busy := true }
  let s1 : Kernel := s.setInode r (some ip1)
  have h1 : s1.icache r = some ip1 := update_self ..
  have hidle : (s1.disk r.dev).Idle := h
  rw [ilock, exec_bind, exec_tau, hip]
  dsimp only
  rw [if_neg (by rw [hbusy]; decide), ok_bind]
  change exec (onlyIf (true = true) _) s1 = _
  rw [onlyIf, if_pos rfl, exec_bind, inode_some h1, ok_bind, onlyIf, if_pos hvalid, exec_bind,
    exec_getsuperblock hidle.mounted, ok_bind, exec_bind, exec_edit_none hidle,
    show s1.disk = s.disk from rfl]
  by_cases hb : (s.disk r.dev).sb.iblock r.inum < fssize
  · rw [if_pos hb, if_pos hb, ok_bind, modInode, exec_tau]
    simp only [h1]
    simp [s1, ip1, setInode]
  · rw [if_neg hb, if_neg hb, panic_bind]

/-! ## Pieces -/

section

variable {T : Place → Nat} {i off m n fuel : Nat}

structure Mapped (s : Kernel) (r : IRef) (T : Place → Nat) (i : Nat) (ip : Inode) : Prop where
  idle : (s.disk r.dev).Idle
  cached : s.icache r = some ip
  ind : ∀ k, T (.ind i k) = (ip.din.addr k).toNat
  dat : ∀ k j, ip.din.addr k ≠ 0 → T (.dat i k j) = (((s.disk r.dev).cache (ip.din.addr k).toNat).u32 (4 * j)).toNat
  hole : ∀ k j, ip.din.addr k = 0 → T (.dat i k j) = 0

def InReach (T : Place → Nat) (i o : Nat) : Prop := T (.ind i (o / 65536)) < fssize ∧ T (.ofByte i o) < fssize

instance (o : Nat) : Decidable (InReach T i o) := inferInstanceAs (Decidable (_ ∧ _))

theorem Mapped.addr_ne (h : Mapped s r T i ip) (ht : T (.ofByte i off) ≠ 0) : ip.din.addr (off / 65536) ≠ 0 :=
  fun h0 => ht (h.hole _ _ h0)

theorem Mapped.readPiece (h : Mapped s r T i ip) (ht : T (.ofByte i off) ≠ 0) (hmax : off < 786432) (m : Nat) : (do
      let addr ← bmap r (off / bsize)
      edit r.dev addr.toNat fun x => (none, (List.range m).map fun i => x.get (off % bsize + i)) :
        K (List UInt8)).exec s =
      if InReach T i off then
        .ok ((List.range m).map fun j => ((s.disk r.dev).cache (T (.ofByte i off))).get (off % 512 + j)) s
      else .panic "incorrect blockno" := by
  obtain ⟨hk, hj⟩ := index_eq off
  have haddr := h.addr_ne ht
  have hdat : T (.ofByte i off) = _ := h.dat (off / 65536) (off / 512 % 128) haddr
  have hptr : ((s.disk r.dev).cache (ip.din.addr (off / 65536)).toNat).u32 (4 * (off / 512 % 128)) ≠ 0 := by
    intro h0
    rw [hdat, h0] at ht
    exact ht rfl
  rw [exec_bind, exec_bmap_mapped h.idle h.cached (by simp only [bsize, maxfile, nindirect]; omega)
    (by rw [hk]; exact haddr)
    (by rw [hk, hj]; exact hptr), hk, hj]
  have hind := h.ind (off / 65536)
  by_cases h1 : (ip.din.addr (off / 65536)).toNat < fssize
  · rw [if_pos h1, ok_bind, exec_edit_none h.idle, ← hdat]
    by_cases h2 : T (.ofByte i off) < fssize
    · rw [if_pos h2, if_pos ⟨hind ▸ h1, h2⟩]
    · rw [if_neg h2, if_neg (fun hc => h2 hc.2)]
  · rw [if_neg h1, if_neg (fun hc => h1 (hind ▸ hc.1)), panic_bind]

theorem readPieces_cons (r : IRef) (off m : Nat) (ps : List (Nat × Nat)) : readPieces r ((off, m) :: ps) = (do
      let xs ← (do
        let addr ← bmap r (off / bsize)
        edit r.dev addr.toNat fun x => (none, (List.range m).map fun i => x.get (off % bsize + i)) : K (List UInt8))
      let ys ← readPieces r ps
      pure (xs ++ ys)) := by
  rw [readPieces, bind_assoc]

theorem Mapped.readPieces (h : Mapped s r T i ip) (hn : n ≤ fuel) (hmax : off + n ≤ 786432)
    (ht : ∀ o, off ≤ o → o < off + n → T (.ofByte i o) ≠ 0)
    (hreach : ∀ o, off ≤ o → o < off + n → InReach T i o) :
    (readPieces r (pieces fuel off n)).exec s =
      .ok ((List.range n).map fun j => fileByte T (s.disk r.dev).cache i (off + j)) s := by
  induction fuel generalizing off n with
  | zero =>
    obtain rfl : n = 0 := by omega
    rfl
  | succ fuel ih =>
    by_cases h0 : n = 0
    · subst h0; rfl
    rw [pieces, if_neg h0]
    have hroom : off % 512 + min n (bsize - off % bsize) ≤ 512 := by simp only [bsize]; omega
    have hle : min n (bsize - off % bsize) ≤ n := Nat.min_le_left ..
    have hpos : 0 < min n (bsize - off % bsize) := by simp only [bsize]; omega
    generalize min n (bsize - off % bsize) = m at hroom hle hpos
    have hrest := ih (show n - m ≤ fuel by omega) (show off + m + (n - m) ≤ 786432 by omega)
      (fun o h1 h2 => ht o (by omega) (by omega)) (fun o h1 h2 => hreach o (by omega) (by omega))
    rw [readPieces_cons, exec_bind, h.readPiece (ht off (Nat.le_refl _) (by omega)) (by omega),
      if_pos (hreach off (Nat.le_refl _) (by omega)), ok_bind, exec_bind, hrest, ok_bind, exec_pure]
    congr 1
    refine ext_getElem (by simp; omega) fun j h1 h2 => ?_
    simp only [length_map, length_range] at h2
    by_cases hj : j < m
    · have hp : Place.ofByte i (off + j) = Place.ofByte i off := by
        simp only [Place.ofByte, Place.dat.injEq, true_and]
        omega
      rw [getElem_append_left (by simpa using hj)]
      simp only [getElem_map, getElem_range, fileByte, hp]
      rw [show (off + j) % 512 = off % 512 + j by omega]
    · rw [getElem_append_right (by simp; omega)]
      simp only [length_map, length_range, getElem_map, getElem_range]
      rw [show off + m + (j - m) = off + j by omega]

def readAnswer (xs : List UInt8) (off n : Nat) : Int × List UInt8 :=
  if xs.length < off ∨ 2 ^ 32 ≤ off + n then (-1, [])
  else
    let m := min n (xs.length - off)
    (m, (xs.drop off).take m)

theorem toInt_toInt32 {a : UInt32} (h : a.toNat < 2 ^ 31) : a.toInt32.toInt = a.toNat := by
  rw [Int32.toInt, UInt32.toBitVec_toInt32, BitVec.toInt_eq_toNat_of_lt]
  · rfl
  · show 2 * a.toNat < 2 ^ 32; omega

theorem lt_add_iff (off n : UInt32) : off + n < off ↔ 2 ^ 32 ≤ off.toNat + n.toNat := by
  rw [UInt32.lt_iff_toNat_lt, UInt32.toNat_add]
  have := off.toNat_lt
  have := n.toNat_lt
  omega

theorem Mapped.readi (h : Mapped s r T i ip) {xs : List UInt8} (hx : Holds T (s.disk r.dev).cache i xs)
    (htype : ip.din.type ≠ tDev) (hsize : ip.din.size.toNat = xs.length) (hmax : xs.length ≤ 786432)
    (hreach : ∀ o < xs.length, InReach T i o) (off n : UInt32) :
    (readi r off n).exec s = .ok (readAnswer xs off.toNat n.toNat) s := by
  rw [Xv6Vsd.readi, exec_bind, inode_some h.cached, ok_bind, if_neg htype]
  have hlt : ip.din.size < off ↔ xs.length < off.toNat := by rw [UInt32.lt_iff_toNat_lt, hsize]
  rw [readAnswer]
  by_cases hbad : xs.length < off.toNat ∨ 2 ^ 32 ≤ off.toNat + n.toNat
  · rw [if_pos (by rw [hlt, lt_add_iff]; exact hbad), if_pos hbad, exec_pure]
  rw [if_neg (by rw [hlt, lt_add_iff]; exact hbad), if_neg hbad]
  generalize hm : (if ip.din.size < off + n then ip.din.size - off else n) = m
  have hmin : m.toNat = min n.toNat (xs.length - off.toNat) := by
    have hadd : (off + n).toNat = off.toNat + n.toNat := by
      rw [UInt32.toNat_add, Nat.mod_eq_of_lt (by omega)]
    rw [← hm]
    by_cases hend : ip.din.size < off + n
    · rw [if_pos hend, UInt32.toNat_sub_of_le _ _ (by rw [UInt32.le_iff_toNat_le, hsize]; omega), hsize]
      rw [UInt32.lt_iff_toNat_lt, hadd, hsize] at hend
      omega
    · rw [if_neg hend]; rw [UInt32.lt_iff_toNat_lt, hadd, hsize] at hend; omega
  rw [exec_bind, h.readPieces (Nat.le_refl _) (by omega) (fun o h1 h2 => hx.there o (by omega))
    (fun o h1 h2 => hreach o (by omega)), ok_bind, exec_pure, toInt_toInt32 (by omega), hmin]
  congr 2
  refine ext_getElem (by simp) fun j h1 h2 => ?_
  simp only [length_map, length_range] at h1
  simp only [getElem_map, getElem_range, getElem_take, getElem_drop]
  rw [hx.byte _ (by omega), getD_eq_getElem _ _ (by omega)]

theorem Mapped.readi_far (h : Mapped s r T i ip) {xs} (hx : Holds T (s.disk r.dev).cache i xs)
    (htype : ip.din.type ≠ tDev) (hsize : ip.din.size.toNat = xs.length) (hmax : xs.length ≤ 786432) {o}
    (ho : o < xs.length) (hfar : ¬ InReach T i o) :
    (Xv6Vsd.readi r (UInt32.ofNat o) 1).exec s = .panic "incorrect blockno" := by
  have hoff : (UInt32.ofNat o).toNat = o := UInt32.toNat_ofNat_of_lt' (by simp only [UInt32.size]; omega)
  have hadd : (UInt32.ofNat o + 1).toNat = o + 1 := by
    rw [UInt32.toNat_add, hoff, show (1 : UInt32).toNat = 1 from rfl, Nat.mod_eq_of_lt (by omega)]
  rw [Xv6Vsd.readi, exec_bind, inode_some h.cached, ok_bind, if_neg htype, if_neg (by
    rw [UInt32.lt_iff_toNat_lt, UInt32.lt_iff_toNat_lt, hadd, hoff, hsize]
    omega), if_neg (by
    rw [UInt32.lt_iff_toNat_lt, hadd, hsize]
    omega)]
  dsimp only
  rw [hoff, show (1 : UInt32).toNat = 1 from rfl, pieces, if_neg Nat.one_ne_zero]
  dsimp only
  rw [readPieces_cons, exec_bind, exec_bind, h.readPiece (hx.there o ho) (by omega), if_neg hfar, panic_bind,
    panic_bind]

end

end Xv6Vsd
