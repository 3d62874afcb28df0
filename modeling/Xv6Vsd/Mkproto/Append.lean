import Xv6Vsd.Mkproto.Image

/-! # Appending to an inode of the image -/

namespace Xv6Vsd.Mkproto

open Prog Function List Res

variable {s s' : Fs} {i : Nat} {V : Nat → Dinode} {X : Nat → List UInt8}

def total (n : Nat) (X : Nat → List UInt8) : Nat := ∑ i ∈ Finset.range n, need (X i).length

theorem total_update {n} (hi : i < n) (ys : List UInt8) :
    total n (update X i ys) + need (X i).length = total n X + need ys.length := by
  have hmem : i ∈ Finset.range n := Finset.mem_range.mpr hi
  have hrest : ∑ j ∈ Finset.range n \ {i}, need (update X i ys j).length =
    ∑ j ∈ Finset.range n \ {i}, need (X j).length :=
    Finset.sum_congr rfl fun j hj => by
      have hne : j ≠ i := by simpa using (Finset.mem_sdiff.mp hj).2
      rw [update_of_ne hne]
  rw [total, total, Finset.sum_eq_add_sum_sdiff_singleton_of_mem hmem,
    Finset.sum_eq_add_sum_sdiff_singleton_of_mem hmem (f := fun j => need (X j).length), hrest, update_self]
  omega

theorem need_mono {a b} (h : a ≤ b) : need a ≤ need b := by simp only [need]; omega

theorem total_mono {n} (hi : i < n) {xs ys} (h : xs.length ≤ ys.length) :
    total n (update X i xs) ≤ total n (update X i ys) := by
  have h1 := total_update (X := X) hi xs
  have h2 := total_update (X := X) hi ys
  have := need_mono h
  omega

structure Files (s : Fs) (V : Nat → Dinode) (X : Nat → List UInt8) : Prop where
  base : Base s (s.sb.metaEnd + total (cap s.sb) X) V
  holds : ∀ i < cap s.sb, Holds (s.table V) s.image i (X i)
  exact : ∀ i < cap s.sb, Exact (s.table V) i (X i).length

theorem Files.length_le (h : Files s V X) (hi : i < cap s.sb) : (X i).length ≤ 786432 := by
  have hzero : s.table V (.ind i 12) = 0 := by
    have haddr : (V i).addr 12 = 0 := by simp [Dinode.addr]
    simp [Fs.table, blockAt, haddr]
  have hnot := (not_congr ((h.exact i hi).ind 12)).mp (fun hne => hne hzero)
  omega

structure Appended (s : Fs) (V : Nat → Dinode) (i : Nat) (s' : Fs) (din : Dinode) : Prop where
  frame : s'.frame = s.frame
  head : SameHead (V i) din
  low : ∀ b < s.sb.metaEnd, s'.image b = s.image b

theorem Files.piece (h : Files s V X) (hi : i < cap s.sb) {m} (hm : 0 < m)
    (hroom : (X i).length % 512 + m ≤ 512) (src : Nat → UInt8) :
    ((s.size < s.sb.metaEnd + total (cap s.sb) (update X i (X i ++ (List.range m).map src)) ∨
      786432 < (X i).length + m) ∧ ∃ msg, (appendPiece (V i) (X i).length m src).exec s = .panic msg) ∨
      ∃ din s', (appendPiece (V i) (X i).length m src).exec s = .ok din s' ∧ Appended s V i s' din ∧
        Files s' (update V i din) (update X i (X i ++ (List.range m).map src)) := by
  have hupd := total_update (X := X) hi (X i ++ (range m).map src)
  have hlen : (X i ++ (range m).map src).length = (X i).length + m := by simp
  rw [hlen, need_add hm hroom] at hupd
  obtain hmax | hmax := Nat.lt_or_ge (X i).length 786432
  · obtain ⟨hfull, msg, he⟩ | ⟨din, s', he, hp, hw, hind, htab⟩ :=
      exec_appendPiece h.base hi (h.exact i hi) hroom hmax src
    · exact .inl ⟨.inl (by omega), msg, he⟩
    refine .inr ⟨din, s', he, ⟨hp.frame, hp.head, hp.low⟩, ?_⟩
    have hsb := frame_sb hp.frame
    have hsplice : splice (X i) (X i).length ((range m).map src) = X i ++ (range m).map src := splice_length _ _
    refine ⟨?_, fun i' hi' => ?_, fun i' hi' => ?_⟩
    · rw [hsb, show s.sb.metaEnd + total (cap s.sb) (update X i (X i ++ (range m).map src)) =
        s.sb.metaEnd + total (cap s.sb) X + more (X i).length by omega]
      exact hp.base
    · rw [hsb] at hi'
      by_cases hne : i' = i
      · subst hne; rw [update_self, ← hsplice]; exact (h.holds i' hi').write hw (Nat.le_refl _)
      · rw [update_of_ne hne]; exact (h.holds i' hi').other hw hne
    · rw [hsb] at hi'
      by_cases hne : i' = i
      · subst hne; rw [update_self, hlen]; exact (h.exact i' hi').grow hm hroom htab hind hw.there
      · rw [update_of_ne hne]; exact (h.exact i' hi').other hne htab
  · refine .inl ⟨.inr (by omega), "trap", ?_⟩
    have hblock : ndirect ≤ (X i).length / bsize / nindirect := by
      simp only [ndirect, bsize, nindirect]
      omega
    rw [appendPiece]
    dsimp only [offset2real]
    rw [if_pos hblock, exec_fail]

theorem Files.pieces (p : Nat → UInt8) {start fuel n} (hn : n ≤ fuel) (h : Files s V X) (hi : i < cap s.sb)
    (hstart : start ≤ (X i).length) :
    let ys := (range n).map fun j => p ((X i).length - start + j)
    let p := appendPieces p start (pieces fuel (X i).length n) (V i)
    ((s.size < s.sb.metaEnd + total (cap s.sb) (update X i (X i ++ ys)) ∨
      786432 < (X i).length + n) ∧ ∃ msg, p.exec s = .panic msg) ∨
      ∃ din s', p.exec s = .ok din s' ∧ Appended s V i s' din ∧ Files s' (update V i din) (update X i (X i ++ ys)) := by
  induction fuel generalizing s V X n with
  | zero =>
    obtain rfl : n = 0 := by omega
    refine .inr ⟨V i, s, rfl, ⟨rfl, rfl, fun _ _ => rfl⟩, ?_⟩
    simpa using h
  | succ fuel ih =>
    by_cases h0 : n = 0
    · subst h0
      refine .inr ⟨V i, s, rfl, ⟨rfl, rfl, fun _ _ => rfl⟩, ?_⟩
      simpa using h
    have hm : 0 < min n (bsize - (X i).length % bsize) := by simp only [bsize]; omega
    have hroom : (X i).length % 512 + min n (bsize - (X i).length % bsize) ≤ 512 := by simp only [bsize]; omega
    have hle : min n (bsize - (X i).length % bsize) ≤ n := Nat.min_le_left ..
    generalize hmdef : min n (bsize - (X i).length % bsize) = m at *
    intro ys q
    have hq : q = (do
      let din ← appendPiece (V i) (X i).length m fun j => p ((X i).length - start + j)
      appendPieces p start (Xv6Vsd.pieces fuel ((X i).length + m) (n - m)) din) := by
      simp only [q, Xv6Vsd.pieces, if_neg h0, hmdef, appendPieces]
    have hys : ys = ((range m).map fun j => p ((X i).length - start + j)) ++
      (range (n - m)).map fun j => p ((X i).length + m - start + j) := by
      have hsplit : n = m + (n - m) := by omega
      simp only [ys]
      rw [hsplit, range_add, map_append, map_map, Nat.add_sub_cancel_left]
      congr 1
      refine map_congr_left fun j _ => ?_
      simp only [Function.comp]
      congr 1
      omega
    have hlen : (X i ++ ys).length = (X i).length + n := by simp [ys]
    rw [hq, exec_bind]
    obtain ⟨hfull, msg, he⟩ | ⟨din, s1, he, ha, hf⟩ := h.piece hi hm hroom fun j => p ((X i).length - start + j)
    · refine .inl ⟨?_, msg, by rw [he, panic_bind]⟩
      refine hfull.imp (fun hlt => Nat.lt_of_lt_of_le hlt (Nat.add_le_add_left (total_mono hi ?_) _)) (by omega)
      rw [hlen]
      simp
      omega
    have hX1 : (X i ++ (range m).map fun j => p ((X i).length - start + j)).length = (X i).length + m := by
      simp
    have hsb := frame_sb ha.frame
    have hsize := frame_size ha.frame
    have hrec := ih (n := n - m) (by omega) hf (hsb ▸ hi) (by rw [update_self, hX1]; omega)
    simp only [update_self, hX1, update_idem, append_assoc] at hrec
    rw [← hys, hsb, hsize] at hrec
    rw [he, ok_bind]
    obtain ⟨hfull, msg, he2⟩ | ⟨din', s', he2, ha', hf'⟩ := hrec
    · exact .inl ⟨hfull.imp id (by omega), msg, he2⟩
    refine .inr ⟨din', s', he2, ⟨ha'.frame.trans ha.frame, ?_, fun b hb => ?_⟩, hf'⟩
    · have hh := ha'.head; rw [update_self] at hh; exact ha.head.trans hh
    · rw [ha'.low b (by rw [hsb]; exact hb), ha.low b hb]

/-! ## Inodes are written -/

def Fs.inodes (s : Fs) : Nat → Dinode := diskIn s.sb s.image

theorem iblock_lt_of_cap {sb} (hi : i < cap sb) : sb.iblock i < sb.bmapstart := by
  simp only [cap, Superblock.iblock, ipb, bsize] at *; omega

structure Stored (s : Fs) (i : Nat) (d : Dinode) (s' : Fs) : Prop where
  frame : s'.frame = s.frame
  bitmap : ∀ b, s.sb.bmapstart ≤ b → s'.image b = s.image b
  self : s'.inodes i = d
  others : ∀ i', i' ≠ i → s'.inodes i' = s.inodes i'

theorem Files.winode (h : Files s V X) (hi : i < cap s.sb) {d} (hd : ∀ k, d.addr k = (V i).addr k) :
    ∃ s', (winode i d).exec s = .ok () s' ∧ Files s' (update V i d) X ∧ Stored s i d s' := by
  have hb := iblock_lt_of_cap hi
  have hmeta : s.sb.iblock i < s.sb.metaEnd := Nat.lt_of_lt_of_le hb s.sb.bmapstart_le_metaEnd
  have hU : s.sb.iblock i < s.sb.metaEnd + total (cap s.sb) X := Nat.lt_of_lt_of_le hmeta (Nat.le_add_right ..)
  have hnotind : ∀ i' k, s.table V (.ind i' k) ≠ 0 → s.table V (.ind i' k) ≠ s.sb.iblock i := by
    intro i' k hne he
    have := (h.base.owned.good _ hne).1
    omega
  obtain ⟨hbase, htab, himg⟩ := h.base.write hU hnotind ((s.image (s.sb.iblock i)).setDinode i d)
  generalize hs' : s.write (s.sb.iblock i) ((s.image (s.sb.iblock i)).setDinode i d) = s' at hbase htab himg
  have hsb : s'.sb = s.sb := by rw [← hs']; rfl
  have htab' : s'.table (update V i d) = s.table V := by
    rw [← htab]
    refine blockAt_congr (fun i' _ k => ?_) fun _ _ => rfl
    by_cases he : i' = i
    · subst he; rw [update_self, hd]
    · rw [update_of_ne he]
  refine ⟨s', ?_, ⟨?_, fun i' hi' => ?_, fun i' hi' => ?_⟩, ?_, fun b hge => ?_, ?_, fun i' hne => ?_⟩
  · rw [Mkproto.winode, exec_bind, exec_fs, ok_bind, exec_bind, h.base.rsect (Nat.lt_of_lt_of_le hU h.base.le),
      ok_bind, exec_wsect h.base.isOpen, hs']
  · rw [hsb]
    exact { hbase with
      owned := by rw [htab', ← htab]; exact hbase.owned
      onto := by rw [htab', ← htab]; exact hbase.onto }
  · rw [htab']
    refine (h.holds i' (hsb ▸ hi')).congr fun o ho => ?_
    have := (h.base.owned.good _ ho).1
    rw [himg, update_of_ne (by omega)]
  · rw [htab']; exact h.exact i' (hsb ▸ hi')
  · rw [← hs']; rfl
  · rw [himg, update_of_ne (by omega)]
  · rw [Fs.inodes, diskIn, hsb, himg, update_self, dinode_setDinode]
  rw [Fs.inodes, diskIn, hsb, himg, Fs.inodes, diskIn]
  by_cases hblk : s.sb.iblock i' = s.sb.iblock i
  · rw [hblk, update_self, dinode_setDinode_of_ne]
    simp only [Superblock.iblock, ipb, bsize] at hblk
    omega
  · rw [update_of_ne hblk]

structure Image (s : Fs) (X : Nat → List UInt8) : Prop where
  files : Files s s.inodes X
  size : ∀ i < cap s.sb, (s.inodes i).size.toNat = (X i).length
  fresh : ∀ i, s.freeinode ≤ i → X i = []

theorem Files.congr {V'} (h : Files s V X) (hV : ∀ i < cap s.sb, V' i = V i) : Files s V' X := by
  have htab : s.table V' = s.table V := blockAt_congr (fun i hi k => by rw [hV i hi]) fun _ _ => rfl
  refine ⟨?_, fun i hi => ?_, fun i hi => ?_⟩
  · exact { h.base with owned := by rw [htab]; exact h.base.owned, onto := by rw [htab]; exact h.base.onto }
  · rw [htab]; exact h.holds i hi
  · rw [htab]; exact h.exact i hi

theorem rinode_exec (h : Files s V X) (hi : i < cap s.sb) : (rinode i).exec s = .ok (s.inodes i) s := by
  have hlt : s.sb.iblock i < s.size := by
    have h1 := iblock_lt_of_cap hi
    have h2 := s.sb.bmapstart_le_metaEnd
    have h3 := h.base.ge
    have h4 := h.base.le
    omega
  rw [rinode, exec_bind, exec_fs, ok_bind, exec_bind, h.base.rsect hlt, ok_bind, exec_pure]
  rfl

structure Kept (s : Fs) (i : Nat) (s' : Fs) : Prop where
  frame : s'.frame = s.frame
  bitmap : ∀ b, s.sb.bmapstart ≤ b → b < s.sb.metaEnd → s'.image b = s.image b
  others : ∀ i' < cap s.sb, i' ≠ i → s'.inodes i' = s.inodes i'
  type : (s'.inodes i).type = (s.inodes i).type
  nlink : (s'.inodes i).nlink = (s.inodes i).nlink

theorem Image.iappend (h : Image s X) (hi : i < cap s.sb) (hfree : i < s.freeinode) (data : List UInt8) :
    ((s.size < s.sb.metaEnd + total (cap s.sb) (update X i (X i ++ data)) ∨
      786432 < (X i).length + data.length) ∧ ∃ msg, (iappend i data).exec s = .panic msg) ∨
      ∃ s', (iappend i data).exec s = .ok () s' ∧ Image s' (update X i (X i ++ data)) ∧ Kept s i s' := by
  have hsize := h.size i hi
  have hdata : ((range data.length).map fun j => data.getD ((X i).length - (X i).length + j) 0) = data := by
    refine ext_getElem (by simp) fun j h1 h2 => ?_
    simp [getElem?_eq_getElem h2]
  have hrun := h.files.pieces (fun j => data.getD j 0) (Nat.le_refl data.length) hi (Nat.le_refl _)
  simp only [hdata] at hrun
  rw [Mkproto.iappend, exec_bind, rinode_exec h.files hi, ok_bind]
  rw [hsize, exec_bind]
  obtain ⟨hfull, msg, he⟩ | ⟨din, s1, he, ha, hf⟩ := hrun
  · exact .inl ⟨hfull, msg, by rw [he, panic_bind]⟩
  rw [he, ok_bind]
  have hsb := frame_sb ha.frame
  have hle := hf.length_le (hsb ▸ hi)
  rw [update_self, length_append] at hle
  obtain ⟨s', he', hf', hst⟩ := hf.winode (hsb ▸ hi)
    (d := { din with size := UInt32.ofNat ((X i).length + data.length) })
    fun k => by rw [update_self]; rfl
  have hsb' := frame_sb hst.frame
  have hin : ∀ i' < cap s.sb, i' ≠ i → s'.inodes i' = s.inodes i' := by
    intro i' hi' hne
    rw [hst.others i' hne, Fs.inodes, diskIn, hsb, Fs.inodes, diskIn]
    rw [ha.low _ (Nat.lt_of_lt_of_le (iblock_lt_of_cap hi') s.sb.bmapstart_le_metaEnd)]
  refine .inr ⟨s', he', ⟨?_, fun i' hi' => ?_, fun i' hi' => ?_⟩, ⟨hst.frame.trans ha.frame,
    fun b hge hlt => ?_, hin, ?_, ?_⟩⟩
  · refine hf'.congr fun i' hi' => ?_
    rw [hsb', hsb] at hi'
    by_cases hne : i' = i
    · subst hne; rw [update_self, hst.self]
    · rw [update_of_ne hne, update_of_ne hne, hin i' hi' hne]
  · rw [hsb', hsb] at hi'
    by_cases hne : i' = i
    · subst hne
      rw [update_self, hst.self, length_append]
      exact UInt32.toNat_ofNat_of_lt' (by simp only [UInt32.size]; omega)
    · rw [update_of_ne hne, hin i' hi' hne]; exact h.size i' hi'
  · have hfr : s'.freeinode = s.freeinode := congrArg (·.2.2.1) (hst.frame.trans ha.frame)
    rw [hfr] at hi'
    rw [update_of_ne (by omega)]
    exact h.fresh i' hi'
  · rw [hst.bitmap b (hsb ▸ hge), ha.low b hlt]
  · rw [hst.self]; exact ha.head.type
  · rw [hst.self]; exact ha.head.nlink

theorem Image.ialloc (h : Image s X) (hcap : s.freeinode < cap s.sb) (type : Int16) (owner : Int32) (perms : UInt16) :
    ∃ s', (ialloc type owner perms).exec s = .ok s.freeinode s' ∧ Image s' X ∧
      s'.frame = { s with freeinode := s.freeinode + 1 }.frame ∧
      (∀ b, s.sb.bmapstart ≤ b → s'.image b = s.image b) ∧
      (∀ i' < cap s.sb, i' ≠ s.freeinode → s'.inodes i' = s.inodes i') ∧
      (s'.inodes s.freeinode).type = type ∧ (s'.inodes s.freeinode).nlink = 1 := by
  let s1 : Fs := { s with freeinode := s.freeinode + 1 }
  have hf : Files s1 s.inodes X := ⟨{ h.files.base with }, h.files.holds, h.files.exact⟩
  have hempty : X s.freeinode = [] := h.fresh _ (Nat.le_refl _)
  have haddr : ∀ k, (s.inodes s.freeinode).addr k = 0 := by
    intro k
    by_contra hne
    have hind : s1.table s.inodes (.ind s.freeinode k) = ((s.inodes s.freeinode).addr k).toNat := blockAt_ind hcap k
    have := ((hf.exact _ hcap).ind k).mp (by rw [hind]; exact toNat_ne_zero hne)
    rw [hempty] at this
    simp at this
  obtain ⟨s', he, hf', hst⟩ := hf.winode (i := s.freeinode) hcap
    (d := { Dinode.zero with type := type, nlink := 1, owner := owner.toInt16, perms := perms.toUInt8 })
    fun k => by
      rw [haddr]
      exact Dinode.addr_zero k
  have hsb : s'.sb = s.sb := frame_sb (s := s1) hst.frame
  refine ⟨s', ?_, ⟨?_, fun i hi => ?_, fun i hi => ?_⟩, hst.frame, hst.bitmap, fun i' _ hne => hst.others i' hne, ?_,
    ?_⟩
  · rw [Mkproto.ialloc, exec_bind, exec_fs, ok_bind, exec_bind, exec_modify, ok_bind, exec_bind, he, ok_bind, exec_pure]
  · refine hf'.congr fun i _ => ?_
    by_cases hne : i = s.freeinode
    · subst hne; rw [update_self, hst.self]
    · rw [update_of_ne hne]; exact hst.others i hne
  · rw [hsb] at hi
    by_cases hne : i = s.freeinode
    · subst hne; rw [hst.self, hempty]; rfl
    · rw [hst.others i hne]; exact h.size i hi
  · have hfree : s'.freeinode = s.freeinode + 1 := congrArg (·.2.2.1) hst.frame
    exact h.fresh i (by omega)
  · rw [hst.self]
  · rw [hst.self]

end Xv6Vsd.Mkproto
