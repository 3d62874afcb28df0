import Xv6Vsd.Fs.Lemmas.Frame
import Xv6Vsd.Fs.Lemmas.KeepInode

/-!
# What keeps a state consistent: reading and writing files and directories
-/

namespace Xv6Vsd

open Prog Kernel List

section

variable {s s' : Kernel} {r : IRef}

def InCore (s : Kernel) (r : IRef) (type : Int16) : Prop := ∃ ip, Cached s r ip ∧ ip.din.type = type

structure Kept (s s' : Kernel) (r : IRef) (type : Int16) : Prop where
  ok : s'.Consistent
  inCore : InCore s' r type
  others : ∀ r', r' ≠ r → s'.icache r' = s.icache r'

variable {type : Int16} {bn off inum : Nat} {src : Nat → UInt8} {u : Unit} {n : UInt32} {ip : Inode} {name : List UInt8}

theorem Kept.refl (h : s.Consistent) (hin : InCore s r type) : Kept s s r type := ⟨h, hin, fun _ _ => rfl⟩

theorem Kept.trans {s''} (h : Kept s s' r type) (h' : Kept s' s'' r type) : Kept s s'' r type :=
  ⟨h'.ok, h'.inCore, fun r' hr => (h'.others r' hr).trans (h.others r' hr)⟩

theorem InCore.setDisk (h : InCore s r type) (dev : Nat) (d : Disk) : InCore (s.setDisk dev d) r type := by
  obtain ⟨ip, hc, ht⟩ := h; exact ⟨ip, ⟨hc.entry, hc.valid⟩, ht⟩

theorem div_nindirect_lt (h : bn < maxfile) : bn / nindirect < 12 := by
  simp only [maxfile, nindirect, bsize] at *; omega

theorem mod_nindirect_lt (bn : Nat) : bn % nindirect < 128 := by simp only [nindirect, bsize]; omega

def Place.ofBlock (inum bn : Nat) : Place := .dat inum (bn / nindirect) (bn % nindirect)

variable (h : s.Consistent)

include h

variable (hin : InCore s r type)

include hin

theorem bmap_keep {a} (he : (bmap r bn).exec s = .ok a s') : Kept s s' r type ∧
      (a ≠ -1 → a ≠ 0 ∧ s'.table r.dev (.ofBlock r.inum bn) = a.toNat) := by
  obtain ⟨ip, hc, ht⟩ := hin
  have hs := h.at hc.entry
  obtain ⟨hbn, x, hx, hends⟩ := bmap_ok hs.fit.tidy.marked he
  rw [hc.entry] at hx; cases hx
  have hk := div_nindirect_lt hbn
  have hj := mod_nindirect_lt bn
  obtain ⟨addrs, hc'⟩ := hends.cached hc
  exact ⟨⟨h.apart (h.mounted r ip hc.entry) hends.apart fun _ => hends.sound hs hc hk hj,
    ⟨_, hc', ht⟩, fun _ => hends.others⟩, hends.place hs.settled hc hk hj⟩

/-! ## Pieces -/

def Harmless (n : Nat) (src : Nat → UInt8) (start : Nat) (p : Nat × Nat) : Prop :=
  ∀ x, DirBlock n x → DirBlock n (x.blit (p.1 % bsize) p.2 fun i => src (p.1 - start + i))

theorem writePiece_keep {start : Nat} {b : UInt32} {p : Nat × Nat}
    (hb : b ≠ 0) (htab : s.table r.dev (.ofBlock r.inum bn) = b.toNat)
    (hp : type = tDir → Harmless (s.disk r.dev).sb.ninodes src start p)
    (he : (edit r.dev b.toNat fun x => (some (x.blit (p.1 % bsize) p.2 fun i => src (p.1 - start + i)), ())).exec s
      = .ok u s') :
    Kept s s' r type := by
  obtain ⟨rfl, hr, ho⟩ := edit_write_ok he
  refine ⟨?_, hin.setDisk .., fun _ _ => rfl⟩
  obtain ⟨ip, hc, ht⟩ := hin
  refine h.apart (h.mounted r ip hc.entry) (.setDisk s (congrArg (·.2.1) (Disk.logged_frame ..))) fun hs => ?_
  refine hs.write htab (toNat_ne_zero hb) hr.2.2 ho fun hdir => ?_
  have hdir' : type = tDir := by rw [← ht, ← hc.view]; exact hdir
  exact hp hdir' _ (hs.dirBlock hdir htab (toNat_ne_zero hb))

theorem writePieces_keep {start ps} (hps : type = tDir → ∀ p ∈ ps, Harmless (s.disk r.dev).sb.ninodes src start p) {a}
    (he : (writePieces r src start ps off).exec s = .ok a s') : Kept s s' r type := by
  induction ps generalizing s off with
  | nil => cases he; exact .refl h hin
  | cons p ps ih =>
    obtain ⟨bnum, s1, h1, h2⟩ := bind_ok he
    obtain ⟨hk1, hplace⟩ := bmap_keep h hin h1
    have hsb := keeps_sb quiet_frames.bmapG h1 r.dev
    split at h2
    · cases h2; exact hk1
    rename_i hpos
    obtain ⟨_, s2, h3, h4⟩ := bind_ok h2
    obtain ⟨hne, htab⟩ := hplace fun hc => hpos (by rw [hc]; decide)
    have hk2 := writePiece_keep hk1.ok hk1.inCore hne htab
      (fun hdir => by rw [hsb]; exact hps hdir p (mem_cons_self ..)) h3
    have hsb' := keeps_sb (made_act (quiet_frames.edit r.dev _ _)) h3 r.dev
    refine hk1.trans (hk2.trans (ih hk2.ok hk2.inCore (fun hdir q hq => ?_) h4))
    rw [hsb', hsb]
    exact hps hdir q (mem_cons_of_mem _ hq)

theorem readPieces_keep {ps xs} (he : (readPieces r ps).exec s = .ok xs s') : Kept s s' r type := by
  induction ps generalizing s xs with
  | nil => cases he; exact .refl h hin
  | cons p ps ih =>
    obtain ⟨addr, s1, h1, h2⟩ := bind_ok he
    obtain ⟨hk1, -⟩ := bmap_keep h hin h1
    obtain ⟨ys, s2, h3, h4⟩ := bind_ok h2
    obtain ⟨rfl, -, -⟩ := edit_read_ok h3
    obtain ⟨zs, s3, h5, h6⟩ := bind_ok h4
    cases h6
    exact hk1.trans (ih hk1.ok hk1.inCore h5)

/-! ## Reading and writing -/

theorem iunlock_keep (he : (iunlock r).exec s = .ok u s') : Kept s s' r type := by
  have hok := h.iunlock he
  obtain ⟨ip, hc, ht⟩ := hin
  rw [iunlock_some hc.entry] at he; cases he
  exact ⟨hok, ⟨_, ⟨setInode_icache_self .., hc.valid⟩, ht⟩, fun _ hr => setInode_icache_of_ne _ _ hr⟩

theorem ilock_keep (he : (ilock r).exec s = .ok u s') : Kept s s' r type := by
  have hok := h.ilock he
  obtain ⟨ip, hc, ht⟩ := hin
  obtain ⟨hn, -⟩ | ⟨x, hx, -, rfl⟩ := ilock_ok he
  · simp [hc.entry] at hn
  refine ⟨hok, ⟨_, ⟨setInode_icache_self .., rfl⟩, ?_⟩, fun _ hr => setInode_icache_of_ne _ _ hr⟩
  rw [← ht, ← hc.view]
  rfl

theorem askDevice_keep {a} (he : (askDevice r).exec s = .ok a s') : Kept s s' r type := by
  obtain ⟨b, s1, h1, h2⟩ := bind_ok he
  rw [exec_tau] at h1
  obtain ⟨_, s2, h3, h4⟩ := bind_ok h2
  cases h4
  have hk1 : Kept s s1 r type := by
    obtain ⟨ip, hc, ht⟩ := hin
    cases h1
    exact ⟨h.of_same rfl rfl rfl, ⟨ip, ⟨hc.entry, hc.valid⟩, ht⟩, fun _ _ => rfl⟩
  obtain ⟨-, h5⟩ | ⟨-, rfl⟩ := onlyIf_ok h3
  · obtain ⟨_, s3, h6, h7⟩ := bind_ok h5
    have hk3 := iunlock_keep hk1.ok hk1.inCore h6
    exact hk1.trans (hk3.trans (ilock_keep hk3.ok hk3.inCore h7))
  · exact hk1

theorem readi_keep {off a} (he : (readi r off n).exec s = .ok a s') : Kept s s' r type := by
  obtain ⟨ip, s1, h1, h2⟩ := bind_ok he
  obtain ⟨rfl, -⟩ := inode_ok h1
  split at h2
  · split at h2
    · cases h2; exact .refl h hin
    split at h2
    · have hsame : s' = s1 := by
        unfold bdiskRead at h2
        split at h2
        · cases h2; rfl
        rw [exec_tau] at h2
        obtain ⟨x, d, -, h3⟩ := Res.bind_eq_ok.mp h2
        cases h3
        rfl
      rw [hsame]
      exact .refl h hin
    · obtain ⟨b, s2, h3, h4⟩ := bind_ok h2; cases h4; exact askDevice_keep h hin h3
  · split at h2
    · cases h2; exact .refl h hin
    · obtain ⟨xs, s2, h3, h4⟩ := bind_ok h2; cases h4; exact readPieces_keep h hin h3

theorem update_keep {f} (hf : Mild f)
    (he : (modDin r f >>= fun _ => iupdate r).exec s = .ok u s') : Kept s s' r type := by
  obtain ⟨_, s1, h1, h2⟩ := bind_ok he
  have hc1 := h.modDin hf h1
  obtain ⟨ip, hc, ht⟩ := hin
  obtain ⟨x, hx, rfl⟩ := modDin_ok h1
  rw [hc.entry] at hx; cases hx
  have hcached : Cached (s.setInode r (some { ip with din := f ip.din })) r { ip with din := f ip.din } :=
    ⟨setInode_icache_self .., hc.valid⟩
  have hok := hc1.iupdate1 hcached h2
  obtain ⟨y, -, rfl, -⟩ := iupdate1_ok h2
  exact ⟨hok, InCore.setDisk ⟨_, hcached, (hf.type _).trans ht⟩ .., fun _ hr => setInode_icache_of_ne _ _ hr⟩

omit hin

theorem writei_keep (hc : Cached s r ip) {off} (hraw : ip.din.type = tDev → ip.din.major ≠ rawDisk)
    (hdir : ip.din.type = tDir → ∀ p ∈ pieces n.toNat off.toNat n.toNat,
      Harmless (s.disk r.dev).sb.ninodes src off.toNat p) {a} (he : (writei r src off n).exec s = .ok a s') :
        Kept s s' r ip.din.type := by
  have hin : InCore s r ip.din.type := ⟨ip, hc, rfl⟩
  obtain ⟨x, hx, h2⟩ := inode_bind he
  rw [hc.entry] at hx; cases hx
  split at h2
  · rename_i htype
    split at h2
    · cases h2; exact .refl h hin
    rw [if_neg (hraw htype)] at h2
    obtain ⟨b, s2, h3, h4⟩ := bind_ok h2
    cases h4
    exact askDevice_keep h hin h3
  · split at h2
    · cases h2; exact .refl h hin
    split at h2
    · cases h2; exact .refl h hin
    obtain ⟨⟨ok, last⟩, s2, h3, h4⟩ := bind_ok h2
    have hk2 := writePieces_keep h hin hdir h3
    obtain ⟨y, -, h6⟩ := inode_bind h4
    obtain ⟨_, s4, h7, h8⟩ := bind_ok h6
    cases h8
    obtain ⟨-, h9⟩ | ⟨-, rfl⟩ := onlyIf_ok h7
    · exact hk2.trans (update_keep hk2.ok hk2.inCore (by exact ⟨fun _ _ => rfl, fun _ => rfl⟩) h9)
    · exact hk2

omit h

/-! ## Directories -/

theorem pieces_entry (h : off % 16 = 0) : pieces 16 off 16 = [(off, 16)] := by
  have hm : min 16 (bsize - off % bsize) = 16 := by simp only [bsize]; omega
  simp [pieces, hm]

theorem toInt_eq_sixteen (h : n.toInt32.toInt = 16) : n = 16 := by
  have h2 : n.toInt32 = (16 : UInt32).toInt32 := Int32.toInt_inj.mp h
  exact congrArg Int32.toUInt32 h2

theorem dec_inum (x : Block) (off : Nat) :
    (Dirent.dec ((List.range 16).map fun i => x.get (off + i))).inum = x.u16 off := by
  refine word16_congr fun i hi => ?_
  rw [getD_eq_getElem _ _ (by simp; omega)]
  simp

theorem readDirent_keep (h : s.Consistent) (hin : InCore s r tDir) (hoff : off % 16 = 0) {msg de}
    (he : (readDirent r off msg).exec s = .ok de s') :
    Kept s s' r tDir ∧ (de.inum = 0 ∨ de.inum.toNat < (s.disk r.dev).sb.ninodes) := by
  obtain ⟨⟨n, xs⟩, s1, h1, h2⟩ := bind_ok he
  have hk1 := readi_keep h hin h1
  dsimp only at h2
  split at h2
  · rw [exec_panic] at h2; cases h2
  rename_i hn
  cases h2
  refine ⟨hk1, ?_⟩
  obtain ⟨ip, hip, h4⟩ := inode_bind h1
  have htype : ip.din.type = tDir := by
    obtain ⟨x, hx, ht⟩ := hin
    rw [hx.entry] at hip; cases hip
    exact ht
  rw [if_neg (by rw [htype]; decide)] at h4
  split at h4
  · cases h4; exact absurd (by decide) hn
  obtain ⟨ys, s2, h5, h6⟩ := bind_ok h4
  cases h6
  rw [toInt_eq_sixteen (of_not_not hn)] at h5
  have hoff' : (UInt32.ofNat off).toNat % 16 = 0 := by rw [UInt32.toNat_ofNat']; omega
  rw [show (16 : UInt32).toNat = 16 from rfl, pieces_entry hoff'] at h5
  obtain ⟨addr, s3, h7, h8⟩ := bind_ok h5
  obtain ⟨hk3, hplace⟩ := bmap_keep h hin h7
  obtain ⟨zs, s4, h9, h10⟩ := bind_ok h8
  obtain ⟨rfl, rfl, hr⟩ := edit_read_ok h9
  obtain ⟨ws, s5, h11, h12⟩ := bind_ok h10
  cases h11
  cases h12
  have hne : addr ≠ -1 := fun hc => by
    have := hr.2.2
    rw [hc] at this
    exact absurd this (by decide)
  obtain ⟨h0, htab⟩ := hplace hne
  obtain ⟨jp, hc, ht⟩ := hk3.inCore
  have hdir := (hk3.ok.at hc.entry).dirBlock (by rw [hc.view, ht]) htab (toNat_ne_zero h0)
  rw [append_nil, dec_inum, ← keeps_sb quiet_frames.bmapG h7 r.dev]
  have hdiv : (UInt32.ofNat off).toNat % bsize = 16 * ((UInt32.ofNat off).toNat % bsize / 16) := by
    simp only [bsize]
    omega
  rw [hdiv]
  exact hdir _

theorem iget_inCore {dev a} (hin : InCore s r type) (he : (iget dev inum).exec s = .ok a s') : InCore s' r type := by
  obtain ⟨ip, hc, ht⟩ := hin
  obtain ⟨rfl, ⟨x, hx, rfl⟩ | ⟨hn, rfl⟩⟩ := iget_ok he
  · by_cases hr : r = ⟨dev, inum⟩
    · subst hr; rw [hc.entry] at hx; cases hx; exact ⟨_, ⟨setInode_icache_self .., hc.valid⟩, ht⟩
    · exact ⟨ip, ⟨(setInode_icache_of_ne _ _ hr).trans hc.entry, hc.valid⟩, ht⟩
  have hr : r ≠ ⟨dev, inum⟩ := fun hr => by
    rw [← hr, hc.entry] at hn; cases hn
  exact ⟨ip, ⟨(setInode_icache_of_ne _ _ hr).trans hc.entry, hc.valid⟩, ht⟩

theorem dirlookupFrom_keep (h : s.Consistent) (hin : InCore s r tDir) {fuel} (hoff : off % 16 = 0)
    {a} (he : (dirlookupFrom r name fuel off).exec s = .ok a s') :
    s'.Consistent ∧ InCore s' r tDir ∧ ∀ ip o, a = some (ip, o) → o % 16 = 0 := by
  induction fuel generalizing s off with
  | zero => cases he; exact ⟨h, hin, by simp⟩
  | succ fuel ih =>
    obtain ⟨ip, -, h2⟩ := inode_bind he
    split at h2
    · obtain ⟨de, s2, h3, h4⟩ := bind_ok h2
      obtain ⟨hk2, hde⟩ := readDirent_keep h hin hoff h3
      split at h4
      · exact ih hk2.ok hk2.inCore (by omega) h4
      rename_i hmatch
      obtain ⟨x, hx, h6⟩ := inode_bind h4
      obtain ⟨next, s4, h7, h8⟩ := bind_ok h6
      cases h8
      have hsb := keeps_sb plain_frames.readDirent h3 r.dev
      refine ⟨hk2.ok.iget (hk2.ok.mounted r x hx) ?_ h7, iget_inCore hk2.inCore h7, fun ip o ho => ?_⟩
      · split
        · exact (hk2.ok.at hx).refs r.inum x hx
        · rw [hsb]; exact hde.resolve_left fun h0 => hmatch (.inl h0)
      · cases ho; exact hoff
    · cases h2; exact ⟨h, hin, by simp⟩

theorem dirlookup_keep (h : s.Consistent) (hc : Cached s r ip) {a} (he : (dirlookup r name).exec s = .ok a s') :
    s'.Consistent ∧ InCore s' r tDir ∧ ∀ ip o, a = some (ip, o) → o % 16 = 0 := by
  obtain ⟨x, hx, h2⟩ := inode_bind he
  rw [hc.entry] at hx; cases hx
  split at h2
  · rw [exec_panic] at h2; cases h2
  · rename_i ht
    exact dirlookupFrom_keep h ⟨ip, hc, of_not_not ht⟩ rfl h2

theorem emptyFrom_keep (h : s.Consistent) (hin : InCore s r tDir) {fuel o} (hoff : off % 16 = 0)
    (he : (emptyFrom r fuel off).exec s = .ok o s') : Kept s s' r tDir ∧ o % 16 = 0 := by
  induction fuel generalizing s off with
  | zero => cases he; exact ⟨.refl h hin, hoff⟩
  | succ fuel ih =>
    obtain ⟨ip, -, h2⟩ := inode_bind he
    split at h2
    · obtain ⟨de, s2, h3, h4⟩ := bind_ok h2
      obtain ⟨hk2, -⟩ := readDirent_keep h hin hoff h3
      split at h4
      · cases h4; exact ⟨hk2, hoff⟩
      · obtain ⟨hk, ho⟩ := ih hk2.ok hk2.inCore (by omega) h4; exact ⟨hk2.trans hk, ho⟩
    · cases h2; exact ⟨.refl h hin, hoff⟩

theorem harmless_entry {n} (hoff : off % 16 = 0) (hsrc : word16 src = 0 ∨ (word16 src).toNat < n) :
    Harmless n src off (off, 16) := by
  intro x hx m
  by_cases hm : 16 * m = off % bsize
  · have hget : Bytes.u16 (x.blit (off % bsize) 16 fun i => src (off - off + i)) (16 * m) = word16 src := by
      refine word16_congr fun i hi => ?_
      rw [hm, Bytes.get_blit_in _ _ (by omega) (by simp only [bsize]; omega), Nat.sub_self, Nat.zero_add]
    rw [hget]
    exact hsrc
  have hget : Bytes.u16 (x.blit (off % bsize) 16 fun i => src (off - off + i)) (16 * m) = x.u16 (16 * m) := by
    refine word16_congr fun i hi => Bytes.get_blit_out _ _ ?_
    simp only [bsize] at *
    omega
  rw [hget]
  exact hx m

theorem word16_dirent (name : List UInt8) {n} (h : inum < n) :
    word16 (Dirent.bytes name inum) = 0 ∨ (word16 (Dirent.bytes name inum)).toNat < n := by
  have he : word16 (Dirent.bytes name inum) = UInt16.ofNat (inum % 256 ^ 2) := by
    rw [← le_byteAt]
    exact word16_congr fun i hi => by simp [Dirent.bytes, hi]
  refine .inr (Nat.lt_of_le_of_lt ?_ h)
  rw [he, UInt16.toNat_ofNat']
  exact Nat.le_trans (Nat.mod_le ..) (Nat.mod_le ..)

theorem writeEntry_keep (h : s.Consistent) (hin : InCore s r tDir) (hoff : off % 16 = 0)
    (hsrc : word16 src = 0 ∨ (word16 src).toNat < (s.disk r.dev).sb.ninodes) {n}
    (he : (writei r src (UInt32.ofNat off) 16).exec s = .ok n s') : Kept s s' r tDir := by
  obtain ⟨ip, hc, hip⟩ := hin
  have hoff' : (UInt32.ofNat off).toNat % 16 = 0 := by rw [UInt32.toNat_ofNat']; omega
  rw [← hip]
  refine writei_keep h hc (fun hdev => absurd (hip.symm.trans hdev) (by decide)) (fun _ p hp => ?_) he
  rw [show (16 : UInt32).toNat = 16 from rfl, pieces_entry hoff', mem_singleton] at hp
  rw [hp]
  exact harmless_entry hoff' hsrc

theorem dirlink_keep (h : s.Consistent) (hc : Cached s r ip) (hinum : inum < (s.disk r.dev).sb.ninodes) {n}
    (he : (dirlink r name inum).exec s = .ok n s') : s'.Consistent := by
  obtain ⟨found, s1, h1, h2⟩ := bind_ok he
  obtain ⟨hc1, hin1, -⟩ := dirlookup_keep h hc h1
  have hsb := keeps_sb plain_frames.dirlookup h1 r.dev
  cases found with
  | some x => obtain ⟨_, s2, h3, h4⟩ := bind_ok h2; cases h4; exact hc1.iput1 h3
  | none =>
    obtain ⟨y, -, h4⟩ := inode_bind h2
    obtain ⟨off, s3, h5, h6⟩ := bind_ok h4
    obtain ⟨hk3, hoff⟩ := emptyFrom_keep hc1 hin1 rfl h5
    have hsb' := keeps_sb plain_frames.emptyFrom h5 r.dev
    obtain ⟨m, s4, h7, h8⟩ := bind_ok h6
    have hw := writeEntry_keep hk3.ok hk3.inCore hoff (word16_dirent name (by rw [hsb', hsb]; exact hinum)) h7
    split at h8
    · simp [exec_panic] at h8
    · cases h8; exact hw.ok

/-! ## Paths -/

theorem ilock_cached (he : (ilock r).exec s = .ok u s') (hip : s'.icache r = some ip) : Cached s' r ip := by
  obtain ⟨hn, rfl⟩ | ⟨x, -, -, rfl⟩ := ilock_ok he
  · rw [hip] at hn; cases hn
  refine ⟨hip, ?_⟩
  rw [setInode_icache_self] at hip; cases hip
  rfl

theorem walk_keep (h : s.Consistent) {parent direct names a} (he : (walk parent direct names r).exec s = .ok a s') :
    s'.Consistent := by
  induction names generalizing r s with
  | nil =>
    unfold walk at he
    split at he
    · obtain ⟨_, s1, h1, h2⟩ := bind_ok he; cases h2; exact h.iput1 h1
    · cases he; exact h
  | cons name rest ih =>
    obtain ⟨_, s1, h1, h2⟩ := bind_ok he
    obtain ⟨ip, hip, h4⟩ := inode_bind h2
    have hc1 := h.ilock h1
    split at h4
    · obtain ⟨_, s3, h5, h6⟩ := bind_ok h4; cases h6; exact hc1.iunlockput1 h5
    split at h4
    · obtain ⟨_, s3, h5, h6⟩ := bind_ok h4; cases h6; exact hc1.iunlock h5
    obtain ⟨found, s3, h5, h6⟩ := bind_ok h4
    obtain ⟨hc3, -, -⟩ := dirlookup_keep hc1 (ilock_cached h1 hip) h5
    cases found with
    | none => obtain ⟨_, s4, h7, h8⟩ := bind_ok h6; cases h8; exact hc3.iunlockput1 h7
    | some x => obtain ⟨_, s4, h7, h8⟩ := bind_ok h6; exact ih (hc3.iunlockput1 h7) h8

theorem namex_keep (h : s.Consistent) {p path parent direct a} (he : (namex p path parent direct).exec s = .ok a s') :
    s'.Consistent := by
  have h2 := peek_bind he
  obtain ⟨ip, s2, h3, h4⟩ := bind_ok h2
  have hc2 := h.idup h3
  cases ip with
  | some r => exact walk_keep hc2 h4
  | none =>
    dsimp only at h4
    split at h4
    · cases h4; exact hc2
    · rw [exec_trap] at h4; cases h4

end

end Xv6Vsd
