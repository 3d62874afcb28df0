import Xv6Vsd.Fs.Consistent

/-!
# What keeps a state consistent: the routines on inodes
-/

namespace Xv6Vsd

open Prog Function Kernel Disk

section

variable {s s' : Kernel} {r : IRef} {dev : Nat}

theorem onlyInode_save (hib : (s.disk r.dev).sb.iblock r.inum < (s.disk r.dev).sb.bmapstart) (direct : Bool)
    (D : Dinode) :
    OnlyInode r s (s.setDisk r.dev ((s.disk r.dev).save direct ((s.disk r.dev).sb.iblock r.inum)
      (((s.disk r.dev).cache ((s.disk r.dev).sb.iblock r.inum)).setDinode r.inum D))) := by
  refine ⟨.setDisk s (save_mounted ..), fun _ _ => rfl, by simp, fun b hb => ?_, fun i _ hi => ?_⟩
  · rw [setDisk_disk_self, save_cache, update_of_ne (by omega)]
  rw [setDisk_disk_self, save_cache, diskIn, diskIn]
  by_cases hb : (s.disk r.dev).sb.iblock i = (s.disk r.dev).sb.iblock r.inum
  · rw [hb, update_self, dinode_setDinode_of_ne]
    have hb' : i / 8 + (s.disk r.dev).sb.inodestart = r.inum / 8 + (s.disk r.dev).sb.inodestart := hb
    omega
  · rw [update_of_ne hb]

theorem diskInode_save (s : Kernel) (r : IRef) (direct : Bool) (D : Dinode) :
    (s.setDisk r.dev ((s.disk r.dev).save direct ((s.disk r.dev).sb.iblock r.inum)
      (((s.disk r.dev).cache ((s.disk r.dev).sb.iblock r.inum)).setDinode r.inum D))).diskInode r = D := by
  simp [diskInode]

theorem diskInode_putInode (s : Kernel) (r : IRef) (direct : Bool) (ip : Dinode) :
    (s.setDisk r.dev ((s.disk r.dev).putInode direct r.inum ip)).diskInode r = (s.diskInode r).update ip :=
  diskInode_save ..

theorem onlyInode_putInode (hib : (s.disk r.dev).sb.iblock r.inum < (s.disk r.dev).sb.bmapstart)
    (direct : Bool) (ip : Dinode) :
    OnlyInode r s (s.setDisk r.dev ((s.disk r.dev).putInode direct r.inum ip)) := onlyInode_save hib direct _

theorem Kernel.setDisk_freed (s : Kernel) (r : IRef) (direct : Bool) (ip : Dinode) :
    s.setDisk r.dev ((s.disk r.dev).freed direct r.inum ip) =
      (s.setDisk r.dev ((s.disk r.dev).putInode false r.inum { ip with size := 0 })).setDisk r.dev
        (((s.setDisk r.dev ((s.disk r.dev).putInode false r.inum { ip with size := 0 })).disk r.dev).putInode direct
          r.inum { ip with size := 0, type := 0 }) := by
  simp [freed]

variable {direct : Bool} {ip : Inode} {u : Unit}

theorem onlyInode_dropFreed (hib : (s.disk r.dev).sb.iblock r.inum < (s.disk r.dev).sb.bmapstart) :
    OnlyInode r s ((s.setDisk r.dev ((s.disk r.dev).freed direct r.inum ip.din)).drop r ip) := by
  have hone := onlyInode_putInode hib false { ip.din with size := 0 }
  have htwo := onlyInode_putInode (hone.sb.symm ▸ hib) direct { ip.din with size := 0, type := 0 }
  rw [setDisk_freed]
  exact (hone.trans htwo).trans (.of_disk (drop_disk ..) (fun _ hr => drop_icache_of_ne _ _ hr) (drop_stale ..))

theorem diskInode_dropFreed : ((s.setDisk r.dev ((s.disk r.dev).freed direct r.inum ip.din)).drop r ip).diskInode r =
      ((s.diskInode r).update { ip.din with size := 0 }).update { ip.din with size := 0, type := 0 } := by
  rw [setDisk_freed, ← diskInode_putInode s r false, ← diskInode_putInode _ r direct]
  simp [diskInode]

theorem Disk.LogOk.save {d : Disk} (h : d.LogOk) (direct : Bool) {inum : Nat} {x : Block}
    (hr : d.Ready (d.sb.iblock inum)) (ho : direct = false → d.Open) :
    (d.save direct (d.sb.iblock inum) x).LogOk := by
  cases direct with
  | true => exact h
  | false => exact h.logged (ho rfl) (Nat.le_add_left ..) hr.2.2

structure Disk.Quiet (d e : Disk) : Prop where
  sb : e.sb = d.sb
  present : e.present = d.present
  mounted : e.mounted = d.mounted
  busy : e.busy = d.busy
  cache : ∀ b, d.sb.inodestart ≤ b → e.cache b = d.cache b
  log : d.LogOk → e.LogOk

theorem Disk.Quiet.refl (d : Disk) : d.Quiet d := ⟨rfl, rfl, rfl, rfl, fun _ _ => rfl, id⟩

theorem beginOp_quiet (he : (beginOp dev).exec s = .ok u s') :
    (s.disk dev).mounted = true ∧ ∃ d, s' = s.setDisk dev d ∧ (s.disk dev).Quiet d := by
  have hm : (s.disk dev).mounted = true := by
    obtain ⟨_, _, h1, -⟩ := Res.bind_eq_ok.mp he
    exact (onDisk_ok h1).1
  obtain ⟨d, hd, rfl⟩ := onLog_ok he
  rw [Log.beginOp, exec_act] at hd
  refine ⟨hm, d, rfl, ?_⟩
  obtain ⟨-, rfl⟩ | ⟨-, -, -, rfl⟩ := beginOp_ok hd
  · exact .refl _
  · exact ⟨rfl, rfl, rfl, rfl, fun _ _ => rfl, id⟩

theorem endOp_quiet (hlog : (s.disk dev).mounted = true → (s.disk dev).LogOk) (he : (endOp dev).exec s = .ok u s') :
    (s.disk dev).mounted = true ∧ ∃ d, s' = s.setDisk dev d ∧ (s.disk dev).Quiet d := by
  have hm : (s.disk dev).mounted = true := by
    obtain ⟨_, _, h1, -⟩ := Res.bind_eq_ok.mp he
    exact (onDisk_ok h1).1
  have hl := hlog hm
  obtain ⟨d, hd, rfl⟩ := onLog_ok he
  refine ⟨hm, d, rfl, ?_⟩
  obtain rfl | ⟨hsize, ha, hlh⟩ := Log.endOp_alike (fun hsize b ⟨x, hx, hb⟩ =>
    hl.outside hsize (hb ▸ (hl.resolve_left hsize).2.2 x hx)) hd
  · exact .refl _
  refine ⟨ha.sb, ha.present, ha.mounted, ha.busy, fun b hb => ha.cache b (hl.outside hsize hb), fun _ => .inr ?_⟩
  obtain ⟨h1, h2, h3⟩ := hl.resolve_left hsize
  rw [ha.start, ha.size, ha.sb]
  rcases hlh with he | he
  · rw [he]; exact ⟨h1, h2, h3⟩
  · rw [he]; exact ⟨h1, Nat.pos_of_ne_zero hsize, by simp⟩

theorem Settled.iupdate1 (hs : Settled s r.dev) (hc : Cached s r ip) (he : (iupdate1 r direct).exec s = .ok u s') :
    Settled s' r.dev ∧ OnlyInode r s s' := by
  obtain ⟨x, hip, rfl, hr, ho⟩ := iupdate1_ok he
  rw [hc.entry] at hip; cases hip
  have hlt := hs.refs r.inum ip hc.entry
  have hdin : (s.setDisk r.dev ((s.disk r.dev).putInode direct r.inum ip.din)).din r = ip.din :=
    din_of_valid hc.entry hc.valid
  have hold : s.din r = ip.din := hc.view
  have hone := onlyInode_putInode (hs.snug.iblock_lt hlt) direct ip.din
  refine ⟨hs.inode hone ?_ (fun x hx => ⟨hlt, hs.loaded r.inum x hx⟩)
    (fun k => .inr (by rw [hold]; exact congrArg (·.addr k) hdin)) fun k _ => ?_, hone⟩
  · rw [setDisk_disk_self]; exact hs.log.save direct hr ho
  · rw [diskInode_putInode]; exact ⟨congrArg (·.addr k) hdin.symm, congrArg (·.type) hdin.symm⟩

structure Mild (f : Dinode → Dinode) : Prop where
  addr : ∀ d k, (f d).addr k = d.addr k
  type : ∀ d, (f d).type = d.type

namespace Kernel.Consistent

variable {ip : Inode} {u : Unit} {direct : Bool} (h : s.Consistent)

include h

theorem setInode {ip'} (hip : s.icache r = some ip)
    (hbusy : ip'.busy = true → ip.busy = true ∨ ip.valid = true) (hv : ip'.valid = ip.valid)
    (haddr : ∀ k, ip'.din.addr k = ip.din.addr k) (htype : ip'.din.type = ip.din.type) :
    (s.setInode r (some ip')).Consistent := by
  have hnew := s.setInode_icache_self r (some ip')
  refine h.entry (.of_disk rfl (fun _ hr => setInode_icache_of_ne _ _ hr) rfl) rfl
    (h.mounted r ip hip) ((h.at hip).refs r.inum ip hip) (fun x hx hb => ?_) (fun k => ?_) ?_
  · rw [hnew] at hx
    cases hx
    rw [hv]
    exact (hbusy hb).elim ((h.at hip).loaded r.inum ip hip) id
  · simp only [din, hnew, hip, hv]
    split
    · exact haddr k
    · rfl
  · simp only [din, hnew, hip, hv]
    split
    · exact htype
    · rfl

theorem iget {inum a} (hm : (s.disk dev).mounted = true) (hlt : inum < (s.disk dev).sb.ninodes)
    (he : (iget dev inum).exec s = .ok a s') : s'.Consistent := by
  obtain ⟨rfl, ⟨ip, hip, rfl⟩ | ⟨hn, hs'⟩⟩ := iget_ok he
  · exact h.setInode hip .inl rfl (fun _ => rfl) rfl
  have hd : s'.disk = s.disk := by rw [hs']; rfl
  have hst : s'.stale = s.stale := by rw [hs']; rfl
  have hother : ∀ r', r' ≠ ⟨dev, inum⟩ → s'.icache r' = s.icache r' := fun r' hr => by
    rw [hs']
    exact setInode_icache_of_ne _ _ hr
  have hnew : s'.icache ⟨dev, inum⟩ = some ⟨0, false, false, false, s.stale ⟨dev, inum⟩⟩ := by
    rw [hs']
    exact setInode_icache_self ..
  have hdin : s'.din ⟨dev, inum⟩ = s.din ⟨dev, inum⟩ := by simp [din, hnew, hn, diskInode, hd]
  refine h.entry (.of_disk hd hother hst) hd hm hlt (fun x hx hb => ?_) (fun k => by rw [hdin]) (by rw [hdin])
  rw [hnew] at hx; cases hx
  cases hb

theorem idup {o a} (he : (idup o).exec s = .ok a s') : s'.Consistent := by
  obtain ⟨_, s1, h1, h2⟩ := bind_ok he
  cases h2
  cases o with
  | none => cases h1; exact h
  | some r =>
    obtain ⟨ip, hip, rfl⟩ := modInode_ok h1
    exact h.setInode hip .inl rfl (fun _ => rfl) rfl

theorem iunlock (he : (iunlock r).exec s = .ok u s') : s'.Consistent := by
  cases hr : s.icache r with
  | none => rw [iunlock_none hr] at he; cases he; exact h
  | some ip =>
    rw [iunlock_some hr] at he; cases he
    exact h.setInode hr (fun hb => by cases hb) rfl (fun _ => rfl) rfl

theorem ilock (he : (ilock r).exec s = .ok u s') : s'.Consistent := by
  obtain ⟨-, rfl⟩ | ⟨ip, hip, -, rfl⟩ := ilock_ok he
  · exact h
  have hdin : (s.setInode r (some { ip with busy := true, valid := true, din := s.din r })).din r = s.din r :=
    din_of_valid (setInode_icache_self ..) rfl
  refine h.entry (.of_disk rfl (fun _ hr => setInode_icache_of_ne _ _ hr) rfl) rfl
    (h.mounted r ip hip) ((h.at hip).refs r.inum ip hip) (fun x hx _ => ?_) (fun k => by rw [hdin]) (by rw [hdin])
  rw [setInode_icache_self] at hx; cases hx
  rfl

theorem modDin {f} (hf : Mild f) (he : (modDin r f).exec s = .ok u s') : s'.Consistent := by
  obtain ⟨ip, hip, rfl⟩ := modDin_ok he
  exact h.setInode hip .inl rfl (fun k => hf.addr _ k) (hf.type _)

theorem iupdate1 (hc : Cached s r ip) (he : (iupdate1 r direct).exec s = .ok u s') : s'.Consistent := by
  obtain ⟨hset, hone⟩ := (h.at hc.entry).settled.iupdate1 hc he
  obtain ⟨x, hip, rfl, -⟩ := iupdate1_ok he
  rw [hc.entry] at hip; cases hip
  refine h.apart (h.mounted r ip hc.entry) hone.apart fun hs => hset.sound ?_
  have hnew : (s.setDisk r.dev ((s.disk r.dev).putInode direct r.inum ip.din)).din r = ip.din :=
    din_of_valid hc.entry hc.valid
  have hdin := hnew.trans hc.view.symm
  rw [hone.sb]
  refine hs.fit.inode (fun i => hone.view) hone.high hone.low (fun k => .inr (congrArg (·.addr k) hdin)) (fun k => ?_)
    fun k _ ht => (congrArg (·.type) hdin).symm.trans ht
  have hco := hset.snug.coherent r.inum (by rw [hone.sb]; exact hs.refs r.inum ip hc.entry) k
  rw [hone.sb] at hco
  exact hco

theorem ialloc {type a} (he : (ialloc dev type).exec s = .ok a s') : s'.Consistent := by
  have hm : (s.disk dev).mounted = true := by
    obtain ⟨_, _, h1, -⟩ := bind_ok he
    exact (getsuperblock_ok h1).2.2
  obtain ⟨-, rfl, -⟩ | ⟨i, rfl, -, hlt, -, hr, ho, hget⟩ := ialloc_ok he
  · exact h
  have hmount : ((s.disk dev).claimed type i).mounted = (s.disk dev).mounted := congrArg (·.2.1) (logged_frame ..)
  have hsb : ((s.disk dev).claimed type i).sb = (s.disk dev).sb := logged_sb ..
  refine Kernel.Consistent.iget (s := s.setDisk dev ((s.disk dev).claimed type i)) ?_ ?_ ?_ hget
  · refine h.apart hm (.setDisk s hmount) fun hs => ?_
    have honly : OnlyInode ⟨dev, i⟩ s (s.setDisk dev ((s.disk dev).claimed type i)) :=
      onlyInode_save (r := ⟨dev, i⟩) (hs.fit.iblock_lt hlt) false _
    have hdisk : (s.setDisk dev ((s.disk dev).claimed type i)).diskInode ⟨dev, i⟩ =
      { Dinode.zero with type := type } := diskInode_save s ⟨dev, i⟩ false _
    have hnull : ∀ k, ({ Dinode.zero with type := type } : Dinode).addr k = 0 := fun k => by
      simp [Dinode.addr, Dinode.zero]
    -- an inode in memory does not notice; any other now has no pointers
    have hdin : (s.setDisk dev ((s.disk dev).claimed type i)).din ⟨dev, i⟩ = s.din ⟨dev, i⟩ ∨
      ∀ k, ((s.setDisk dev ((s.disk dev).claimed type i)).din ⟨dev, i⟩).addr k = 0 := by
      simp only [din, setDisk_icache, hdisk]
      cases s.icache ⟨dev, i⟩ with
      | none => exact .inr hnull
      | some ip =>
        by_cases hv : ip.valid = true
        · simp [hv]
        · simp only [if_neg hv]; exact .inr hnull
    refine hs.inode (r := ⟨dev, i⟩) honly ?_ (fun x hx => ⟨hlt, hs.loaded i x hx⟩) (fun k => ?_) (fun k hk => ?_)
      fun k hk => ?_
    · rw [setDisk_disk_self]; exact hs.log.logged ho (Nat.le_add_left ..) hr.2.2
    · rcases hdin with he | he
      · exact .inr (by rw [he])
      · exact .inl (he k)
    · rw [hdisk] at hk; exact absurd (hnull k) hk
    rcases hdin with he | he
    · rw [he]; exact id
    · exact absurd (he k) hk
  · rw [setDisk_disk_self, hmount, hm]
  · rw [setDisk_disk_self, hsb]; exact hlt

theorem dropLast (hip : s.icache r = some ip) (hm : ip.more = 0) : (s.drop r ip).Consistent := by
  refine h.apart (h.mounted r ip hip) (.drop s r ip) fun hs => ?_
  have hlt := hs.refs r.inum ip hip
  have hgone : (s.drop r ip).icache r = none := by simp [drop, hm]
  have hdisk : (s.drop r ip).diskInode r = s.diskInode r := by simp [diskInode]
  have hdin : (s.drop r ip).din r = (s.stale r).update (s.diskInode r) := by
    simp [din, hgone, hdisk]
  have hco := hs.fit.coherent r.inum hlt
  refine hs.inode (.of_disk (s.drop_disk r ip) (fun _ hr => s.drop_icache_of_ne ip hr) (s.drop_stale r ip)) ?_
    (fun x hx => by rw [hgone] at hx; cases hx) (fun k => ?_) (fun k _ => ?_) fun k hk ht => ?_
  · rw [drop_disk]; exact hs.log
  · rw [hdin]
    by_cases hk : (s.diskInode r).addr k = 0
    · exact .inl hk
    · exact .inr (hco k hk).1
  · rw [hdisk, hdin]; exact ⟨rfl, rfl⟩
  · rw [hdin] at hk ht; exact (hco k hk).2 ▸ ht

theorem dropFreed (hip : s.icache r = some ip) (hd : ip.doomed = true)
    (hr : (s.disk r.dev).Ready ((s.disk r.dev).sb.iblock r.inum)) (ho : (s.disk r.dev).Open)
    (ho' : direct = false → ((s.disk r.dev).putInode false r.inum { ip.din with size := 0 }).Open) :
    ((s.setDisk r.dev ((s.disk r.dev).freed direct r.inum ip.din)).drop r ip).Consistent := by
  obtain ⟨hm, hv, -⟩ : ip.more = 0 ∧ ip.valid = true ∧ ip.din.nlink = 0 := by simpa [Inode.doomed] using hd
  have hmount : ((s.disk r.dev).freed direct r.inum ip.din).mounted = (s.disk r.dev).mounted :=
    congrArg (·.2.1) (freed_frame ..)
  refine h.apart (h.mounted r ip hip) ((Apart.setDisk s hmount).trans (.drop _ r ip)) fun hs => ?_
  have hib := hs.fit.iblock_lt (hs.refs r.inum ip hip)
  let s1 := s.setDisk r.dev ((s.disk r.dev).freed direct r.inum ip.din)
  have hgone : (s1.drop r ip).icache r = none := by simp [drop, hm]
  have hdin : (s1.drop r ip).din r = (s1.stale r).update ((s1.drop r ip).diskInode r) := by
    simp [din, hgone]
  have hold : s.din r = ip.din := din_of_valid hip hv
  have hlog1 : ((s.disk r.dev).putInode false r.inum { ip.din with size := 0 }).LogOk :=
    hs.log.save false hr fun _ => ho
  have hlog : (s1.disk r.dev).LogOk := by
    rw [setDisk_disk_self]
    refine hlog1.save direct ?_ ho'
    have hp : ((s.disk r.dev).putInode false r.inum { ip.din with size := 0 }).present =
      (s.disk r.dev).present := congrArg (·.1) (putInode_frame ..)
    have hb : ((s.disk r.dev).putInode false r.inum { ip.din with size := 0 }).busy =
      (s.disk r.dev).busy := save_busy ..
    simpa [Disk.Ready, hp, hb] using hr
  refine hs.inode (onlyInode_dropFreed hib) (by rw [drop_disk]; exact hlog)
    (fun x hx => by rw [hgone] at hx; cases hx) (fun k => .inr ?_) (fun k _ => ?_) fun k _ ht => ?_
  · rw [hdin, diskInode_dropFreed, hold]; rfl
  · rw [hdin]; exact ⟨rfl, rfl⟩
  · rw [hdin, diskInode_dropFreed] at ht; exact absurd (show (0 : Int16) = tDir from ht) (by decide)

theorem iput1 (he : (iput1 r direct).exec s = .ok u s') : s'.Consistent := by
  obtain ⟨ip, hip, ⟨-, rfl⟩ | ⟨hd, -, rfl, hr, ho, ho'⟩⟩ := iput1_ok he
  · by_cases hm : ip.more = 0
    · exact h.dropLast hip hm
    · rw [drop, if_neg hm]; exact h.setInode hip .inl rfl (fun _ => rfl) rfl
  · exact h.dropFreed hip hd hr ho ho'

theorem iunlockput1 (he : (iunlockput1 r direct).exec s = .ok u s') : s'.Consistent := by
  obtain ⟨_, s1, h1, h2⟩ := bind_ok he; exact (h.iunlock h1).iput1 h2

theorem quiet {d} (hm : (s.disk dev).mounted = true) (hq : (s.disk dev).Quiet d) : (s.setDisk dev d).Consistent :=
  h.apart hm (.setDisk s hq.mounted) fun hs => hs.setDisk_congr hq.sb (fun b hb => hq.cache b (hq.sb ▸ hb))
    (hq.log hs.log)

theorem beginOp {u} (he : (beginOp dev).exec s = .ok u s') : s'.Consistent := by
  obtain ⟨hm, d, rfl, hq⟩ := beginOp_quiet he; exact h.quiet hm hq

theorem endOp {u} (he : (endOp dev).exec s = .ok u s') : s'.Consistent := by
  obtain ⟨hm, d, rfl, hq⟩ := endOp_quiet (fun hm => (h.sound dev hm).log) he; exact h.quiet hm hq

end Kernel.Consistent

end

end Xv6Vsd
