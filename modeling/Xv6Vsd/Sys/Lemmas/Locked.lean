import Xv6Vsd.Sys.Lemmas.Parts

/-!
# Which inodes are locked

A device may release the inode and lock it again while it waits, so a routine that reads or writes
keeps the set only if the inode is locked when it starts.
-/

namespace Xv6Vsd

open Prog Function Kernel

def Kernel.locked (s : Kernel) (r : IRef) : Bool := (s.icache r).any (·.busy)

variable {s : Kernel} {r : IRef}

theorem Kernel.locked_eq {ip} (h : s.icache r = some ip) : s.locked r = ip.busy := by
  simp [locked, h]

theorem Kernel.locked_none (h : s.icache r = none) : s.locked r = false := by simp [locked, h]

theorem Kernel.locked_setInode (s : Kernel) (r : IRef) (x : Option Inode) :
    (s.setInode r x).locked = update s.locked r (x.any (·.busy)) := by
  funext r'
  by_cases h : r' = r
  · subst h; simp [locked]
  · simp [locked, update_of_ne h, setInode_icache_of_ne _ _ h]

theorem Kernel.locked_of_icache {s' : Kernel} (h : s'.icache = s.icache) : s'.locked = s.locked := by
  funext r
  rw [locked, h]
  rfl

theorem Kernel.locked_setInode_self {ip ip'} (h : s.icache r = some ip) (hb : ip'.busy = ip.busy) :
    (s.setInode r (some ip')).locked = s.locked := by
  rw [locked_setInode, Option.any_some, hb, ← locked_eq h, update_eq_self]

section

variable {L : IRef → Bool} {r r' : IRef}

theorem update_unlock (h : L r = false) : update (update L r true) r false = L := by
  rw [update_idem, ← h, update_eq_self]

theorem update_relock (h : L r = true) : update (update L r false) r true = L := by
  rw [update_idem, ← h, update_eq_self]

theorem update_unlock_first (h : L r = false) (hne : r' ≠ r) :
    update (update (update L r true) r' true) r false = update L r' true := by
  rw [update_comm hne, update_unlock h]

end

/-! ## Single steps -/

theorem quiet_locked : Quiet (Spares Kernel.locked) where
  look lab f h := fun s b s' hf => by rw [h s b s' hf]
  edit dev b g := spares_of_disk
  editDirect dev b g := spares_of_disk
  hold lab dev b := spares_of_disk
  release dev b g := spares_of_disk
  field r g hg := made_act fun s b s' hf => by
    split at hf
    · rename_i ip hip
      cases hf
      exact locked_setInode_self hip (hg ip)
    · cases hf
  iget dev inum := made_act fun s b s' hf => by
    have h : (iget dev inum).exec s = .ok b s' := by rw [iget, exec_tau]; exact hf
    obtain ⟨rfl, ⟨ip, hip, rfl⟩ | ⟨hn, rfl⟩⟩ := iget_ok h
    · exact locked_setInode_self hip rfl
    have hl : update s.locked ⟨dev, inum⟩ false = s.locked := by
      rw [← locked_none hn, update_eq_self]
    exact (locked_setInode s ⟨dev, inum⟩ (some _)).trans hl
where
  spares_of_disk {α : Type} {lab : Kernel → Ev} {dev : Nat} {g : Disk → Res Disk α} :
    Spares locked lab (onDisk dev g) := by
    intro s b s' hf
    obtain ⟨-, d, -, rfl⟩ := onDisk_ok hf
    exact locked_of_icache rfl

section

variable {r : IRef} {s s' : Kernel} {u : Unit}

theorem ilock_locked (h : (ilock r).exec s = .ok u s') : (s'.icache r = none ∧ s' = s) ∨
      (s.locked r = false ∧ s'.locked = update s.locked r true) := by
  obtain ⟨hn, rfl⟩ | ⟨ip, hip, hb, rfl⟩ := ilock_ok h
  · exact .inl ⟨hn, rfl⟩
  · exact .inr ⟨by rw [locked_eq hip, hb], locked_setInode ..⟩

theorem iunlock_locked (h : (iunlock r).exec s = .ok u s') : s'.locked = update s.locked r false := by
  cases hr : s.icache r with
  | none => rw [iunlock_none hr] at h; cases h; rw [← locked_none hr, update_eq_self]
  | some ip => rw [iunlock_some hr] at h; cases h; exact locked_setInode ..

def Kernel.Loose (s : Kernel) (r : IRef) : Prop := ∀ ip, s.icache r = some ip → ip.busy = true → 1 ≤ ip.more

theorem Kernel.locked_drop {ip} (h : s.icache r = some ip) :
    (s.drop r ip).locked = if ip.more = 0 then update s.locked r false else s.locked := by
  unfold drop
  split
  · exact locked_setInode s r none
  · exact locked_setInode_self h rfl

variable {direct : Bool}

theorem iput1_locked (h : (iput1 r direct).exec s = .ok u s') :
    ∃ ip, s.icache r = some ip ∧ s'.locked = if ip.more = 0 then update s.locked r false else s.locked := by
  obtain ⟨ip, hip, ⟨-, rfl⟩ | ⟨-, -, rfl, -⟩⟩ := iput1_ok h
  · exact ⟨ip, hip, locked_drop hip⟩
  · exact ⟨ip, hip, locked_drop hip⟩

theorem iput1_loose (hl : s.Loose r) (h : (iput1 r direct).exec s = .ok u s') : s'.locked = s.locked := by
  obtain ⟨ip, hip, he⟩ := iput1_locked h
  rw [he]
  split
  · rename_i hm
    have hb : ip.busy = false := by
      by_contra hb
      have := hl ip hip (by simpa using hb)
      omega
    rw [← hb, ← locked_eq hip, update_eq_self]
  · rfl

theorem iput1_stays {r' ip'} (h : (iput1 r direct).exec s = .ok u s') (hin : s'.icache r' = some ip') :
    s'.locked r' = s.locked r' := by
  obtain ⟨ip, hip, he⟩ := iput1_locked h
  rw [he]
  split
  · rename_i hm
    by_cases hr : r' = r
    · have hgone : s'.icache r = none := by
        obtain ⟨x, hx, ⟨-, rfl⟩ | ⟨-, -, rfl, -⟩⟩ := iput1_ok h
        · rw [hip] at hx; cases hx; simp [drop, hm, setInode]
        · rw [hip] at hx; cases hx; simp [drop, hm, setInode]
      simp [hr, hgone] at hin
    · rw [update_of_ne hr]
  · rfl

theorem loose_of_unlocked (h : s.locked r = false) : s.Loose r := fun ip hip hb => by
  simp [locked_eq hip, hb] at h

theorem iunlockput1_locked (h : (iunlockput1 r direct).exec s = .ok u s') : s'.locked = update s.locked r false := by
  obtain ⟨_, s1, h1, h2⟩ := bind_ok h
  have hl := iunlock_locked h1
  rw [iput1_loose (loose_of_unlocked (by rw [hl, update_self])) h2, hl]

end

/-! ## Routines on a locked inode -/

section

variable {α : Type}

def Held (r : IRef) (p : K α) : Prop := ∀ s a s', s.locked r = true → p.exec s = .ok a s' → s'.locked = s.locked

theorem keeps_held {r : IRef} {p : K α} (h : Keeps Kernel.locked p) : Held r p := fun _ _ _ _ he => h.exec he

theorem keeps_locked_poke {f : Kernel → Kernel} (h : ∀ s, (f s).icache = s.icache) : Keeps Kernel.locked (poke f) :=
  made_act fun s b s' hf => by cases hf; exact locked_of_icache (h s)

theorem keeps_locked_modProc (p) (f : Proc → Proc) : Keeps Kernel.locked (modProc p f) := keeps_locked_poke fun _ => rfl

theorem steady_held (r) : Steady (fun p => Held r p) where
  done a := fun s b s' _ h => by cases h; rfl
  bind hp hq := fun s b s' hr h => by
    obtain ⟨a, s1, h1, h2⟩ := bind_ok h
    have he := hp s a s1 hr h1
    rw [hq a s1 b s' (by rw [he]; exact hr) h2, he]
  panic msg := fun s b s' _ h => by rw [exec_panic] at h; cases h
  peek f := keeps_held quiet_locked.peek
  inode r' := keeps_held quiet_locked.inode
  seterr p msg := keeps_held (keeps_locked_modProc p _)

variable (r : IRef)

theorem held_askDevice : Held r (askDevice r) := by
  refine (steady_held r).bind ?_ fun a => (steady_held r).bind ((steady_held r).onlyIf ?_) fun _ =>
    (steady_held r).done a
  · exact keeps_held (made_act fun s b s' hf => by cases hf; exact locked_of_icache rfl)
  intro s u s' hr h
  obtain ⟨_, s1, h1, h2⟩ := bind_ok h
  have hl := iunlock_locked h1
  obtain ⟨hn, rfl⟩ | ⟨-, hl'⟩ := ilock_locked h2
  · -- an inode that is locked has an entry, and unlocking keeps it
    cases hc : s.icache r with
    | none => rw [locked_none hc] at hr; cases hr
    | some ip => rw [iunlock_some hc] at h1; cases h1; rw [setInode_icache_self] at hn; cases hn
  · rw [hl', hl, update_relock hr]

theorem flow_held : Flow (fun p => Held r p) r where
  quiet h := keeps_held (h quiet_locked)
  bind := (steady_held r).bind
  ask := held_askDevice r
  raw d src off n := by
    refine keeps_held ?_
    unfold bdiskWrite
    split
    · exact made_pure _
    refine made_act fun s b s' h => ?_
    obtain ⟨x, d', -, he⟩ := Res.bind_eq_ok.mp h
    cases he
    exact locked_of_icache rfl

theorem held_dirlookup (name : List UInt8) : Held r (dirlookup r name) := (flow_held r).dirlookup

theorem held_isdirempty : Held r (isdirempty r) := (flow_held r).isdirempty

theorem dirlookup_loose (name : List UInt8) (s : Kernel) :
    Post (fun a s' => ∀ ip o, a = some (ip, o) → s'.Loose ip) (dirlookup r name) s := by
  intro a s' h ip o he x hx hb
  obtain ⟨-, y, hy, hmore⟩ := dirlookup_post r name s a s' h ip o he
  cases hy.symm.trans hx
  exact hmore (.inr hb)

theorem held_dirlink (name : List UInt8) (inum : Nat) : Held r (dirlink r name inum) := by
  intro s n s' hr h
  obtain ⟨found, s1, h1, h2⟩ := bind_ok h
  have hl := held_dirlookup r name s found s1 hr h1
  rw [← hl] at hr ⊢
  cases found with
  | some x =>
    obtain ⟨ip, off⟩ := x
    obtain ⟨_, s2, h3, h4⟩ := bind_ok h2
    cases h4
    exact iput1_loose (dirlookup_loose r name s _ _ h1 ip off rfl) h3
  | none =>
    refine (?_ : Held r _) s1 n s' hr h2
    refine (steady_held r).bind ((steady_held r).inode r) fun ip =>
      (steady_held r).bind (flow_held r).emptyFrom fun off =>
      (steady_held r).bind (flow_held r).writei fun n => ?_
    split
    · exact (steady_held r).panic _
    · exact (steady_held r).done _

end

/-! ## Paths -/

section

variable {s s' : Kernel}

theorem inode_trap {α : Type} {r} {q : Inode → K α} {a} (hn : s.icache r = none) :
    (inode r >>= q).exec s ≠ .ok a s' := fun h => by
  obtain ⟨ip, s1, h1, -⟩ := bind_ok h
  simp [(inode_ok h1).2] at hn

theorem walk_locked {parent direct} {names} {r}
    {res} (hl : parent = true → names = [] → s.Loose r)
    (h : (walk parent direct names r).exec s = .ok res s') : s'.locked = s.locked := by
  induction names generalizing r s with
  | nil =>
    unfold walk at h
    split at h
    · obtain ⟨_, s1, h1, h2⟩ := bind_ok h; cases h2; exact iput1_loose (hl ‹_› rfl) h1
    · cases h; rfl
  | cons name rest ih =>
    obtain ⟨_, s1, h1, h2⟩ := bind_ok h
    obtain ⟨hn, -⟩ | ⟨hr, hl1⟩ := ilock_locked h1
    · exact absurd h2 (inode_trap hn)
    obtain ⟨ip, s2, h3, h4⟩ := bind_ok h2
    obtain ⟨rfl, -⟩ := inode_ok h3
    have hheld : s2.locked r = true := by rw [hl1, update_self]
    have hput : ∀ {t t' : Kernel} {u : Unit}, t.locked = s2.locked →
      (iunlockput1 r direct).exec t = .ok u t' → t'.locked = s.locked := fun ht he => by
      rw [iunlockput1_locked he, ht, hl1, update_unlock hr]
    split at h4
    · obtain ⟨_, s3, h5, h6⟩ := bind_ok h4; cases h6; exact hput rfl h5
    split at h4
    · obtain ⟨_, s3, h5, h6⟩ := bind_ok h4
      cases h6
      rw [iunlock_locked h5, hl1, update_unlock hr]
    rename_i hlast
    obtain ⟨found, s3, h5, h6⟩ := bind_ok h4
    have hfound := held_dirlookup r name _ _ _ hheld h5
    cases found with
    | none => obtain ⟨_, s4, h7, h8⟩ := bind_ok h6; cases h8; exact hput hfound h7
    | some x =>
      obtain ⟨_, s4, h7, h8⟩ := bind_ok h6
      rw [ih (fun hp hrest => absurd ⟨hp, hrest⟩ hlast) h8, hput hfound h7]

theorem namex_locked {p path parent direct res} (h : (namex p path parent direct).exec s = .ok res s') :
    s'.locked = s.locked := by
  have h2 := peek_bind h
  obtain ⟨ip, s2, h3, h4⟩ := bind_ok h2
  have hdup : s2.locked = s.locked := Keeps.exec quiet_locked.idup h3
  obtain ⟨_, s3, h5, h6⟩ := bind_ok h3
  cases h6
  cases hstart : pathStart s p path with
  | none =>
    rw [hstart] at h4
    dsimp only at h4
    split at h4
    · cases h4; exact hdup
    · rw [exec_trap] at h4; cases h4
  | some r =>
    rw [hstart] at h4 h5
    obtain ⟨x, hx, rfl⟩ := modInode_ok h5
    rw [walk_locked (fun _ _ y hy _ => ?_) h4, hdup]
    rw [setInode_icache_self] at hy; cases hy
    exact Nat.le_add_left 1 _

theorem nameiDirect_locked {p path o} (h : (nameiDirect p path).exec s = .ok o s') : s'.locked = s.locked := by
  rw [nameiDirect, exec_map] at h
  obtain ⟨res, s1, h1, h2⟩ := Res.bind_eq_ok.mp h
  cases h2
  exact namex_locked h1

end

end Xv6Vsd
