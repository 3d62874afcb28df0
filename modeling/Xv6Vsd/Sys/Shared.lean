import Xv6Vsd.Fs.Access
import Xv6Vsd.Sys.Lemmas.Identity

/-!
# Processes that share an open file

After a fork two processes write through one `struct file`. `filewrite` cuts a request into chunks and
holds the inode while it writes a chunk and moves the offset; between two chunks, and between `begin_op`
and `ilock`, others may run. Nobody seeks, so the offset never gets beyond the end of the file.
-/

namespace Xv6Vsd

open Prog Kernel List Option Res Function

/-! ## The parts of a turn of `filewrite` -/

def filewriteBegin (f : Nat) : K Unit := do
  let x ← fileOf f
  beginOp x.ip.dev

def filewriteLocked (f : Nat) (addr : Nat → UInt8) (n1 : Nat) : K (Nat × Int) := do
  let x ← fileOf f
  ilock x.ip
  let x ← fileOf f
  let r ← writei x.ip addr x.off (UInt32.ofNat n1)
  onlyIf (0 < r) do modFile f fun x => { x with off := x.off + UInt32.ofInt r }
  iunlock x.ip
  pure (x.ip.dev, r)

def filewriteEnd (p n1 dev : Nat) (r : Int) : K Unit := do
  endOp dev
  if r = -2 then seterr p "filesystem full: bitmap full"
  else if r < 0 then pure ()
  else if r ≠ n1 then seterr p "a short write to file occured"
  else pure ()

variable {s s' : Kernel} {u : Unit}

theorem exec_fileOf {f : Nat} {x : File} (h : s.file f = some x) : (fileOf f).exec s = .ok x s := by
  rw [fileOf, exec_tau, h]

/-! ## What locking leaves alone -/

/-- The two states differ only in who holds which inode, in the file table and in the processes. -/
structure SameFiles (s s' : Kernel) : Prop where
  disk : s'.disk = s.disk
  stale : s'.stale = s.stale
  entry : ∀ r, s'.icache r = s.icache r ∨
    ∃ ip busy, s.icache r = some ip ∧ ip.valid = true ∧ s'.icache r = some { ip with busy := busy }

namespace SameFiles

variable {s s' s'' : Kernel} {dev : Nat} {r : IRef} {c : Nat → List UInt8}

theorem setFile (s : Kernel) (f : Nat) (x : Option File) : SameFiles s (s.setFile f x) := ⟨rfl, rfl, fun _ => .inl rfl⟩

theorem setProc (s : Kernel) (p : Nat) (x : Proc) : SameFiles s (s.setProc p x) := ⟨rfl, rfl, fun _ => .inl rfl⟩

theorem setBusy {ip : Inode} (hc : Cached s r ip) (busy : Bool) :
    SameFiles s (s.setInode r (some { ip with busy := busy })) := by
  refine ⟨rfl, rfl, fun r' => ?_⟩
  by_cases hr : r' = r
  · subst hr; exact .inr ⟨ip, busy, hc.entry, hc.valid, s.setInode_icache_self ..⟩
  · exact .inl (s.setInode_icache_of_ne _ hr)

theorem trans (h : SameFiles s s') (h' : SameFiles s' s'') : SameFiles s s'' := by
  refine ⟨h'.disk.trans h.disk, h'.stale.trans h.stale, fun r => ?_⟩
  obtain he | ⟨ip, busy, hip, hv, he⟩ := h.entry r
  · rw [← he]; exact h'.entry r
  obtain he' | ⟨jp, busy', hjp, -, he'⟩ := h'.entry r
  · exact .inr ⟨ip, busy, hip, hv, he'.trans he⟩
  · obtain rfl : { ip with busy := busy } = jp := some.inj (he.symm.trans hjp)
    exact .inr ⟨ip, busy', hip, hv, he'⟩

variable (h : SameFiles s s')
include h

theorem din (r) : s'.din r = s.din r := by
  obtain he | ⟨ip, busy, hip, hv, he⟩ := h.entry r
  · apply din_congr he h.stale; rw [diskInode, h.disk, diskInode]
  · rw [din_of_valid he hv, din_of_valid hip hv]

theorem view (dev) : s'.view dev = s.view dev := funext fun i => h.din ⟨dev, i⟩

theorem table (dev) : s'.table dev = s.table dev := by
  rw [Kernel.table, h.view, h.disk, Kernel.table]

theorem contents (dev i) : s'.contents dev i = s.contents dev i := by
  rw [Kernel.contents, h.view, h.table, h.disk, Kernel.contents]

theorem settled (hs : Settled s dev) : Settled s' dev := by
  refine ⟨?_, ?_, fun i ip hip => ?_, fun i ip hip hb => ?_⟩
  · rw [h.view, h.disk]; exact hs.snug
  · rw [h.disk]; exact hs.log
  · rw [h.disk]
    obtain he | ⟨jp, busy, hjp, -, -⟩ := h.entry ⟨dev, i⟩
    · exact hs.refs i ip (he ▸ hip)
    · exact hs.refs i jp hjp
  · obtain he | ⟨jp, busy, -, hv, he⟩ := h.entry ⟨dev, i⟩
    · exact hs.loaded i ip (he ▸ hip) hb
    · cases he.symm.trans hip; exact hv

theorem arrays (ha : Arrays s dev c) : Arrays s' dev c := by
  refine ⟨⟨h.settled ha.settled, ?_, ?_, ?_⟩, ?_⟩
  · rw [h.disk]; exact ha.idle
  · rw [h.disk]; exact ha.reach
  · rw [h.table, h.disk]; exact ha.holds
  · rw [h.view, h.disk]; exact ha.size

theorem whole (hw : Whole s) : Whole s' := by
  intro dev hm
  rw [h.disk] at hm
  exact (h.arrays (hw dev hm)).whole

theorem usable (hu : Usable s r) : Usable s' r := by
  obtain ⟨hm, ip, hip, hv, htype⟩ := hu
  refine ⟨by rw [h.disk]; exact hm, ?_⟩
  obtain he | ⟨jp, busy, hjp, -, he⟩ := h.entry r
  · exact ⟨ip, he.trans hip, hv, htype⟩
  · cases hjp.symm.trans hip; exact ⟨_, he, hv, htype⟩

end SameFiles

theorem Usable.ilock {r : IRef} (hu : Usable s r) (he : (ilock r).exec s = .ok u s') :
    SameFiles s s' ∧ s'.file = s.file := by
  obtain ⟨-, ip, hip, hv, -⟩ := hu
  obtain ⟨hnone, -⟩ | ⟨jp, hjp, -, rfl⟩ := ilock_ok he
  · cases hnone.symm.trans hip
  cases hjp.symm.trans hip
  have hin : { ip with busy := true, valid := true, din := s.din r } = { ip with busy := true } := by
    rw [din_of_valid hip hv, ← hv]
  rw [hin]
  exact ⟨.setBusy ⟨hip, hv⟩ true, rfl⟩

theorem Usable.iunlock {r : IRef} (hu : Usable s r) (he : (iunlock r).exec s = .ok u s') :
    SameFiles s s' ∧ s'.file = s.file := by
  obtain ⟨-, ip, hip, hv, -⟩ := hu
  rw [iunlock_some hip] at he; cases he
  exact ⟨.setBusy ⟨hip, hv⟩ false, rfl⟩

theorem seterr_ok {p : Nat} {msg : String} (he : (seterr p msg).exec s = .ok u s') :
    SameFiles s s' ∧ s'.file = s.file := by
  rw [seterr, modProc, exec_poke] at he; cases he
  exact ⟨.setProc s p _, rfl⟩

theorem Whole.pause {r : IRef} {dev : Nat} {d : Disk} (h : Whole s) (hu : Usable s r) (hm : (s.disk dev).mounted = true)
    (hq : (s.disk dev).Quiet d) : Whole (s.setDisk dev d) ∧ Usable (s.setDisk dev d) r ∧
      (s.setDisk dev d).contents r.dev r.inum = s.contents r.dev r.inum := by
  obtain ⟨hmr, ip, hip, hv, htype⟩ := hu
  have hap : Apart dev s (s.setDisk dev d) := .setDisk s hq.mounted
  have hmr' : ((s.setDisk dev d).disk r.dev).mounted = true := by
    by_cases hdev : r.dev = dev
    · rw [hdev, hap.mounted]; exact hm
    · rw [hap.disk _ hdev]; exact hmr
  refine ⟨h.quiet hm hq, ⟨hmr', ip, hip, hv, htype⟩, ?_⟩
  by_cases hdev : r.dev = dev
  · subst hdev
    have ha := h r.dev hm
    apply (ha.quiet hq).contents
    rw [setDisk_disk_self, hq.sb]
    exact ha.settled.refs r.inum ip hip
  · exact hap.contents hdev

structure Opened (f : Nat) (r : IRef) (s : Kernel) (x : File) : Prop where
  whole : Whole s
  usable : Usable s r
  file : s.file f = some x
  type : x.type = .inode
  ip : x.ip = r
  off : x.off.toNat ≤ (s.contents r.dev r.inum).length

section

variable {f n1 : Nat} {r : IRef} {s s' : Kernel} {x : File} {addr : Nat → UInt8} {n : UInt32} (h : Opened f r s x)

include h

theorem Opened.same (hs : SameFiles s s') (hf : s'.file f = some x) : Opened f r s' x :=
  ⟨hs.whole h.whole, hs.usable h.usable, hf, h.type, h.ip, by rw [hs.contents]; exact h.off⟩

theorem Opened.length_le : (s.contents r.dev r.inum).length ≤ maxfile * bsize := by
  obtain ⟨hm, ip, hip, -⟩ := h.usable
  have ha := h.whole r.dev hm
  exact ha.length_le (ha.settled.refs r.inum ip hip)

theorem Opened.quiet {dev : Nat} {d : Disk} (hm : (s.disk dev).mounted = true) (hq : (s.disk dev).Quiet d) :
    Opened f r (s.setDisk dev d) x ∧ (s.setDisk dev d).contents r.dev r.inum = s.contents r.dev r.inum := by
  obtain ⟨hw, hu, hc⟩ := h.whole.pause h.usable hm hq
  exact ⟨⟨hw, hu, h.file, h.type, h.ip, by rw [hc]; exact h.off⟩, hc⟩

theorem Opened.advance {a : Int} {m : Nat} (ha : a = m) (hm : x.off.toNat + m ≤ (s.contents r.dev r.inum).length) :
    (x.off + UInt32.ofInt a).toNat = x.off.toNat + m ∧
      Opened f r (s.setFile f (some { x with off := x.off + UInt32.ofInt a }))
        { x with off := x.off + UInt32.ofInt a } := by
  have hlen := h.length_le
  have hoff : (x.off + UInt32.ofInt a).toNat = x.off.toNat + m := by
    have : maxfile * bsize < 2 ^ 32 := by decide
    have hof : (UInt32.ofInt a).toNat = m := by rw [ha, UInt32.ofInt]; simp; omega
    rw [UInt32.toNat_add, hof]
    omega
  have hs : SameFiles s (s.setFile f (some { x with off := x.off + UInt32.ofInt a })) := .setFile s f _
  refine ⟨hoff, hs.whole h.whole, hs.usable h.usable, ?_, h.type, h.ip, ?_⟩
  · simp [setFile]
  · rw [hs.contents, hoff]; exact hm

theorem Opened.write (hn : 0 < n1) (hmax : n1 ≤ filewriteMax) {dev : Nat} {a : Int} (hok : 0 ≤ a)
    (he : (filewriteLocked f addr n1).exec s = .ok (dev, a) s') :
    dev = r.dev ∧ a = n1 ∧
      s'.contents r.dev r.inum = splice (s.contents r.dev r.inum) x.off.toNat ((List.range n1).map addr) ∧
      ∃ off : UInt32, off.toNat = x.off.toNat + n1 ∧ Opened f r s' { x with off := off } := by
  simp only [filewriteLocked, exec_bind, exec_fileOf h.file, ok_bind, h.ip] at he
  obtain ⟨_, s1, e1, he⟩ := bind_eq_ok.mp he
  obtain ⟨hs1, hf1⟩ := h.usable.ilock e1
  have h1 : Opened f r s1 x := h.same hs1 (by rw [hf1]; exact h.file)
  simp only [exec_fileOf h1.file, ok_bind, h.ip] at he
  obtain ⟨b, s2, e2, he⟩ := bind_eq_ok.mp he
  obtain ⟨_, s3, e3, he⟩ := bind_eq_ok.mp he
  obtain ⟨_, s4, e4, he⟩ := bind_eq_ok.mp he
  cases he
  have htoNat : (UInt32.ofNat n1).toNat = n1 := by
    simp only [filewriteMax, logsize, maxopblocks] at hmax
    simp
    omega
  obtain ⟨hm, ip, hip, hv, htype⟩ := h1.usable
  obtain ⟨-, rfl, -⟩ | ⟨-, -, rfl⟩ | ⟨-, ha, harr, hent, hap, hsb⟩ := (h1.whole r.dev hm).writei ⟨hip, hv⟩ htype e2
  · cases hok
  · cases hok
  rw [htoNat, hs1.contents] at harr
  rw [htoNat] at ha
  have hlt := (h1.whole r.dev hm).settled.refs r.inum ip hip
  have hc2 : s2.contents r.dev r.inum = splice (s.contents r.dev r.inum) x.off.toNat ((range n1).map addr) := by
    rw [harr.contents (by rw [hsb]; exact hlt), update_self]
  have hlen := length_splice _ ((range n1).map addr) h.off
  rw [← hc2, length_map, length_range] at hlen
  have hf2 : s2.file = s1.file := Keeps.exec plain_file.writei e2
  have hu2 : Usable s2 r := by
    obtain ⟨din, hcached, ht⟩ := hent.self
    exact ⟨hap.mounted.trans hm, _, hcached.entry, hcached.valid, by rw [ht]; exact htype⟩
  have h2 : Opened f r s2 x := ⟨h1.whole.apart hap harr, hu2, by rw [hf2]; exact h1.file, h.type, h.ip, by omega⟩
  obtain ⟨hoff, h3⟩ := h2.advance ha (by omega)
  obtain ⟨-, e3⟩ | ⟨hc, -⟩ := onlyIf_ok e3
  · rw [modFile, exec_poke, h2.file] at e3
    cases e3
    obtain ⟨hs4, hf4⟩ := h3.usable.iunlock e4
    have h4 := h3.same hs4 (by rw [hf4]; exact h3.file)
    refine ⟨rfl, ha, ?_, _, hoff, h4⟩
    rw [hs4.contents, ← hc2]
    exact (SameFiles.setFile s2 f _).contents ..
  · omega

theorem Opened.read {p : Nat} {pipe : Int} {a : Int × List UInt8}
    (he : (fileread p f n pipe).exec s = .ok a s') : ∃ x', Opened f r s' x' := by
  simp only [fileread, exec_bind, exec_fileOf h.file, ok_bind] at he
  split at he
  · obtain ⟨_, s1, e1, he⟩ := bind_ok he
    cases he
    obtain ⟨hs1, hf1⟩ := seterr_ok e1
    exact ⟨x, h.same hs1 (by rw [hf1]; exact h.file)⟩
  rw [h.type] at he
  simp only [exec_bind, h.ip] at he
  obtain ⟨_, s1, e1, he⟩ := bind_eq_ok.mp he
  obtain ⟨hs1, hf1⟩ := h.usable.ilock e1
  have h1 : Opened f r s1 x := h.same hs1 (by rw [hf1]; exact h.file)
  obtain ⟨hm, ip, hip, hv, htype⟩ := h1.usable
  simp only [exec_fileOf h1.file, ok_bind, h.ip, (h1.whole r.dev hm).readi ⟨hip, hv⟩ htype] at he
  obtain ⟨_, s2, e2, he⟩ := bind_eq_ok.mp he
  obtain ⟨_, s3, e3, he⟩ := bind_eq_ok.mp he
  cases he
  have h2 : ∃ x', Opened f r s2 x' := by
    obtain ⟨hpos, e2⟩ | ⟨-, rfl⟩ := onlyIf_ok e2
    · rw [modFile, exec_poke, h1.file] at e2
      cases e2
      have hoff := h1.off
      rw [readAnswer] at hpos ⊢
      split at hpos
      · cases hpos
      rename_i hin
      rw [if_neg hin]
      exact ⟨_, (h1.advance rfl (by omega)).2⟩
    · exact ⟨x, h1⟩
  obtain ⟨x', h2⟩ := h2
  obtain ⟨hs3, hf3⟩ := h2.usable.iunlock e3
  exact ⟨x', h2.same hs3 (by rw [hf3]; exact h2.file)⟩

end

/-! ## The machine -/

namespace Shared

/-- Where a process is in `filewrite`; `addr` is what it was asked to write, `i` how much of it is done. -/
inductive Pc where
  | out
  | loop (addr : List UInt8) (i : Nat)
  | begun (addr : List UInt8) (i : Nat)
  | written (addr : List UInt8) (i dev : Nat) (r : Int)
  deriving DecidableEq

def Pc.rest : Pc → List UInt8
  | out => []
  | loop addr i | begun addr i => addr.drop i
  | written addr i _ r => addr.drop (i + r.toNat)

structure State where
  kernel : Kernel
  pc : Nat → Pc
  asked : Nat → List UInt8
  chunks : List (Nat × List UInt8)

inductive Act where
  | read (p : Nat) (n : UInt32)
  | call (p : Nat) (addr : List UInt8)
  | begin (p : Nat)
  | write (p : Nat)
  | finish (p : Nat)

def n1 (addr : List UInt8) (i : Nat) : Nat := min (addr.length - i) filewriteMax

def byteFrom (addr : List UInt8) (i j : Nat) : UInt8 := addr.getD (i + j) 0

namespace State

def goto (s : State) (p : Nat) (pc : Pc) : State := { s with pc := update s.pc p pc }

def call (f : Nat) (s : State) (p : Nat) (addr : List UInt8) : Option State := match s.kernel.file f with
  | some x =>
    if x.type ≠ .inode then none
    else if !x.writable then
      (after (seterr p "file is unwriteable") s.kernel).map fun k => { s with kernel := k }
    else some { s with
      pc := update s.pc p (.loop addr 0)
      asked := update s.asked p (s.asked p ++ addr) }
  | none => none

def continued (addr : List UInt8) (i : Nat) (r : Int) : Pc := if r = n1 addr i then .loop addr (i + r.toNat) else .out

def act (f : Nat) (s : State) : Act → Option State
  | .read p n =>
    if s.pc p = .out then (after (fileread p f n 0) s.kernel).map fun k => { s with kernel := k } else none
  | .call p addr => if s.pc p = .out then s.call f p addr else none
  | .begin p =>
    match s.pc p with
    | .loop addr i =>
      if i < addr.length then
        (after (filewriteBegin f) s.kernel).map fun k => { s with kernel := k }.goto p (.begun addr i)
      else some (s.goto p .out)
    | _ => none
  | .write p =>
    match s.pc p with
    | .begun addr i =>
      match (filewriteLocked f (byteFrom addr i) (n1 addr i)).exec s.kernel with
      | .ok (dev, r) k =>
        some { s with
          kernel := k
          pc := update s.pc p (.written addr i dev r)
          chunks := if 0 < r then s.chunks ++ [(p, (addr.drop i).take r.toNat)] else s.chunks }
      | _ => none
    | _ => none
  | .finish p =>
    match s.pc p with
    | .written addr i dev r =>
      (after (filewriteEnd p (n1 addr i) dev r) s.kernel).map fun k =>
        { s with kernel := k }.goto p (continued addr i r)
    | _ => none

def answer (f : Nat) (s : State) (p : Nat) : Option Int := match s.pc p with
  | .begun addr i =>
    match (filewriteLocked f (byteFrom addr i) (n1 addr i)).exec s.kernel with
    | .ok (_, r) _ => some r
    | _ => none
  | _ => none

def off (f : Nat) (s : State) : Nat := match s.kernel.file f with
  | some x => x.off.toNat
  | none => 0

def size (r : IRef) (s : State) : Nat := (s.kernel.view r.dev r.inum).size.toNat

def contents (r : IRef) (s : State) : List UInt8 := s.kernel.contents r.dev r.inum

end State

def bytes (l : List (Nat × List UInt8)) : List UInt8 := (l.map Prod.snd).flatten

def chunksOf (p : Nat) (l : List (Nat × List UInt8)) : List (Nat × List UInt8) := l.filter fun x => x.1 = p

def start (k : Kernel) : State := ⟨k, fun _ => .out, fun _ => [], []⟩

def Succeeds (f : Nat) (s : State) : Act → Prop
  | .write p => ∀ r, s.answer f p = some r → 0 ≤ r
  | _ => True

def Writes (f : Nat) (s : State) : Act → Prop
  | .read .. => False
  | a => Succeeds f s a

structure JustOpened (f : Nat) (r : IRef) (k : Kernel) : Prop where
  whole : Whole k
  usable : Usable k r
  file : ∃ x, k.file f = some x ∧ x.type = .inode ∧ x.ip = r ∧ x.off = 0

/-- Since the state `s1` the chunks `l` have been written, one behind the other from the offset on. -/
structure Adds (f : Nat) (r : IRef) (s1 s : State) (l : List (Nat × List UInt8)) : Prop where
  chunks : s.chunks = s1.chunks ++ l
  off : s.off f = s1.off f + (bytes l).length
  contents : s.contents r = splice (s1.contents r) (s1.off f) (bytes l)

/-- Nothing that is written through the shared file since the state `s1` gets lost. -/
structure NothingLost (f : Nat) (r : IRef) (s1 s : State) (l : List (Nat × List UInt8)) :
    Prop extends Adds f r s1 s l where
  size : s.size r = max (s1.size r) (s.off f)
  place : ∀ l1 p xs l2, l = l1 ++ (p, xs) :: l2 →
    ((s.contents r).drop (s1.off f + (bytes l1).length)).take xs.length = xs
  order : ∀ p, bytes (chunksOf p s.chunks) ++ (s.pc p).rest = s.asked p

/-! ## What holds in every run -/

def Pc.Ok (r : IRef) : Pc → Prop
  | begun addr i => i < addr.length
  | written addr i dev a => dev = r.dev ∧ a = n1 addr i
  | _ => True

structure Inv (f : Nat) (r : IRef) (s : State) : Prop where
  opened : ∃ x, Opened f r s.kernel x
  pcs : ∀ p, (s.pc p).Ok r
  order : ∀ p, bytes (chunksOf p s.chunks) ++ (s.pc p).rest = s.asked p

section

variable {f p i : Nat} {r : IRef} {s s' s1 : State} {k : Kernel} {x : File} {pc : Pc} {addr : List UInt8}
  {l l' : List (Nat × List UInt8)}

@[simp] theorem bytes_nil : bytes [] = [] := rfl

@[simp] theorem bytes_append (l l' : List (Nat × List UInt8)) : bytes (l ++ l') = bytes l ++ bytes l' := by
  simp [bytes]

@[simp] theorem bytes_cons (x : Nat × List UInt8) (l : List (Nat × List UInt8)) : bytes (x :: l) = x.2 ++ bytes l := by
  simp [bytes]

theorem n1_pos (h : i < addr.length) : 0 < n1 addr i := by
  have : 0 < filewriteMax := by decide
  unfold n1
  omega

theorem n1_le (addr : List UInt8) (i : Nat) : n1 addr i ≤ filewriteMax := Nat.min_le_right ..

theorem map_byteFrom {m : Nat} (h : m ≤ addr.length - i) :
    (List.range m).map (byteFrom addr i) = (addr.drop i).take m := by
  refine ext_getElem ?_ fun j h1 h2 => ?_
  · simp; omega
  simp only [length_map, length_range] at h1
  simp only [getElem_map, getElem_range, byteFrom, getElem_take, getElem_drop]
  exact getD_eq_getElem ..

theorem off_eq (h : Opened f r s.kernel x) : s.off f = x.off.toNat := by simp [State.off, h.file]

theorem size_eq (h : Opened f r s.kernel x) : s.size r = (s.contents r).length := by
  obtain ⟨hm, ip, hip, -⟩ := h.usable
  have ha := h.whole r.dev hm
  exact ha.size r.inum (ha.settled.refs r.inum ip hip)

theorem Inv.off_le (h : Inv f r s) : s.off f ≤ (s.contents r).length := by
  obtain ⟨x, hx⟩ := h.opened
  rw [off_eq hx]
  exact hx.off

theorem take_drop_splice {xs : List UInt8} {off : Nat} (h : off ≤ xs.length) (ys zs ws : List UInt8) :
    ((splice xs off (ys ++ (zs ++ ws))).drop (off + ys.length)).take zs.length = zs := by
  have hlen : (xs.take off ++ ys).length = off + ys.length := by simp [h]
  simp only [splice, append_assoc]
  rw [← append_assoc, ← hlen, drop_left, take_left]

theorem Inv.turn (h : Inv f r s) (hk : ∃ x, Opened f r k x) (hpc : pc.Ok r) (hrest : pc.rest = (s.pc p).rest) :
    Inv f r ({ s with kernel := k }.goto p pc) := by
  refine ⟨hk, fun q => ?_, fun q => ?_⟩
  · by_cases hq : q = p
    · subst hq; simpa [State.goto] using hpc
    · simpa [State.goto, hq] using h.pcs q
  by_cases hq : q = p
  · subst hq; simpa [State.goto, hrest] using h.order q
  · simpa [State.goto, hq] using h.order q

theorem Adds.refl (f r s) : Adds f r s s [] := ⟨by simp, by simp, by simp [splice_nil]⟩

theorem Adds.trans (h : Adds f r s1 s l) (h' : Adds f r s s' l') (hoff : s1.off f ≤ (s1.contents r).length) :
    Adds f r s1 s' (l ++ l') := by
  refine ⟨?_, ?_, ?_⟩
  · rw [h'.chunks, h.chunks, append_assoc]
  · rw [h'.off, h.off, bytes_append, length_append, Nat.add_assoc]
  · rw [h'.contents, h.contents, h.off, splice_splice _ _ _ hoff, bytes_append]

theorem Adds.still (hx : Opened f r s.kernel x) (hx' : Opened f r s'.kernel x) (hc : s'.contents r = s.contents r)
    (hl : s'.chunks = s.chunks) : Adds f r s s' [] :=
  ⟨by simp [hl], by simp [off_eq hx, off_eq hx'], by simp [hc, splice_nil]⟩

theorem NothingLost.of_adds (h : Adds f r s1 s l) (h1 : Inv f r s1) (hs : Inv f r s) : NothingLost f r s1 s l := by
  obtain ⟨x1, hx1⟩ := h1.opened
  obtain ⟨x, hx⟩ := hs.opened
  refine ⟨h, ?_, fun l1 p xs l2 hl => ?_, hs.order⟩
  · rw [size_eq hx, size_eq hx1, h.contents, length_splice _ _ h1.off_le, h.off]
  · rw [h.contents, hl, bytes_append, bytes_cons]; exact take_drop_splice h1.off_le ..

/-! ## Each step -/

theorem Inv.act_read {n : UInt32} (h : Inv f r s) (he : s.act f (.read p n) = some s') : Inv f r s' := by
  obtain ⟨hpc, he⟩ := ite_none_right_eq_some.mp he
  obtain ⟨k, hk, rfl⟩ := map_eq_some_iff.mp he
  obtain ⟨_, hk⟩ := after_eq_some hk
  obtain ⟨x, hx⟩ := h.opened
  exact ⟨hx.read hk, h.pcs, h.order⟩

theorem Inv.act_call (h : Inv f r s) (he : s.act f (.call p addr) = some s') : Inv f r s' ∧ Adds f r s s' [] := by
  obtain ⟨hpc, he⟩ := ite_none_right_eq_some.mp he
  obtain ⟨x, hx⟩ := h.opened
  simp only [State.call, hx.file, hx.type, ne_eq, not_true, if_false] at he
  split at he
  · obtain ⟨k, hk, rfl⟩ := map_eq_some_iff.mp he
    obtain ⟨_, hk⟩ := after_eq_some hk
    obtain ⟨hs, hf⟩ := seterr_ok hk
    have hx' := hx.same hs (by rw [hf]; exact hx.file)
    exact ⟨⟨⟨x, hx'⟩, h.pcs, h.order⟩, .still hx hx' (hs.contents ..) rfl⟩
  cases he
  refine ⟨⟨⟨x, hx⟩, fun q => ?_, fun q => ?_⟩, .still hx hx rfl rfl⟩
  · by_cases hq : q = p
    · simp [hq, Pc.Ok]
    · simpa [hq] using h.pcs q
  by_cases hq : q = p
  · subst hq
    have := h.order q
    simp only [hpc, Pc.rest, append_nil] at this
    simp [Pc.rest, this]
  · simpa [hq] using h.order q

theorem Inv.act_begin (h : Inv f r s) (he : s.act f (.begin p) = some s') : Inv f r s' ∧ Adds f r s s' [] := by
  obtain ⟨x, hx⟩ := h.opened
  rw [State.act] at he
  split at he
  · rename_i addr i hpc
    split at he
    · rename_i hi
      obtain ⟨k, hk, rfl⟩ := map_eq_some_iff.mp he
      obtain ⟨_, hk⟩ := after_eq_some hk
      simp only [filewriteBegin, exec_bind, exec_fileOf hx.file, ok_bind] at hk
      obtain ⟨hm, d, rfl, hq⟩ := beginOp_quiet hk
      obtain ⟨hx', hc⟩ := hx.quiet hm hq
      exact ⟨h.turn ⟨x, hx'⟩ hi (by rw [hpc]; rfl), .still hx hx' hc rfl⟩
    · rename_i hi
      cases he
      refine ⟨h.turn ⟨x, hx⟩ trivial ?_, .still hx hx rfl rfl⟩
      rw [hpc, Pc.rest, Pc.rest, drop_eq_nil_of_le (by omega)]
  · cases he

theorem Inv.act_write (h : Inv f r s) (hok : Succeeds f s (.write p)) (he : s.act f (.write p) = some s') :
    Inv f r s' ∧ ∃ l, Adds f r s s' l := by
  obtain ⟨x, hx⟩ := h.opened
  rw [State.act] at he
  split at he
  · rename_i addr i hpc
    split at he
    · rename_i dev a k hk
      cases he
      have hi : i < addr.length := by simpa [hpc, Pc.Ok] using h.pcs p
      have ha : 0 ≤ a := hok a (by simp [State.answer, hpc, hk])
      have hpos := n1_pos hi
      have hle : n1 addr i ≤ addr.length - i := Nat.min_le_left ..
      obtain ⟨rfl, rfl, hc, off, hoff, hx'⟩ := hx.write hpos (n1_le addr i) ha hk
      rw [map_byteFrom hle] at hc
      rw [if_pos (by omega), Int.toNat_natCast]
      refine ⟨⟨⟨_, hx'⟩, fun q => ?_, fun q => ?_⟩, _, rfl, ?_, ?_⟩
      · by_cases hq : q = p
        · simp [hq, Pc.Ok]
        · simpa [hq] using h.pcs q
      · by_cases hq : q = p
        · subst hq
          have := h.order q
          rw [hpc, Pc.rest] at this
          simp [chunksOf, Pc.rest, ← this]
        · have := h.order q; simpa [chunksOf, hq, Ne.symm hq] using this
      · rw [off_eq hx, off_eq hx', hoff]; simp; omega
      · rw [off_eq hx]; simpa [State.contents] using hc
    · cases he
  · cases he

theorem Inv.act_finish (h : Inv f r s) (he : s.act f (.finish p) = some s') : Inv f r s' ∧ Adds f r s s' [] := by
  obtain ⟨x, hx⟩ := h.opened
  rw [State.act] at he
  split at he
  · rename_i addr i dev a hpc
    obtain ⟨k, hk, rfl⟩ := map_eq_some_iff.mp he
    obtain ⟨_, hk⟩ := after_eq_some hk
    obtain ⟨rfl, rfl⟩ : dev = r.dev ∧ a = n1 addr i := by simpa [hpc, Pc.Ok] using h.pcs p
    rw [filewriteEnd, exec_bind] at hk
    obtain ⟨_, k1, e1, hk⟩ := bind_eq_ok.mp hk
    rw [if_neg (by omega), if_neg (by omega), if_neg (by simp)] at hk; cases hk
    obtain ⟨hm, d, rfl, hq⟩ := endOp_quiet (fun hm => (hx.whole r.dev hm).settled.log) e1
    obtain ⟨hx', hc⟩ := hx.quiet hm hq
    refine ⟨h.turn ⟨x, hx'⟩ ?_ ?_, .still hx hx' hc rfl⟩
    · simp [State.continued, Pc.Ok]
    · simp [State.continued, hpc, Pc.rest]
  · cases he

variable {a : Act}

theorem Writes.succeeds (h : Writes f s a) : Succeeds f s a := by
  cases a with
  | read => exact h.elim
  | call | begin | write | finish => exact h

theorem Inv.act (h : Inv f r s) (hok : Succeeds f s a) (he : s.act f a = some s') : Inv f r s' := by
  cases a with
  | read p n => exact h.act_read he
  | call p addr => exact (h.act_call he).1
  | begin p => exact (h.act_begin he).1
  | write p => exact (h.act_write hok he).1
  | finish p => exact (h.act_finish he).1

theorem Inv.adds (h : Inv f r s) (hok : Writes f s a) (he : s.act f a = some s') : ∃ l, Adds f r s s' l := by
  cases a with
  | read p n => exact hok.elim
  | call p addr => exact ⟨_, (h.act_call he).2⟩
  | begin p => exact ⟨_, (h.act_begin he).2⟩
  | write p => exact (h.act_write hok he).2
  | finish p => exact ⟨_, (h.act_finish he).2⟩

theorem JustOpened.inv (h : JustOpened f r k) : Inv f r (start k) := by
  obtain ⟨x, hx, htype, hip, hoff⟩ := h.file
  exact ⟨⟨x, h.whole, h.usable, hx, htype, hip, by simp [hoff]⟩, fun _ => trivial, fun _ => rfl⟩

/-- Processes read and write through an open file, and no write fails. From any moment on the chunks
stand one behind the other from the offset on, each as its writer was asked to write it; the offset
ends behind them, and the size follows it. -/
theorem shared_writes_kept (hopen : JustOpened f r k) (h1 : Run (State.act f) (Succeeds f) (start k) s1)
    (h : Run (State.act f) (Writes f) s1 s) : ∃ l, NothingLost f r s1 s l := by
  have hinv1 : Inv f r s1 := h1.invariant hopen.inv fun _ _ _ hi hok ha => hi.act hok ha
  have hinv : Inv f r s ∧ ∃ l, Adds f r s1 s l := by
    apply h.invariant (P := fun s => Inv f r s ∧ ∃ l, Adds f r s1 s l) ⟨hinv1, [], .refl ..⟩
    rintro s a s' ⟨hi, l, hl⟩ hok ha
    obtain ⟨l', hl'⟩ := hi.adds hok ha
    exact ⟨hi.act hok.succeeds ha, _, hl.trans hl' hinv1.off_le⟩
  obtain ⟨hs, l, hl⟩ := hinv
  exact ⟨l, .of_adds hl hinv1 hs⟩

end

def oneOpen : Kernel := ((oneFile metaBits).setInode ⟨1, 1⟩ (some { emptyInode with busy := false })).setFile 0
    (some ⟨.inode, 2, true, true, ⟨1, 1⟩, 0⟩)

theorem oneOpen_justOpened : JustOpened 0 ⟨1, 1⟩ oneOpen := by
  have hc : Cached (oneFile metaBits) ⟨1, 1⟩ emptyInode := ⟨by simp [oneFile], rfl⟩
  have hs : SameFiles (oneFile metaBits) oneOpen := (SameFiles.setBusy hc false).trans (.setFile ..)
  exact ⟨hs.whole (oneFile_whole (by decide +kernel)), by decide +kernel, _, rfl, rfl, rfl, rfl⟩

instance (f : Nat) (s : State) (a : Act) : Decidable (Succeeds f s a) := match a with
  | .write p => inferInstanceAs (Decidable (∀ r ∈ s.answer f p, 0 ≤ r))
  | .read .. | .call .. | .begin _ | .finish _ => .isTrue trivial

instance (f : Nat) (s : State) (a : Act) : Decidable (Writes f s a) := by
  unfold Writes
  split <;> infer_instance

theorem shared_writes_kept_two : ∃ s1 s, JustOpened 0 ⟨1, 1⟩ oneOpen ∧
    Run (State.act 0) (Succeeds 0) (start oneOpen) s1 ∧ Run (State.act 0) (Writes 0) s1 s ∧
    s.contents ⟨1, 1⟩ = [5, 8, 9, 7] ∧ ∃ l, NothingLost 0 ⟨1, 1⟩ s1 s l := by
  obtain ⟨s1, h1, hp⟩ : ∃ s1, Run (State.act 0) (Succeeds 0) (start oneOpen) s1 ∧
      plays (State.act 0) (fun s a => decide (Writes 0 s a)) (fun s => decide (s.contents ⟨1, 1⟩ = [5, 8, 9, 7]))
        [.call 0 [7], .call 1 [8, 9], .begin 0, .begin 1, .write 1, .write 0, .finish 0, .finish 1] s1 = true :=
    exists_run [.call 0 [5], .begin 0, .write 0, .finish 0, .begin 0] (by decide +kernel)
  obtain ⟨s, h, hs⟩ := exists_run _ hp
  exact ⟨s1, s, oneOpen_justOpened, h1, h, hs, shared_writes_kept oneOpen_justOpened h1 h⟩

end Shared

end Xv6Vsd
