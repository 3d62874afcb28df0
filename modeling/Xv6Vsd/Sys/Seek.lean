import Xv6Vsd.Fs.Short
import Xv6Vsd.Sys.Shared

/-!
# Seeking

`sys_seek` fetches both the offset and the direction from its third argument.
-/

namespace Xv6Vsd

open Prog

/-- The system call `seek(fd, n, dir)`; its second argument is never fetched. -/
def seekCall (p : Nat) (fd : Int) (_n dir : UInt32) : K Int := sysSeek p (some fd) (some dir)

def seekTo (n dir off size : UInt32) : UInt32 := if dir = 0 then n else if dir = 1 then off + n else size + n

/-- The descriptor is open on a regular file, whose inode is loaded. -/
structure OpenOn (s : Kernel) (p : Nat) (fd : Int) (f : Nat) (x : File) (ip : Inode) : Prop where
  bound : 0 ≤ fd ∧ fd < nofile
  ofile : (s.proc p).ofile fd.toNat = some f
  file : s.file f = some x
  type : x.type = .inode
  usable : x.readable = true ∨ x.writable = true
  mounted : (s.disk x.ip.dev).mounted = true
  cached : Cached s x.ip ip
  regular : ip.din.type = tFile

def Sets (s : Kernel) (f : Nat) (c : K Int) (off : UInt32) : Prop :=
  ∃ a s' y, c.exec s = .ok a s' ∧ s'.file f = some y ∧ y.off = off

variable {s : Kernel} {p f : Nat} {fd : Int} {x : File} {ip : Inode} {n dir : UInt32}

theorem OpenOn.exec (h : OpenOn s p fd f x ip) (hdir : dir = 0 ∨ dir = 1 ∨ dir = 2) :
    (seekCall p fd n dir).exec s = .ok (seekTo dir dir x.off ip.din.size).toInt32.toInt
      (s.setFile f (some { x with off := seekTo dir dir x.off ip.din.size })) := by
  have hmay : ¬ ((!x.readable) = true ∧ (!x.writable) = true) := by
    obtain h | h := h.usable <;> simp [h]
  have hoff : (if dir.toInt32.toInt = 0 then dir else if dir.toInt32.toInt = 1 then x.off + dir
      else if dir.toInt32.toInt = 2 then dir + ip.din.size else x.off) = seekTo dir dir x.off ip.din.size := by
    obtain rfl | rfl | rfl := hdir
    · rfl
    · rfl
    · exact UInt32.add_comm ..
  simp only [seekCall, sysSeek, argfd, fileseek, exec_bind, exec_peek, Res.ok_bind, if_pos h.bound, h.ofile, onlyIf,
    reduceCtorEq, if_false, exec_pure, exec_fileOf h.file, if_neg hmay, h.type, inode_some h.cached.entry, hoff,
      modFile,
    exec_poke, h.file, Option.map_some]

theorem OpenOn.sets_iff (h : OpenOn s p fd f x ip) (hdir : dir = 0 ∨ dir = 1 ∨ dir = 2) (off : UInt32) :
    Sets s f (seekCall p fd n dir) off ↔ seekTo dir dir x.off ip.din.size = off := by
  simp [Sets, h.exec hdir, Kernel.setFile]

theorem seekTo_inj {m off size} : seekTo m dir off size = seekTo n dir off size ↔ m = n := by
  unfold seekTo
  split
  · rfl
  · split <;> exact UInt32.add_right_inj _

/-! ## Behind the end of the file -/

/-- The file holds `c`, and `f` is beyond its end. -/
structure Beyond (f : Nat) (r : IRef) (c : List UInt8) (s : Kernel) : Prop where
  whole : Whole s
  usable : Usable s r
  contents : s.contents r.dev r.inum = c
  file : ∃ x, s.file f = some x ∧ x.type = .inode ∧ x.ip = r ∧ c.length < x.off.toNat

section

variable {r : IRef} {c : List UInt8} {s s' : Kernel} {addr : Nat → UInt8} {a : Int} (h : Beyond f r c s)
include h

theorem Beyond.same (hs : SameFiles s s' ∧ s'.file = s.file) : Beyond f r c s' :=
  ⟨hs.1.whole h.whole, hs.1.usable h.usable, (hs.1.contents ..).trans h.contents, by rw [hs.2]; exact h.file⟩

theorem Beyond.quiet {dev} (hq : (s.disk dev).mounted = true ∧ ∃ d, s' = s.setDisk dev d ∧ (s.disk dev).Quiet d) :
    Beyond f r c s' := by
  obtain ⟨hm, d, rfl, hq⟩ := hq
  obtain ⟨hw, hu, hc⟩ := h.whole.pause h.usable hm hq
  exact ⟨hw, hu, hc.trans h.contents, h.file⟩

theorem Beyond.writei {n} {x : File} (hf : s.file f = some x) : (writei x.ip addr x.off n).exec s = .ok (-1) s := by
  obtain ⟨y, hy, -, hip, hoff⟩ := h.file
  cases hf.symm.trans hy
  rw [hip]
  refine (h.whole.writesRight h.usable).refused (.inl ?_)
  rw [h.contents]
  exact hoff

theorem Beyond.chunk {n1} (he : (filewriteChunk f addr n1).exec s = .ok a s') : a = -1 ∧ Beyond f r c s' := by
  obtain ⟨x, hf, -, hip, -⟩ := h.file
  simp only [filewriteChunk, exec_bind, exec_fileOf hf, Res.ok_bind] at he
  obtain ⟨_, s1, e1, he⟩ := Res.bind_eq_ok.mp he
  have hq := beginOp_quiet e1
  have h1 := h.quiet hq
  obtain ⟨_, s2, e2, he⟩ := Res.bind_eq_ok.mp he
  have hl := h1.usable.ilock (hip ▸ e2)
  have h2 := h1.same hl
  have hf2 : s2.file f = some x := by obtain ⟨-, d, rfl, -⟩ := hq; rw [hl.2]; exact hf
  simp only [exec_fileOf hf2, Res.ok_bind, h2.writei hf2, onlyIf, show ¬ (0 : Int) < -1 by decide, if_false,
    exec_pure] at he
  obtain ⟨_, s3, e3, he⟩ := Res.bind_eq_ok.mp he
  have h3 := h2.same (h2.usable.iunlock (hip ▸ e3))
  obtain ⟨_, s4, e4, he⟩ := Res.bind_eq_ok.mp he
  cases he
  exact ⟨rfl, h3.quiet (endOp_quiet (fun hm => (h3.whole _ hm).settled.log) e4)⟩

theorem Beyond.filewrite {len pipe} (hlen : 0 < len) (he : (filewrite p f addr len pipe).exec s = .ok a s') :
    a = -1 ∧ s'.contents r.dev r.inum = c := by
  obtain ⟨x, hf, htype, -⟩ := h.file
  simp only [Xv6Vsd.filewrite, exec_bind, exec_fileOf hf, Res.ok_bind] at he
  split at he
  · obtain ⟨_, s1, e1, he⟩ := bind_ok he
    cases he
    exact ⟨rfl, (h.same (seterr_ok e1)).contents⟩
  rw [htype] at he
  dsimp only at he
  rw [if_neg (by omega), filewriteFrom, if_pos (by omega)] at he
  obtain ⟨b, s1, e1, he⟩ := bind_ok he
  obtain ⟨rfl, h1⟩ := h.chunk e1
  rw [if_neg (by decide), if_pos (by decide), if_neg (by omega)] at he
  cases he
  exact ⟨rfl, h1.contents⟩

end

theorem OpenOn.beyond (h : OpenOn s p fd f x ip) (hw : Whole s) :
    Beyond f x.ip (s.contents x.ip.dev x.ip.inum)
      (s.setFile f (some { x with off := seekTo 2 2 x.off ip.din.size })) := by
  have hs : SameFiles s (s.setFile f (some { x with off := seekTo 2 2 x.off ip.din.size })) := .setFile ..
  have hu : Usable s x.ip :=
    ⟨h.mounted, ip, h.cached.entry, h.cached.valid, by rw [h.regular]; decide⟩
  refine ⟨hs.whole hw, hs.usable hu, hs.contents .., { x with off := seekTo 2 2 x.off ip.din.size }, ?_, h.type, rfl,
    ?_⟩
  · simp [Kernel.setFile]
  have ha := hw _ h.mounted
  have hi := ha.settled.refs _ ip h.cached.entry
  have hlen := ha.length_le hi
  rw [← ha.size _ hi, h.cached.view] at hlen ⊢
  have hmax : maxfile * bsize + 2 < 2 ^ 32 := by decide
  rw [show seekTo 2 2 x.off ip.din.size = ip.din.size + 2 from rfl, UInt32.toNat_add,
    show (2 : UInt32).toNat = 2 from rfl]
  omega

/-- `seek` goes where its arguments say if and only if the second is equal to the third; a write
behind `seek(fd, 0, 2)` answers -1 and leaves the file as it is. -/
theorem seek_right_iff (h : OpenOn s p fd f x ip) (hw : Whole s) (hdir : dir = 0 ∨ dir = 1 ∨ dir = 2) (n : UInt32) :
    (Sets s f (seekCall p fd n dir) (seekTo n dir x.off ip.din.size) ↔ n = dir) ∧
      ∃ off s1, (seekCall p fd 0 2).exec s = .ok off s1 ∧
        ∀ (data : Nat → UInt8) (len pipe : Int), 0 < len → ∀ a s',
          (sysWrite p (some fd) data (some len) pipe).exec s1 = .ok a s' →
          a = -1 ∧ s'.contents x.ip.dev x.ip.inum = s.contents x.ip.dev x.ip.inum := by
  constructor
  · rw [h.sets_iff hdir, seekTo_inj, eq_comm]
  refine ⟨_, _, h.exec (by simp), fun data len pipe hlen a s' he => ?_⟩
  obtain ⟨r, s2, e1, he⟩ := bind_ok he
  simp only [argfd, exec_bind, exec_peek, Res.ok_bind, if_pos h.bound, Kernel.setFile, h.ofile, onlyIf,
    reduceCtorEq, if_false, exec_pure] at e1
  cases e1
  exact (h.beyond hw).filewrite hlen he

def oneFd : Kernel :=
  Shared.oneOpen.setProc 0 { Shared.oneOpen.proc 0 with ofile := fun fd => if fd = 0 then some 0 else none }

theorem oneFd_whole : Whole oneFd :=
  ((SameFiles.setBusy ⟨by simp [oneFile], rfl⟩ false).trans (.trans (.setFile ..) (.setProc ..))).whole
    (oneFile_whole (by decide +kernel))

/-- In a file of two bytes `seek(fd, 1, 1)` goes from the start to the second byte. -/
theorem seek_right_next : ∃ s, s.contents 1 1 = [7, 7] ∧ Sets s 0 (seekCall 0 0 1 1) 1 := by
  obtain ⟨s, hrun, hc, hofile, hfile, hm, hip⟩ : ∃ s, Run Access.act (fun s a => a.Roomy s) oneFd s ∧
      s.contents 1 1 = [7, 7] ∧ (s.proc 0).ofile 0 = some 0 ∧
      (s.file 0).any (fun x => x.type = .inode ∧ x.readable = true ∧ x.ip = ⟨1, 1⟩ ∧ x.off = 0) = true ∧
      (s.disk 1).mounted = true ∧ (s.icache ⟨1, 1⟩).any (fun ip => ip.valid = true ∧ ip.din.type = tFile) = true :=
    exists_run [.write ⟨1, 1⟩ (fun _ => 7) 0 2] (by decide +kernel)
  simp only [Option.any_eq_true, decide_eq_true_eq] at hfile hip
  obtain ⟨⟨x, hx, htype, hread, hr, hoff⟩, ip, hip, hv, hreg⟩ := And.intro hfile hip
  rw [← hr] at hip
  have hopen : OpenOn s 0 0 0 x ip := ⟨by decide, hofile, hx, htype, .inl hread, by rw [hr]; exact hm, ⟨hip, hv⟩, hreg⟩
  have hw := hrun.invariant oneFd_whole fun _ _ _ hw hok he => hw.act hok he
  have hsets := (seek_right_iff hopen hw (.inr (.inl rfl)) 1).1.mpr rfl
  rw [hoff] at hsets
  exact ⟨s, hc, hsets⟩

/-- After `seek(fd, 0, 2)` the offset is 2 in an empty file, and a byte cannot be appended. -/
theorem append_refused : ∃ s', (seekCall 0 0 0 2 >>= fun off => sysWrite 0 (some 0) (fun _ => 7) (some 1) 0 >>= fun r =>
    pure (off, r)).exec oneFd = .ok (2, -1) s' ∧ s'.contents 1 1 = [] := by
  have hrun : ((seekCall 0 0 0 2 >>= fun off => sysWrite 0 (some 0) (fun _ => 7) (some 1) 0 >>= fun r =>
    pure (off, r)).exec oneFd).yields (fun a s' => a = (2, -1) ∧ s'.contents 1 1 = []) = true := by decide +kernel
  obtain ⟨a, s', he, ha⟩ := Res.yields_ok hrun
  obtain ⟨rfl, hc⟩ := of_decide_eq_true ha
  exact ⟨s', he, hc⟩

end Xv6Vsd
