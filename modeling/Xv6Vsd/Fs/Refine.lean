import Mathlib.Order.Interval.Finset.Nat
import Xv6Vsd.Fs.Lemmas.Grant
import Xv6Vsd.Fs.Lemmas.KeepInode
import Xv6Vsd.Fs.Read

/-! # Files are arrays of bytes -/

namespace Xv6Vsd

open Prog Function Kernel List Disk

structure Holding (s : Kernel) (dev : Nat) (c : Nat → List UInt8) : Prop where
  settled : Settled s dev
  idle : (s.disk dev).Idle
  reach : (s.disk dev).sb.size ≤ fssize
  holds : ∀ i < (s.disk dev).sb.ninodes, Holds (s.table dev) (s.disk dev).cache i (c i)

structure Arrays (s : Kernel) (dev : Nat) (c : Nat → List UInt8) : Prop extends Holding s dev c where
  size : ∀ i < (s.disk dev).sb.ninodes, (s.view dev i).size.toNat = (c i).length

section

variable {s s' s1 : Kernel} {r : IRef} {ip : Inode} {c : Nat → List UInt8} {src : Nat → UInt8}
  {off m n dev : Nat} {a : UInt32}

theorem Holding.table_lt (h : Holding s dev c) (p : Place) : s.table dev p < fssize := by
  by_cases hp : s.table dev p = 0
  · rw [hp]; decide
  · exact Nat.lt_of_lt_of_le (h.settled.snug.tidy.good hp).2.1 h.reach

variable {i o : Nat}

theorem Holding.length_le (h : Holding s dev c) (hi : i < (s.disk dev).sb.ninodes) : (c i).length ≤ 786432 := by
  by_contra hlt
  refine (h.holds i hi).there 786432 (by omega) ?_
  have haddr : (s.view dev i).addr 12 = 0 := by simp [Dinode.addr]
  exact blockAt_dat_zero haddr _

theorem Granted.written (hg : Granted s s1 r (off / 65536) (off / 512 % 128) a) (hroom : off % 512 + m ≤ 512)
    (ho : (s1.disk r.dev).Open) {x} (hx : x = ((s1.disk r.dev).cache a.toNat).blit (off % 512) m src) :
    Settled (s1.setDisk r.dev ((s1.disk r.dev).logged a.toNat x)) r.dev ∧
      (∀ p, (s1.setDisk r.dev ((s1.disk r.dev).logged a.toNat x)).table r.dev p = s1.table r.dev p) ∧
      Written (s.table r.dev) (s1.table r.dev) (s.disk r.dev).cache
        ((s1.disk r.dev).logged a.toNat x).cache r.inum off m src := by
  have hs1 := hg.grown.settled
  have hplace : s1.table r.dev (.ofByte r.inum off) = a.toNat := hg.dat
  refine ⟨hs1.write hg.dat hg.ne hg.lt ho, fun p => ?_, ?_⟩
  · rw [table_setDisk (logged_sb ..) fun i hi => ?_, logged_cache]
    · exact congrFun (blockAt_congr (fun _ _ _ => rfl) fun c hc => hs1.snug.write_indirect hg.dat hg.ne hc) p
    · rw [logged_sb] at hi ⊢; exact hs1.diskIn_write hg.dat hg.ne x hi
  constructor
  case once => exact hs1.snug.tidy.owned.once
  case kept => exact fun i o hne => hg.grown.kept _ hne
  case there => rw [hplace]; exact hg.ne
  case others =>
    intro i o hne hb
    rw [hplace] at hb
    rw [logged_cache, update_of_ne hb]
    exact hg.grown.data _ _ _ hne
  case block =>
    rw [hplace, logged_cache, update_self, hx]
    refine ⟨_, rfl, fun hne => ?_⟩
    have hk := hg.grown.kept _ hne
    rw [hplace] at hk
    rw [hk]
    exact hg.grown.data _ _ _ hne
  case room => exact hroom

/-! ## Blocks that are missing -/

def lacking (T : Place → Nat) (i off n : Nat) : Nat :=
  ((Finset.Ico (off / 512) ((off + n + 511) / 512)).filter fun bn => T (.dat i (bn / 128) (bn % 128)) = 0).card +
    ((Finset.Ico (off / 65536) ((off + n + 65535) / 65536)).filter fun k => T (.ind i k) = 0).card

def touched (i off o : Nat) : Finset Place := (Finset.Ico off o).biUnion fun b => {.ind i (b / 65536), .ofByte i b}

def missing (T : Place → Nat) (S : Finset Place) : Nat := (S.filter fun p => T p = 0).card

theorem mem_touched {p} : p ∈ touched i off o ↔ ∃ b, off ≤ b ∧ b < o ∧ (p = .ind i (b / 65536) ∨ p = .ofByte i b) := by
  simp only [touched, Finset.mem_biUnion, Finset.mem_Ico, Finset.mem_insert, Finset.mem_singleton, and_assoc]

theorem touched_mono {o'} (h : o ≤ o') : touched i off o ⊆ touched i off o' := fun p hp => by
  obtain ⟨b, h1, h2, hp⟩ := mem_touched.mp hp
  exact mem_touched.mpr ⟨b, h1, by omega, hp⟩

theorem touched_piece (hle : off ≤ o) (hm : 0 < m) (hroom : o % 512 + m ≤ 512) :
    touched i off (o + m) = insert (.ofByte i o) (insert (.ind i (o / 65536)) (touched i off o)) := by
  ext p
  simp only [Finset.mem_insert, mem_touched]
  constructor
  · rintro ⟨b, h1, h2, hp⟩
    by_cases hb : b < o
    · exact .inr (.inr ⟨b, h1, hb, hp⟩)
    -- the rest of the block of `o`
    have hk : b / 65536 = o / 65536 := by omega
    have hj : b / 512 % 128 = o / 512 % 128 := by omega
    rw [Place.ofByte, hk, hj] at hp
    exact hp.elim (fun hp => .inr (.inl hp)) .inl
  · rintro (hp | hp | ⟨b, h1, h2, hp⟩)
    · exact ⟨o, hle, by omega, .inr hp⟩
    · exact ⟨o, hle, by omega, .inl hp⟩
    · exact ⟨b, h1, by omega, hp⟩

theorem missing_mono {T S S'} (h : S ⊆ S') : missing T S ≤ missing T S' :=
  Finset.card_le_card (Finset.filter_subset_filter _ h)

theorem missing_insert {T T1 S p} (hin : p ∈ S → T1 p ≠ 0) (hout : p ∉ S → T1 p = T p) :
    missing T (insert p S) = missing T S + lack T1 p := by
  by_cases hp : p ∈ S
  · rw [Finset.insert_eq_of_mem hp, lack_of_ne (hin hp), Nat.add_zero]
  rw [missing, Finset.filter_insert, lack, hout hp]
  split
  · exact Finset.card_insert_of_notMem (by simp [hp])
  · rfl

theorem missing_le_lacking (T : Place → Nat) (i off n : Nat) :
    missing T (touched i off (off + n)) ≤ lacking T i off n := by
  have hsub : (touched i off (off + n)).filter (fun p => T p = 0) ⊆
    ((Finset.Ico (off / 512) ((off + n + 511) / 512)).filter fun bn => T (.dat i (bn / 128) (bn % 128)) = 0).image
      (fun bn => .dat i (bn / 128) (bn % 128)) ∪
    ((Finset.Ico (off / 65536) ((off + n + 65535) / 65536)).filter fun k => T (.ind i k) = 0).image (.ind i ·) := by
    intro p hp
    obtain ⟨hp, h0⟩ := Finset.mem_filter.mp hp
    obtain ⟨b, h1, h2, rfl | rfl⟩ := mem_touched.mp hp
    · refine Finset.mem_union_right _ (Finset.mem_image.mpr ⟨b / 65536, ?_, rfl⟩)
      exact Finset.mem_filter.mpr ⟨Finset.mem_Ico.mpr (by omega), h0⟩
    have hk : b / 512 / 128 = b / 65536 := by omega
    refine Finset.mem_union_left _ (Finset.mem_image.mpr ⟨b / 512, ?_, by rw [hk]; rfl⟩)
    exact Finset.mem_filter.mpr ⟨Finset.mem_Ico.mpr (by omega), by rw [hk]; exact h0⟩
  exact (Finset.card_le_card hsub).trans ((Finset.card_union_le ..).trans
    (Nat.add_le_add Finset.card_image_le Finset.card_image_le))

/-! ## Writing -/

theorem Holding.bmap (h : Holding s r.dev c) (hc : Cached s r ip) (he : (bmap r (off / bsize)).exec s = .ok a s1) :
    (a = -1 ∧ (s.disk r.dev).free < lack (s.table r.dev) (.ind r.inum (off / 65536)) +
      lack (s.table r.dev) (.ofByte r.inum off) ∧ Short s s1 r (off / 65536)) ∨
    (Granted s s1 r (off / 65536) (off / 512 % 128) a ∧
      ∃ addrs, Cached s1 r { ip with din := { ip.din with addrs := addrs } }) := by
  obtain ⟨hbn, x, hx, hends⟩ := bmap_ok h.settled.snug.tidy.marked he
  rw [hc.entry] at hx; cases hx
  obtain ⟨hk, hj⟩ := index_eq off
  have hk12 : off / 65536 < 12 := by simp only [maxfile, nindirect, bsize] at hbn; omega
  rw [hk, hj] at hends
  obtain hno | hg := hends.granted h.settled hc hk12 (by omega) h.table_lt
  · exact .inl hno
  · exact .inr ⟨hg, hends.cached hc⟩

theorem Aside.logged (s : Kernel) (r : IRef) {b x}
    (hin : ∀ i < (s.disk r.dev).sb.ninodes, diskIn (s.disk r.dev).sb ((s.disk r.dev).logged b x).cache i =
      diskIn (s.disk r.dev).sb (s.disk r.dev).cache i) :
    Aside s (s.setDisk r.dev ((s.disk r.dev).logged b x)) r := by
  have hd := s.setDisk_disk_self r.dev ((s.disk r.dev).logged b x)
  refine ⟨.setDisk s (congrArg (·.2.1) (logged_frame ..)), fun _ _ => rfl, by rw [hd]; exact logged_frame ..,
    by rw [hd]; exact logged_busy .., fun i hi => ⟨_, view_setDisk (logged_sb ..) ?_⟩, fun i hi => ?_⟩
  · rw [logged_sb]; exact hin i hi
  · rw [hd]; exact hin i hi

theorem Aside.idle (h : Aside s s' r) (hi : (s.disk r.dev).Idle) : (s'.disk r.dev).Idle :=
  ⟨(congrArg (·.2.1) h.frame).trans hi.mounted, (congrArg (·.1) h.frame).trans hi.present,
    by rw [h.busy]; exact hi.free⟩

theorem toInt32_not_neg {a : UInt32} (h : a.toNat < fssize) : ¬ a.toInt32 < 0 := by
  rw [Int32.lt_iff_toInt_lt, toInt_toInt32 (h.trans (by decide))]
  show ¬ (a.toNat : Int) < 0
  omega

theorem range_map_add (f : Nat → UInt8) (h : m ≤ n) :
    (List.range n).map f = (List.range m).map f ++ (List.range (n - m)).map fun j => f (m + j) := by
  obtain ⟨d, rfl⟩ := Nat.exists_eq_add_of_le h
  rw [Nat.add_sub_cancel_left, range_add, map_append, map_map]
  rfl

/-- The bytes from `off` to `o` have been written, in blocks that were free where one was
missing. -/
structure Reached (s s1 : Kernel) (r : IRef) (ip : Inode) (c : Nat → List UInt8) (src : Nat → UInt8) (off o : Nat) :
    Prop where
  le : off ≤ o
  holding : Holding s1 r.dev (Function.update c r.inum (splice (c r.inum) off ((List.range (o - off)).map src)))
  aside : Aside s s1 r
  cached : ∃ addrs, Cached s1 r { ip with din := { ip.din with addrs := addrs } }
  there : ∀ p ∈ touched r.inum off o, s1.table r.dev p ≠ 0
  kept : ∀ p, p ∉ touched r.inum off o ∨ s.table r.dev p ≠ 0 → s1.table r.dev p = s.table r.dev p
  free : (s1.disk r.dev).free + missing (s.table r.dev) (touched r.inum off o) = (s.disk r.dev).free
  marks : ∀ b < (s.disk r.dev).sb.size, (s1.disk r.dev).marked b = true → (s.disk r.dev).marked b = true ∨
    ∃ p ∈ touched r.inum off o, s1.table r.dev p = b

namespace Reached

theorem start (h : Holding s r.dev c) (hc : Cached s r ip) : Reached s s r ip c src off off := by
  refine ⟨Nat.le_refl _, ?_, .refl s r, ⟨_, hc⟩, by simp [touched], fun _ _ => rfl, by simp [touched, missing],
    fun _ _ => .inl⟩
  simpa [splice_nil] using h

variable {o : Nat} (h : Reached s s1 r ip c src off o)
include h

theorem missing_insert (hm : 0 < m) (hroom : o % 512 + m ≤ 512) :
    missing (s.table r.dev) (touched r.inum off (o + m)) = missing (s.table r.dev) (touched r.inum off o) +
      (lack (s1.table r.dev) (.ind r.inum (o / 65536)) + lack (s1.table r.dev) (.ofByte r.inum o)) := by
  have hne : Place.ofByte r.inum o ≠ .ind r.inum (o / 65536) := nofun
  rw [touched_piece h.le hm hroom, @Xv6Vsd.missing_insert _ (s1.table r.dev),
    Xv6Vsd.missing_insert (h.there _) (h.kept _ ∘ .inl)]
  · exact Nat.add_assoc ..
  · exact fun hp => h.there _ (Finset.mem_of_mem_insert_of_ne hp hne)
  · exact fun hp => h.kept _ (.inl fun hp' => hp (Finset.mem_insert_of_mem hp'))

theorem few (hlt : o < off + n) (hfew : (s1.disk r.dev).free < lack (s1.table r.dev) (.ind r.inum (o / 65536)) +
    lack (s1.table r.dev) (.ofByte r.inum o)) : (s.disk r.dev).free < lacking (s.table r.dev) r.inum off n := by
  have h1 := h.missing_insert Nat.one_pos (by omega)
  have h2 := h.free
  have h3 := missing_le_lacking (s.table r.dev) r.inum off n
  have h4 : missing (s.table r.dev) (touched r.inum off (o + 1)) ≤
    missing (s.table r.dev) (touched r.inum off (off + n)) :=
    missing_mono (touched_mono hlt)
  omega

theorem next {s2} (hg : Granted s1 s2 r (o / 65536) (o / 512 % 128) a)
    (hc2 : ∃ addrs, Cached s2 r { ip with din := { ip.din with addrs := addrs } }) (hm : 0 < m)
    (hroom : o % 512 + m ≤ 512) (hoff : off ≤ (c r.inum).length) {u}
    (he : (edit r.dev a.toNat fun x => (some (x.blit (o % bsize) m fun i => src (o - off + i)), ())).exec s2 =
      .ok u s') :
    Reached s s' r ip c src off (o + m) := by
  have hle := h.le
  obtain ⟨rfl, hr, ho⟩ := edit_write_ok he
  have hblit : ((s2.disk r.dev).cache a.toNat).blit (o % bsize) m (fun i => src (o - off + i)) =
    ((s2.disk r.dev).cache a.toNat).blit (o % 512) m (fun i => src (o - off + i)) := rfl
  obtain ⟨hs', htab, hw⟩ := hg.written hroom ho hblit
  have hside := hg.grown.aside.trans (.logged s2 r fun i hi => hg.grown.settled.diskIn_write hg.dat hg.ne
    (((s2.disk r.dev).cache a.toNat).blit (o % bsize) m fun i => src (o - off + i)) hi)
  have hmark : ∀ b < (s2.disk r.dev).sb.size, ((s2.disk r.dev).logged a.toNat
    (((s2.disk r.dev).cache a.toNat).blit (o % bsize) m fun i => src (o - off + i))).marked b =
      (s2.disk r.dev).marked b := by
    intro b hb
    have hge := hg.grown.settled.data_ge hg.dat hg.ne
    have hlt := (s2.disk r.dev).sb.bblock_lt hb
    rw [marked, logged_sb, logged_cache, update_of_ne (by omega), marked]
  obtain ⟨addrs, hc2⟩ := hc2
  have hsb : (s2.disk r.dev).sb = (s.disk r.dev).sb := hg.grown.aside.sb.trans h.aside.sb
  have htouch := touched_piece (i := r.inum) hle hm hroom
  have hd := s2.setDisk_disk_self r.dev ((s2.disk r.dev).logged a.toNat
    (((s2.disk r.dev).cache a.toNat).blit (o % bsize) m fun i => src (o - off + i)))
  constructor
  case le => omega
  case holding =>
    refine ⟨hs', hside.idle h.holding.idle, by rw [hside.sb]; exact h.holding.reach, fun i hi => ?_⟩
    rw [hside.sb] at hi
    have hlen := length_splice (c r.inum) ((range (o - off)).map src) hoff
    have hsplice := splice_splice (c r.inum) ((range (o - off)).map src) ((range m).map fun j => src (o - off + j)) hoff
    rw [length_map, length_range] at hlen hsplice
    rw [show (s2.setDisk r.dev _).table r.dev = s2.table r.dev from funext htab, hd]
    by_cases he : i = r.inum
    · subst he
      have hold := h.holding.holds r.inum hi
      rw [update_self] at hold ⊢
      have hnew := hold.write hw (by omega)
      rw [show off + (o - off) = o by omega] at hsplice
      rw [hsplice] at hnew
      rw [range_map_add (m := o - off) src (by omega), show o + m - off - (o - off) = m by omega]
      exact hnew
    · have hold := h.holding.holds i hi; rw [update_of_ne he] at hold ⊢; exact hold.other hw he
  case aside => exact h.aside.trans hside
  case cached => exact ⟨addrs, hc2.entry, hc2.valid⟩
  case there =>
    intro p hp
    rw [htab]
    rw [htouch, Finset.mem_insert, Finset.mem_insert] at hp
    obtain rfl | rfl | hp := hp
    · exact hg.dat ▸ hg.ne
    · exact hg.ind
    · rw [hg.grown.kept p (h.there p hp)]; exact h.there p hp
  case kept =>
    intro p hp
    rw [htab]
    obtain hp | hp := hp
    · rw [htouch, Finset.mem_insert, Finset.mem_insert, not_or, not_or] at hp
      rw [hg.table p hp.2.1 hp.1, h.kept p (.inl hp.2.2)]
    · have hk := h.kept p (.inr hp); rw [hg.grown.kept p (by rw [hk]; exact hp), hk]
  case free =>
    have hfree : ((s2.disk r.dev).logged a.toNat (((s2.disk r.dev).cache a.toNat).blit (o % bsize) m fun i =>
      src (o - off + i))).free = (s2.disk r.dev).free := free_congr (logged_sb ..) hmark
    have h1 := hg.free
    have h2 := h.free
    have h3 := h.missing_insert hm hroom
    rw [hd, hfree]
    simp only [Place.ofByte] at h3
    omega
  case marks =>
    intro b hb hmb
    rw [hd, hmark b (by rw [hsb]; exact hb)] at hmb
    simp only [htab, htouch, Finset.mem_insert, exists_eq_or_imp]
    obtain hold | hind | hdat := hg.marks b (by rw [h.aside.sb]; exact hb) hmb
    · obtain hold | ⟨p, hp, rfl⟩ := h.marks b hb hold
      · exact .inl hold
      · exact .inr (.inr (.inr ⟨p, hp, hg.grown.kept p (h.there p hp)⟩))
    · exact .inr (.inr (.inl hind))
    · exact .inr (.inl hdat)

theorem writePieces {fuel last : Nat} {ok : Bool} (hn : n ≤ fuel) (hoff : off ≤ (c r.inum).length)
    (he : (writePieces r src off (pieces fuel o n) o).exec s1 = .ok (ok, last) s') :
    (ok = false ∧ last < o + n ∧ ∃ s2, Reached s s2 r ip c src off last ∧
      (s2.disk r.dev).free < lack (s2.table r.dev) (.ind r.inum (last / 65536)) +
        lack (s2.table r.dev) (.ofByte r.inum last) ∧
      Short s2 s' r (last / 65536)) ∨
    (ok = true ∧ last = o + n ∧ Reached s s' r ip c src off last) := by
  induction fuel generalizing s1 o n with
  | zero =>
    obtain rfl : n = 0 := by omega
    cases he
    exact .inr ⟨rfl, rfl, h⟩
  | succ fuel ih =>
    by_cases h0 : n = 0
    · subst h0; cases he; exact .inr ⟨rfl, rfl, h⟩
    rw [pieces, if_neg h0] at he
    have hroom : o % 512 + min n (bsize - o % bsize) ≤ 512 := by simp only [bsize]; omega
    have hle : min n (bsize - o % bsize) ≤ n := Nat.min_le_left ..
    have hpos : 0 < min n (bsize - o % bsize) := by simp only [bsize]; omega
    generalize min n (bsize - o % bsize) = m at hroom hle hpos he
    obtain ⟨a, s2, h1, he⟩ := bind_ok he
    obtain ⟨addrs, hc⟩ := h.cached
    obtain ⟨rfl, hfew, hshort⟩ | ⟨hg, addrs', hc1⟩ := h.holding.bmap hc h1
    · rw [if_pos (by decide)] at he; cases he; exact .inl ⟨rfl, by omega, s1, h, hfew, hshort⟩
    rw [if_neg (toInt32_not_neg hg.lt)] at he
    obtain ⟨_, s3, h2, he⟩ := bind_ok he
    have hnext := h.next hg ⟨addrs', hc1⟩ hpos hroom hoff h2
    obtain ⟨hno, hlt, hres⟩ | ⟨hok, hlast, hres⟩ := ih (n := n - m) hnext (by omega) he
    · exact .inl ⟨hno, by omega, hres⟩
    · exact .inr ⟨hok, by omega, hres⟩

end Reached

theorem Holding.inode (h : Holding s r.dev c) (ho : OnlyInode r s s') (hs : Settled s' r.dev)
    (hidle : (s'.disk r.dev).Idle) (haddr : ∀ k, (s'.view r.dev r.inum).addr k = (s.view r.dev r.inum).addr k) :
    Holding s' r.dev c := by
  have hm := (s.disk r.dev).sb.bmapstart_le_metaEnd
  have htab : s'.table r.dev = s.table r.dev := by
    rw [table, ho.sb]
    refine blockAt_congr (fun i hi k => ?_) fun b hb => ho.high b ?_
    · by_cases he : i = r.inum
      · rw [he, haddr]
      · rw [ho.view hi he]
    · have := h.settled.snug.tidy.indirect_ge hb; omega
  refine ⟨hs, hidle, by rw [ho.sb]; exact h.reach, fun i hi => ?_⟩
  rw [ho.sb] at hi
  rw [htab]
  refine (h.holds i hi).congr fun o hne => ho.high _ ?_
  have := (h.settled.snug.tidy.good hne).1
  exact Nat.le_trans hm this

theorem Holding.setSize (h : Holding s r.dev c) (hc : Cached s r ip) {v u}
    (he : (modDin r (fun d => { d with size := v }) >>= fun _ => iupdate r).exec s = .ok u s') :
    Holding s' r.dev c ∧ OnlyInode r s s' ∧ Cached s' r { ip with din := { ip.din with size := v } } := by
  obtain ⟨_, s1, h1, h2⟩ := bind_ok he
  obtain ⟨x, hx, rfl⟩ := modDin_ok h1
  rw [hc.entry] at hx; cases hx
  have hc1 : Cached (s.setInode r (some { ip with din := { ip.din with size := v } })) r
    { ip with din := { ip.din with size := v } } := ⟨setInode_icache_self .., hc.valid⟩
  have hone1 : OnlyInode r s (s.setInode r (some { ip with din := { ip.din with size := v } })) :=
    .of_disk rfl (fun _ hr => setInode_icache_of_ne _ _ hr) rfl
  have hlt := h.settled.refs r.inum ip hc.entry
  have hold : s.din r = ip.din := hc.view
  have hnew : (s.setInode r (some { ip with din := { ip.din with size := v } })).din r = { ip.din with size := v } :=
    hc1.view
  have hs1 : Settled (s.setInode r (some { ip with din := { ip.din with size := v } })) r.dev := by
    refine h.settled.inode hone1 h.settled.log (fun y hy => ⟨hlt, fun hb => ?_⟩) (fun k => .inr ?_) fun k => ?_
    · rw [hc1.entry] at hy; cases hy; exact hc.valid
    · rw [hold, hnew]; rfl
    rw [hnew]
    have := h.settled.snug.coherent r.inum hlt k
    rw [show s.view r.dev r.inum = ip.din from hc.view] at this
    exact this
  obtain ⟨hs2, hone2⟩ := hs1.iupdate1 hc1 h2
  obtain ⟨y, hy, hs', -⟩ := iupdate1_ok h2
  rw [hc1.entry] at hy; cases hy
  have hc2 : Cached s' r { ip with din := { ip.din with size := v } } := by
    rw [hs']
    exact ⟨hc1.entry, hc1.valid⟩
  have hone := hone1.trans hone2
  refine ⟨h.inode hone hs2 ?_ fun k => ?_, hone, hc2⟩
  · have hf := putInode_frame (s.disk r.dev) false r.inum { ip.din with size := v }
    rw [hs', setDisk_disk_self]
    exact ⟨(congrArg (·.2.1) hf).trans h.idle.mounted, (congrArg (·.1) hf).trans h.idle.present,
      by rw [putInode, save_busy]; exact h.idle.free⟩
  · rw [hc2.view, hc.view]; rfl

def OutOfRange (size off n : Nat) : Prop := size < off ∨ 2 ^ 32 ≤ off + n ∨ maxfile * bsize < off + n

instance (size off n : Nat) : Decidable (OutOfRange size off n) := inferInstanceAs (Decidable (_ ∨ _))

structure SameEntry (s s' : Kernel) (r : IRef) (ip : Inode) : Prop where
  others : ∀ r', r' ≠ r → s'.icache r' = s.icache r'
  self : ∃ din : Dinode, Cached s' r { ip with din := din } ∧ din.type = ip.din.type

theorem exec_writei_refused {off n} (hip : s.icache r = some ip) (htype : ip.din.type ≠ tDev)
    (hbad : OutOfRange ip.din.size.toNat off.toNat n.toNat) : (writei r src off n).exec s = .ok (-1) s := by
  rw [writei, exec_bind, inode_some hip, Res.ok_bind, if_neg htype]
  by_cases hpast : ip.din.size < off ∨ off + n < off
  · rw [if_pos hpast, exec_pure]
  rw [UInt32.lt_iff_toNat_lt, lt_add_iff] at hpast
  unfold OutOfRange at hbad
  rw [if_neg (by rw [UInt32.lt_iff_toNat_lt, lt_add_iff]; exact hpast), if_pos (by
    rw [UInt32.toNat_add, Nat.mod_eq_of_lt (by omega)]
    omega), exec_pure]

theorem Reached.finish {Q} [Decidable Q] (hre : Reached s s1 r ip c src off o) (h : Arrays s r.dev c)
    (hc : Cached s r ip) (hoff : off ≤ (c r.inum).length) (ho : o < 2 ^ 32) (hQ : Q ∨ o ≤ (c r.inum).length) {y}
    (hy : s1.icache r = some y) {u}
    (he : (onlyIf (Q ∧ y.din.size.toNat < o) (modDin r (fun d => { d with size := UInt32.ofNat o }) >>=
      fun _ => iupdate r)).exec s1 = .ok u s') :
    Arrays s' r.dev (update c r.inum (splice (c r.inum) off ((List.range (o - off)).map src))) ∧
      SameEntry s s' r ip ∧ Apart r.dev s s' ∧ (s'.disk r.dev).sb = (s.disk r.dev).sb := by
  obtain ⟨hle, hh, haside, ⟨addrs, hc2⟩, -⟩ := hre
  rw [hc2.entry] at hy; cases hy
  have hsize : ip.din.size.toNat = (c r.inum).length := by
    rw [← h.size r.inum (h.settled.refs r.inum ip hc.entry), hc.view]
  have hlen := length_splice (c r.inum) ((range (o - off)).map src) hoff
  rw [length_map, length_range, Nat.add_sub_cancel' hle] at hlen
  obtain ⟨hgrow, h5⟩ | ⟨hsame, rfl⟩ := onlyIf_ok he
  · obtain ⟨hh', hone, hc'⟩ := hh.setSize hc2 h5
    refine ⟨⟨hh', fun i hi => ?_⟩, ⟨fun r' hr => (hone.others r' hr).trans (haside.others r' hr), _, hc', rfl⟩,
      haside.apart.trans hone.apart, hone.sb.trans haside.sb⟩
    rw [hone.sb, haside.sb] at hi
    by_cases he : i = r.inum
    · subst he
      rw [hc'.view, update_self, hlen]
      have hlt' : ip.din.size.toNat < o := hgrow.2
      rw [hsize] at hlt'
      refine (UInt32.toNat_ofNat_of_lt' ?_).trans (Nat.max_eq_right (Nat.le_of_lt hlt')).symm
      simp only [UInt32.size]
      omega
    · obtain ⟨addrs', hv⟩ := haside.view i hi
      rw [hone.view (by rw [haside.sb]; exact hi) he, hv, update_of_ne he]
      exact h.size i hi
  · refine ⟨⟨hh, fun i hi => ?_⟩, ⟨haside.others, _, hc2, rfl⟩, haside.apart, haside.sb⟩
    rw [haside.sb] at hi
    obtain ⟨addrs', hv⟩ := haside.view i hi
    rw [hv]
    by_cases he : i = r.inum
    · subst he
      have hge : ¬ (Q ∧ ip.din.size.toNat < o) := hsame
      have hle' : o ≤ (c r.inum).length := hQ.elim (fun hq => by
        rw [← hsize]
        exact Nat.le_of_not_lt fun hlt => hge ⟨hq, hlt⟩) id
      rw [update_self, hlen, Nat.max_eq_left hle']
      exact h.size r.inum hi
    · rw [update_of_ne he]; exact h.size i hi

theorem writei_ok {off n} (hip : s.icache r = some ip) (htype : ip.din.type ≠ tDev) {a}
    (he : (writei r src off n).exec s = .ok a s') :
    (OutOfRange ip.din.size.toNat off.toNat n.toNat ∧ a = -1 ∧ s' = s) ∨
    (¬ OutOfRange ip.din.size.toNat off.toNat n.toNat ∧ ∃ ok last s1 y,
      (writePieces r src off.toNat (pieces n.toNat off.toNat n.toNat) off.toNat).exec s = .ok (ok, last) s1 ∧
      s1.icache r = some y ∧ (onlyIf ((0 < n ∨ !ok) ∧ y.din.size.toNat < last)
        (modDin r (fun d => { d with size := UInt32.ofNat last }) >>= fun _ => iupdate r)).exec s1 = .ok () s' ∧
      a = if ok then (n.toNat : Int) else -2) := by
  by_cases hbad : OutOfRange ip.din.size.toNat off.toNat n.toNat
  · rw [exec_writei_refused hip htype hbad] at he; cases he; exact .inl ⟨hbad, rfl, rfl⟩
  have hno := hbad
  simp only [OutOfRange, not_or, Nat.not_lt, Nat.not_le] at hno
  have hadd : (off + n).toNat = off.toNat + n.toNat := by
    rw [UInt32.toNat_add, Nat.mod_eq_of_lt hno.2.1]
  obtain ⟨x, hx, he⟩ := inode_bind he
  rw [hip] at hx; cases hx
  rw [if_neg htype, if_neg (by rw [UInt32.lt_iff_toNat_lt, lt_add_iff]; omega), if_neg (by rw [hadd]; omega)] at he
  obtain ⟨⟨ok, last⟩, s2, h2, he⟩ := bind_ok he
  obtain ⟨y, s3, h3, he3⟩ := bind_ok he
  obtain ⟨rfl, hy⟩ := inode_ok h3
  obtain ⟨_, s4, h4, he4⟩ := bind_ok he3
  cases he4
  have hans : n.toInt32.toInt = n.toNat := by
    refine toInt_toInt32 ?_
    simp only [maxfile, nindirect, bsize] at hno
    omega
  exact .inr ⟨hbad, ok, last, s3, y, h2, hy, h4, by rw [hans]⟩

theorem Arrays.writei {off n} (h : Arrays s r.dev c) (hc : Cached s r ip) (htype : ip.din.type ≠ tDev) {a}
    (he : (writei r src off n).exec s = .ok a s') :
    (OutOfRange (c r.inum).length off.toNat n.toNat ∧ a = -1 ∧ s' = s) ∨
      (¬ OutOfRange (c r.inum).length off.toNat n.toNat ∧
        (s.disk r.dev).free < lacking (s.table r.dev) r.inum off.toNat n.toNat ∧ a = -2) ∨
      (¬ OutOfRange (c r.inum).length off.toNat n.toNat ∧ a = n.toNat ∧
        Arrays s' r.dev (update c r.inum (splice (c r.inum) off.toNat ((List.range n.toNat).map src))) ∧
        SameEntry s s' r ip ∧ Apart r.dev s s' ∧ (s'.disk r.dev).sb = (s.disk r.dev).sb) := by
  have hsize : ip.din.size.toNat = (c r.inum).length := by
    rw [← h.size r.inum (h.settled.refs r.inum ip hc.entry), hc.view]
  rw [← hsize]
  obtain hbad | ⟨hbad, ok, last, s1, y, h1, hy, h2, ha⟩ := writei_ok hc.entry htype he
  · exact .inl hbad
  have hno := hbad
  simp only [OutOfRange, not_or, Nat.not_lt, Nat.not_le] at hno
  have hoff : off.toNat ≤ (c r.inum).length := by omega
  obtain ⟨rfl, hlast, s3, hre, hfew, -⟩ | ⟨rfl, rfl, hre⟩ :=
    (Reached.start h.toHolding hc).writePieces (Nat.le_refl _) hoff h1
  · exact .inr (.inl ⟨hbad, hre.few hlast hfew, ha⟩)
  refine .inr (.inr ⟨hbad, ha, ?_⟩)
  have hn0 : 0 < n ↔ 0 < n.toNat := UInt32.lt_iff_toNat_lt
  have hfin := hre.finish h hc hoff hno.2.1 (Q := 0 < n ∨ (!true) = true) (by rw [hn0]; simp; omega) hy h2
  rwa [Nat.add_sub_cancel_left] at hfin

theorem Holding.mapped (h : Holding s r.dev c) (hc : Cached s r ip) : Mapped s r (s.table r.dev) r.inum ip :=
  ⟨h.idle, hc.entry, fun _ => h.settled.table_ind hc, fun _ _ => h.settled.table_dat hc, fun _ _ => hc.table_hole⟩

theorem Arrays.readi (h : Arrays s r.dev c) (hc : Cached s r ip) (htype : ip.din.type ≠ tDev) (off n : UInt32) :
    (readi r off n).exec s = .ok (readAnswer (c r.inum) off.toNat n.toNat) s := by
  have hlt := h.settled.refs r.inum ip hc.entry
  refine (h.mapped hc).readi (h.holds r.inum hlt) htype ?_ (h.length_le hlt)
    (fun o _ => ⟨h.table_lt _, h.table_lt _⟩) off n
  rw [← h.size r.inum hlt, hc.view]

end

end Xv6Vsd
