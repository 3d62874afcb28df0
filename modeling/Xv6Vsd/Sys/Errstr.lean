import Mathlib.Data.UInt
import Xv6Vsd.Lib.Memory
import Xv6Vsd.Lib.Run
import Xv6Vsd.Sys.Args

/-!
# The error string of a process (`proc.c`, `sysproc.c`)

`sys_errstr` checks the pointer it is given only if the number of bytes is positive, and hands the
number on to `memset` and `memmove`, which take it for unsigned.
-/

namespace Xv6Vsd

abbrev errmax : Nat := 256

/-- `werrstr` copies `buf` to `proc->errstr` and returns the amount of bytes copied. -/
def werrstr (m : Memory) (errstr buf : UInt32) (nbytes : Int32) : Memory × Int32 :=
  let m := m.memset errstr 0 errmax
  let nbytes := if 256 ≤ nbytes then 255 else nbytes
  let m := m.memmove errstr buf nbytes.toUInt32
  (m.store (errstr + nbytes.toUInt32) 0, nbytes)

/-- Copies `proc->errstr` to `buf` up to `nbytes - 1` and clears `proc->errset`, which it tells if
`nbytes` is zero. -/
def rerrstr (m : Memory) (errstr buf : UInt32) (errset : Bool) (nbytes : Int32) : Memory × Bool × Int32 :=
  if nbytes = 0 then (m, errset, if errset then 1 else 0)
  else
    let m := m.memset buf 0 nbytes.toUInt32.toNat
    let m := m.memmove buf errstr (nbytes - 1).toUInt32
    (m, false, 0)

/-- A process that calls `sys_errstr`. `caller.mem` is the memory as the kernel sees it; `proc->errstr` lies at
`errstr`. -/
structure Errs where
  caller : Caller
  errstr : UInt32
  errset : Bool

namespace Errs

/-- The arguments `direc`, `buf` and `nbytes`. A pointer that is not checked is what `buf` was before. -/
def args (s : Errs) (junk : UInt32) : Option (Int32 × UInt32 × Int32) := do
  let direc ← s.caller.argint 0
  let nbytes ← s.caller.argint 2
  let buf ← (if 0 < nbytes.toInt32 then s.caller.argptr 1 nbytes.toInt32 else some junk)
  pure (direc.toInt32, buf, nbytes.toInt32)

def sysErrstr (s : Errs) (junk : UInt32) : Errs × Memory × Int32 :=
  let m := Memory.fresh s.caller.mem
  match s.args junk with
  | none => (s, m, -1)
  | some (direc, buf, nbytes) =>
    if direc = 0 then
      let (m, errset, ret) := rerrstr m s.errstr buf s.errset nbytes
      ({ s with caller := { s.caller with mem := m.byte }, errset := errset }, m, ret)
    else if direc = 1 then
      let (m, ret) := werrstr m s.errstr buf nbytes
      ({ s with caller := { s.caller with mem := m.byte }, errset := true }, m, ret)
    else (s, m, -1)

structure Placed (s : Errs) : Prop where
  user : s.caller.sz.toNat ≤ 2 ^ 31
  kernel : 2 ^ 31 ≤ s.errstr.toNat
  room : s.errstr.toNat + errmax ≤ 2 ^ 32

/-- What the call touches: a read stores to the buffer and loads from the error string, a write stores to the error
string. -/
def Confined (s : Errs) (junk : UInt32) : Prop := match s.args junk with
  | none => True
  | some (direc, buf, nbytes) =>
    (direc = 0 → (∀ a ∈ (s.sysErrstr junk).2.1.stored, Memory.Among a buf nbytes.toInt.toNat) ∧
      ∀ a ∈ (s.sysErrstr junk).2.1.loaded, Memory.Among a s.errstr errmax) ∧
    (direc = 1 → ∀ a ∈ (s.sysErrstr junk).2.1.stored, Memory.Among a s.errstr errmax)

/-- The number of bytes is not negative, and a read asks for no more than there is. -/
def Sane (s : Errs) (junk : UInt32) : Prop := match s.args junk with
  | none => True
  | some (direc, _, nbytes) => (direc = 0 → 0 ≤ nbytes.toInt ∧ nbytes.toInt ≤ errmax + 1) ∧
    (direc = 1 → 0 ≤ nbytes.toInt)

instance (s : Errs) (junk : UInt32) : Decidable (s.Sane junk) := by
  unfold Sane
  split <;> infer_instance

end Errs

section

variable {s : Errs} {junk buf : UInt32} {nbytes : Int32} {m : Memory} {a errstr src : UInt32}

open Memory Option Int32 Nat

/-! ## What is touched -/

theorem toNat_of_nonneg (h : 0 ≤ nbytes.toInt) : nbytes.toUInt32.toNat = nbytes.toInt.toNat := by
  have := toNat_toUInt32 nbytes
  rw [if_pos h] at this
  omega

theorem toNat_of_neg (h : nbytes.toInt < 0) : 2 ^ 31 ≤ nbytes.toUInt32.toNat := by
  have := toNat_toUInt32 nbytes
  have := nbytes.le_toInt
  rw [if_neg (by omega)] at *
  omega

def clamp (nbytes : Int32) : Int32 := if 256 ≤ nbytes then 255 else nbytes

theorem clamp_nonneg (h : 0 ≤ nbytes.toInt) : (clamp nbytes).toUInt32.toNat = min nbytes.toInt.toNat 255 := by
  unfold clamp
  split
  · next hge =>
    have h256 : (256 : Int32).toInt ≤ nbytes.toInt := le_iff_toInt_le.mp hge
    have hval : (256 : Int32).toInt = 256 := by decide
    have h255 : (255 : Int32).toUInt32.toNat = 255 := by decide
    omega
  · next hlt =>
    have h256 : ¬ (256 : Int32).toInt ≤ nbytes.toInt := fun hle => hlt (le_iff_toInt_le.mpr hle)
    have hval : (256 : Int32).toInt = 256 := by decide
    rw [toNat_of_nonneg h]
    omega

theorem clamp_neg (h : nbytes.toInt < 0) : clamp nbytes = nbytes := by
  have hval : (256 : Int32).toInt = 256 := by decide
  rw [clamp, if_neg]
  intro hge
  have := le_iff_toInt_le.mp hge
  omega

theorem mem_werrstr_stored : a ∈ (werrstr m errstr buf nbytes).1.stored ↔
    a ∈ m.stored ∨ Among a errstr errmax ∨ Among a errstr (clamp nbytes).toUInt32.toNat ∨
      a = errstr + (clamp nbytes).toUInt32 := by
  show a ∈ ((((m.memset errstr 0 errmax).memmove errstr buf (clamp nbytes).toUInt32).store
    (errstr + (clamp nbytes).toUInt32) 0).stored) ↔ _
  simp only [store, List.mem_cons, mem_memmove_stored, mem_memset_stored (show errmax < 2 ^ 32 by decide)]
  tauto

variable {errset : Bool}

theorem mem_rerrstr_stored (h0 : nbytes ≠ 0) : a ∈ (rerrstr m errstr buf errset nbytes).1.stored ↔
    a ∈ m.stored ∨ Among a buf nbytes.toUInt32.toNat ∨ Among a buf (nbytes - 1).toUInt32.toNat := by
  rw [rerrstr, if_neg h0]
  simp only [mem_memmove_stored, mem_memset_stored nbytes.toUInt32.toNat_lt]
  tauto

theorem mem_rerrstr_loaded (h0 : nbytes ≠ 0) (hup : ¬ errstr < buf) :
    a ∈ (rerrstr m errstr buf errset nbytes).1.loaded ↔ a ∈ m.loaded ∨ Among a errstr (nbytes - 1).toUInt32.toNat := by
  rw [rerrstr, if_neg h0]
  dsimp only
  rw [memmove, if_neg (fun h => hup h.1), mem_copyUp_loaded (nbytes - 1).toUInt32.toNat_lt, memset_loaded]

/-! ## The arguments -/

theorem Errs.Placed.buffer (h : s.Placed) {direc}
    (ha : s.args junk = some (direc, buf, nbytes)) (hpos : 0 < nbytes.toInt) :
    buf.toNat + nbytes.toInt.toNat ≤ s.caller.sz.toNat := by
  have hu := h.user
  simp only [Errs.args, bind_eq_bind, bind_eq_some_iff, pure_def, some.injEq, Prod.mk.injEq] at ha
  obtain ⟨d, -, n, -, b, hb, -, rfl, rfl⟩ := ha
  have hlt : 0 < n.toInt32 := lt_iff_toInt_lt.mpr (by simpa using hpos)
  rw [if_pos hlt, Caller.argptr] at hb
  simp only [bind_eq_bind, bind_eq_some_iff] at hb
  obtain ⟨i, -, hi⟩ := hb
  obtain ⟨hno, he⟩ := ite_none_left_eq_some.mp hi
  cases he
  rw [not_or, UInt32.not_le, UInt32.not_lt, UInt32.lt_iff_toNat_lt, UInt32.le_iff_toNat_le, UInt32.toNat_add,
    toNat_of_nonneg (Int.le_of_lt hpos)] at hno
  have := n.toInt32.toInt_lt
  omega

theorem among_mono {n k d} (h : Among a d n) (hle : n ≤ k) : Among a d k := lt_of_lt_of_le h hle

theorem write_confined_iff {b} :
    (∀ a ∈ (werrstr (fresh b) errstr buf nbytes).1.stored, Among a errstr errmax) ↔ 0 ≤ nbytes.toInt := by
  simp only [mem_werrstr_stored]
  constructor
  · intro hall
    by_contra hneg
    -- the byte behind the error string is stored to
    have hbig := toNat_of_neg (show nbytes.toInt < 0 by omega)
    have hin : Among (errstr + UInt32.ofNat errmax) errstr (clamp nbytes).toUInt32.toNat := by
      rw [clamp_neg (by omega), among_add (by decide)]
      simp only [errmax]
      omega
    have hout := (among_add (by decide)).mp (hall _ (.inr (.inr (.inl hin))))
    omega
  · intro h0 a ha
    have hc := clamp_nonneg h0
    obtain ha | ha | ha | rfl := ha
    · cases ha
    · exact ha
    · refine among_mono ha ?_
      rw [hc]
      simp only [errmax]
      omega
    · have hadd : errstr + (clamp nbytes).toUInt32 = errstr + UInt32.ofNat (clamp nbytes).toUInt32.toNat := by
        rw [UInt32.ofNat_toNat]
      rw [hadd, among_add (UInt32.toNat_lt _), hc]
      simp only [errmax]
      omega

theorem toNat_sub_one (h : 0 < nbytes.toInt) : (nbytes - 1).toUInt32.toNat = nbytes.toInt.toNat - 1 := by
  have hn := toNat_of_nonneg (Int.le_of_lt h)
  rw [toUInt32_sub, UInt32.toNat_sub_of_le]
  · rw [hn]; rfl
  · rw [UInt32.le_iff_toNat_le, hn]; show 1 ≤ _; omega

theorem Errs.Placed.read_confined_iff (h : s.Placed) (ha : s.args junk = some (0, buf, nbytes)) :
    ((∀ a ∈ (rerrstr (fresh s.caller.mem) s.errstr buf s.errset nbytes).1.stored, Among a buf nbytes.toInt.toNat) ∧
      ∀ a ∈ (rerrstr (fresh s.caller.mem) s.errstr buf s.errset nbytes).1.loaded, Among a s.errstr errmax) ↔
      0 ≤ nbytes.toInt ∧ nbytes.toInt ≤ errmax + 1 := by
  have hk := h.kernel
  have hu := h.user
  by_cases h0 : nbytes = 0
  · subst h0; simp [rerrstr, fresh]
  have hne : nbytes.toInt ≠ 0 := fun he => h0 (toInt_inj.mp he)
  constructor
  · rintro ⟨hst, hld⟩
    have hpos : 0 < nbytes.toInt := by
      by_contra hneg
      have hbig := toNat_of_neg (show nbytes.toInt < 0 by omega)
      have hin : Among buf buf nbytes.toUInt32.toNat := by
        simp only [Among, UInt32.sub_self, UInt32.toNat_zero]
        omega
      have hout := hst buf ((mem_rerrstr_stored h0).mpr (.inr (.inl hin)))
      simp only [Among, UInt32.sub_self, UInt32.toNat_zero] at hout
      omega
    refine ⟨Int.le_of_lt hpos, ?_⟩
    by_contra hbig
    have hbuf := h.buffer ha hpos
    have hup : ¬ s.errstr < buf := by rw [UInt32.lt_iff_toNat_lt]; omega
    have hin : Among (s.errstr + UInt32.ofNat errmax) s.errstr (nbytes - 1).toUInt32.toNat := by
      rw [among_add (by decide), toNat_sub_one hpos]
      omega
    have hout := (among_add (by decide)).mp (hld _ ((mem_rerrstr_loaded h0 hup).mpr (.inr hin)))
    omega
  · rintro ⟨hge, hle⟩
    have hpos : 0 < nbytes.toInt := by omega
    have hbuf := h.buffer ha hpos
    have hup : ¬ s.errstr < buf := by rw [UInt32.lt_iff_toNat_lt]; omega
    refine ⟨fun a hst => ?_, fun a hld => ?_⟩
    · obtain hst | hst | hst := (mem_rerrstr_stored h0).mp hst
      · cases hst
      · rwa [toNat_of_nonneg hge] at hst
      · rw [toNat_sub_one hpos] at hst; exact among_mono hst (sub_le ..)
    · obtain hld | hld := (mem_rerrstr_loaded h0 hup).mp hld
      · cases hld
      · rw [toNat_sub_one hpos] at hld; exact among_mono hld (by simp only [errmax] at *; omega)

theorem Errs.Placed.confined_iff (h : s.Placed) : s.Confined junk ↔ s.Sane junk := by
  unfold Errs.Confined Errs.Sane
  cases ha : s.args junk with
  | none => simp
  | some args =>
    obtain ⟨direc, buf, nbytes⟩ := args
    refine and_congr (imp_congr_right fun hd => ?_) (imp_congr_right fun hd => ?_)
    · subst hd
      rw [show (s.sysErrstr junk).2.1 = (rerrstr (fresh s.caller.mem) s.errstr buf s.errset nbytes).1 by
        simp only [Errs.sysErrstr, ha, ↓reduceIte]]
      exact h.read_confined_iff ha
    · subst hd
      rw [show (s.sysErrstr junk).2.1 = (werrstr (fresh s.caller.mem) s.errstr buf nbytes).1 by
        simp [Errs.sysErrstr, ha]]
      exact write_confined_iff

/-! ## What is read -/

theorem werrstr_byte (h0 : 0 ≤ nbytes.toInt) (hup : ¬ (src < errstr ∧ errstr < src + (clamp nbytes).toUInt32))
    (hdis : ∀ a, Among a src (min nbytes.toInt.toNat 255) → ¬ Among a errstr errmax) {i} (hi : i < errmax) :
    (werrstr m errstr src nbytes).1.byte (errstr + UInt32.ofNat i) =
      if i < min nbytes.toInt.toNat 255 then m.byte (src + UInt32.ofNat i) else 0 := by
  have hc := clamp_nonneg h0
  have hi32 : i < 2 ^ 32 := lt_trans hi (by decide)
  have hshow : (werrstr m errstr src nbytes).1 =
    (((m.memset errstr 0 errmax).memmove errstr src (clamp nbytes).toUInt32).store
    (errstr + (clamp nbytes).toUInt32) 0) := rfl
  have hsub : ∀ a, Among a src (min nbytes.toInt.toNat 255) → ¬ Among a errstr (min nbytes.toInt.toNat 255) :=
    fun a ha hd => hdis a ha (among_mono hd (by simp only [errmax]; omega))
  have hback : errstr + UInt32.ofNat i - errstr = UInt32.ofNat i := by grind
  have hlast : errstr + UInt32.ofNat i = errstr + (clamp nbytes).toUInt32 ↔ i = min nbytes.toInt.toNat 255 := by
    rw [← hc, UInt32.add_right_inj, ← UInt32.toNat_inj, UInt32.toNat_ofNat_of_lt' hi32]
  rw [hshow, store, memmove, if_neg hup, hc]
  simp only [Function.update_apply, hlast, copyUp_byte (show min nbytes.toInt.toNat 255 < 2 ^ 32 by omega) hsub,
    among_add hi32, hback, memset_byte (show errmax < 2 ^ 32 by decide), hi, ↓reduceIte]
  by_cases hin : i < min nbytes.toInt.toNat 255
  · have hfar : ¬ Among (src + UInt32.ofNat i) errstr errmax := hdis _ ((among_add hi32).mpr hin)
    rw [if_neg (by omega), if_pos hin, if_neg hfar, if_pos hin]
  · rw [if_neg hin, if_neg hin, ite_self]

theorem rerrstr_byte (hpos : 0 < nbytes.toInt) (hup : ¬ errstr < buf)
    (hdis : ∀ a, Among a errstr (nbytes.toInt.toNat - 1) → ¬ Among a buf nbytes.toInt.toNat) :
    (rerrstr m errstr buf errset nbytes).1.byte a =
      if Among a buf (nbytes.toInt.toNat - 1) then m.byte (errstr + (a - buf))
      else if Among a buf nbytes.toInt.toNat then 0 else m.byte a := by
  have h0 : nbytes ≠ 0 := by rintro rfl; cases hpos
  have hlt : nbytes.toInt.toNat - 1 < 2 ^ 32 := by have := nbytes.toInt_lt; omega
  have hsub : ∀ a, Among a errstr (nbytes.toInt.toNat - 1) → ¬ Among a buf (nbytes.toInt.toNat - 1) :=
    fun a ha hd => hdis a ha (among_mono hd (sub_le ..))
  rw [rerrstr, if_neg h0]
  dsimp only
  rw [memmove, if_neg (fun h => hup h.1), toNat_sub_one hpos, copyUp_byte hlt hsub, memset_byte (UInt32.toNat_lt _),
    memset_byte (UInt32.toNat_lt _), toNat_of_nonneg (Int.le_of_lt hpos)]
  by_cases hin : Among a buf (nbytes.toInt.toNat - 1)
  · have hfrom : Among (errstr + (a - buf)) errstr (nbytes.toInt.toNat - 1) := by
      have hback : errstr + (a - buf) - errstr = a - buf := by grind
      rw [Among, hback]
      exact hin
    rw [if_pos hin, if_pos hin, if_neg (hdis _ hfrom)]
  · rw [if_neg hin, if_neg hin]

theorem among_apart {p q n k} (hp : p.toNat + n ≤ q.toNat) (hq : q.toNat + k ≤ 2 ^ 32) :
    Among a p n → ¬ Among a q k := by
  have hpp := p.toNat_lt
  have hqq := q.toNat_lt
  simp only [Among, UInt32.toNat_sub]
  omega

theorem Errs.Placed.read_byte (h : s.Placed) (ha : s.args junk = some (0, buf, nbytes)) (hpos : 0 < nbytes.toInt)
    (hle : nbytes.toInt ≤ errmax + 1) {p} :
    (rerrstr (fresh s.caller.mem) s.errstr buf s.errset nbytes).1.byte p =
      if Among p buf (nbytes.toInt.toNat - 1) then s.caller.mem (s.errstr + (p - buf))
      else if Among p buf nbytes.toInt.toNat then 0 else s.caller.mem p := by
  have hu := h.user
  have hk := h.kernel
  have hroom := h.room
  have hbuf := h.buffer ha hpos
  refine rerrstr_byte hpos ?_ fun a h1 h2 => among_apart (by omega) ?_ h2 h1
  · rw [UInt32.lt_iff_toNat_lt]; omega
  · simp only [errmax] at hroom hle; omega

/-! ## Histories -/

def bytesAt (mem : UInt32 → UInt8) (a : UInt32) (n : Nat) : List UInt8 :=
    (List.range n).map fun i => mem (a + UInt32.ofNat i)

def shown (xs : List UInt8) (n i : Nat) : UInt8 := if i < min xs.length n then xs.getD i 0 else 0

structure History where
  errs : Errs
  last : List UInt8

inductive ErrStep where
  | user (sz esp : UInt32) (mem : UInt32 → UInt8)
  | errstr (junk : UInt32)
  /-- `seterr` in a system call, with the `n` bytes of a constant of the kernel at `src` -/
  | seterr (src : UInt32) (n : Nat)

def Constant (errstr src : UInt32) (n : Nat) : Prop :=
  n < 2 ^ 31 ∧ (src.toNat + n ≤ errstr.toNat ∨ errstr.toNat + errmax ≤ src.toNat ∧ src.toNat + n ≤ 2 ^ 32)

instance (errstr src : UInt32) (n : Nat) : Decidable (Constant errstr src n) := inferInstanceAs (Decidable (_ ∧ _))

namespace History

def written (h : History) (junk : UInt32) : List UInt8 := match h.errs.args junk with
  | none => h.last
  | some (direc, buf, nbytes) => if direc = 1 then bytesAt h.errs.caller.mem buf nbytes.toInt.toNat else h.last

def act (h : History) : ErrStep → Option History
  | .user sz esp mem =>
    if sz.toNat ≤ 2 ^ 31 then
      some { h with errs := { h.errs with
        caller := ⟨sz, esp, fun a => if a.toNat < 2 ^ 31 then mem a else h.errs.caller.mem a⟩ } }
    else none
  | .errstr junk => some ⟨(h.errs.sysErrstr junk).1, h.written junk⟩
  | .seterr src n =>
    if Constant h.errs.errstr src n then
      let (m, _) := werrstr (fresh h.errs.caller.mem) h.errs.errstr src (Int32.ofNat n)
      some ⟨{ h.errs with caller := { h.errs.caller with mem := m.byte }, errset := true },
        bytesAt h.errs.caller.mem src n⟩
    else none

def Sane (h : History) : ErrStep → Prop
  | .errstr junk => h.errs.Sane junk
  | _ => True

instance (h : History) (e : ErrStep) : Decidable (h.Sane e) := match e with
  | .errstr _ => inferInstanceAs (Decidable (Errs.Sane ..))
  | .user .. | .seterr .. => inferInstanceAs (Decidable True)

structure New (h : History) : Prop where
  placed : h.errs.Placed
  zero : ∀ i < errmax, h.errs.caller.mem (h.errs.errstr + UInt32.ofNat i) = 0
  last : h.last = []

structure Told (h : History) : Prop where
  placed : h.errs.Placed
  holds : ∀ i < errmax, h.errs.caller.mem (h.errs.errstr + UInt32.ofNat i) = shown h.last 255 i

structure Channel (h : History) : Prop where
  confined : ∀ junk, h.errs.Confined junk ↔ h.errs.Sane junk
  reads : ∀ junk buf nbytes, h.errs.args junk = some (0, buf, nbytes) → 0 < nbytes.toInt → nbytes.toInt ≤ errmax + 1 →
    ∀ i < nbytes.toInt.toNat, (h.errs.sysErrstr junk).1.caller.mem (buf + UInt32.ofNat i) =
      shown h.last (min 255 (nbytes.toInt.toNat - 1)) i

variable {h h' : History}

theorem New.told (hn : h.New) : h.Told := by
  refine ⟨hn.placed, fun i hi => ?_⟩
  rw [hn.zero i hi, hn.last]
  simp [shown]

theorem getD_bytesAt {mem n i} (hi : i < n) : (bytesAt mem a n).getD i 0 = mem (a + UInt32.ofNat i) := by
  rw [bytesAt, List.getD_eq_getElem _ _ (by simpa using hi)]; simp

theorem shown_bytesAt (mem : UInt32 → UInt8) (n k i : Nat) :
    shown (bytesAt mem a n) k i = if i < min n k then mem (a + UInt32.ofNat i) else 0 := by
  have hlen : (bytesAt mem a n).length = n := by simp [bytesAt]
  rw [shown, hlen]
  split
  · exact getD_bytesAt (by omega)
  · rfl

theorem told_write (mem : UInt32 → UInt8) (src : UInt32) {E} (hE : E.toNat + errmax ≤ 2 ^ 32) (h0 : 0 ≤ nbytes.toInt)
    (hsrc : nbytes.toInt = 0 ∨ src.toNat + nbytes.toInt.toNat ≤ E.toNat ∨ (E.toNat + errmax ≤ src.toNat ∧
      src.toNat + nbytes.toInt.toNat ≤ 2 ^ 32)) {i} (hi : i < errmax) :
    (werrstr (fresh mem) E src nbytes).1.byte (E + UInt32.ofNat i) =
      shown (bytesAt mem src nbytes.toInt.toNat) 255 i := by
  have hc := clamp_nonneg h0
  have hlt := src.toNat_lt
  have hEl := E.toNat_lt
  rw [werrstr_byte h0 ?_ ?_ hi, shown_bytesAt]
  · rfl
  · rintro ⟨h1, h2⟩
    rw [UInt32.lt_iff_toNat_lt] at h1 h2
    rw [UInt32.toNat_add, hc] at h2
    omega
  · intro a ha hd
    simp only [Among, UInt32.toNat_sub, errmax] at ha hd hsrc hE
    have := a.toNat_lt
    omega

theorem Told.call (ht : h.Told) (hs : h.errs.Sane junk) : Told ⟨(h.errs.sysErrstr junk).1, h.written junk⟩ := by
  have hp := ht.placed
  have hu := hp.user
  have hk := hp.kernel
  have hroom := hp.room
  unfold Errs.Sane at hs
  unfold written
  cases ha : h.errs.args junk with
  | none => simp only [Errs.sysErrstr, ha]; exact ht
  | some args =>
    obtain ⟨direc, buf, nbytes⟩ := args
    rw [ha] at hs
    obtain ⟨hread, hwrite⟩ := hs
    simp only [Errs.sysErrstr, ha]
    by_cases hd0 : direc = 0
    · -- a read leaves the error string alone
      obtain ⟨hge, hle⟩ := hread hd0
      subst hd0
      rw [if_pos rfl, if_neg (by decide)]
      refine ⟨⟨hu, hk, hroom⟩, fun i hi => ?_⟩
      show (rerrstr (fresh h.errs.caller.mem) h.errs.errstr buf h.errs.errset nbytes).1.byte _ = _
      by_cases hz : nbytes = 0
      · rw [rerrstr, if_pos hz]; exact ht.holds i hi
      have hne : nbytes.toInt ≠ 0 := fun he => hz (toInt_inj.mp he)
      have hbuf := hp.buffer ha (by omega)
      have hin : Among (h.errs.errstr + UInt32.ofNat i) h.errs.errstr errmax :=
        (among_add (lt_trans hi (by decide))).mpr hi
      have hout : ¬ Among (h.errs.errstr + UInt32.ofNat i) buf nbytes.toInt.toNat := fun hb =>
        among_apart (by omega) hroom hb hin
      rw [hp.read_byte ha (by omega) hle, if_neg (fun hb => hout (among_mono hb (sub_le ..))), if_neg hout]
      exact ht.holds i hi
    · rw [if_neg hd0]
      by_cases hd1 : direc = 1
      · subst hd1
        rw [if_pos rfl, if_pos rfl]
        refine ⟨⟨hu, hk, hroom⟩, fun i hi => told_write _ _ hroom (hwrite rfl) ?_ hi⟩
        by_cases hz : nbytes.toInt = 0
        · exact .inl hz
        · have hbuf := hp.buffer ha (by have := hwrite rfl; omega); exact .inr (.inl (by omega))
      · rw [if_neg hd1, if_neg hd1]; exact ht

theorem Told.act (ht : h.Told) {e} (hs : h.Sane e) (he : h.act e = some h') : h'.Told := by
  have hp := ht.placed
  have hk := hp.kernel
  have hroom := hp.room
  cases e with
  | user sz esp mem =>
    obtain ⟨hsz, he⟩ := ite_none_right_eq_some.mp he
    cases he
    refine ⟨⟨hsz, hk, hroom⟩, fun i hi => ?_⟩
    have hge : ¬ (h.errs.errstr + UInt32.ofNat i).toNat < 2 ^ 31 := by
      simp only [errmax] at hroom hi
      rw [toNat_add_ofNat (by omega)]
      omega
    exact (if_neg hge).trans (ht.holds i hi)
  | errstr junk => cases he; exact ht.call hs
  | seterr src n =>
    obtain ⟨⟨hn, hsrc⟩, he⟩ := ite_none_right_eq_some.mp he
    cases he
    have hnat : (Int32.ofNat n).toInt = n := toInt_ofNat_of_lt hn
    have hlen : (Int32.ofNat n).toInt.toNat = n := by omega
    refine ⟨⟨hp.user, hk, hroom⟩, fun i hi => ?_⟩
    have hpos : 0 ≤ (Int32.ofNat n).toInt := by omega
    have hw := told_write h.errs.caller.mem src hroom hpos (.inr (by rw [hlen]; exact hsrc)) hi
    rw [hlen] at hw
    exact hw

theorem Told.channel (ht : h.Told) : h.Channel := by
  refine ⟨fun junk => ht.placed.confined_iff, fun junk buf nbytes ha hpos hle i hi => ?_⟩
  have hlt := nbytes.toInt_lt
  have hi32 : i < 2 ^ 32 := by omega
  have hback : buf + UInt32.ofNat i - buf = UInt32.ofNat i := by grind
  have hmem : (h.errs.sysErrstr junk).1.caller.mem =
    (rerrstr (fresh h.errs.caller.mem) h.errs.errstr buf h.errs.errset nbytes).1.byte := by
    simp only [Errs.sysErrstr, ha, ↓reduceIte]
  rw [hmem, ht.placed.read_byte ha hpos hle]
  simp only [among_add hi32, hi, ↓reduceIte, hback]
  split
  · next hin =>
    rw [ht.holds i (by simp only [errmax] at *; omega), shown, shown]
    congr 1
    simp only [eq_iff_iff]
    omega
  · rw [shown, if_neg (by omega)]

/-- In every history in which the process asks for sane numbers of bytes, the error string is a closed channel. -/
theorem errstr_closed {h₀ : History} (h0 : h₀.New) (hrun : Run History.act (fun h e => h.Sane e) h₀ h) : h.Channel :=
  (hrun.invariant h0.told fun _ _ _ ht hs he => ht.act hs he).channel

def asking (direc nbytes : Nat) (text : List UInt8) (a : UInt32) : UInt8 :=
  if a < 8 then byteAt direc (a.toNat - 4)
  else if a < 12 then byteAt 1024 (a.toNat - 8)
  else if a < 16 then byteAt nbytes (a.toNat - 12)
  else if a < 2 ^ 31 then text.getD (a.toNat - 1024) 0
  else if a < 2 ^ 31 + 256 then 0
  else 1

def newProc (direc nbytes : Nat) (text : List UInt8) : History :=
    ⟨⟨⟨2048, 0, asking direc nbytes text⟩, 2 ^ 31, false⟩, []⟩

theorem newProc_new (direc nbytes : Nat) (text : List UInt8) : (newProc direc nbytes text).New := by
  refine ⟨⟨show (2048 : UInt32).toNat ≤ 2 ^ 31 by decide, show 2 ^ 31 ≤ (2 ^ 31 : UInt32).toNat by decide,
    show (2 ^ 31 : UInt32).toNat + errmax ≤ 2 ^ 32 by decide⟩, fun i hi => ?_, rfl⟩
  have hval : (2 ^ 31 + UInt32.ofNat i : UInt32).toNat = 2 ^ 31 + i := by
    simp only [errmax] at hi
    have hbase : (2 ^ 31 : UInt32).toNat = 2 ^ 31 := by decide
    rw [toNat_add_ofNat (by omega), hbase]
  simp only [newProc, asking, UInt32.lt_iff_toNat_lt, hval]
  rw [if_neg, if_neg, if_neg, if_neg, if_pos]
  · simp only [errmax] at hi; show _ < 2147483904; omega
  · show ¬ _ < 2147483648; omega
  · show ¬ _ < 16; omega
  · show ¬ _ < 12; omega
  · show ¬ _ < 8; omega

theorem errstr_closed_hi : ∃ h, (newProc 1 2 [104, 105]).New ∧
    Run History.act (fun h e => h.Sane e) (newProc 1 2 [104, 105]) h ∧ h.last = [104, 105] ∧
    h.errs.args 0 = some (0, 1024, 5) ∧ h.Channel := by
  have h0 := newProc_new 1 2 [104, 105]
  obtain ⟨h, hrun, hlast, hargs⟩ : ∃ h, Run History.act (fun h e => h.Sane e) (newProc 1 2 [104, 105]) h ∧
      h.last = [104, 105] ∧ h.errs.args 0 = some (0, 1024, 5) :=
    exists_run [.errstr 0, .user 2048 0 (asking 0 5 [])] (by decide +kernel)
  exact ⟨h, h0, hrun, hlast, hargs, errstr_closed h0 hrun⟩

/-- A process that asks for 300 bytes is given bytes of the fields behind its error string. -/
theorem errstr_leaks : ∃ h : History, h.New ∧ h.errs.args 0 = some (0, 1024, 300) ∧
    h.errs.errstr + 256 ∈ (h.errs.sysErrstr 0).2.1.loaded ∧ ¬ h.errs.Confined 0 := by
  have hnew := newProc_new 0 300 []
  have hargs : (newProc 0 300 []).errs.args 0 = some (0, 1024, 300) := by decide +kernel
  have hload : (newProc 0 300 []).errs.errstr + 256 ∈ ((newProc 0 300 []).errs.sysErrstr 0).2.1.loaded := by
    have hread : ((newProc 0 300 []).errs.sysErrstr 0).2.1 =
      (rerrstr (fresh (asking 0 300 [])) (2 ^ 31) 1024 false 300).1 := by
      simp only [Errs.sysErrstr, hargs, ↓reduceIte]
      rfl
    rw [hread, mem_rerrstr_loaded (by decide) (by decide)]
    exact .inr (by decide)
  refine ⟨_, hnew, hargs, hload, fun hc => ?_⟩
  unfold Errs.Confined at hc
  rw [hargs] at hc
  exact absurd ((hc.1 rfl).2 _ hload) (by decide)

end History

end

end Xv6Vsd
