import Xv6Vsd.Fs.Refine

/-!
# Arguments of system calls (`syscall.c`)

The kernel follows pointers into the calling process after it has compared them with the size of the
process.
-/

namespace Xv6Vsd

open List Option

structure Caller where
  sz : UInt32
  esp : UInt32
  mem : UInt32 → UInt8

namespace Caller

def fetchint (c : Caller) (addr : UInt32) : Option UInt32 :=
  if c.sz ≤ addr ∨ c.sz < addr + 4 then none else some (word32 fun i => c.mem (addr + UInt32.ofNat i))

/-- Fetch the nul-terminated string at `addr`: a pointer to it and its length, not including nul. -/
def fetchstr (c : Caller) (addr : UInt32) : Option (UInt32 × Nat) :=
  if c.sz ≤ addr then none
  else ((List.range (c.sz.toNat - addr.toNat)).find? fun k => c.mem (addr + UInt32.ofNat k) = 0).map fun k => (addr, k)

def argint (c : Caller) (n : Nat) : Option UInt32 := c.fetchint (c.esp + 4 + 4 * UInt32.ofNat n)

/-- Fetch the nth word-sized system call argument as a pointer to a block of memory of `size` bytes. The sum is one
of unsigned numbers. -/
def argptr (c : Caller) (n : Nat) (size : Int32) : Option UInt32 := do
  let i ← c.argint n
  if c.sz ≤ i ∨ c.sz < i + size.toUInt32 then none else some i

def argstr (c : Caller) (n : Nat) : Option (UInt32 × Nat) := do
  let addr ← c.argint n
  c.fetchstr addr

def Inside (c : Caller) (a : UInt32) (len : Nat) : Prop := ∀ k < len, a + UInt32.ofNat k < c.sz

end Caller

/-- What a callee takes its size for: a number with a sign, of which it uses up at most `left`, or an unsigned one that
is cut to the rest of the file or to `size`, or not at all. -/
inductive Use where
  | all
  | signed (left : Nat)
  | file (size off : UInt32)
  | atMost (size : UInt32)
  | sysctl (off : UInt32)
  | bdisk (off : UInt32) (ready : Bool)

namespace Use

/-- The bytes that are touched through the pointer. -/
def len (n : Int32) : Use → Nat
  | .all => n.toUInt32.toNat
  | .signed left => min left n.toInt.toNat
  | .file size off =>
    if size < off ∨ off + n.toUInt32 < off then 0
    else if size < off + n.toUInt32 then (size - off).toNat
    else n.toUInt32.toNat
  | .atMost size => min size.toNat n.toUInt32.toNat
  | .sysctl off => if 90 ≤ off.toInt32.toInt then 0 else if 90 ≤ n.toInt then 90 else n.toUInt32.toNat
  | .bdisk off ready =>
    if ready = false ∨ bsize < (rawOff off + n.toUInt32.toNat) % 2 ^ 32 then 0 else n.toUInt32.toNat

/-- How far a size below 0 lets the call go: to the end of the file or of the message, or on and on. -/
def extent (n : Int32) : Use → Nat
  | .all => 2 ^ 32
  | .signed _ => 0
  | .file size off => if off ≤ size ∧ (off.toNat : Int) < -n.toInt then (size - off).toNat else 0
  | .atMost size => size.toNat
  | .sysctl off => if 90 ≤ off.toInt32.toInt then 0 else 2 ^ 32
  | .bdisk off ready =>
    if ready = false ∨ bsize < (rawOff off + n.toUInt32.toNat) % 2 ^ 32 then 0 else 2 ^ 32

end Use

/-- What `sys_read` reads from; `left` is what still comes from a pipe or a terminal or out of a text. -/
inductive Source where
  | inode (size off : UInt32)
  | pipe (left : Nat)
  | console (left : Nat)
  | uart (left : Nat)
  | null
  | zero
  | rob (counter : UInt32)
  | sysctl (off : UInt32)
  | sysname (left : Nat)
  | ide
  | bdisk (off : UInt32) (ready : Bool)
  | systime

def Source.use (n : Int32) : Source → Use
  | .inode size off => .file size off
  | .pipe left | .console left | .uart left | .sysname left => .signed left
  | .null | .ide | .systime => .signed 0
  | .zero => .signed n.toInt.toNat
  | .rob counter => .atMost (if 28 ≤ counter then 28 else 28 - counter)
  | .sysctl off => .sysctl off
  | .bdisk off ready => .bdisk off ready

/-- The calls that hand on a pointer and a size. Before `sys_sendmsg` comes to copy, `kmallocz` fills as many bytes as
the size says, which no process survives if that is below 0. -/
inductive PtrCall where
  | read (f : Source)
  | write (left : Nat)
  | sendmsg
  | recvmsg (size : UInt32)

namespace PtrCall

def ptrArg : PtrCall → Nat
  | .recvmsg _ => 0
  | _ => 1

def sizeArg : PtrCall → Nat
  | .recvmsg _ => 1
  | _ => 2

def args (e : PtrCall) (c : Caller) : Option (UInt32 × Int32) := do
  let size ← c.argint e.sizeArg
  let p ← c.argptr e.ptrArg size.toInt32
  pure (p, size.toInt32)

def use (n : Int32) : PtrCall → Use
  | .read f => f.use n
  | .write left => .signed left
  | .sendmsg => .signed n.toInt.toNat
  | .recvmsg size => .atMost size

end PtrCall

/-! ## Commands for the kernel

`sysctl_write` takes what it gets for a string, whatever the size says. -/

namespace Caller

def byte (c : Caller) (a : UInt32) (k : Nat) : UInt8 := c.mem (a + UInt32.ofNat k)

/-- `strlen` reads on until it has read a zero. -/
def Strlen (c : Caller) (a b : UInt32) : Prop := ∃ j, b = a + UInt32.ofNat j ∧ ∀ i < j, c.byte a i ≠ 0

def text (c : Caller) (a : UInt32) (k : Nat) : List UInt8 := (List.range k).map (c.byte a)

def blanks : List UInt8 := [0, 32, 10, 9]

/-- The commands behind which `sysctl_write` looks for one more field. -/
def commands : List (List UInt8) :=
  ["sysuart", "syscons", "singleuser", "allowthreads", "useclone", "startdrv", "msgnote"].map fun s => s.toList.map
    fun x =>
    x.toNat.toUInt8

/-- The bytes that `sysctl_write` reads at `a` for a process of the system: the string for the first field, and for a
command
the one that begins behind the field. -/
def SysctlReads (c : Caller) (a b : UInt32) : Prop :=
  c.Strlen a b ∨ ∃ f, (∀ i < f, c.byte a i ∉ blanks) ∧ c.byte a f ∈ blanks ∧ c.text a f ∈ commands ∧
    c.Strlen (a + UInt32.ofNat (f + 1)) b

end Caller

section

variable {c : Caller} {a w : UInt32} {size : Int32} {k m : Nat}

theorem toNat_toUInt32 (n : Int32) : (n.toUInt32.toNat : Int) = if 0 ≤ n.toInt then n.toInt else n.toInt + 2 ^ 32 := by
  have h : n.toInt = if 2 * n.toUInt32.toNat < 2 ^ 32 then (n.toUInt32.toNat : Int) else n.toUInt32.toNat - 2 ^ 32 :=
    BitVec.toInt_eq_toNat_cond n.toUInt32.toBitVec
  have := n.toUInt32.toNat_lt
  split at h <;> split <;> omega

variable (h : c.sz.toNat ≤ 2 ^ 31)

include h

theorem Caller.inside_iff (ha : a < c.sz) : c.Inside a m ↔ a.toNat + m ≤ c.sz.toNat := by
  have ha' : a.toNat < c.sz.toNat := UInt32.lt_iff_toNat_lt.mp ha
  constructor
  · intro hin
    by_contra hno
    -- the byte at the size of the process is touched
    have hk := UInt32.lt_iff_toNat_lt.mp (hin (c.sz.toNat - a.toNat) (by omega))
    rw [toNat_add_ofNat (by omega)] at hk
    omega
  · intro hle k hk
    rw [UInt32.lt_iff_toNat_lt, toNat_add_ofNat (by omega)]
    omega

theorem Caller.fetchint_inside (hf : c.fetchint a = some w) : c.Inside a 4 := by
  unfold fetchint at hf
  split at hf
  · cases hf
  rename_i hno
  have ha : a < c.sz := UInt32.not_le.mp fun hc => hno (.inl hc)
  have hend : (a + 4).toNat ≤ c.sz.toNat := Nat.le_of_not_lt fun hc => hno (.inr (UInt32.lt_iff_toNat_lt.mpr hc))
  have ha' : a.toNat < c.sz.toNat := UInt32.lt_iff_toNat_lt.mp ha
  rw [UInt32.toNat_add, Nat.mod_eq_of_lt (by simp; omega)] at hend
  exact (inside_iff h ha).mpr hend

omit h in
theorem Caller.fetchstr_iff {p} : c.fetchstr a = some (p, k) ↔
    p = a ∧ a < c.sz ∧ k < c.sz.toNat - a.toNat ∧ c.byte a k = 0 ∧ ∀ i < k, c.byte a i ≠ 0 := by
  unfold fetchstr
  by_cases hno : c.sz ≤ a
  · simp [hno, UInt32.not_lt.mpr hno]
  simp only [if_neg hno, map_eq_some_iff, find?_range_eq_some, mem_range, Prod.mk.injEq, byte]
  constructor
  · rintro ⟨j, ⟨hz, hj, hfirst⟩, rfl, rfl⟩
    exact ⟨rfl, UInt32.not_le.mp hno, hj, by simpa using hz, by simpa using hfirst⟩
  · rintro ⟨rfl, -, hk, hz, hfirst⟩
    exact ⟨k, ⟨by simpa using hz, hk, by simpa using hfirst⟩, rfl, rfl⟩

theorem Caller.fetchstr_inside {p} (hf : c.fetchstr a = some (p, k)) :
    p = a ∧ c.Inside a (k + 1) ∧ c.mem (a + UInt32.ofNat k) = 0 := by
  obtain ⟨rfl, ha, hk, hz, -⟩ := fetchstr_iff.mp hf
  exact ⟨rfl, (inside_iff h ha).mpr (by omega), hz⟩

theorem Caller.strlen_inside_iff : (∀ b, c.Strlen a b → b < c.sz) ↔ ∃ k, c.fetchstr a = some (a, k) := by
  constructor
  · intro hin
    have ha : a < c.sz := by simpa using hin a ⟨0, by simp, by simp⟩
    have ha' := UInt32.lt_iff_toNat_lt.mp ha
    by_contra hno
    -- without a zero below the size `strlen` reads the byte there
    have hfull : ∀ i < c.sz.toNat - a.toNat, c.byte a i ≠ 0 := by
      intro i hi hz
      have hex : ∃ k, c.byte a k = 0 := ⟨i, hz⟩
      exact hno ⟨Nat.find hex, fetchstr_iff.mpr ⟨rfl, ha, Nat.lt_of_le_of_lt (Nat.find_min' hex hz) hi,
        Nat.find_spec hex, fun _ => Nat.find_min hex⟩⟩
    have hend := hin _ ⟨_, rfl, hfull⟩
    rw [UInt32.lt_iff_toNat_lt, toNat_add_ofNat (by omega)] at hend
    omega
  · rintro ⟨k, hf⟩ b ⟨j, rfl, hj⟩
    obtain ⟨-, hin, hz⟩ := fetchstr_inside h hf
    exact hin j (Nat.lt_succ_of_le (Nat.le_of_not_lt fun hlt => hj k hlt hz))

theorem Caller.sysctl_inside_iff : (∀ b, c.SysctlReads a b → b < c.sz) ↔ ∃ k, c.fetchstr a = some (a, k) ∧
    (c.text a k ∈ commands → ∃ m, c.fetchstr (a + UInt32.ofNat (k + 1)) = some (a + UInt32.ofNat (k + 1), m)) := by
  constructor
  · intro hin
    obtain ⟨k, hk⟩ := (strlen_inside_iff h).mp fun b hb => hin b (.inl hb)
    refine ⟨k, hk, fun hw => (strlen_inside_iff h).mp fun b hb => hin b (.inr ⟨k, fun i hi => ?_, ?_, hw, hb⟩)⟩
    · have hplain : ∀ w ∈ commands, ∀ x ∈ w, x ∉ blanks := by decide +kernel
      exact hplain _ hw _ (mem_map_of_mem (mem_range.mpr hi))
    obtain ⟨-, -, -, hz, -⟩ := fetchstr_iff.mp hk
    rw [hz]
    decide
  · rintro ⟨k, hk, hnext⟩ b (hb | ⟨f, hplain, hblank, hw, j, rfl, hj⟩)
    · exact (strlen_inside_iff h).mpr ⟨k, hk⟩ b hb
    obtain ⟨-, hin, hz⟩ := fetchstr_inside h hk
    obtain hlt | rfl | hgt := Nat.lt_trichotomy f k
    · -- the field ends before the string does, and the rest of the string is read again
      have hle : f + 1 + j ≤ k := by
        by_contra hno
        refine hj (k - (f + 1)) (by omega) ?_
        rw [byte, UInt32.add_assoc, ← UInt32.ofNat_add, show f + 1 + (k - (f + 1)) = k by omega]
        exact hz
      rw [UInt32.add_assoc, ← UInt32.ofNat_add]
      exact hin _ (by omega)
    · exact (strlen_inside_iff h).mpr (hnext hw) _ ⟨j, rfl, hj⟩
    · exact absurd (show c.byte a k ∈ blanks by rw [byte, hz]; decide) (hplain k hgt)

/-- The size is below 0 and the pointer so far up that their sum does not look large. -/
def Slips (c : Caller) (w : UInt32) (size : Int32) : Prop := size.toInt < 0 ∧ -size.toInt ≤ w.toNat ∧ w < c.sz

theorem Caller.argptr_cases (size : Int32) {n} (hw : c.argint n = some w) :
    (c.argptr n size = none ∧ ¬ Slips c w size) ∨ (c.argptr n size = some w ∧ w < c.sz ∧ (Slips c w size ∨
        ¬ Slips c w size ∧ w.toNat + size.toUInt32.toNat ≤ c.sz.toNat)) := by
  have hsize := toNat_toUInt32 size
  have hlow : -(2 ^ 31 : Int) ≤ size.toInt := size.le_toInt
  have hhigh : size.toInt < 2 ^ 31 := size.toInt_lt
  simp only [argptr, hw, bind_eq_bind, bind_some, Slips, UInt32.lt_iff_toNat_lt, UInt32.le_iff_toNat_le,
    UInt32.toNat_add]
  have hwlt := w.toNat_lt
  by_cases hin : c.sz.toNat ≤ w.toNat
  · exact .inl ⟨if_pos (.inl hin), by omega⟩
  by_cases hsum : c.sz.toNat < (w.toNat + size.toUInt32.toNat) % 2 ^ 32
  · refine .inl ⟨if_pos (.inr hsum), fun hs => ?_⟩
    split at hsize <;> omega
  · refine .inr ⟨if_neg (by omega), by omega, ?_⟩
    split at hsize <;> omega

omit h

namespace Use

variable (e : Use)

theorem len_le (size : Int32) : e.len size ≤ size.toUInt32.toNat := by
  have hsize := toNat_toUInt32 size
  cases e with
  | all => rfl
  | signed left => simp only [len]; split at hsize <;> omega
  | file fsize off =>
    simp only [len, UInt32.lt_iff_toNat_lt, UInt32.toNat_add, UInt32.toNat_sub]
    have := off.toNat_lt
    split
    · omega
    · split <;> omega
  | atMost m => exact Nat.min_le_right ..
  | sysctl off =>
    simp only [len]
    split
    · omega
    · split <;> omega
  | bdisk off ready => simp only [len]; split <;> omega

theorem len_of_slips (hs : Slips c w size) : c.sz.toNat < w.toNat + e.len size ↔
    c.sz.toNat < w.toNat + e.extent size := by
  have hsize := toNat_toUInt32 size
  obtain ⟨hneg, hfar, hlt⟩ := hs
  have hlow : -(2 ^ 31 : Int) ≤ size.toInt := size.le_toInt
  have hlt' := UInt32.lt_iff_toNat_lt.mp hlt
  have hsz := c.sz.toNat_lt
  rw [if_neg (by omega)] at hsize
  cases e with
  | all | signed | atMost => simp only [len, extent]; omega
  | file fsize off =>
    have hf := fsize.toNat_lt
    have ho := off.toNat_lt
    simp only [len, extent, UInt32.lt_iff_toNat_lt, UInt32.le_iff_toNat_le, UInt32.toNat_add, UInt32.toNat_sub]
    split
    · rw [if_neg (by omega)]
    have hpos : off.toNat ≤ fsize.toNat ∧ (off.toNat : Int) < -size.toInt := by omega
    rw [if_pos hpos]
    split <;> omega
  | sysctl off =>
    simp only [len, extent]
    split
    · rfl
    · rw [if_neg (by omega)]; omega
  | bdisk off ready => simp only [len, extent]; split <;> omega

include h

theorem inside_iff (n : Nat) (size : Int32) : (∀ a, c.argptr n size = some a → c.Inside a (e.len size)) ↔
    ¬ ∃ w, c.argint n = some w ∧ Slips c w size ∧ c.sz.toNat < w.toNat + e.extent size := by
  have hlen := e.len_le size
  cases hw : c.argint n with
  | none => simp [Caller.argptr, hw]
  | some w =>
    obtain ⟨hnone, hno⟩ | ⟨hsome, hlt, hs | ⟨hno, hle⟩⟩ := c.argptr_cases h size hw
    · simp [hnone, hno]
    · simp only [hsome, Option.some.injEq, forall_eq', exists_eq_left', hs, true_and, Nat.not_lt,
        Caller.inside_iff h hlt, ← e.len_of_slips hs]
    · simp only [hsome, Option.some.injEq, forall_eq', exists_eq_left', hno, false_and, not_false_iff, iff_true]
      exact (Caller.inside_iff h hlt).mpr (by omega)

end Use

include h in
theorem PtrCall.inside_iff (e : PtrCall) :
    (∀ a size, e.args c = some (a, size) → c.Inside a ((e.use size).len size)) ↔
      ¬ ∃ w size, c.argint e.ptrArg = some w ∧ c.argint e.sizeArg = some size ∧ Slips c w size.toInt32 ∧
        c.sz.toNat < w.toNat + (e.use size.toInt32).extent size.toInt32 := by
  cases hn : c.argint e.sizeArg with
  | none => simp [args, hn]
  | some n => simpa [args, hn, bind_eq_some_iff] using (e.use n.toInt32).inside_iff h e.ptrArg n.toInt32

/-- The fetched arguments lie in the process if and only if no size below 0 slips through `argptr`; a call that takes
such a size leaves the process if what is at its other end is long enough, and a command if it or what is behind it does
not end there. -/
theorem arguments_inside_iff (c : Caller) (h : c.sz.toNat ≤ 0x80000000) :
    (∀ a w, c.fetchint a = some w → c.Inside a 4) ∧
    (∀ a p k, c.fetchstr a = some (p, k) → p = a ∧ c.Inside a (k + 1) ∧ c.mem (a + UInt32.ofNat k) = 0) ∧
    (∀ (e : Use) n size, (∀ a, c.argptr n size = some a → c.Inside a (e.len size)) ↔
      ¬ ∃ w, c.argint n = some w ∧ Slips c w size ∧ c.sz.toNat < w.toNat + e.extent size) ∧
    (∀ e : PtrCall, (∀ a size, e.args c = some (a, size) → c.Inside a ((e.use size).len size)) ↔
      ¬ ∃ w size, c.argint e.ptrArg = some w ∧ c.argint e.sizeArg = some size ∧ Slips c w size.toInt32 ∧
        c.sz.toNat < w.toNat + (e.use size.toInt32).extent size.toInt32) ∧
    ∀ a, (∀ b, c.SysctlReads a b → b < c.sz) ↔ ∃ k, c.fetchstr a = some (a, k) ∧ (c.text a k ∈ Caller.commands →
      ∃ m, c.fetchstr (a + UInt32.ofNat (k + 1)) = some (a + UInt32.ofNat (k + 1), m)) :=
  ⟨fun _ _ => c.fetchint_inside h, fun _ _ _ => c.fetchstr_inside h, fun e => e.inside_iff h, fun e => e.inside_iff h,
    fun _ => c.sysctl_inside_iff h⟩

def onePage (size : UInt8) (high : UInt8) : Caller where
  sz := 4096
  esp := 0
  mem a := if a = 8 then 0xf0 else if a = 9 then 0x0f else if a = 12 then size
    else if 12 < a ∧ a < 16 then high else 0

theorem arguments_inside_onePage : (onePage 16 0).argint 1 = some 4080 ∧ PtrCall.sendmsg.args (onePage 16 0) =
    some (4080, 16) ∧
    (onePage 16 0).Inside 4080 16 := by
  have h := ((arguments_inside_iff (onePage 16 0) (by decide)).2.2.2.1 .sendmsg).mpr ?_
  · exact ⟨by decide, by decide, h 4080 16 (by decide)⟩
  rintro ⟨w, size, hw, hsize, ⟨hneg, -⟩, -⟩
  have hs : (onePage 16 0).argint 2 = some 16 := by decide
  rw [show PtrCall.sendmsg.sizeArg = 2 from rfl, hs] at hsize; cases hsize
  exact absurd hneg (by decide)

/-- `read(fd, p, -16)` of a file of 100 bytes, with `p` 16 bytes below the end of the process, writes 84 bytes behind
it. -/
theorem read_leaves_process : (PtrCall.read (.inode 100 0)).args (onePage 0xf0 0xff) = some (4080, -16) ∧
    ((PtrCall.read (.inode 100 0)).use (-16)).len (-16) = 100 ∧ ¬ (onePage 0xf0 0xff).Inside 4080 100 :=
  ⟨by decide, by decide, fun h => absurd (h 16 (by decide)) (by decide)⟩

end

end Xv6Vsd
