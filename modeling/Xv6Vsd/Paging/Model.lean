import Xv6Vsd.Fs.Read
import Xv6Vsd.Lib.Layout

/-!
# Page directories (`vm.c`, `kalloc.c`) and the image `exec` builds

Physical pages are numbered from address 0 on, and so are the pages of an address space: the page of the
address `va` is `va / 4096`; 4096 stands for `PGSIZE`, 2147483648 for `KERNBASE` and 57344 for the page of
`PHYSTOP`, written out for `omega`. A page directory is the value that its page and the pages of its tables hold;
entries that are not present are 0. Of what pages hold, what `kalloc.c`, `vm.c` and the arguments of a program put there
is
modelled; of what a program file puts there, only where.
-/

namespace Xv6Vsd.Paging

open Prog Function

abbrev kernbase : UInt32 := 0x80000000
abbrev extmem : UInt32 := 0x100000
abbrev phystop : UInt32 := 0xE000000
abbrev devspace : UInt32 := 0xFE000000
abbrev kernlink : UInt32 := kernbase + extmem

theorem toNat_kernbase : kernbase.toNat = 2147483648 := rfl

def pageOf (va : UInt32) : Nat := va.toNat / 4096

abbrev npages : Nat := 1048576
abbrev userpages : Nat := 524288

def pgroundup (a : UInt32) : UInt32 := (a + 4095) / 4096 * 4096

def v2p (a : UInt32) : UInt32 := a - kernbase

/-! ## The allocator -/

inductive What where
  | dir
  | table
  | page
  deriving DecidableEq

inductive Ev where
  | tau
  /-- `kalloc` is called; the page it finds -/
  | kalloc (what : What) (page : Option Nat)
  /-- an entry of a page table that does not exist is read, at address 0 -/
  | nil
  deriving DecidableEq

abbrev Page : Type := Nat → UInt8

def zeroPage : Page := fun _ => 0

structure Kmem where
  kend : Nat
  freelist : List Nat
  /-- the calls of `kalloc` that find no page because others have taken the rest -/
  refuses : Nat → Bool
  asked : Nat
  page : Nat → Page
  kend_pos : 0 < kend
  inside : ∀ f ∈ freelist, kend ≤ f ∧ f < pageOf phystop

theorem kend_pos : 0 < 512 := by decide

def Kmem.next (m : Kmem) : Option Nat := if m.refuses m.asked then none else m.freelist.head?

abbrev V (α : Type) : Type 1 := Prog Kmem Ev α

def panic {α : Type} (msg : String) : V α := act (fun _ => .tau) fun _ => .panic msg

def Kmem.ask (m : Kmem) : Kmem := { m with asked := m.asked + 1 }

def Kmem.take (m : Kmem) : Kmem :=
  { m.ask with freelist := m.freelist.tail, inside := fun f hf => m.inside f (List.mem_of_mem_tail hf) }

def Kmem.write (m : Kmem) (f : Nat) (x : Page) : Kmem := { m with page := update m.page f x }

def Kmem.put (m : Kmem) (f : Nat) (h : m.kend ≤ f ∧ f < pageOf phystop) : Kmem :=
  { m.write f fun _ => 1 with freelist := f :: m.freelist, inside := List.forall_mem_cons.mpr ⟨h, m.inside⟩ }

def kalloc (what : What) (fill : Kmem → Page) : V (Option Nat) := act (fun m => .kalloc what m.next) fun m =>
  match m.next with
  | some f => .ok (some f) (m.take.write f (fill m))
  | none => .ok none m.ask

def kfree (f : Nat) : V Unit := act (fun _ => .tau) fun m =>
  if h : f < m.kend then .panic "kfree: v < end"
  else if h' : pageOf phystop ≤ f then .panic "kfree: v2p(v) >= PHYSTOP"
  else .ok () (m.put f ⟨Nat.le_of_not_lt h, Nat.lt_of_not_le h'⟩)

/-! ## Directories -/

structure Pte where
  frame : Nat
  user : Bool
  write : Bool
  deriving DecidableEq

structure Table where
  frame : Nat
  pte : Nat → Option Pte

structure Dir where
  frame : Nat
  pde : Nat → Option Table

namespace Dir

def pte (d : Dir) (page : Nat) : Option Pte := (d.pde (page / 1024)).bind fun t => t.pte (page % 1024)

def setPte (d : Dir) (page : Nat) (x : Option Pte) : Dir :=
  let put : Table → Table := fun t => { t with pte := update t.pte (page % 1024) x }
  { d with pde := update d.pde (page / 1024) ((d.pde (page / 1024)).map put) }

def addTable (d : Dir) (page f : Nat) : Dir :=
  { d with pde := update d.pde (page / 1024) (some ⟨f, fun _ => none⟩) }

end Dir

/-- Find the entry of a page, in a new table if there is none. The answer tells whether there is an
entry. A call with `alloc` 0 is written as a match on `pde`. -/
def walkpgdir (d : Dir) (page : Nat) : V (Bool × Dir) := match d.pde (page / 1024) with
  | some _ => pure (true, d)
  | none => do
    match ← kalloc .table fun _ => zeroPage with
    | none => pure (false, d)
    | some f => pure (true, d.addTable page f)

def mappagesFrom (user write : Bool) : (left : Nat) → (d : Dir) → (page frame : Nat) → V (Bool × Dir)
  | 0, d, _, _ => pure (true, d)
  | left + 1, d, page, frame => do
    let (found, d) ← walkpgdir d page
    if !found then pure (false, d)
    else if (d.pte page).isSome then panic "remap"
    else
      let d := d.setPte page (some ⟨frame, user, write⟩)
      mappagesFrom user write left d (page + 1) (frame + 1)

/-- Map the addresses from `va` on to the physical pages from `frame` on. No call goes beyond the
end of the address space. -/
def mappages (d : Dir) (va size : UInt32) (frame : Nat) (user write : Bool) : V (Bool × Dir) :=
  mappagesFrom user write (pageOf (va + size - 1) - pageOf va + 1) d (pageOf va) frame

/-- Where the linker puts the data of the kernel (`kernel.ld`): at a page boundary behind its text. -/
structure Link where
  data : UInt32
  aligned : data.toNat % 4096 = 0
  above : kernlink < data
  below : data < kernbase + phystop

def Link.small : Link := ⟨0x80108000, by decide, by decide, by decide⟩

/-- The kernel's mappings, which are present in every page directory: `virt`, `phys_start`, `phys_end`, `PTE_W`. -/
def kmap (l : Link) : List (UInt32 × UInt32 × UInt32 × Bool) :=
  [(kernbase, 0, extmem, true), -- I/O space
    (kernlink, v2p kernlink, v2p l.data, false), -- kern text+rodata
    (l.data, v2p l.data, phystop, true), -- kern data+memory
    (devspace, devspace, 0, true)] -- more devices

def mapKernel : List (UInt32 × UInt32 × UInt32 × Bool) → Dir → V (Bool × Dir)
  | [], d => pure (true, d)
  | (virt, start, stop, write) :: ks, d => do
    let (mapped, d) ← mappages d virt (stop - start) (pageOf start) false write
    if mapped then mapKernel ks d else pure (false, d)

def setupkvm (l : Link) : V (Option Dir) := do
  match ← kalloc .dir fun _ => zeroPage with
  | none => pure none
  | some f =>
    if devspace < kernbase + phystop then panic "PHYSTOP too high"
    else
      let (mapped, d) ← mapKernel (kmap l) ⟨f, fun _ => none⟩
      pure (if mapped then some d else none)

def deallocuvmFrom (oldsz : Nat) : (fuel : Nat) → (d : Dir) → (a : Nat) → V Dir
  | 0, d, _ => pure d
  | fuel + 1, d, a =>
    if a < oldsz then
      match d.pde (a / 4096 / 1024) with
      | none => deallocuvmFrom oldsz fuel d (a + 1023 * 4096 + 4096)
      | some t =>
        match t.pte (a / 4096 % 1024) with
        | none => deallocuvmFrom oldsz fuel d (a + 4096)
        | some x =>
          if x.frame = 0 then panic "kfree"
          else do
            kfree x.frame
            deallocuvmFrom oldsz fuel (d.setPte (a / 4096) none) (a + 4096)
    else pure d

def deallocuvm (d : Dir) (oldsz newsz : UInt32) : V (UInt32 × Dir) :=
  if oldsz ≤ newsz then pure (oldsz, d)
  else do
    let d ← deallocuvmFrom oldsz.toNat (oldsz.toNat / 4096 + 1) d (pgroundup newsz).toNat
    pure (newsz, d)

/-- The loop of `allocuvm` from the address `a` on. What `mappages` answers is not looked at. -/
def allocuvmFrom (oldsz newsz : UInt32) : (fuel : Nat) → (d : Dir) → (a : Nat) → V (UInt32 × Dir)
  | 0, d, _ => pure (newsz, d)
  | fuel + 1, d, a =>
    if a < newsz.toNat then do
      match ← kalloc .page fun _ => zeroPage with
      | none =>
        let (_, d) ← deallocuvm d newsz oldsz
        pure (0, d)
      | some f =>
        let (_, d) ← mappages d (UInt32.ofNat a) 4096 f true true
        allocuvmFrom oldsz newsz fuel d (a + 4096)
    else pure (newsz, d)

/-- Allocate page tables and physical memory to grow process from `oldsz` to `newsz`. Returns new size or 0 on
error. -/
def allocuvm (d : Dir) (oldsz newsz : UInt32) : V (UInt32 × Dir) :=
  if kernbase ≤ newsz then pure (0, d)
  else if newsz < oldsz then pure (oldsz, d)
  else allocuvmFrom oldsz newsz (newsz.toNat / 4096 + 1) d (pgroundup oldsz).toNat

def freevm (d : Dir) : V Unit := do
  let (_, d) ← deallocuvm d kernbase 0
  loop 1024 fun i =>
    match d.pde i with
    | some t => kfree t.frame
    | none => pure ()
  kfree d.frame

def clearpteu (d : Dir) (page : Nat) : V Dir := match d.pde (page / 1024) with
  | none => panic "clearpteu"
  | some t => pure (d.setPte page ((t.pte (page % 1024)).map fun x => { x with user := false }))

def copyuvmFrom (parent : Dir) (sz : Nat) : (fuel : Nat) → (d : Dir) → (i : Nat) → V (Option Dir)
  | 0, d, _ => pure (some d)
  | fuel + 1, d, i =>
    if i < sz then
      match parent.pde (i / 4096 / 1024) with
      | none => panic "copyuvm: pte should exist"
      | some t =>
        match t.pte (i / 4096 % 1024) with
        | none => panic "copyuvm: page not present"
        | some x => do
          match ← kalloc .page fun m => m.page x.frame with
          | none =>
            freevm d
            pure none
          | some f =>
            let (mapped, d) ← mappages d (UInt32.ofNat i) 4096 f x.user x.write
            if mapped then copyuvmFrom parent sz fuel d (i + 4096)
            else
              freevm d
              pure none
    else pure (some d)

def copyuvm (l : Link) (parent : Dir) (sz : UInt32) : V (Option Dir) := do
  match ← setupkvm l with
  | none => pure none
  | some d => copyuvmFrom parent sz.toNat (sz.toNat / 4096 + 1) d 0

/-! ## Loading a program -/

structure Store where
  va : UInt32
  frame : Nat
  len : Nat
  sz : UInt32
  deriving DecidableEq

/-- The loop of `loaduvm` from byte `i` of a segment on, for a program file that holds `xs`; `false`
is -1. `PTE_P` is not tested: the address in an entry that is not present is 0. -/
def loaduvmFrom (xs : List UInt8) (d : Dir) (sz addr off : UInt32) (filesz : Nat) :
    (fuel i : Nat) → List Store → V (Bool × List Store)
  | 0, _, out => pure (true, out)
  | fuel + 1, i, out =>
    if i < filesz then
      let va := addr + UInt32.ofNat i
      match d.pde (pageOf va / 1024) with
      | none => panic "loaduvm: address should exist"
      | some t =>
        let frame := ((t.pte (pageOf va % 1024)).map Pte.frame).getD 0
        let n := min (filesz - i) 4096
        let (r, bytes) := readAnswer xs (off + UInt32.ofNat i).toNat n
        let out := ⟨va, frame, bytes.length, sz⟩ :: out
        if r ≠ n then pure (false, out) else loaduvmFrom xs d sz addr off filesz fuel (i + 4096) out
    else pure (true, out)

def loaduvm (xs : List UInt8) (d : Dir) (sz addr off filesz : UInt32) (out : List Store) : V (Bool × List Store) :=
  if addr.toNat % 4096 ≠ 0 then panic "loaduvm: addr must be page aligned"
  else loaduvmFrom xs d sz addr off filesz.toNat (filesz.toNat / 4096 + 1) 0 out

structure Proghdr where
  type : UInt32
  off : UInt32
  vaddr : UInt32
  filesz : UInt32
  memsz : UInt32
  deriving DecidableEq

def field (bytes : List UInt8) (off : Nat) : UInt32 := word32 fun i => bytes.getD (off + i) 0

def proghdr (bytes : List UInt8) : Proghdr :=
  ⟨field bytes 0, field bytes 4, field bytes 8, field bytes 16, field bytes 20⟩

structure Loaded where
  ok : Bool
  dir : Dir
  sz : UInt32
  stores : List Store

def loadSegments (xs : List UInt8) : (left : Nat) → (off sz : UInt32) → Dir → List Store → V Loaded
  | 0, _, sz, d, out => pure ⟨true, d, sz, out⟩
  | left + 1, off, sz, d, out =>
    let (r, bytes) := readAnswer xs off.toNat 32
    let ph := proghdr bytes
    if r ≠ 32 then pure ⟨false, d, sz, out⟩
    else if ph.type ≠ 1 then loadSegments xs left (off + 32) sz d out
    else if ph.memsz < ph.filesz then pure ⟨false, d, sz, out⟩
    else do
      let (newsz, d) ← allocuvm d sz (ph.vaddr + ph.memsz)
      if newsz = 0 then pure ⟨false, d, newsz, out⟩
      else
        let (loaded, out) ← loaduvm xs d newsz ph.vaddr ph.off ph.filesz out
        if loaded then loadSegments xs left (off + 32) newsz d out
        else pure ⟨false, d, newsz, out⟩

def phoff (xs : List UInt8) : UInt32 := field xs 28
def phnum (xs : List UInt8) : Nat := (word16 fun i => xs.getD (44 + i) 0).toNat

/-- `exec` from the ELF header to the end of the loading loop; `none` if it does not come to the loop. -/
def execLoad (l : Link) (xs : List UInt8) : V (Option Loaded) :=
  if xs.length < 52 then pure none -- short read
  else if field xs 0 ≠ 0x464C457F then pure none
  else do
    match ← setupkvm l with
    | none => pure none
    | some d => some <$> loadSegments xs (phnum xs) (phoff xs) 0 d []

/-! ## The stack of the new program -/

structure CString where
  bytes : List UInt8
  nul : 0 ∉ bytes
  short : bytes.length + 1 ≤ 2147483648

def CString.stored (s : CString) : List UInt8 := s.bytes ++ [0]

def Kmem.poke (m : Kmem) (f off : Nat) (buf : List UInt8) : Kmem := m.write f (Layout.poke (m.page f) off buf)

def store (f off : Nat) (buf : List UInt8) : V Unit := act (fun _ => .tau) fun m => .ok () (m.poke f off buf)

/-- Map user virtual address to kernel address: `none` is 0. Where `d` has no page table, the first word of the calling
process,
whose directory is `old`, is taken for the entry; it has to lead to a page that the process can write. (That this may
be a page of a directory is left out.) -/
def uva2ka (old d : Dir) (page : Nat) : V (Option Nat) := match d.pde (page / 1024) with
  | some t =>
    pure (match t.pte (page % 1024) with
      | some x => if x.user then some x.frame else none
      | none => none)
  | none => act (fun _ => .nil) fun m =>
    match old.pte 0 with
    | none => .panic "trap"
    | some x =>
      let pte := word32 (m.page x.frame)
      if pte &&& 1 = 0 ∨ pte &&& 4 = 0 then .ok none m -- PTE_P, PTE_U
      else
        match old.pte ((pte.toNat / 4096 + userpages) % npages) with
        | none => .panic "trap"
        | some y => if y.write then .ok (some y.frame) m else .panic "trap"

def copyoutFrom (old d : Dir) : (fuel : Nat) → (va : UInt32) → (buf : List UInt8) → V Bool
  | 0, _, _ => pure true
  | fuel + 1, va, buf =>
    if 0 < buf.length then do
      match ← uva2ka old d (pageOf va) with
      | none => pure false
      | some f =>
        let n := min (4096 - va.toNat % 4096) buf.length
        store f (va.toNat % 4096) (buf.take n)
        copyoutFrom old d fuel (UInt32.ofNat (pageOf va * 4096 + 4096)) (buf.drop n)
    else pure true

def copyout (old d : Dir) (va : UInt32) (buf : List UInt8) : V Bool := copyoutFrom old d (buf.length / 4096 + 2) va buf

abbrev maxarg : Nat := 32

/-- The loop of `exec` that pushes the argument strings; the answer is the stack pointer and the pointers put into
`ustack`. -/
def pushArgs (old d : Dir) : List CString → (sp : UInt32) → (ptrs : List UInt32) → V (Option (UInt32 × List UInt32))
  | [], sp, ptrs => pure (some (sp, ptrs))
  | s :: rest, sp, ptrs =>
    if maxarg ≤ ptrs.length then pure none
    else do
      let sp := (sp - UInt32.ofNat (s.bytes.length + 1)) / 4 * 4
      if ← copyout old d sp s.stored then pushArgs old d rest sp (ptrs ++ [sp]) else pure none

def ustack (sp : UInt32) (ptrs : List UInt32) : List UInt32 :=
  [0xffffffff, UInt32.ofNat ptrs.length, sp - UInt32.ofNat ((ptrs.length + 1) * 4)] ++ ptrs ++ [0]

def wordBytes (w : UInt32) : List UInt8 := (List.range 4).map (byteAt w.toNat)

def pushStack (old d : Dir) (sz : UInt32) (argv : List CString) : V (Option UInt32) := do
  match ← pushArgs old d argv sz [] with
  | none => pure none
  | some (sp, ptrs) =>
    let esp := sp - UInt32.ofNat ((3 + ptrs.length + 1) * 4)
    if ← copyout old d esp ((ustack sp ptrs).flatMap wordBytes) then pure (some esp) else pure none

/-- `exec` from the end of the loading loop, with an image of size `sz`, to the commit: the new size and stack pointer,
or `none` for `goto bad`. -/
def execStack (old d : Dir) (sz : UInt32) (argv : List CString) : V (Dir × Option (UInt32 × UInt32)) := do
  -- Allocate two pages at the next page boundary. Make the first inaccessible. Use the second as the user stack.
  let (newsz, d) ← allocuvm d (pgroundup sz) (pgroundup sz + 2 * 4096)
  if newsz = 0 then pure (d, none)
  else
    let d ← clearpteu d (pageOf (newsz - 2 * 4096))
    let sp ← pushStack old d newsz argv
    pure (d, sp.map fun sp => (newsz, sp))

structure Started where
  dir : Dir
  sz : UInt32
  sp : UInt32

def bad {α : Type} (d : Dir) : V (Option α) := do
  freevm d
  pure none

/-- `exec` of a program file that holds `xs`, in a process whose directory is `old`; `none` is -1. -/
def execProgram (l : Link) (xs : List UInt8) (old : Dir) (argv : List CString) : V (Option Started) := do
  match ← execLoad l xs with
  | none => pure none
  | some ld =>
    if !ld.ok then bad ld.dir
    else
      match ← execStack old ld.dir ld.sz argv with
      | (d, none) => bad d
      | (d, some (sz, sp)) =>
        freevm old
        pure (some ⟨d, sz, sp⟩)

end Xv6Vsd.Paging
