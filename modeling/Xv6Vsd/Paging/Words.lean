import Xv6Vsd.Paging.Model

/-!
# Page tables as words in memory (`mmu.h`, `vm.c`)

The directory and its tables lie in physical pages, as arrays of 1024 words. A pointer of the kernel to a page is given
by
the physical address of the page, and a pointer to an entry by its page and its index there.
-/

namespace Xv6Vsd.Paging.Words

open Function

/-! ## `mmu.h` -/

abbrev pteP : UInt32 := 0x001
abbrev pteW : UInt32 := 0x002
abbrev pteU : UInt32 := 0x004

theorem index_lt (x : UInt32) : (x &&& 0x3FF).toNat < 1024 := by
  rw [UInt32.toNat_and]
  exact Nat.lt_succ_of_le Nat.and_le_right

def pdx (va : UInt32) : Fin 1024 := ⟨((va >>> 22) &&& 0x3FF).toNat, index_lt _⟩
def ptx (va : UInt32) : Fin 1024 := ⟨((va >>> 12) &&& 0x3FF).toNat, index_lt _⟩

def pgrounddown (a : UInt32) : UInt32 := a &&& ~~~(4096 - 1)

def pteAddr (pte : UInt32) : UInt32 := pte &&& ~~~0xFFF
def pteFlags (pte : UInt32) : UInt32 := pte &&& 0xFFF

/-! ## Memory -/

structure Ram where
  word : UInt32 → Fin 1024 → UInt32
  freelist : List UInt32
  nodup : freelist.Nodup
  aligned : ∀ f ∈ freelist, pteAddr f = f

structure Slot where
  page : UInt32
  index : Fin 1024

namespace Ram

def get (m : Ram) (e : Slot) : UInt32 := m.word e.page e.index

def set (m : Ram) (e : Slot) (x : UInt32) : Ram :=
  { m with word := update m.word e.page (update (m.word e.page) e.index x) }

def clear (m : Ram) (p : UInt32) : Ram := { m with word := update m.word p fun _ => 0 }

def kalloc (m : Ram) : Option UInt32 × Ram :=
  (m.freelist.head?, { m with
    freelist := m.freelist.tail
    nodup := m.nodup.tail
    aligned := fun f hf => m.aligned f (List.mem_of_mem_tail hf) })

end Ram

/-- The entry in `pgdir` for the address `va`. With `alloc`, create any required page table
pages. -/
def walkpgdir (m : Ram) (pgdir va : UInt32) (alloc : Bool) : Option Slot × Ram :=
  let pde : Slot := ⟨pgdir, pdx va⟩
  if m.get pde &&& pteP ≠ 0 then (some ⟨pteAddr (m.get pde), ptx va⟩, m)
  else if !alloc then (none, m)
  else match m.kalloc with
    | (none, m) => (none, m)
    | (some pgtab, m) => (some ⟨pgtab, ptx va⟩, (m.clear pgtab).set pde (pgtab ||| pteP ||| pteW ||| pteU))

def mappagesFrom (pgdir last perm : UInt32) : (fuel : Nat) → (a pa : UInt32) → Ram → Res Ram Int
  | 0, _, _, _ => .block
  | fuel + 1, a, pa, m =>
    match walkpgdir m pgdir a true with
    | (none, m) => .ok (-1) m
    | (some pte, m) =>
      if m.get pte &&& pteP ≠ 0 then .panic "remap"
      else
        let m := m.set pte (pa ||| perm ||| pteP)
        if a = last then .ok 0 m else mappagesFrom pgdir last perm fuel (a + 4096) (pa + 4096) m

/-- Map addresses from `va` on to physical addresses from `pa` on; `va` and `size` might not be
page-aligned. In `npages` turns every page comes up. -/
def mappages (m : Ram) (pgdir va size pa perm : UInt32) : Res Ram Int :=
  mappagesFrom pgdir (pgrounddown (va + size - 1)) perm npages (pgrounddown va) pa m

/-! ## Directories -/

namespace Ram

def Has (m : Ram) (pgdir : UInt32) (i : Fin 1024) : Prop := m.word pgdir i &&& pteP ≠ 0

instance (m : Ram) (pgdir : UInt32) (i : Fin 1024) : Decidable (m.Has pgdir i) := inferInstanceAs (Decidable (_ ≠ _))

def table (m : Ram) (pgdir : UInt32) (i : Fin 1024) : UInt32 := pteAddr (m.word pgdir i)

def entry (m : Ram) (pgdir va : UInt32) : UInt32 := ((walkpgdir m pgdir va false).1.map m.get).getD 0

end Ram

/-- There is a page directory at `pgdir`: its tables have pages of their own, and none of these pages is free. -/
structure IsPgdir (m : Ram) (pgdir : UInt32) : Prop where
  off : ∀ i, m.Has pgdir i → m.table pgdir i ≠ pgdir
  apart : ∀ i j, m.Has pgdir i → m.Has pgdir j → m.table pgdir i = m.table pgdir j → i = j
  used : pgdir ∉ m.freelist
  tables : ∀ i, m.Has pgdir i → m.table pgdir i ∉ m.freelist

end Xv6Vsd.Paging.Words
