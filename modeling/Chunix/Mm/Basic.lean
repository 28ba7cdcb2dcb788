import Chunix.Machine.Memory
import Chunix.Machine.Act

/-!
# Physical pages and two-level page tables

The state of the memory manager is the physical memory itself, the head of the
free page list (whose links are threaded through the free pages) and the page
directory loaded in CR3. Page directories and page tables are words of the
physical memory. Kernel pointers are virtual addresses of the direct map at
`KERNBASE`, so the byte a kernel pointer `p` names is byte `v2p p` of the
physical memory; user pointers are translated by `translate` through CR3.
-/

namespace Chunix

namespace Mm

open Machine

/-- The page size `PGSIZE`. -/
def pgsize : Nat := 4096

/-- The start `KERNBASE` of the direct map. -/
def kernbase : Nat := 0x80000000

/-- The end `EXTMEM` of the memory below one megabyte. -/
def extmem : Nat := 0x100000

/-- The address `KERNLINK` the kernel is linked at. -/
def kernlink : Nat := 0x80100000

/-- The top `USTACKTOP` of the user stack. -/
def ustacktop : Nat := 0x80000000

/-- The page entry flag `PTE_P`. -/
def pteP : Nat := 0x001

/-- The page entry flag `PTE_W`. -/
def pteW : Nat := 0x002

/-- The page entry flag `PTE_U`. -/
def pteU : Nat := 0x004

/-- The macro `V2P`: subtraction of `KERNBASE` in 32 bits. -/
def v2p (a : Nat) : Nat := u32 (a + (0x100000000 - 0x80000000))

/-- The macro `P2V`: addition of `KERNBASE` in 32 bits. -/
def p2v (a : Nat) : Nat := u32 (a + 0x80000000)

/-- The macro `PGROUNDUP` on 32-bit addresses. -/
def pgRoundUp (a : Nat) : Nat := u32 (a + 4095) / 4096 * 4096

/-- The macro `PGROUNDDOWN`. -/
def pgRoundDown (a : Nat) : Nat := a / 4096 * 4096

/-- The macro `PTE_ADDR`. -/
def pteAddr (pte : Nat) : Nat := pte / 4096 * 4096

/-- The macro `PTE_FLAGS`. -/
def pteFlags (pte : Nat) : Nat := pte % 4096

/-- The macro `PTX`: the page table index of a virtual address. -/
def ptx (va : Nat) : Nat := va / 4096 % 1024

/-- The macro `PDX`: the page directory index of a virtual address. -/
def pdx (va : Nat) : Nat := va / 4194304 % 1024

/-- The test `pte & PTE_P`. -/
def present (pte : Nat) : Prop := pte % 2 = 1

/-- The test `pte & PTE_U`. -/
def userBit (pte : Nat) : Prop := pte / 4 % 2 = 1

instance (pte : Nat) : Decidable (present pte) := inferInstanceAs (Decidable (_ = _))

instance (pte : Nat) : Decidable (userBit pte) := inferInstanceAs (Decidable (_ = _))

end Mm

/-- The state of the memory manager. `freeList` is a kernel pointer or zero,
`cr3` a physical address, `memsz` counts kilobytes, and `data` is the linker
symbol where the kernel's data begin. -/
structure Mm where
  mem : Machine.Memory
  freeList : Nat
  cr3 : Nat
  memsz : Nat
  memStart : Nat
  data : Nat

namespace Mm

open Machine

/-- The word a kernel pointer names. -/
def kload (p : Nat) : Act Mm Nat := Act.gets fun m => load32 m.mem (v2p p)

/-- The write `*p = w` through a kernel pointer. -/
def kstore (p w : Nat) : Act Mm Unit :=
  Act.modify fun m => { m with mem := store32 m.mem (v2p p) w }

/-- `memset` through a kernel pointer. -/
def kmemset (p : Nat) (c : UInt8) (n : Nat) : Act Mm Unit :=
  Act.modify fun m => { m with mem := fill m.mem (v2p p) n c }

/-- `memmove` between two kernel pointers. -/
def kmemmove (dst src n : Nat) : Act Mm Unit :=
  Act.modify fun m => { m with mem := blit m.mem (v2p dst) (v2p src) n }

/-- The load of CR3. -/
def lcr3 (val : Nat) : Act Mm Unit := Act.modify fun m => { m with cr3 := val }

theorem lcr3_mem {val : Nat} {m m' : Mm} {u : Unit} (h : lcr3 val m = .ok (u, m')) :
    m'.mem = m.mem := by
  rw [← Act.modify_eq_ok.1 h]

/-- The two-level translation of a virtual address by the directory at the
physical address `dir`. -/
def walk (mem : Memory) (dir va : Nat) : Option Nat :=
  let pde := load32 mem (dir + 4 * pdx va)
  if present pde then
    let pte := load32 mem (pteAddr pde + 4 * ptx va)
    if present pte then some (pteAddr pte + va % 4096) else none
  else none

/-- The physical address CR3 gives for a virtual address. -/
def translate (m : Mm) (va : Nat) : Option Nat := walk m.mem m.cr3 va

/-- The byte at a virtual address. -/
def vload8 (va : Nat) : Act Mm UInt8 := do
  match translate (← Act.get) (u32 va) with
  | some pa => Act.gets fun m => m.mem pa
  | none => Act.halt (.fault (u32 va))

/-- The write of a byte at a virtual address. -/
def vstore8 (va : Nat) (b : UInt8) : Act Mm Unit := do
  match translate (← Act.get) (u32 va) with
  | some pa => Act.modify fun m => { m with mem := Function.update m.mem pa b }
  | none => Act.halt (.fault (u32 va))

/-- The little-endian word at a virtual address. -/
def vload32 (va : Nat) : Act Mm Nat := do
  let b0 ← vload8 va
  let b1 ← vload8 (va + 1)
  let b2 ← vload8 (va + 2)
  let b3 ← vload8 (va + 3)
  return b0.toNat + 256 * b1.toNat + 65536 * b2.toNat + 16777216 * b3.toNat

/-- The write of a little-endian word at a virtual address. -/
def vstore32 (va w : Nat) : Act Mm Unit := do
  vstore8 va (UInt8.ofNat w)
  vstore8 (va + 1) (UInt8.ofNat (w / 256))
  vstore8 (va + 2) (UInt8.ofNat (w / 65536))
  vstore8 (va + 3) (UInt8.ofNat (w / 16777216))

/-- `kfree_page`: the page becomes the head of the free list. -/
def kfreePage (v : Nat) : Act Mm Unit := do
  let m ← Act.get
  if v % 4096 ≠ 0 ∨ v < m.memStart ∨ v > v2p (u32 (m.memsz * 1024)) then
    Act.halt (.panic "kfree_page")
  kmemset v 1 4096
  kstore v m.freeList
  Act.modify fun m => { m with freeList := v }

/-- `kalloc_page`: the head of the free list, or zero if the list is empty. -/
def kallocPage : Act Mm Nat := do
  let fp ← Act.gets fun m => m.freeList
  if fp ≠ 0 then
    let next ← kload fp
    Act.modify fun m => { m with freeList := next }
  return fp

/-- `pgdir_walk`: the kernel pointer to the entry of `va`, or zero. -/
def pgdirWalk (pgdir va : Nat) (alloc : Bool) : Act Mm Nat := do
  let pde ← kload (pgdir + 4 * pdx va)
  if present pde then
    return u32 (p2v (pteAddr pde) + 4 * ptx va)
  if alloc = false then
    return 0
  let pte ← kallocPage
  if pte = 0 then
    return 0
  kmemset pte 0 4096
  kstore (pgdir + 4 * pdx va) (pteAddr (v2p pte) ||| pteU ||| pteW ||| pteP)
  return u32 (pte + 4 * ptx va)

/-- The loop of `mappages`. A directory has `2 ^ 20` entries and the loop panics
at the first present one, so the fuel given by `mappages` is never used up. -/
def mappagesLoop (pgdir last perm : Nat) : Nat → Nat → Nat → Act Mm Int
  | 0, _, _ => Act.halt .hang
  | n + 1, va, pa => do
      if va ≤ last then
        let pte ← pgdirWalk pgdir va true
        if pte = 0 then
          return -1
        let old ← kload pte
        if present old then
          Act.halt (.panic "mappages: re-map")
        kstore pte (pteAddr pa ||| perm ||| pteP)
        mappagesLoop pgdir last perm n (u32 (va + 4096)) (u32 (pa + 4096))
      else
        return 0

/-- `mappages`: the pages touched by `sz` bytes at `va` are mapped to the pages
from `pa` on. The result is `0`, or `-1` when no page table can be allocated. -/
def mappages (pgdir va pa sz perm : Nat) : Act Mm Int :=
  mappagesLoop pgdir (pgRoundDown (u32 (va + sz + 4294967295))) perm 1048577
    (pgRoundDown va) pa

/-- `unmap_page`: the entry of `va` is cleared and its page freed. -/
def unmapPage (pgdir va : Nat) : Act Mm Unit := do
  let pte ← pgdirWalk pgdir va false
  if pte = 0 then
    Act.halt (.panic "unmap_page: not mapped")
  let old ← kload pte
  if ¬ present old then
    Act.halt (.panic "unmap_page: not present")
  kstore pte 0
  kfreePage (v2p (pteAddr old))

/-- `mapkvm`: a directory with the kernel's own mappings, or zero. -/
def mapkvm : Act Mm Nat := do
  let pgdir ← kallocPage
  if pgdir = 0 then
    return 0
  kmemset pgdir 0 4096
  let m ← Act.get
  if (← mappages pgdir kernbase 0 extmem pteW) < 0 then
    return 0
  if (← mappages pgdir kernlink (v2p kernlink) (u32 (m.data + 4294967296 - kernlink)) 0) < 0 then
    return 0
  if (← mappages pgdir m.data (v2p m.data)
      (u32 (u32 (m.memsz * 1024) + 4294967296 - v2p m.data)) pteW) < 0 then
    return 0
  return pgdir

/-- The loop of `region_alloc`. -/
def regionAllocLoop (pgdir last perm : Nat) : Nat → Nat → Act Mm Unit
  | 0, _ => Act.halt .hang
  | n + 1, va => do
      if va < last then
        let pte ← pgdirWalk pgdir va true
        if pte = 0 then
          Act.halt (.panic "region_alloc failed!")
        let old ← kload pte
        if ¬ present old then
          let p ← kallocPage
          if p = 0 then
            Act.halt (.panic "region_alloc failed!")
          kstore pte (pteAddr (v2p p) ||| perm ||| pteP)
        regionAllocLoop pgdir last perm n (u32 (va + 4096))

/-- `region_alloc`: every page touched by `len` bytes at `va` that is not yet
present gets a page of its own. -/
def regionAlloc (pgdir va len perm : Nat) : Act Mm Unit :=
  regionAllocLoop pgdir (pgRoundUp (u32 (va + len))) perm 1048577 (pgRoundDown va)

/-- The loop of `free_vm` over the directory entries from `i` on. -/
def freeVmLoop (pgdir : Nat) : Nat → Nat → Act Mm Unit
  | 0, _ => pure ()
  | n + 1, i => do
      let pde ← kload (pgdir + 4 * i)
      if present pde then
        kfreePage (p2v (pteAddr pde))
      freeVmLoop pgdir n (i + 1)

/-- `free_vm`: the page tables of a directory and the directory itself are
freed. `dealloc_uvm` does nothing, so the mapped pages are not. -/
def freeVm (pgdir : Nat) : Act Mm Unit := do
  if pgdir = 0 then
    Act.halt (.panic "free_vm: pgdir is NULL")
  freeVmLoop pgdir 1024 0
  kfreePage pgdir

/-- `copy_page`: a copy of the page of `addr` in the directory `src` of the
current task is mapped at `addr` in the directory `pgdir`. The result is
`pgdir`, or zero when a page is missing. -/
def copyPage (src pgdir addr : Nat) : Act Mm Nat := do
  let pte ← pgdirWalk src addr false
  if pte = 0 then
    Act.halt (.panic "copy_page: pte doesn't exist")
  let old ← kload pte
  if ¬ present old then
    Act.halt (.panic "copy_page: page doesn't present")
  let page ← kallocPage
  if page = 0 then
    return 0
  kmemmove page (p2v (pteAddr old)) 4096
  if (← mappages pgdir addr (v2p page) 4096 (pteFlags old)) < 0 then
    kfreePage page
    return 0
  return pgdir

/-- The loop of `copy_uvm` over the addresses from `i` on. -/
def copyUvmLoop (pgdir sz pde : Nat) : Nat → Nat → Act Mm Nat
  | 0, _ => Act.halt .hang
  | n + 1, i => do
      if i < sz then
        let pte ← pgdirWalk pgdir i false
        if pte = 0 then
          Act.halt (.panic "copy_uvm: pte doesn't exist")
        let old ← kload pte
        if present old then
          let page ← kallocPage
          if page = 0 then
            freeVm pde
            return 0
          kmemmove page (p2v (pteAddr old)) 4096
          if (← mappages pde i (v2p page) 4096 (pteFlags old)) < 0 then
            freeVm pde
            return 0
          copyUvmLoop pgdir sz pde n (u32 (i + 4096))
        else
          copyUvmLoop pgdir sz pde n (u32 (i + 4096))
      else
        return pde

/-- `copy_uvm`: a directory with the kernel's mappings and copies of the pages
below `sz` of `pgdir`, or zero. -/
def copyUvm (pgdir sz : Nat) : Act Mm Nat := do
  let pde ← mapkvm
  if pde = 0 then
    return 0
  copyUvmLoop pgdir sz pde 1048577 0

/-- `uva2ka`: the kernel pointer to the page of `uva`, or zero. A missing page
table makes the code read the entry through a null pointer. -/
def uva2ka (pgdir uva : Nat) : Act Mm Nat := do
  let pte ← pgdirWalk pgdir uva false
  let old ← if pte = 0 then vload32 0 else kload pte
  if ¬ present old then
    return 0
  if ¬ userBit old then
    return 0
  return p2v (pteAddr old)

end Mm

end Chunix
