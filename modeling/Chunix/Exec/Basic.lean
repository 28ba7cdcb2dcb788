import Chunix.Heap.Paged
import Chunix.Mm.User
import Chunix.Trap.Syscall

/-!
# Execution of a program

`exec` reads a file into a block of the heap, loads its segments into the address
space of the calling task and copies the first page of each one into a new
directory. It puts the arguments on the stack of the caller, copies the page of the
stack and a page of the heap as well, and only then takes the new directory.
-/

namespace Chunix

namespace Exec

open Machine Kernel Syscall

/-- The largest number of arguments, `MAXARGS`. -/
def maxargs : Nat := 16

/-- What the local variables of `exec` and of the functions it calls hold before they
are set. -/
structure Locals where
  pgdir : Nat
  elfhdr : Memory
  header : Sfs.Frame
  stat : Sfs.Frame
  file : Sfs.Frame

/-- An action of the kernel, in a system call. -/
def onKernel {α : Type} (x : Act Kernel α) : Act World α :=
  Act.zoom (fun w => w.kernel) (fun k w => { w with kernel := k }) x

/-- The bytes of a `memmove` in increasing order of the addresses. -/
def moveUp (dst src : Nat) : Nat → Nat → Act Mm Unit
  | 0, _ => pure ()
  | n + 1, i => do
      let b ← Mm.vload8 (src + i)
      Mm.vstore8 (dst + i) b
      moveUp dst src n (i + 1)

/-- The bytes of a `memmove` in decreasing order of the addresses. -/
def moveDown (dst src : Nat) : Nat → Act Mm Unit
  | 0 => pure ()
  | n + 1 => do
      let b ← Mm.vload8 (src + n)
      Mm.vstore8 (dst + n) b
      moveDown dst src n

/-- `memmove` between two virtual addresses. -/
def memmove (dst src n : Nat) : Act Mm Unit :=
  if src < dst ∧ dst < u32 (src + n) then moveDown dst src n else moveUp dst src n 0

/-- `strlen` of a string in virtual memory. -/
def strlen (p : Nat) : Act Mm Nat := do return (← chars 4294967296 p).length

/-- The write of a byte through a kernel pointer. -/
def kput (p : Nat) (b : UInt8) : Act Mm Unit :=
  Act.modify fun m => { m with mem := Function.update m.mem (Mm.v2p p) b }

/-- A `memmove` to a kernel pointer in increasing order of the addresses; `src i` reads
the byte `i` of the source. The result lists the bytes moved. -/
def putUp (dst : Nat) (src : Nat → Act Mm UInt8) : Nat → Nat → Act Mm (List UInt8)
  | 0, _ => return []
  | n + 1, i => do
      let b ← src i
      kput (dst + i) b
      let bs ← putUp dst src n (i + 1)
      return b :: bs

/-- The same in decreasing order; `bs` are the bytes moved so far. -/
def putDown (dst : Nat) (src : Nat → Act Mm UInt8) : Nat → List UInt8 → Act Mm (List UInt8)
  | 0, bs => return bs
  | n + 1, bs => do
      let b ← src n
      kput (dst + n) b
      putDown dst src n (b :: bs)

/-- `memmove` from a virtual address to a kernel pointer. -/
def memmoveOut (p dst off n : Nat) : Act Mm (List UInt8) :=
  if p + off < dst ∧ dst < u32 (p + off + n) then
    putDown dst (fun i => Mm.vload8 (p + off + i)) n []
  else putUp dst (fun i => Mm.vload8 (p + off + i)) n 0

/-- The loop of `copyout`: `move dst off n` moves `n` bytes of the source from the offset
`off` on. The result is that of `copyout` and the bytes moved. -/
def copyoutLoop (pgdir : Nat) (move : Nat → Nat → Nat → Act Mm (List UInt8)) :
    Nat → Nat → Nat → Nat → Act Mm (Int × List UInt8)
  | 0, _, _, _ => Act.halt .hang
  | f + 1, va, off, len => do
      if len > 0 then
        let va0 := Mm.pgRoundDown va
        let pa0 ← Mm.uva2ka pgdir va0
        if pa0 = 0 then
          return (-1, [])
        let n := min (4096 - (va - va0)) len
        let bs ← move (pa0 + (va - va0)) off n
        let r ← copyoutLoop pgdir move f (u32 (va0 + 4096)) (off + n) (len - n)
        return (r.1, bs ++ r.2)
      else
        return (0, [])

/-- `copyout`. There are `2 ^ 20` pages, so the fuel is never used up. -/
def copyout (pgdir va : Nat) (move : Nat → Nat → Nat → Act Mm (List UInt8)) (len : Nat) :
    Act Mm (Int × List UInt8) :=
  copyoutLoop pgdir move 1048578 va 0 len

/-- What the loop over `argv` has done: the stack pointer, the addresses of the copies
and the bytes that were copied for each string. -/
structure Pushed where
  sp : Nat
  ptrs : List Nat
  strings : List (List UInt8)

/-- The loop of `exec` over `argv`, and nothing if it fails. -/
def pushArgs (pgdir : Nat) : List Nat → Nat → Nat → Act Mm (Option Pushed)
  | [], _, sp => return some ⟨sp, [], []⟩
  | p :: argv, argc, sp => do
      if argc ≥ maxargs then
        return none
      let sp := u32 (sp + 4294967296 - ((← strlen p) + 1)) / 4 * 4
      let r ← copyout pgdir sp (memmoveOut p) ((← strlen p) + 1)
      if r.1 < 0 then
        return none
      match ← pushArgs pgdir argv (argc + 1) sp with
      | none => return none
      | some a => return some ⟨a.sp, sp :: a.ptrs, r.2 :: a.strings⟩

/-- The byte `i` of an array of words. -/
def byteOf (ws : List Nat) (i : Nat) : UInt8 := UInt8.ofNat (ws.getD (i / 4) 0 / 256 ^ (i % 4))

/-- `copyout` of the array `ustack`, which lies on the kernel stack. -/
def putWords (ws : List Nat) (dst off n : Nat) : Act Mm (List UInt8) :=
  putUp dst (fun i => pure (byteOf ws (off + i))) n 0

/-- The arguments are put on the stack: the new stack pointer and the bytes copied for
each string, and nothing if `exec` fails. -/
def setupStack (pgdir : Nat) (argv : List Nat) : Act Mm (Option (Nat × List (List UInt8))) := do
  match ← pushArgs pgdir argv 0 Mm.ustacktop with
  | none => return none
  | some a =>
      let argc := argv.length
      let ustack := argc :: u32 (a.sp + 4294967296 - (argc + 1) * 4) :: a.ptrs ++ [0]
      let sp := u32 (a.sp + 4294967296 - (2 + argc + 1) * 4)
      let r ← copyout pgdir sp (putWords ustack) ((2 + argc + 1) * 4)
      if r.1 < 0 then
        return none
      return some (sp, a.strings)

/-- The result of `exec` and the bytes that were copied for each argument. -/
structure Outcome where
  ret : Int
  strings : List (List UInt8)

/-- `exec` behind the label `fail`. -/
def fail (pgdir : Nat) : Act Mm Outcome := do
  if pgdir ≠ 0 then
    Mm.freeVm pgdir
  return ⟨-1, []⟩

/-- `exec` from the allocation of the stack on. -/
def finish (pgdir entry range : Nat) (argv : List Nat) : Act Kernel Outcome := do
  let c ← getCurrent
  let tp ← Act.gets fun k => k.tasks c
  onMm (Mm.regionAlloc tp.pgdir (Mm.ustacktop - 4096) 4096 (Mm.pteW ||| Mm.pteU))
  match ← onMm (setupStack tp.pgdir argv) with
  | none => onMm (fail pgdir)
  | some (sp, strings) =>
      let _ ← onMm (Mm.copyPage tp.pgdir pgdir (Mm.ustacktop - 4096))
      let _ ← onMm (Mm.copyPage tp.pgdir pgdir Heap.heapStart)
      updTask c fun tp => { tp with pgdir := pgdir }
      onMm (Mm.freeVm tp.pgdir)
      onMm (Mm.kstore (tp.tf + 60) entry)
      onMm (Mm.kstore (tp.tf + 72) sp)
      updTask c fun tp => { tp with sz := range }
      onMm (Mm.lcr3 (Mm.p2v pgdir))
      return ⟨0, strings⟩

/-- One segment: the fields of the program header at `ph` are read where they are used. -/
def loadSegment (cur pgdir fp ph : Nat) : Act Mm Unit := do
  Mm.regionAlloc cur (← Mm.vload32 (ph + 8)) (← Mm.vload32 (ph + 20)) (Mm.pteW ||| Mm.pteU)
  memmove (← Mm.vload32 (ph + 8)) (u32 (fp + (← Mm.vload32 (ph + 4)))) (← Mm.vload32 (ph + 16))
  Mm.vmemset (u32 ((← Mm.vload32 (ph + 8)) + (← Mm.vload32 (ph + 16)))) 0
    (u32 ((← Mm.vload32 (ph + 20)) + 4294967296 - (← Mm.vload32 (ph + 16))))
  let _ ← Mm.copyPage cur pgdir (← Mm.vload32 (ph + 8))

/-- The loop of `exec` over the program headers from `ph` up to `eph`, with the number of
headers as fuel. The result is `range`. -/
def loadLoop (cur pgdir fp eph : Nat) : Nat → Nat → Nat → Act Mm Nat
  | 0, _, range => return range
  | n + 1, ph, range => do
      if ph < eph then
        if (← Mm.vload32 ph) = Elf.progLoad then
          loadSegment cur pgdir fp ph
          let offset := u32 ((← Mm.vload32 (ph + 8)) + (← Mm.vload32 (ph + 20)))
          loadLoop cur pgdir fp eph n (ph + Elf.progHeaderSize) (max range offset)
        else
          loadLoop cur pgdir fp eph n (ph + Elf.progHeaderSize) range
      else
        return range

/-- `search_index` in a task: the name is kept in a block of its heap. A free slot of
`ibuf` has no name yet, so there is none to free. -/
def searchIndex (fr : Sfs.Frame) (name : CString) : Act World (Option (Fin 32)) := do
  let s ← Act.gets fun w => w.files.super
  let found ← onFiles (Sfs.onCache (Sfs.sfsFindIndex s fr.after name fr.idx))
  if found.ret ≠ 0 then
    match ← onFiles Sfs.ibufAlloc with
    | none => return none
    | some i =>
        let p ← onKernel (Heap.kmalloc Heap.taskWindow (name.len + 1))
        if p = 0 then
          return none
        Syscall.onMm (Mm.vwrite p name.text (name.len + 1) 0)
        Act.modify fun w => { w with files := { w.files with
          ibuf := Function.update w.files.ibuf i ⟨Sfs.sfsInodeInuse, some name, found.idx⟩ } }
        return some i
  else return none

/-- `sfs_stat` in a task. -/
def sfsStat (fr : Sfs.Frame) (path : Nat) : Act World Sfs.Stat := do
  let name ← Syscall.onMm (readString path)
  let indp ← searchIndex fr name
  let r ← onFiles (Sfs.statInode indp)
  return r.2

/-- `sfs_read_file` of the whole file into the block `fp`. -/
def readImage (fr : Sfs.Frame) (path fp : Nat) (size : Int) : Act World Unit := do
  let s ← Act.gets fun w => w.files.super
  let file ← Syscall.onMm (readString path)
  let r ← onFiles (Sfs.onCache
    (Sfs.sfsReadFile s fr.after file fr.idx Sfs.zeros (Sfs.word size)))
  if r.1 < size then
    Act.halt (.panic "sfs_read_file")
  Syscall.onMm (Mm.vwrite fp r.2 (Sfs.word size) 0)

/-- The strings of `argv` are printed. -/
def showArgs : List Nat → Act Mm Unit
  | [] => pure ()
  | p :: argv => do
      let _ ← chars 4294967296 p
      showArgs argv

/-- `exec` behind the checks of the header. -/
def load (loc : Locals) (path : Nat) (hdr : Elf.Header) (pgdir : Nat) (argv : List Nat) :
    Act World Outcome := do
  let state ← sfsStat loc.stat path
  let fp ← onKernel (Heap.kmalloc Heap.taskWindow (Sfs.word state.size))
  if fp = 0 then
    Act.halt (.panic "kmalloc")
  readImage loc.file path fp state.size
  let cur := (← getTask).pgdir
  let ph := u32 (fp + hdr.phoff)
  let eph := u32 (ph + hdr.phnum * Elf.progHeaderSize)
  let range ← Syscall.onMm (loadLoop cur pgdir fp eph hdr.phnum ph 0)
  onKernel (Heap.kfree Heap.taskWindow fp)
  onKernel (finish pgdir hdr.entry range argv)

/-- `sfs_read_file` of the header: the result and `elfhdr`. -/
def readHeader (loc : Locals) (path : Nat) : Act World (Int × Memory) := do
  let s ← Act.gets fun w => w.files.super
  let file ← Syscall.onMm (readString path)
  onFiles (Sfs.onCache
    (Sfs.sfsReadFile s loc.header.after file loc.header.idx loc.elfhdr Elf.headerSize))

/-- `exec`. The pointer `pgdir` is not set yet when the file cannot be read or is no ELF
file. -/
def exec (loc : Locals) (path : Nat) (argv : List Nat) : Act World Outcome := do
  let _ ← Syscall.onMm (chars 4294967296 path)
  Syscall.onMm (showArgs argv)
  let r ← readHeader loc path
  if r.1 < Elf.headerSize then
    Syscall.onMm (fail loc.pgdir)
  else if (Elf.header r.2 0).magic ≠ Elf.magic then
    Syscall.onMm (fail loc.pgdir)
  else
    let pgdir ← Syscall.onMm Mm.mapkvm
    if pgdir = 0 then
      Syscall.onMm (fail pgdir)
    else
      load loc path (Elf.header r.2 0) pgdir argv

end Exec

end Chunix
