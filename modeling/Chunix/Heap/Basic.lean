import Chunix.Machine.Act
import Chunix.Machine.Memory

/-!
# The kernel heap

Every task has a heap of its own between `HEAP_START` and `HEAP_END`. The heap
is a doubly linked list of chunks, each with a header of three words: `prev`,
`next`, and a word with the flag `free` in its lowest bit and the length above
it. The code works on a window of virtual memory that grows and shrinks by pages
at its top; `Window` collects what it needs from the task and its page tables.
-/

namespace Chunix

namespace Heap

open Machine

/-- The start `HEAP_START` of the window. -/
def heapStart : Nat := 0xD0000000

/-- The end `HEAP_END` of the window. -/
def heapEnd : Nat := 0xFFBFF000

/-- The operations on states `σ` the heap is written in: word access, the fields
`heap_start` and `heap_top` of the current task, and the two loop bodies that
map a new page at `heap_top` and move `heap_top` up, or move `heap_top` down and
unmap the page there. -/
structure Window (σ : Type) where
  ld : Nat → Act σ Nat
  st : Nat → Nat → Act σ Unit
  start : Act σ Nat
  setStart : Nat → Act σ Unit
  top : Act σ Nat
  grow : Act σ Unit
  shrink : Act σ Unit

variable {σ : Type} (W : Window σ)

/-- The field `prev` of a chunk. -/
def getPrev (p : Nat) : Act σ Nat := W.ld p

/-- The field `next` of a chunk. -/
def getNext (p : Nat) : Act σ Nat := W.ld (u32 (p + 4))

/-- The field `free` of a chunk. -/
def getFree (p : Nat) : Act σ Nat := do return (← W.ld (u32 (p + 8))) % 2

/-- The field `len` of a chunk, of 31 bits. -/
def getLen (p : Nat) : Act σ Nat := do return (← W.ld (u32 (p + 8))) / 2

def setPrev (p v : Nat) : Act σ Unit := W.st p v

def setNext (p v : Nat) : Act σ Unit := W.st (u32 (p + 4)) v

def setFree (p v : Nat) : Act σ Unit := do
  W.st (u32 (p + 8)) ((← W.ld (u32 (p + 8))) / 2 * 2 + v)

def setLen (p v : Nat) : Act σ Unit := do
  W.st (u32 (p + 8)) (v % 2147483648 * 2 + (← W.ld (u32 (p + 8))) % 2)

/-- `alloc_chunk`: pages are mapped until the `len` bytes at `start` are below
`heap_top`. The window has `2 ^ 20` pages at most. -/
def allocChunk (start len : Nat) : Nat → Act σ Unit
  | 0 => Act.halt .hang
  | n + 1 => do
      if u32 (start + len) > (← W.top) then
        W.grow
        allocChunk start len n

/-- The loop of `free_chunk`: pages at or above the chunk are unmapped. -/
def freePages (chunk : Nat) : Nat → Act σ Unit
  | 0 => Act.halt .hang
  | n + 1 => do
      if chunk ≤ u32 ((← W.top) + 4294963200) then
        W.shrink
        freePages chunk n

/-- `free_chunk`: the last chunk is taken from the list and its pages are
unmapped. -/
def freeChunk (chunk : Nat) : Act σ Unit := do
  if (← getPrev W chunk) = 0 then
    W.setStart 0
  else
    setNext W (← getPrev W chunk) 0
  freePages W chunk 1048577

/-- `split_chunk`: what is left of a chunk behind its first `len` bytes becomes
a chunk of its own, unless it is too small. -/
def splitChunk (chunk len : Nat) : Act σ Unit := do
  let lenLeft := u32 ((← getLen W chunk) + 4294967296 - len)
  if lenLeft ≤ 12 then
    return
  let new := u32 (chunk + len)
  setFree W new 1
  setLen W new lenLeft
  setLen W chunk len
  setPrev W new chunk
  setNext W new (← getNext W chunk)
  setPrev W (← getNext W chunk) new
  setNext W chunk new

/-- The first half of `glue_chunk`: a free chunk to the right is taken in. -/
def glueRight (chunk : Nat) : Act σ Unit := do
  if (← getNext W chunk) ≠ 0 then
    if (← getFree W (← getNext W chunk)) = 1 then
      setLen W chunk ((← getLen W chunk) + (← getLen W (← getNext W chunk)))
      setPrev W (← getNext W (← getNext W chunk)) chunk
      setNext W chunk (← getNext W (← getNext W chunk))

/-- The second half of `glue_chunk`: the chunk is taken in by a free chunk to the
left. The result is the chunk it is part of then. -/
def glueLeft (chunk : Nat) : Act σ Nat := do
  if (← getPrev W chunk) ≠ 0 then
    if (← getFree W (← getPrev W chunk)) = 1 then
      setLen W (← getPrev W chunk) ((← getLen W (← getPrev W chunk)) + (← getLen W chunk))
      setNext W (← getPrev W chunk) (← getNext W chunk)
      if (← getNext W chunk) ≠ 0 then
        setPrev W (← getNext W chunk) (← getPrev W chunk)
      return ← getPrev W chunk
  return chunk

/-- `glue_chunk`: free neighbours are merged, and a free chunk at the top of the
heap is given back. -/
def glueChunk (chunk : Nat) : Act σ Unit := do
  glueRight W chunk
  let chunk ← glueLeft W chunk
  if (← getNext W chunk) = 0 then
    freeChunk W chunk

/-- The search of `kmalloc` for a free chunk of at least `n` bytes, from `curp`
on: the chunk or zero, and the chunk before it. A list that is still not over
after `2 ^ 32` chunks has a cycle. -/
def findChunk (n : Nat) : Nat → Nat → Nat → Act σ (Nat × Nat)
  | 0, _, _ => Act.halt .hang
  | f + 1, curp, prevp => do
      if curp = 0 then
        return (0, prevp)
      else if (← getFree W curp) = 1 ∧ n ≤ (← getLen W curp) then
        return (curp, prevp)
      else
        findChunk n f (← getNext W curp) curp

/-- The end of `kmalloc` when no chunk was found: a chunk of `n` bytes at
`chunkStart` becomes the last one, behind `prevp`. -/
def appendChunk (prevp chunkStart n : Nat) : Act σ Nat := do
  allocChunk W chunkStart n 1048577
  setPrev W chunkStart prevp
  setNext W chunkStart 0
  setFree W chunkStart 0
  setLen W chunkStart n
  if prevp ≠ 0 then
    setNext W prevp chunkStart
  return u32 (chunkStart + 12)

/-- `kmalloc`: a pointer behind the header of a chunk. -/
def kmalloc (n : Nat) : Act σ Nat := do
  let n := u32 (n + 12)
  let (curp, prevp) ← findChunk W n 4294967296 (← W.start) 0
  if curp ≠ 0 then
    splitChunk W curp n
    setFree W curp 0
    return u32 (curp + 12)
  else if prevp ≠ 0 then
    appendChunk W prevp (u32 (prevp + (← getLen W prevp))) n
  else
    W.setStart heapStart
    appendChunk W 0 heapStart n

/-- `kfree`: the chunk of the pointer `p` becomes free. -/
def kfree (p : Nat) : Act σ Unit := do
  let head := u32 (p + 4294967296 - 12)
  setFree W head 1
  glueChunk W head

end Heap

end Chunix
