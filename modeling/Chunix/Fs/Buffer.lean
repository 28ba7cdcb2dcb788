import Chunix.Linked.Chain
import Chunix.Linked.Ring
import Chunix.Machine.Act
import Chunix.Machine.Memory

/-!
# The buffer cache and the two disk drivers

The cache is an array of `NBUF` buffers, each for one sector of one device, on a
ring through `bhead`. A call runs until it returns or until it goes to sleep in
`sleep_on`; what it does up to there is one action on the cache, and the result
says which of the two happened. The memory disk answers at once, the hard disk
puts the buffer on `hdqueue` and answers by an interrupt.
-/

namespace Chunix

namespace Fs

open Machine Linked

/-- An index of the array `fsbuf[NBUF]`. -/
abbrev BufId := Fin 16

/-- A pointer to a `struct buf`: the header of the ring or an element of the
array. -/
inductive Ref
  | bhead
  | fsbuf (b : BufId)
deriving DecidableEq, Repr

/-- The contents of a sector, of `BUF_SIZE` bytes. -/
abbrev Sector := Fin 512 → UInt8

/-- The bits `BUF_BUSY`, `BUF_VALID` and `BUF_DIRTY` of `flags`. -/
structure Flags where
  busy : Bool
  valid : Bool
  dirty : Bool
deriving DecidableEq, Repr

/-- The fields of `struct buf` apart from its links in the ring. The field
`bwait` is only ever used for its address. -/
structure Buf where
  dev : Nat
  flags : Flags
  num : Nat
  hdnext : Option BufId
  data : Sector

/-- What `hd_dorw` sends to the controller: a sector number, and the data to
write if it is not a read. -/
structure Command where
  num : Nat
  data : Option Sector

/-- The state of the cache and the drivers. `disk` is the memory from `hdstart`
on, sector by sector, and `issued` the commands sent to the hard disk so far. -/
structure Cache where
  buf : BufId → Buf
  next : Ref → Ref
  prev : Ref → Ref
  hdqueue : Option BufId
  issued : List Command
  disk : Nat → Sector
  disksize : Nat

namespace Cache

/-- The cache with one buffer changed. -/
def setBuf (c : Cache) (b : BufId) (f : Buf → Buf) : Cache :=
  { c with buf := Function.update c.buf b (f (c.buf b)) }

/-- The writes that take a buffer out of the ring. -/
def unlink (c : Cache) (b : Ref) : Cache :=
  let c := { c with prev := Function.update c.prev (c.next b) (c.prev b) }
  { c with next := Function.update c.next (c.prev b) (c.next b) }

/-- The writes that put a buffer in behind `bhead`. -/
def linkFirst (c : Cache) (b : Ref) : Cache :=
  let c := { c with next := Function.update c.next b (c.next .bhead) }
  let c := { c with prev := Function.update c.prev b .bhead }
  let c := { c with prev := Function.update c.prev (c.next .bhead) b }
  { c with next := Function.update c.next .bhead b }

end Cache

/-- The device number `-1` of a buffer that was never used, as a `dev_t`. -/
def noDev : Nat := 0xFFFF

/-- The macro `MAJOR`. -/
def major (dev : Nat) : Nat := dev % 65536 / 256

/-- The major number `MEM_MAJOR`. -/
def memMajor : Nat := 1

/-- The major number `HD_MAJOR`. -/
def hdMajor : Nat := 3

/-- `init_buffer`: the ring is empty, and every buffer is put in. -/
def initBuffer (c : Cache) : Cache :=
  let c := { c with next := Function.update c.next .bhead .bhead }
  let c := { c with prev := Function.update c.prev .bhead .bhead }
  (List.finRange 16).foldl
    (fun c b => (c.setBuf b fun bp => { bp with dev := noDev }).linkFirst (.fsbuf b)) c

/-- The change of one buffer. -/
def updBuf (b : BufId) (f : Buf → Buf) : Act Cache Unit := Act.modify fun c => c.setBuf b f

/-- A loop over the ring that looks for a buffer with the property `p`. The ring
has seventeen nodes with its header. -/
def scan (step : Ref → Ref) (p : BufId → Bool) : Nat → Ref → Act Cache (Option BufId)
  | 0, _ => Act.halt .hang
  | _ + 1, .bhead => return none
  | n + 1, .fsbuf b => if p b then return some b else scan step p n (step (.fsbuf b))

/-- What `getblk` comes to: a buffer it returns, or its call of `sleep_on`. -/
inductive Got
  | buf (b : BufId)
  | asleep
deriving DecidableEq, Repr

/-- `getblk` from the label `repeat` on. -/
def getblk (dev nblk : Nat) : Act Cache Got := do
  let c ← Act.get
  match ← scan c.next (fun b => (c.buf b).dev = dev ∧ (c.buf b).num = nblk) 17 (c.next .bhead) with
  | some b =>
      if (c.buf b).flags.busy = false then
        updBuf b fun bp => { bp with flags := { bp.flags with busy := true } }
        return .buf b
      else
        return .asleep
  | none =>
      match ← scan c.prev (fun b => (c.buf b).flags.busy = false ∧ (c.buf b).flags.dirty = false)
          17 (c.prev .bhead) with
      | some b =>
          updBuf b fun bp =>
            { bp with flags := ⟨true, false, false⟩, dev := dev % 65536, num := nblk }
          return .buf b
      | none => Act.halt (.panic "getblk: no buffers available")

/-- `memhd_rw`: a sector of the memory disk is read or written. -/
def memhdRw (b : BufId) : Act Cache Unit := do
  let c ← Act.get
  let bp := c.buf b
  if bp.flags.busy = false then
    Act.halt (.panic "memhd_rw: buf not busy")
  else if bp.flags.valid = true ∧ bp.flags.dirty = false then
    Act.halt (.panic "memhd_rw: nothing to do")
  else if major bp.dev ≠ memMajor then
    Act.halt (.panic "memhd_rw: request not for memhd")
  else if c.disksize ≤ bp.num then
    Act.halt (.panic "memhd_rw: sector out of range")
  else if bp.flags.dirty = true then
    updBuf b fun bp => { bp with flags := { bp.flags with dirty := false } }
    Act.modify fun c => { c with disk := Function.update c.disk bp.num bp.data }
    updBuf b fun bp => { bp with flags := { bp.flags with valid := true } }
  else
    updBuf b fun bp' => { bp' with data := c.disk bp.num }
    updBuf b fun bp => { bp with flags := { bp.flags with valid := true } }

/-- `hd_dorw`: the command for a buffer. The controller takes 28 bits of the
sector number. -/
def hdDorw (b : BufId) : Act Cache Unit := do
  let bp ← Act.gets fun c => c.buf b
  let data := if bp.flags.dirty then some bp.data else none
  Act.modify fun c => { c with issued := c.issued ++ [⟨bp.num % 268435456, data⟩] }

/-- `hd_rw` up to its loop: the buffer becomes the last one of `hdqueue`, and the
disk is started if it is the only one. -/
def hdRw (b : BufId) : Act Cache Unit := do
  let bp ← Act.gets fun c => c.buf b
  if bp.flags.busy = false then
    Act.halt (.panic "hd_rw: buf is not busy")
  else if bp.flags.valid = true ∧ bp.flags.dirty = false then
    Act.halt (.panic "hd_rw: need do nothing")
  else
    updBuf b fun bp => { bp with hdnext := none }
    let c ← Act.get
    match follow (fun b => (c.buf b).hdnext) 16 c.hdqueue with
    | none => Act.halt .hang
    | some l =>
        match l.getLast? with
        | none => Act.modify fun c => { c with hdqueue := some b }
        | some a => updBuf a fun bp => { bp with hdnext := some b }
        if (← Act.gets fun c => c.hdqueue) = some b then
          hdDorw b

/-- The condition under which the loop of `hd_rw` ends. -/
def hdDone (bp : Buf) : Bool := bp.flags.valid && !bp.flags.dirty

/-- `hd_isr`, when the controller has the sector `input` to be read. -/
def hdIsr (input : Sector) : Act Cache Unit := do
  match ← Act.gets fun c => c.hdqueue with
  | none => return
  | some b =>
      let bp ← Act.gets fun c => c.buf b
      Act.modify fun c => { c with hdqueue := bp.hdnext }
      if bp.flags.dirty = false then
        updBuf b fun bp => { bp with data := input }
      updBuf b fun bp => { bp with flags := { bp.flags with valid := true, dirty := false } }
      match bp.hdnext with
      | none => return
      | some b => hdDorw b

/-- `buf_ll_rw`. The result is false when it has gone to sleep in `hd_rw`. -/
def bufLlRw (b : BufId) : Act Cache Bool := do
  let bp ← Act.gets fun c => c.buf b
  if major bp.dev = memMajor then
    memhdRw b
    return true
  else if major bp.dev = hdMajor then
    hdRw b
    return hdDone (← Act.gets fun c => c.buf b)
  else
    Act.halt (.panic "buf_ll_rw")

/-- `bwrite`. The result is false when it has gone to sleep in `hd_rw`. -/
def bwrite (b : BufId) : Act Cache Bool := do
  let bp ← Act.gets fun c => c.buf b
  if bp.flags.busy = false then
    Act.halt (.panic "bwrite: buffer isn't busy")
  else
    updBuf b fun bp => { bp with flags := { bp.flags with dirty := true } }
    bufLlRw b

/-- `brelse`: the buffer becomes the first one of the ring and is no longer
busy. -/
def brelse (b : BufId) : Act Cache Unit := do
  let bp ← Act.gets fun c => c.buf b
  if bp.flags.busy = false then
    Act.halt (.panic "bwrite: buffer isn't busy")
  else
    Act.modify fun c => c.unlink (.fsbuf b)
    Act.modify fun c => c.linkFirst (.fsbuf b)
    updBuf b fun bp => { bp with flags := { bp.flags with busy := false } }

/-- What a call of `getblk` or `bread` comes to: the buffer it returns, its call
of `sleep_on` in `getblk`, or that in `hd_rw` for a buffer. -/
inductive Outcome
  | returned (b : BufId)
  | asleepGetblk
  | asleepHdRw (b : BufId)
deriving DecidableEq, Repr

/-- `getblk`, or `bread` if `read` is set, from the label `repeat` of `getblk`
on. -/
def fetch (read : Bool) (dev nblk : Nat) : Act Cache Outcome := do
  match ← getblk dev nblk with
  | .asleep => return .asleepGetblk
  | .buf b =>
      let bp ← Act.gets fun c => c.buf b
      if read = true ∧ bp.flags.valid = false then
        if ← bufLlRw b then
          return .returned b
        else
          return .asleepHdRw b
      else
        return .returned b

end Fs

end Chunix
