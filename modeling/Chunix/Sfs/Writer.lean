import Chunix.Machine.Bytes
import Mathlib.Data.Option.Basic
import Mathlib.Data.UInt

/-!
# The host tool `mk_sfs`

`mk_sfs` writes an image of `NBLK` blocks. Block `0` is the superblock; the data of
the files grows from block `1` upwards, and the index grows from the end of the
image downwards in elements of `64` bytes. A file or a directory has an initial
entry and, when its name is long, continuation entries in the elements before it;
a marker follows the last entry. The tool stops as soon as the two areas would
meet, so every step of the model returns an `Option`.
-/

namespace Chunix

namespace Sfs

open Machine

/-- An element of the index area, of `IE_SIZE` bytes. -/
abbrev Index := Fin 64 → UInt8

/-- What `stat` says about a path and what `read` then gives. -/
inductive Kind
  | directory
  | regular (content : List UInt8)
  | other

/-- An argument of the tool. `stat` fails on an empty path and on one that is
longer than `PATH_MAX`. -/
structure Arg where
  name : CString
  stat : Option Kind
  accepted : stat.isSome → 0 < name.len ∧ name.len ≤ 4095

/-- The state of the tool: the file it writes, where `lseek` and a later `write`
leave zero bytes, and its two counters. `initial` is not part of the tool: it
notes the initial entries in the order in which they are written. -/
structure Mk where
  img : Memory
  daBlocks : Nat
  iaNum : Nat
  initial : List (Nat × Index)

/-- The variable that `inc_and_verify` increments. -/
inductive Var
  | daBlocks
  | iaNum

def Mk.add (mk : Mk) : Var → Nat → Mk
  | .daBlocks, n => { mk with daBlocks := u32 (mk.daBlocks + n) }
  | .iaNum, n => { mk with iaNum := u32 (mk.iaNum + n) }

def incAndVerify (nblk : Nat) (var : Var) (n : Nat) (mk : Mk) : Option Mk :=
  let mk := mk.add var n
  if nblk ≤ u32 (mk.daBlocks + (u32 (mk.iaNum + 1) / 8 + 1)) then none else some mk

/-- A stretch of memory cleared by `memset`. -/
def zeros : Memory := fun _ => 0

/-- The library's `strncpy` into the `n` bytes at `a`: nothing is copied from
behind the zero byte, and the rest is filled with zero bytes. -/
def strncpy (d : Memory) (a : Nat) (s : Memory) (n : Nat) : Memory :=
  paste d a n fun i => if ∀ j, j ≤ i → s j ≠ 0 then s i else 0

def Mk.setImg (mk : Mk) (img : Memory) : Mk := { mk with img := img }

@[simp] theorem Mk.img_setImg (mk : Mk) (img : Memory) : (mk.setImg img).img = img := rfl

@[simp] theorem Mk.daBlocks_setImg (mk : Mk) (img : Memory) :
    (mk.setImg img).daBlocks = mk.daBlocks := rfl

@[simp] theorem Mk.iaNum_setImg (mk : Mk) (img : Memory) :
    (mk.setImg img).iaNum = mk.iaNum := rfl

@[simp] theorem Mk.initial_setImg (mk : Mk) (img : Memory) :
    (mk.setImg img).initial = mk.initial := rfl

def writeElem (n elemSize : Nat) (buf : Memory) (mk : Mk) : Mk :=
  mk.setImg (paste mk.img (u32 (n * elemSize)) elemSize buf)

def writeBlock (sec : Nat) (buf : Memory) (mk : Mk) : Mk := writeElem sec 512 buf mk

@[simp] theorem daBlocks_writeBlock (sec : Nat) (buf : Memory) (mk : Mk) :
    (writeBlock sec buf mk).daBlocks = mk.daBlocks := by
  rw [writeBlock, writeElem, Mk.daBlocks_setImg]

@[simp] theorem iaNum_writeBlock (sec : Nat) (buf : Memory) (mk : Mk) :
    (writeBlock sec buf mk).iaNum = mk.iaNum := by
  rw [writeBlock, writeElem, Mk.iaNum_setImg]

@[simp] theorem initial_writeBlock (sec : Nat) (buf : Memory) (mk : Mk) :
    (writeBlock sec buf mk).initial = mk.initial := by
  rw [writeBlock, writeElem, Mk.initial_setImg]

/-- The number of index elements that the image has room for. -/
def nindex (nblk : Nat) : Nat := u32 (nblk * 8)

def writeIndex (nblk sec : Nat) (buf : Memory) (mk : Mk) : Mk :=
  writeElem (u32 (nindex nblk + 4294967296 - sec - 1)) 64 buf mk

@[simp] theorem daBlocks_writeIndex (nblk sec : Nat) (buf : Memory) (mk : Mk) :
    (writeIndex nblk sec buf mk).daBlocks = mk.daBlocks := by
  rw [writeIndex, writeElem, Mk.daBlocks_setImg]

@[simp] theorem iaNum_writeIndex (nblk sec : Nat) (buf : Memory) (mk : Mk) :
    (writeIndex nblk sec buf mk).iaNum = mk.iaNum := by
  rw [writeIndex, writeElem, Mk.iaNum_setImg]

@[simp] theorem initial_writeIndex (nblk sec : Nat) (buf : Memory) (mk : Mk) :
    (writeIndex nblk sec buf mk).initial = mk.initial := by
  rw [writeIndex, writeElem, Mk.initial_setImg]

/-- The note of an initial entry. -/
def Mk.note (mk : Mk) (sec : Nat) (idx : Index) : Mk :=
  { mk with initial := mk.initial ++ [(sec, idx)] }

@[simp] theorem Mk.img_note (mk : Mk) (sec : Nat) (idx : Index) : (mk.note sec idx).img = mk.img :=
  rfl

@[simp] theorem Mk.daBlocks_note (mk : Mk) (sec : Nat) (idx : Index) :
    (mk.note sec idx).daBlocks = mk.daBlocks := rfl

@[simp] theorem Mk.iaNum_note (mk : Mk) (sec : Nat) (idx : Index) :
    (mk.note sec idx).iaNum = mk.iaNum := rfl

@[simp] theorem Mk.initial_note (mk : Mk) (sec : Nat) (idx : Index) :
    (mk.note sec idx).initial = mk.initial ++ [(sec, idx)] := rfl

/-- `write_index` for an initial entry. -/
def writeInitial (nblk sec : Nat) (buf : Memory) (mk : Mk) : Mk :=
  (writeIndex nblk sec buf mk).note sec (slice 64 buf 0)

def reservedBlk : Nat := 1

def blockIndex (daNum : Nat) : Nat := u32 (daNum + reservedBlk)

/-- The sum of the bytes from `magic_num` to `checksum`. -/
def calcChecksum (sb : Memory) : UInt8 := ((List.range 18).map fun i => sb (0x1ac + i)).sum

/-- The fields `time_stamp`, `da_blk` and `ia_size` of the superblock. -/
def setAreas (sb : Memory) (daBlk iaSize : Nat) : Memory :=
  putLe (putLe (putLe sb 404 8 0) 412 8 daBlk) 420 8 iaSize

/-- The superblock of `init_sb` before the checksum is set. -/
def blankSb (nblk : Nat) : Memory :=
  let sb := setAreas zeros 0 0
  let sb := putLe (putLe (putLe sb 428 1 0x53) 429 1 0x46) 430 1 0x53
  let sb := putLe sb 431 1 0x10
  let sb := putLe sb 432 8 nblk
  let sb := putLe sb 440 4 reservedBlk
  let sb := putLe sb 444 1 2
  putLe sb 445 1 0

def superblock (nblk : Nat) : Memory :=
  putLe (blankSb nblk) 445 1 (0 - calcChecksum (blankSb nblk)).toNat

def initSb (nblk : Nat) (mk : Mk) : Mk := writeBlock 0 (superblock nblk) mk

def updateSb (mk : Mk) : Mk :=
  writeBlock 0 (setAreas mk.img mk.daBlocks (u32 (mk.iaNum * 64))) mk

def mark : Memory := putLe zeros 0 1 0x02

/-- The text of a string literal. -/
def literal (l : List UInt8) : Memory := fun i => l.getD i 0

/-- The volume identifier, with the name `sfs-1.0`. -/
def volId : Memory :=
  strncpy (putLe zeros 0 1 0x01) 12 (literal [0x73, 0x66, 0x73, 0x2d, 0x31, 0x2e, 0x30]) 8

def initIndex (nblk : Nat) (mk : Mk) : Option Mk := do
  let mk := { mk with iaNum := 0 }
  let mk := writeIndex nblk mk.iaNum volId mk
  let mk ← incAndVerify nblk .iaNum 1 mk
  return writeIndex nblk mk.iaNum mark mk

/-- The layout that `struct sfs_dir` and `struct sfs_file` of the tool share, with
a name of up to `30` bytes. The field `time` is zero. -/
def entry (etype ne blkStart blkEnd len : Nat) (name : Memory) : Memory :=
  let idx := putLe (putLe zeros 0 1 etype) 1 1 ne
  let idx := putLe (putLe (putLe idx 10 8 blkStart) 18 8 blkEnd) 26 8 len
  strncpy idx 34 name 30

def direntLen (x : Nat) : Nat := 4 + 4 + x + 1

/-- The length of the items `.` and `..`; the items themselves are not written. -/
def createDotDirItems : Nat := direntLen 1 + direntLen 2

/-- The entry of the root directory, with the name `/`. -/
def rootEntry (daBlocks : Nat) : Memory :=
  entry 0x11 0 daBlocks daBlocks createDotDirItems (literal [0x2f])

def initRoot (nblk : Nat) (mk : Mk) : Option Mk := do
  let mk := writeInitial nblk mk.iaNum (rootEntry mk.daBlocks) mk
  let mk ← incAndVerify nblk .daBlocks 1 mk
  let mk ← incAndVerify nblk .iaNum 1 mk
  return writeIndex nblk mk.iaNum mark mk

/-- The loop of `write_data` over what is left of the file. -/
def writeData (nblk : Nat) (content : List UInt8) (mk : Mk) : Option Mk :=
  if content = [] then some mk
  else do
    let buf := fun i => (content.take 512).getD i 0
    let mk ← incAndVerify nblk .daBlocks 1 (writeBlock (blockIndex mk.daBlocks) buf mk)
    writeData nblk (content.drop 512) mk
termination_by content.length
decreasing_by
  have := List.length_pos_iff.2 ‹_›
  simp only [List.length_drop]
  omega

/-- The number of continuation entries for a name of `len` bytes. -/
def nieFile (len : Nat) : Nat := (len + 34 + 1) / 64

/-- The loop that writes the continuation entries. The last of them may start
one byte behind the end of the name. -/
def writeConts (nblk : Nat) (name : CString) : Nat → Mk → Mk
  | 0, mk => mk
  | i + 1, mk =>
      let mk := writeConts nblk name i mk
      writeIndex nblk (mk.iaNum - 2 - i)
        (strncpy zeros 0 (fun x => name.text (30 + 64 * i + x)) 64) mk

def writeFile (nblk : Nat) (a : Arg) (mk : Mk) : Option Mk :=
  let nie := nieFile a.name.len
  match a.stat with
  | none => none
  | some .other => none
  | some .directory => do
      let mk ← incAndVerify nblk .iaNum (nie + 1) mk
      let mk := writeIndex nblk mk.iaNum mark mk
      let mk := writeInitial nblk (mk.iaNum - 1) (entry 0x11 nie 0 0 0 a.name.text) mk
      return writeConts nblk a.name nie mk
  | some (.regular content) => do
      let mk ← incAndVerify nblk .iaNum (nie + 1) mk
      let mk := writeIndex nblk mk.iaNum mark mk
      let blkStart := mk.daBlocks
      let mk ← writeData nblk content mk
      let blkEnd := u32 (mk.daBlocks + 4294967295)
      let mk := writeInitial nblk (mk.iaNum - 1)
        (entry 0x12 nie blkStart blkEnd content.length a.name.text) mk
      return writeConts nblk a.name nie mk

/-- The files of the command line, one after the other. -/
def writeFiles (nblk : Nat) : List Arg → Mk → Option Mk
  | [], mk => some mk
  | a :: args, mk => do
      let mk ← writeFile nblk a mk
      writeFiles nblk args mk

/-- A run of the tool that gets as far as `update_sb`. -/
def mkSfs (nblk : Nat) (args : List Arg) : Option Mk := do
  let mk := initSb nblk ⟨zeros, 0, 0, []⟩
  let mk ← initIndex nblk mk
  let mk ← initRoot nblk mk
  let mk ← writeFiles nblk args mk
  return updateSb mk

end Sfs

end Chunix
