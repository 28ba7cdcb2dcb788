import Chunix.Fs.Sequential
import Chunix.Sfs.Writer

/-!
# The file system of the kernel

`check_sfs` reads the superblock, `sfs_find_index` walks through the index from
the entry behind the marker down to the root entry and compares names, and
`sfs_read_file` copies the blocks of a file. All of them read the memory disk
through the buffer cache.
-/

namespace Chunix

namespace Sfs

open Machine Fs

/-- `SFS_DEV`, the first device of the memory disk. -/
def sfsDev : Nat := 256

/-- The conversion of a word to the type `int`. -/
def int32 (n : Nat) : Int := if n < 2147483648 then n else n - 4294967296

/-- The conversion of an `int` to a word. -/
def word (z : Int) : Nat := (z % 4294967296).toNat

/-- The value of a byte of type `char`. -/
def char (b : UInt8) : Int := if b.toNat < 128 then b.toNat else b.toNat - 256

/-- The kernel's `strncmp` of `n` characters. It does not stop at a zero byte. -/
def strncmp (s t : Memory) : Nat → Int
  | 0 => 0
  | n + 1 =>
      if s 0 = t 0 then strncmp (fun i => s (i + 1)) (fun i => t (i + 1)) n
      else char (s 0) - char (t 0)

/-- The variables that `obtain_sb_info` sets. -/
structure Super where
  nblk : Nat
  reservedBlk : Nat
  daBlocks : Nat
  iaNum : Nat
  blockSize : Nat
deriving DecidableEq, Repr

def readBlock (sec : Nat) : Act Cache Sector := readSector sfsDev sec

def readDataBlock (s : Super) (n : Nat) : Act Cache Sector := readBlock (u32 (u32 n + s.reservedBlk))

def readIndex (s : Super) (sec : Nat) : Act Cache Index := do
  let n := u32 (s.nblk + 4294967296 - sec / 8 - 1)
  let offset := 512 - (sec % 8 + 1) * 64
  let b ← readSector sfsDev n
  return slice 64 (extend b zeros) offset

def obtainSbInfo (sb : Memory) : Super where
  nblk := u32 (getLe sb 432 8)
  reservedBlk := getLe sb 440 4
  daBlocks := u32 (getLe sb 412 8)
  iaNum := u32 (getLe sb 420 8 / 64)
  blockSize := getLe sb 444 1

/-- What `check_sfs` finds: the sum it complains about unless it is zero, and the
superblock unless it says that this is not an SFS file system. -/
structure Check where
  sum : UInt8
  super : Option Super

def checkSfs : Act Cache Check := do
  let buf ← readBlock 0
  let sb := extend buf zeros
  if strncmp (fun i => sb (428 + i)) (literal [0x53, 0x46, 0x53]) 3 ≠ 0 ∨ sb 431 ≠ 0x10 then
    return ⟨calcChecksum sb, none⟩
  else
    return ⟨calcChecksum sb, some (obtainSbInfo sb)⟩

/-- `check_sfs` at boot. The variables stay zero when it does not accept the
superblock. -/
def mount : Act Cache Super := do
  let c ← checkSfs
  return c.super.getD ⟨0, 0, 0, 0, 0⟩

def etype (idx : Index) : Nat := (idx 0).toNat

def ne (idx : Index) : Nat := (idx 1).toNat

def blkStart (idx : Index) : Nat := getLe (extend idx zeros) 10 8

def blkEnd (idx : Index) : Nat := getLe (extend idx zeros) 18 8

def len (idx : Index) : Nat := getLe (extend idx zeros) 26 8

def iatDirEnt : Nat := 0x11

def iatFileEnt : Nat := 0x12

/-- The loop that reads the continuation entries of a long name. The name it puts
together is only printed. -/
def readConts (s : Super) (nindex : Int) : Nat → Act Cache Unit
  | 0 => pure ()
  | ne + 1 => do
      let _ ← readIndex s (word (nindex + (ne + 1)))
      readConts s nindex ne

/-- The comparison `strncmp(file, name, len) == 0` with the name at the offset
`nameAt` of the entry. It reads past the end of the entry when `file` is longer
than the field; `after` are the bytes that lie there. -/
def accepts (after : Memory) (file : CString) (nameAt : Nat) (idx : Index) : Bool :=
  strncmp file.text (fun i => extend idx after (nameAt + i)) file.len = 0

/-- The branch of `sfs_find_index` for a directory and the one for a file. -/
def examine (s : Super) (after : Memory) (file : CString) (nameAt space : Nat) (nindex : Int)
    (idx : Index) : Act Cache Bool :=
  if ne idx = 0 ∧ file.len ≤ space then return accepts after file nameAt idx
  else do
    readConts s nindex (ne idx)
    return accepts after file nameAt idx

/-- The result of `sfs_find_index` and the contents of `*idxp`. `seen` are the
entries that the loop has examined, with their places in the index. -/
structure Found where
  ret : Nat
  idx : Index
  seen : List (Nat × Index)

def findLoop (s : Super) (after : Memory) (file : CString) (nindex : Int) (idx : Index)
    (seen : List (Nat × Index)) : Act Cache Found :=
  if 0 < nindex then do
    let idx ← readIndex s (word nindex)
    let seen := seen ++ [(word nindex, idx)]
    if etype idx = iatDirEnt then do
      let ret ← examine s after file 10 54 (nindex - (ne idx + 1)) idx
      if ret then return ⟨1, idx, seen⟩
      else findLoop s after file (nindex - (ne idx + 1)) idx seen
    else if etype idx = iatFileEnt then do
      let ret ← examine s after file 34 30 (nindex - (ne idx + 1)) idx
      if ret then return ⟨1, idx, seen⟩
      else findLoop s after file (nindex - (ne idx + 1)) idx seen
    else return ⟨0, idx, seen⟩
  else return ⟨0, idx, seen⟩
termination_by nindex.toNat

/-- `sfs_find_index` with the contents of `*idxp` before the call. -/
def sfsFindIndex (s : Super) (after : Memory) (file : CString) (idx : Index) : Act Cache Found :=
  findLoop s after file (int32 (u32 (s.iaNum + 4294967295))) idx []

/-- The loop of `sfs_read_file`: `dst` bytes of `buf` are already written. -/
def blockLoop (s : Super) (m : Nat) (len : Int) (buf : Memory) (dst : Nat) :
    Act Cache (Int × Memory) :=
  if 0 < len then do
    let sz := if 512 < len then 512 else len.toNat
    let buffer ← readDataBlock s m
    blockLoop s (m + 1) (len - sz) (paste buf dst sz (extend buffer zeros)) (dst + sz)
  else return (dst, buf)
termination_by len.toNat

/-- `sfs_read_file` from the check of `etype` on: the result and the buffer. -/
def readEntry (s : Super) (idx : Index) (buf : Memory) (nb : Nat) : Act Cache (Int × Memory) :=
  if etype idx ≠ iatFileEnt then return (-1, buf)
  else
    let l := int32 (u32 (len idx))
    blockLoop s (blkStart idx) (if l < nb then l else nb) (fill buf 0 nb 0) 0

def sfsReadFile (s : Super) (after : Memory) (file : CString) (idx : Index) (buf : Memory)
    (nb : Nat) : Act Cache (Int × Memory) := do
  let f ← sfsFindIndex s after file idx
  if f.ret = 0 then return (-1, buf) else readEntry s f.idx buf nb

end Sfs

end Chunix
