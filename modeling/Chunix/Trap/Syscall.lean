import Chunix.Sfs.Inodes
import Chunix.Task.Basic
import Mathlib.Data.FinEnum

/-!
# System calls

`syscall` takes a number from the user's `eax`, reads the entry of the table
`syscalls` that it stands for and calls it. The arguments lie on the user's stack.
`sys_read` and `sys_stat` store what they return through a pointer that is one of
the arguments. Neither the number nor the pointer is checked.
-/

namespace Chunix

namespace Syscall

open Machine Act Sfs

/-- The functions registered in `syscalls`. -/
inductive Handler
  | sysOpen
  | sysCreat
  | sysRead
  | sysWrite
  | sysClose
  | sysGticks
  | sysFork
  | sysWait
  | sysExit
  | sysExec
  | sysStat
deriving DecidableEq, Repr

/-- The number of a system call, the index of its function in `syscalls`. -/
def Handler.number : Handler → Nat
  | sysOpen => 1
  | sysCreat => 2
  | sysRead => 3
  | sysWrite => 4
  | sysClose => 5
  | sysGticks => 6
  | sysFork => 7
  | sysWait => 8
  | sysExit => 9
  | sysExec => 10
  | sysStat => 11

/-- The functions in the order of their numbers. -/
def Handler.all : List Handler :=
  [.sysOpen, .sysCreat, .sysRead, .sysWrite, .sysClose, .sysGticks, .sysFork, .sysWait, .sysExit,
    .sysExec, .sysStat]

/-- The characters that have been typed, `struct console_buf`. -/
structure Console where
  buf : Nat → UInt8
  rpos : Nat
  wpos : Nat

/-- The buffer behind its next character. -/
def Console.next (c : Console) : Console :=
  { c with rpos := if c.rpos + 1 = 2000 then 0 else c.rpos + 1 }

/-- What `sfs_read` reads through a file descriptor: the length and the first
block of the file, and the position in it. -/
structure Desc where
  len : Nat
  blkStart : Nat
  pos : Nat
deriving DecidableEq

/-- The kernel in a system call. `syscalls` is the address of the table and
`entry` has those of the functions. `wild` is what `sfs_read` finds through an
element of `ofile` that `sfs_open` has not set, or through one in front of the
array, unless the access faults. -/
structure World where
  kernel : Kernel
  files : Files Slot
  cons : Console
  syscalls : Nat
  entry : Handler → Nat
  wild : Int → Option Desc

/-- An action of the memory manager, in a system call. -/
def onMm {α : Type} (x : Act Mm α) : Act World α :=
  Act.zoom (fun w => w.kernel.mm) (fun m w => { w with kernel := { w.kernel with mm := m } }) x

/-- An action of the file system, in a system call. -/
def onFiles {α : Type} (x : Act (Files Slot) α) : Act World α :=
  Act.zoom (fun w => w.files) (fun f w => { w with files := f }) x

def getCurrent : Act World Slot := do
  match (← Act.get).kernel.current with
  | some t => return t
  | none => Act.halt (.fault 0)

def getTask : Act World Task := do
  let c ← getCurrent
  Act.gets fun w => w.kernel.tasks c

/-- The offset of `eax` in `struct stack_frame`. -/
def eaxAt : Nat := 44

/-- The offset of `esp` in `struct stack_frame`. -/
def espAt : Nat := 72

/-- What `syscall` comes to: the call of a function of the table, the number not
being known, or the jump to an address that is no such function. -/
inductive Dispatch
  | called (h : Handler)
  | unknown
  | wild (addr : Nat)

/-- `syscall` up to the call of the function. The index is not checked, and the
address of the entry is computed in 32 bits. -/
def syscall : Act World Dispatch := do
  let tp ← getTask
  let num ← onMm (Mm.kload (tp.tf + eaxAt))
  let w ← Act.get
  let p ← onMm (Mm.vload32 (u32 (w.syscalls + 4 * num)))
  if p ≠ 0 then
    match Handler.all.find? fun h => w.entry h = p with
    | some h => return .called h
    | none => return .wild p
  else
    onMm (Mm.kstore (tp.tf + eaxAt) 4294967295)
    return .unknown

/-- `getint`, which checks nothing. -/
def getint (addr : Nat) : Act World Nat := onMm (Mm.vload32 addr)

/-- The characters of the string at an address. The loop goes through all
addresses if there is no zero byte. -/
def chars : Nat → Nat → Act Mm (List UInt8)
  | 0, _ => Act.halt .hang
  | n + 1, va => do
      let c ← Mm.vload8 va
      if c = 0 then return []
      else
        let cs ← chars n (u32 (va + 1))
        return c :: cs

/-- `getstr`: the length of the string at an address. -/
def getstr (addr : Nat) : Act World Nat := do
  let cs ← onMm (chars 4294967296 addr)
  return cs.length

def argint (n : Nat) : Act World Nat := do
  let tp ← getTask
  let esp ← onMm (Mm.kload (tp.tf + espAt))
  getint (u32 (esp + 4 + 4 * n))

/-- `argstr`: the pointer, once the end of the string has been found. -/
def argstr (n : Nat) : Act World Nat := do
  let addr ← argint n
  let _ ← getstr addr
  return addr

/-- The string at an address of the user, as the file system reads it. -/
def readString (addr : Nat) : Act Mm CString := do
  let cs ← chars 4294967296 addr
  if h : cs.length < 2147483648 ∧ ∀ c ∈ cs, c ≠ 0 then return .ofList cs h.1 h.2
  else Act.halt .hang

/-- The character that `get_c(0)` takes from the buffer, and `-1` if there is
none. -/
def getC : Act World Int := do
  let c ← Act.gets fun w => w.cons
  if c.rpos = c.wpos then return -1
  else
    Act.modify fun w => { w with cons := w.cons.next }
    return char (c.buf c.rpos)

theorem toNat_lt_ofile {fd : Int} (h : 0 ≤ fd ∧ fd < 16) : fd.toNat < 16 := by omega

/-- What `current->ofile[fd]` leads to. -/
def World.desc (w : World) (c : Slot) (fd : Int) : Option Desc :=
  let slot := if h : 0 ≤ fd ∧ fd < 16 then w.files.ofile c ⟨fd.toNat, toNat_lt_ofile h⟩ else none
  match slot with
  | none => w.wild fd
  | some i =>
      match (w.files.fdtable i).inode with
      | none => w.wild fd
      | some ip =>
          let idx := (w.files.ibuf ip).sindex
          some ⟨len idx, blkStart idx, (w.files.fdtable i).pos⟩

/-- The value of an `int` as an operand of 64 bits. -/
def word64 (z : Int) : Nat := (z % 18446744073709551616).toNat

/-- The number of bytes that `sfs_read` copies for a request of `n`, the smaller
one of `n` and what is left of the file. Both are taken as unsigned numbers. -/
def Desc.left (d : Desc) (n : Int) : Nat :=
  u32 (min (word64 n) ((d.len + 18446744073709551616 - d.pos) % 18446744073709551616))

/-- The step of `f_pos` behind a copied block. -/
def addPos (c : Slot) (fd : Int) (len : Int) : Act World Unit :=
  Act.modify fun w =>
    if h : 0 ≤ fd ∧ fd < 16 then
      match w.files.ofile c ⟨fd.toNat, toNat_lt_ofile h⟩ with
      | none => w
      | some i => { w with files := { w.files with
          fdtable := Function.update w.files.fdtable i
            { w.files.fdtable i with pos := u32 ((w.files.fdtable i).pos + word len) } } }
    else w

section

variable (put : Nat → UInt8 → Act Mm Unit)

/-- `memmove` and `memset` to user memory: `f` gives the bytes. The stores are
made by `put`. -/
def copy (va : Nat) (f : Nat → UInt8) : Nat → Nat → Act World Unit
  | 0, _ => pure ()
  | n + 1, i => do
      onMm (put (va + i) (f i))
      copy va f n (i + 1)

/-- The loop of `stdin_read` with `n` characters to come. -/
def stdinLoop (buf : Nat) : Nat → Nat → Act World Int
  | 0, i => return i
  | n + 1, i => do
      let r ← getC
      if r = -1 then return -1
      else
        onMm (put (buf + i) (UInt8.ofNat (word r)))
        stdinLoop buf n (i + 1)

def stdinRead (buf : Nat) (n : Int) : Act World Int := stdinLoop put buf n.toNat 0

/-- The loop of `sfs_read` over the blocks behind the first one. -/
def readLoop (c : Slot) (fd : Int) (nb : Nat) (n : Int) (buf : Nat) (count : Int) :
    Act World Int :=
  if 0 < n then do
    let s ← Act.gets fun w => w.files.super
    let xbuf ← onFiles (onCache (readDataBlock s nb))
    let l := min 512 n
    copy put buf (extend xbuf zeros) l.toNat 0
    addPos c fd l
    readLoop c fd (nb + 1) (n - l) (buf + l.toNat) (count + l)
  else return count
termination_by n.toNat

/-- `sfs_read` with what the descriptor leads to. -/
def readDesc (c : Slot) (fd : Int) (buf : Nat) (n : Int) : Option Desc → Act World Int
  | none => Act.halt (.fault 0)
  | some d => do
      let n := int32 (d.left n)
      let nb := d.blkStart + d.pos / 512
      let offset := d.pos % 512
      let s ← Act.gets fun w => w.files.super
      let xbuf ← onFiles (onCache (readDataBlock s nb))
      let l := min n (512 - offset)
      copy put buf (fun i => extend xbuf zeros (offset + i)) (word l) 0
      addPos c fd l
      readLoop put c fd (nb + 1) (n - l) (buf + word l) l

/-- `sfs_read`. The pointer `current->ofile[fd]` is used without a check. -/
def sfsRead (fd : Int) (buf : Nat) (n : Int) : Act World Int :=
  if 16 ≤ fd then return -1
  else do
    let c ← getCurrent
    let d ← Act.gets fun w => w.desc c fd
    readDesc put c fd buf n d

/-- `sys_read`. -/
def sysRead : Act World Int := do
  let fd ← argint 0
  let p ← argstr 1
  let len ← argint 2
  if fd = 0 then stdinRead put p (int32 len) else sfsRead put (int32 fd) p (int32 len)

/-- The fields of `*buf` that `sfs_stat` sets at its end. -/
def putStat (buf : Nat) (st : Stat) : Act World Unit := do
  copy put (buf + 4) (fun i => UInt8.ofNat (st.mode / 256 ^ i)) 4 0
  copy put (buf + 8) (fun i => UInt8.ofNat (word st.size / 256 ^ i)) 4 0
  copy put buf (fun i => UInt8.ofNat (st.dev / 256 ^ i)) 2 0

/-- `sys_stat`. The buffer is cleared before the path is read. -/
def sysStat (fr : Frame) : Act World Int := do
  let path ← argstr 0
  let buf ← argstr 1
  copy put buf (fun _ => 0) 12 0
  let path ← onMm (readString path)
  let r ← onFiles (sfsStat fr path)
  if r.1 = 0 then
    putStat put buf r.2
    return 0
  else return r.1

end

end Syscall

end Chunix
