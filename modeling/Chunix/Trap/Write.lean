import Chunix.Trap.Syscall

/-!
# Output of a task

`sys_write` sends one character to the console, or a string up to its end with
`printk`. The length that the user asks for makes no other difference. The user's
`cat` reads a file in pieces of 512 bytes and writes each of them. The functions
return the characters that `put_c` gets.
-/

namespace Chunix

namespace Syscall

open Machine Act Sfs

/-- The characters of a text of the source. -/
def text (s : String) : List UInt8 := s.toList.map fun c => UInt8.ofNat c.toNat

/-- The element of `digits` in `printint`. -/
def digit (d : Nat) : UInt8 := if d < 10 then UInt8.ofNat (48 + d) else UInt8.ofNat (55 + d)

/-- The digits that `printint` puts into its buffer, the last one first. A number has at
most 32 of them. -/
def digits (base : Nat) : Nat → Nat → List UInt8
  | 0, _ => []
  | n + 1, ui => digit (ui % base) :: if ui / base = 0 then [] else digits base n (ui / base)

/-- `printint` of a word. -/
def printint (n base : Nat) (sign : Bool) : List UInt8 :=
  let neg := sign && decide (2147483648 ≤ n)
  let buf := digits base 32 (if neg then u32 (4294967296 - n) else n)
  let buf := if neg then buf ++ text "-" else buf
  let buf := if base = 2 then buf ++ text "b" else if base = 8 then buf ++ text "o"
    else if base = 16 then buf ++ text "x" else buf
  (if base ≠ 10 then buf ++ text "0" else buf).reverse

/-- The conversion that the character `c` behind a `%` stands for, if there is one. -/
def convert (c : UInt8) (arg : Nat) : Option (Act Mm (List UInt8)) :=
  if [c] = text "d" then some (return printint arg 10 true)
  else if [c] = text "b" then some (return printint arg 2 false)
  else if [c] = text "o" then some (return printint arg 8 false)
  else if [c] = text "x" ∨ [c] = text "p" then some (return printint arg 16 false)
  else if [c] = text "c" then some (return [UInt8.ofNat arg])
  else if [c] = text "s" then some (chars 4294967296 arg)
  else none

/-- `printk` with a format and the words behind it. -/
def printk : List UInt8 → List Nat → Act Mm (List UInt8)
  | [], _ => return []
  | [c], _ => return if [c] = text "%" then [] else [c]
  | c :: d :: fmt, ap => do
      if [c] ≠ text "%" then
        return c :: (← printk (d :: fmt) ap)
      match convert d (ap.headD 0) with
      | none => printk fmt ap
      | some x => return (← x) ++ (← printk fmt ap.tail)

/-- `sf_write`, whose result is not set and not used. -/
def sfWrite (fd buf n : Nat) : Act Mm (List UInt8) := do
  return (← printk (text "in sf_write: fd: %d, buf: %s, n: %d\n") [fd, buf, n]) ++
    (← printk (text "In filewrite\n") [])

/-- `sys_write` with its arguments: the result, which is always zero, and the output. -/
def writeFile (fd p len : Nat) : Act World (Int × List UInt8) := do
  if fd = 1 ∨ fd = 2 then
    if len = 1 then
      return (0, [← onMm (Mm.vload8 p)])
    else
      return (0, ← onMm (printk (text "%s") [p]))
  else
    return (0, ← onMm (sfWrite fd p len))

/-- `sys_write`. -/
def sysWrite : Act World (Int × List UInt8) := do
  let fd ← argint 0
  let p ← argstr 1
  let len ← argint 2
  writeFile fd p len

/-- `sys_read` with its arguments. -/
def readFile (fd p len : Nat) : Act World Int :=
  if fd = 0 then stdinRead Mm.vstore8 p (int32 len) else sfsRead Mm.vstore8 (int32 fd) p (int32 len)

/-- The user's `read`: the end of the string at `buf` is looked for first. -/
def read (fd buf n : Nat) : Act World Int := do
  let _ ← getstr buf
  readFile fd buf n

/-- The user's `write`. -/
def write (fd buf n : Nat) : Act World (Int × List UInt8) := do
  let _ ← getstr buf
  writeFile fd buf n

/-- The loop of the user's `cat` with the array `buf` of 512 bytes, and the output. -/
def cat (fd buf : Nat) : Nat → Act World (List UInt8)
  | 0 => Act.halt .hang
  | fuel + 1 => do
      let n ← read fd buf 512
      if 0 < n then
        let r ← write 1 buf (word n)
        return r.2 ++ (← cat fd buf fuel)
      else return []

end Syscall

end Chunix
