import Chunix.Machine.Bytes
import Chunix.Machine.Interrupt

/-!
# The descriptor tables

`set_descriptor` and `set_gate` spread their arguments over the fields of an entry of eight bytes.
`init_gdt` makes the segments of the kernel and of user programs and that of the task state,
`init_idt` the gates, each of which leads to the routine of `isr_table` with its number. The
processor reads the entries back with `gateAt` and `dplOf`.
-/

namespace Chunix

namespace Descr

open Machine

def kerCode : Nat := 0x08

def kerData : Nat := 0x10

def usrCode : Nat := 0x18

def usrData : Nat := 0x20

def kerTss : Nat := 0x28

/-- The number `ISR_NUM` of gates that `init_idt` makes in its loop. -/
def isrNum : Nat := 0x30

/-- The vector `T_SYSCALL`. -/
def tSyscall : Nat := 48

/-- `struct descriptor`, with fields of 16 and of 8 bits. -/
structure Descriptor where
  limLow : Nat
  baseLow : Nat
  baseMid : Nat
  attr1 : Nat
  attr2LimHigh : Nat
  baseHigh : Nat
deriving DecidableEq, Repr

/-- The bytes of a descriptor in the order of its fields. -/
def Descriptor.bytes (d : Descriptor) : Memory
  | 0 => UInt8.ofNat d.limLow
  | 1 => UInt8.ofNat (d.limLow / 256)
  | 2 => UInt8.ofNat d.baseLow
  | 3 => UInt8.ofNat (d.baseLow / 256)
  | 4 => UInt8.ofNat d.baseMid
  | 5 => UInt8.ofNat d.attr1
  | 6 => UInt8.ofNat d.attr2LimHigh
  | _ => UInt8.ofNat d.baseHigh

/-- `set_descriptor`: the fields for a segment. -/
def setDescriptor (base lim attr : Nat) : Descriptor where
  baseLow := base &&& 0xffff
  baseMid := (base >>> 16) &&& 0xff
  baseHigh := (base >>> 24) % 256
  limLow := lim &&& 0xffff
  attr1 := attr &&& 0xff
  attr2LimHigh := ((attr >>> 8) &&& 0xf0) ||| ((lim >>> 16) &&& 0x0f)

/-- The descriptor at an address. -/
def descriptorAt (m : Memory) (a : Nat) : Descriptor where
  limLow := (m a).toNat + 256 * (m (a + 1)).toNat
  baseLow := (m (a + 2)).toNat + 256 * (m (a + 3)).toNat
  baseMid := (m (a + 4)).toNat
  attr1 := (m (a + 5)).toNat
  attr2LimHigh := (m (a + 6)).toNat
  baseHigh := (m (a + 7)).toNat

/-- The base, limit and attributes that `dump_descriptor` prints. -/
def dumpDescriptor (d : Descriptor) : Nat × Nat × Nat :=
  ((d.baseHigh <<< 24) ||| (d.baseMid <<< 16) ||| d.baseLow,
    d.limLow ||| ((d.attr2LimHigh &&& 0x0f) <<< 16),
    d.attr1 ||| ((d.attr2LimHigh &&& 0xf0) <<< 8))

/-- The entry of the table that the selector names. -/
def putDescriptor (m : Memory) (sel : Nat) (d : Descriptor) : Memory := paste m sel 8 d.bytes

/-- `struct gate`, with fields of 16 and of 8 bits. -/
structure GateRec where
  offsetLow : Nat
  sel : Nat
  dcount : Nat
  attr : Nat
  offsetHigh : Nat
deriving DecidableEq, Repr

/-- The bytes of a gate in the order of its fields. -/
def GateRec.bytes (g : GateRec) : Memory
  | 0 => UInt8.ofNat g.offsetLow
  | 1 => UInt8.ofNat (g.offsetLow / 256)
  | 2 => UInt8.ofNat g.sel
  | 3 => UInt8.ofNat (g.sel / 256)
  | 4 => UInt8.ofNat g.dcount
  | 5 => UInt8.ofNat g.attr
  | 6 => UInt8.ofNat g.offsetHigh
  | _ => UInt8.ofNat (g.offsetHigh / 256)

/-- `set_gate`: the fields for a handler. -/
def setGate (offset attr sel : Nat) : GateRec where
  offsetLow := offset &&& 0xffff
  offsetHigh := (offset >>> 16) &&& 0xffff
  sel := sel
  dcount := 0x00
  attr := attr

/-- The entry `n` of the table. -/
def putGate (m : Memory) (n : Nat) (g : GateRec) : Memory := paste m (8 * n) 8 g.bytes

/-- `init_gdt`: the table, for a task state segment at `tss`. -/
def initGdt (tss : Nat) : Memory :=
  let m := putDescriptor (fun _ => 0) kerCode (setDescriptor 0 0xfffff (0xC0 <<< 8 ||| 0x9A))
  let m := putDescriptor m kerData (setDescriptor 0 0xfffff (0xC0 <<< 8 ||| 0x92))
  let m := putDescriptor m usrCode (setDescriptor 0 0xfffff (0xC0 <<< 8 ||| 0x60 ||| 0x9A))
  let m := putDescriptor m usrData (setDescriptor 0 0xfffff (0xC0 <<< 8 ||| 0x60 ||| 0x92))
  putDescriptor m kerTss (setDescriptor tss 103 0x89)

/-- The loop of `init_idt`. -/
def gateLoop (isrTable : Nat → Nat) : Nat → Memory → Memory
  | 0, m => m
  | n + 1, m => putGate (gateLoop isrTable n m) n (setGate (isrTable n) 0x8e kerCode)

/-- `init_idt`: the table of gates to the routines of `isrTable`. -/
def initIdt (isrTable : Nat → Nat) : Memory :=
  putGate (gateLoop isrTable isrNum fun _ => 0) tSyscall (setGate (isrTable tSyscall) 0xee kerCode)

theorem and_ffff (n : Nat) : n &&& 0xffff = n % 65536 := Nat.and_two_pow_sub_one_eq_mod n 16

theorem and_ff (n : Nat) : n &&& 0xff = n % 256 := Nat.and_two_pow_sub_one_eq_mod n 8

theorem and_0f (n : Nat) : n &&& 0x0f = n % 16 := Nat.and_two_pow_sub_one_eq_mod n 4

/-- The upper half of a byte. -/
theorem and_f0 {n : Nat} (h : n < 256) : n &&& 0xf0 = n / 16 * 16 := by
  have hall : ∀ i : Fin 256, i.val &&& 0xf0 = i.val / 16 * 16 := by decide +kernel
  exact hall ⟨n, h⟩

theorem or_shift {a b : Nat} (k : Nat) (h : b < 2 ^ k) : a <<< k ||| b = a * 2 ^ k + b := by
  rw [← Nat.shiftLeft_add_eq_or_of_lt h, Nat.shiftLeft_eq]

theorem descriptorAt_putDescriptor (m : Memory) (sel : Nat) (d : Descriptor) :
    descriptorAt (putDescriptor m sel d) sel =
      ⟨d.limLow % 65536, d.baseLow % 65536, d.baseMid % 256, d.attr1 % 256, d.attr2LimHigh % 256,
        d.baseHigh % 256⟩ := by
  have hbyte : ∀ i, i < 8 → putDescriptor m sel d (sel + i) = d.bytes i :=
    fun i hi => paste_apply_add hi
  have h₀ := hbyte 0 (by decide)
  rw [Nat.add_zero] at h₀
  unfold descriptorAt
  rw [h₀, hbyte 1 (by decide), hbyte 2 (by decide), hbyte 3 (by decide), hbyte 4 (by decide),
    hbyte 5 (by decide), hbyte 6 (by decide), hbyte 7 (by decide)]
  simp only [Descriptor.bytes, UInt8.toNat_ofNat', Descriptor.mk.injEq, and_true]
  omega

/-- What `dump_descriptor` prints of an entry that `set_descriptor` made: the base, the low 20
bits of the limit, and the attributes without the four bits that the limit has the place of. -/
theorem dumpDescriptor_setDescriptor {base attr : Nat} (m : Memory) (sel lim : Nat)
    (hbase : base < 4294967296) (hattr : attr < 65536) :
    dumpDescriptor (descriptorAt (putDescriptor m sel (setDescriptor base lim attr)) sel) =
      (base, lim % 1048576, attr % 256 + attr / 4096 * 4096) := by
  rw [descriptorAt_putDescriptor]
  have hhigh : (attr >>> 8) &&& 0xf0 = attr / 4096 * 16 := by
    rw [Nat.shiftRight_eq_div_pow, and_f0 (by omega)]
    omega
  have hmix : ((attr >>> 8) &&& 0xf0) ||| ((lim >>> 16) &&& 0x0f) =
      attr / 4096 * 16 + lim / 65536 % 16 := by
    rw [hhigh, and_0f, Nat.shiftRight_eq_div_pow]
    have h := or_shift (a := attr / 4096) 4 (b := lim / 65536 % 16) (by omega)
    rw [Nat.shiftLeft_eq] at h
    exact h
  simp only [setDescriptor, hmix]
  simp only [and_ffff, and_ff, Nat.shiftRight_eq_div_pow, dumpDescriptor, and_0f, Prod.mk.injEq]
  refine ⟨?_, ?_, ?_⟩
  · rw [Nat.or_assoc, or_shift 16 (by omega), or_shift 24 (by omega)]
    omega
  · rw [Nat.or_comm, or_shift 16 (by omega)]
    omega
  · rw [and_f0 (by omega), Nat.or_comm, or_shift 8 (by omega)]
    omega

/-- The entry of the user code segment is read back as it was written. -/
theorem dumpDescriptor_usrCode :
    dumpDescriptor (descriptorAt (putDescriptor (fun _ => 0) usrCode
      (setDescriptor 0 0xfffff (0xC0 <<< 8 ||| 0x60 ||| 0x9A))) usrCode) =
      (0, 0xfffff, 0xC0FA) :=
  @dumpDescriptor_setDescriptor 0 (0xC0 <<< 8 ||| 0x60 ||| 0x9A) (fun _ => 0) usrCode 0xfffff
    (by decide) (by decide)

theorem gateAt_putGate_self (m : Memory) (n : Nat) (g : GateRec) :
    gateAt (putGate m n g) n =
      ⟨g.offsetLow % 65536 + 65536 * (g.offsetHigh % 65536), g.sel % 65536, g.attr % 32,
        g.attr / 32 % 4, g.attr % 256 / 128 == 1⟩ := by
  have hbyte : ∀ i, i < 8 → putGate m n g (8 * n + i) = g.bytes i := fun i hi => paste_apply_add hi
  have h₀ := hbyte 0 (by decide)
  rw [Nat.add_zero] at h₀
  unfold gateAt
  rw [h₀, hbyte 1 (by decide), hbyte 2 (by decide), hbyte 3 (by decide), hbyte 5 (by decide),
    hbyte 6 (by decide), hbyte 7 (by decide)]
  simp only [GateRec.bytes, UInt8.toNat_ofNat', Gate.mk.injEq, and_true]
  omega

theorem gateAt_congr {m m' : Memory} {n : Nat} (h : ∀ i, i < 8 → m (8 * n + i) = m' (8 * n + i)) :
    gateAt m n = gateAt m' n := by
  have h₀ := h 0 (by decide)
  rw [Nat.add_zero] at h₀
  unfold gateAt
  rw [h₀, h 1 (by decide), h 2 (by decide), h 3 (by decide), h 5 (by decide), h 6 (by decide),
    h 7 (by decide)]

theorem gateAt_putGate_of_ne {m : Memory} {n k : Nat} {g : GateRec} (h : k ≠ n) :
    gateAt (putGate m n g) k = gateAt m k :=
  gateAt_congr fun i hi => paste_apply_of_notMem (by omega)

/-- A gate that `set_gate` made, as the processor reads it. -/
theorem gateAt_setGate {m : Memory} {n offset attr : Nat} (hoffset : offset < 4294967296) :
    gateAt (putGate m n (setGate offset attr kerCode)) n =
      ⟨offset, kerCode, attr % 32, attr / 32 % 4, attr % 256 / 128 == 1⟩ := by
  rw [gateAt_putGate_self]
  simp only [setGate, and_ffff, Nat.shiftRight_eq_div_pow, Gate.mk.injEq, kerCode, and_true]
  omega

theorem gateAt_gateLoop {isrTable : Nat → Nat} (hisr : ∀ n, isrTable n < 4294967296) (k n : Nat)
    (m : Memory) :
    gateAt (gateLoop isrTable k m) n =
      if n < k then ⟨isrTable n, kerCode, interruptGate, 0, true⟩ else gateAt m n := by
  induction k with
  | zero => rfl
  | succ k ih =>
      rw [gateLoop]
      by_cases hn : n = k
      · subst hn
        rw [gateAt_setGate (hisr n), if_pos (by omega)]
        rfl
      · rw [gateAt_putGate_of_ne hn, ih]
        by_cases hlt : n < k
        · rw [if_pos hlt, if_pos (by omega)]
        · rw [if_neg hlt, if_neg (by omega)]

/-- The gates of the table: every vector up to `T_SYSCALL` has an interrupt gate to the routine
with its number, in the code segment of the kernel. User programs may ask for `T_SYSCALL` only,
and no other vector has a gate. -/
theorem gateAt_initIdt {isrTable : Nat → Nat} (hisr : ∀ n, isrTable n < 4294967296) (n : Nat) :
    gateAt (initIdt isrTable) n =
      if n ≤ tSyscall then
        ⟨isrTable n, kerCode, interruptGate, if n = tSyscall then 3 else 0, true⟩
      else ⟨0, 0, 0, 0, false⟩ := by
  rw [initIdt]
  by_cases hn : n = tSyscall
  · subst hn
    rw [gateAt_setGate (hisr _), if_pos le_rfl, if_pos rfl]
    rfl
  · rw [gateAt_putGate_of_ne hn, gateAt_gateLoop hisr]
    have : isrNum = tSyscall := rfl
    by_cases hlt : n < isrNum
    · rw [if_pos hlt, if_pos (by omega), if_neg hn]
    · rw [if_neg hlt, if_neg (by omega)]
      simp [gateAt]

/-- The privilege levels of the segments. -/
theorem dplOf_initGdt (tss : Nat) :
    dplOf (initGdt tss) kerCode = 0 ∧ dplOf (initGdt tss) (usrCode ||| 3) = 3 ∧
      dplOf (initGdt tss) (usrData ||| 3) = 3 := by
  refine ⟨?_, ?_, ?_⟩ <;>
    simp [dplOf, initGdt, putDescriptor, paste, kerCode, kerData, usrCode, usrData, kerTss,
      setDescriptor, Descriptor.bytes]

end Descr

end Chunix
