import Chunix.Mm.Basic

/-!
# Access to user memory and ELF headers

Blocks are written to user memory byte by byte, in increasing order of the
addresses, through the directory in CR3. An ELF header and its program headers
are read from a byte source, which is a function of the address.
-/

namespace Chunix

namespace Mm

open Machine

/-- The bytes `f i`, …, `f (i + n - 1)` written at `va + i` and up. -/
def vwrite (va : Nat) (f : Nat → UInt8) : Nat → Nat → Act Mm Unit
  | 0, _ => pure ()
  | n + 1, i => do
      vstore8 (va + i) (f i)
      vwrite va f n (i + 1)

/-- `memset` at a user address. -/
def vmemset (va : Nat) (c : UInt8) (n : Nat) : Act Mm Unit :=
  vwrite va (fun _ => c) n 0

theorem readOnly_vload8 (va : Nat) : Act.ReadOnly (vload8 va) := by
  refine Act.readOnly_get.bind fun m => ?_
  cases translate m (u32 va) with
  | none => exact Act.readOnly_halt _
  | some pa => exact Act.readOnly_gets _

theorem readOnly_vload32 (va : Nat) : Act.ReadOnly (vload32 va) := by
  refine (readOnly_vload8 _).bind fun b0 => (readOnly_vload8 _).bind fun b1 => ?_
  exact (readOnly_vload8 _).bind fun b2 => (readOnly_vload8 _).bind fun b3 => Act.readOnly_pure _

theorem vload8_of_walk {m : Mm} {va pa : Nat} (h : walk m.mem m.cr3 (u32 va) = some pa) :
    vload8 va m = .ok (m.mem pa, m) := by
  rw [vload8, Act.bind_of_ok (Act.get_eq_ok.2 ⟨rfl, rfl⟩), translate, h]
  rfl

theorem vstore8_of_walk {m : Mm} {va pa : Nat} (h : walk m.mem m.cr3 (u32 va) = some pa)
    (b : UInt8) : vstore8 va b m = .ok ((), { m with mem := Function.update m.mem pa b }) := by
  rw [vstore8, Act.bind_of_ok (Act.get_eq_ok.2 ⟨rfl, rfl⟩), translate, h]
  rfl

/-- The addresses of one page are translated alike. -/
theorem walk_add {mem : Memory} {dir va pa i : Nat} (hi : va % 4096 + i < 4096)
    (h : walk mem dir va = some pa) :
    walk mem dir (va + i) = some (pa + i) ∧ pa + i < 4294967296 := by
  have hdx : pdx (va + i) = pdx va := by unfold pdx; omega
  have htx : ptx (va + i) = ptx va := by unfold ptx; omega
  have hmod : (va + i) % 4096 = va % 4096 + i := by omega
  unfold walk at h ⊢
  rw [hdx, htx, hmod]
  dsimp only at h ⊢
  split at h
  · rename_i hp
    rw [if_pos hp]
    split at h
    · rename_i hp'
      rw [if_pos hp']
      have hlt := load32_lt mem (pteAddr (load32 mem (dir + 4 * pdx va)) + 4 * ptx va)
      generalize load32 mem (pteAddr (load32 mem (dir + 4 * pdx va)) + 4 * ptx va) = pte at *
      cases h
      refine ⟨by rw [Nat.add_assoc], ?_⟩
      unfold pteAddr
      omega
    · simp at h
  · simp at h

/-- A word inside a page that is mapped. -/
theorem vload32_of_walk {m : Mm} {va pa : Nat} (hva : va < 4294967296) (hi : va % 4096 ≤ 4092)
    (h : walk m.mem m.cr3 va = some pa) : vload32 va m = .ok (load32 m.mem pa, m) := by
  have hbyte : ∀ i, i < 4 → vload8 (va + i) m = .ok (m.mem (u32 (pa + i)), m) := by
    intro i hi'
    obtain ⟨hw, hlt⟩ := walk_add (i := i) (by omega) h
    rw [u32_eq_self hlt]
    refine vload8_of_walk ?_
    rwa [u32_eq_self (by omega)]
  have h₀ : vload8 va m = .ok (m.mem (u32 pa), m) := hbyte 0 (by decide)
  rw [vload32, Act.bind_of_ok h₀, Act.bind_of_ok (hbyte 1 (by decide)),
    Act.bind_of_ok (hbyte 2 (by decide)), Act.bind_of_ok (hbyte 3 (by decide))]
  rfl

end Mm

namespace Elf

open Machine

/-- The number `ELF_MAGIC`. -/
def magic : Nat := 0x464C457F

/-- The value `ELF_PROG_LOAD` of `ph_type`. -/
def progLoad : Nat := 1

/-- The size of `struct elf`. -/
def headerSize : Nat := 52

/-- The size of `struct proghdr`. -/
def progHeaderSize : Nat := 32

/-- The fields of `struct elf` that the kernel reads. -/
structure Header where
  magic : Nat
  entry : Nat
  phoff : Nat
  phnum : Nat
deriving DecidableEq, Repr

/-- The fields of `struct proghdr` that the kernel reads. -/
structure ProgHeader where
  type : Nat
  offset : Nat
  va : Nat
  filesize : Nat
  memsize : Nat
deriving DecidableEq, Repr

/-- The ELF header at the address `a`. -/
def header (src : Memory) (a : Nat) : Header where
  magic := load32 src a
  entry := load32 src (a + 24)
  phoff := load32 src (a + 28)
  phnum := load32 src (a + 44) % 65536

/-- The program header at the address `a`. -/
def progHeader (src : Memory) (a : Nat) : ProgHeader where
  type := load32 src a
  offset := load32 src (a + 4)
  va := load32 src (a + 8)
  filesize := load32 src (a + 16)
  memsize := load32 src (a + 20)

end Elf

end Chunix
