import Chunix.Machine.Memory

/-!
# Straight-line code of a 32-bit processor

The instructions here are those a context switch is written in: moves between
registers and memory, the stack instructions and the return. `tr` is the
translation of linear addresses to addresses of the memory. A call is a `push`
of `eip`, which holds the address of the instruction behind the call.
-/

namespace Machine

/-- The registers a context switch reads or writes. -/
inductive Reg
  | eax
  | edx
  | ebx
  | esi
  | edi
  | ebp
  | esp
  | eip
deriving DecidableEq, Repr

/-- The contents of the registers. -/
abbrev Regs := Reg → Nat

/-- The instructions, with the operands in the order the assembler writes
them. -/
inductive Instr
  | load (off : Nat) (base dst : Reg)
  | store (src base : Reg)
  | mov (src dst : Reg)
  | push (r : Reg)
  | pop (r : Reg)
deriving DecidableEq, Repr

/-- The return pops the address it jumps to. -/
def Instr.ret : Instr := .pop .eip

/-- The effect of one instruction on registers and memory. -/
def Instr.exec (tr : Nat → Nat) : Instr → Regs × Memory → Regs × Memory
  | load off base dst, (r, m) => (Function.update r dst (load32 m (tr (u32 (r base + off)))), m)
  | store src base, (r, m) => (r, store32 m (tr (r base)) (r src))
  | mov src dst, (r, m) => (Function.update r dst (r src), m)
  | push s, (r, m) =>
      let sp := u32 (r .esp + 4294967292)
      (Function.update r .esp sp, store32 m (tr sp) (r s))
  | pop d, (r, m) =>
      (Function.update (Function.update r .esp (u32 (r .esp + 4))) d (load32 m (tr (r .esp))), m)

/-- The effect of a sequence of instructions. -/
def execAll (tr : Nat → Nat) (is : List Instr) (s : Regs × Memory) : Regs × Memory :=
  is.foldl (fun s i => i.exec tr s) s

theorem execAll_cons (tr : Nat → Nat) (i : Instr) (is : List Instr) (s : Regs × Memory) :
    execAll tr (i :: is) s = execAll tr is (i.exec tr s) := rfl

theorem execAll_append (tr : Nat → Nat) (is js : List Instr) (s : Regs × Memory) :
    execAll tr (is ++ js) s = execAll tr js (execAll tr is s) := List.foldl_append

/-- The memory after the values of `rs` were pushed below the address `sp`. -/
def pushed (tr : Nat → Nat) (r : Regs) : List Reg → Nat → Memory → Memory
  | [], _, m => m
  | g :: rs, sp, m => pushed tr r rs (sp - 4) (store32 m (tr (sp - 4)) (r g))

/-- The registers after words were popped into `rs`. -/
def popped (tr : Nat → Nat) (m : Memory) : List Reg → Regs → Regs
  | [], r => r
  | g :: rs, r => popped tr m rs
      (Function.update (Function.update r .esp (r .esp + 4)) g (load32 m (tr (r .esp))))

theorem pushed_congr {tr : Nat → Nat} {r r' : Regs} {rs : List Reg} {sp : Nat} {m : Memory}
    (h : ∀ g ∈ rs, r' g = r g) : pushed tr r' rs sp m = pushed tr r rs sp m := by
  induction rs generalizing sp m with
  | nil => rfl
  | cons g rs ih =>
      simp only [pushed, h g List.mem_cons_self]
      exact ih fun g' hg' => h g' (List.mem_cons_of_mem g hg')

/-- A sequence of pushes writes the registers below the stack pointer. -/
theorem execAll_push {tr : Nat → Nat} {rs : List Reg} {r : Regs} {m : Memory}
    (hesp : Reg.esp ∉ rs) (hlo : 4 * rs.length ≤ r .esp) (hhi : r .esp ≤ 4294967296) :
    execAll tr (rs.map Instr.push) (r, m) =
      (Function.update r .esp (r .esp - 4 * rs.length), pushed tr r rs (r .esp) m) := by
  induction rs generalizing r m with
  | nil => simp [execAll, pushed]
  | cons g rs ih =>
      simp only [List.length_cons] at hlo ⊢
      have hsp : u32 (r .esp + 4294967292) = r .esp - 4 := by unfold u32; omega
      have hrs : Reg.esp ∉ rs := fun h => hesp (List.mem_cons_of_mem g h)
      rw [List.map_cons, execAll_cons, Instr.exec, hsp, ih hrs (by simp; omega) (by simp; omega)]
      simp only [Function.update_self, Function.update_idem, pushed]
      refine Prod.ext ?_ (pushed_congr ?_)
      · rw [show r .esp - 4 - 4 * rs.length = r .esp - 4 * (rs.length + 1) by omega]
      · intro g' hg'
        exact Function.update_of_ne (by rintro rfl; exact hrs hg') _ _

/-- A sequence of pops loads the registers from the stack pointer on. -/
theorem execAll_pop {tr : Nat → Nat} {rs : List Reg} {r : Regs} {m : Memory}
    (hesp : Reg.esp ∉ rs) (hhi : r .esp + 4 * rs.length < 4294967296) :
    execAll tr (rs.map Instr.pop) (r, m) = (popped tr m rs r, m) := by
  induction rs generalizing r with
  | nil => rfl
  | cons g rs ih =>
      simp only [List.length_cons] at hhi
      have hsp : u32 (r .esp + 4) = r .esp + 4 := u32_eq_self (by omega)
      have hg : Reg.esp ≠ g := fun h => hesp (h ▸ List.mem_cons_self)
      have hrs : Reg.esp ∉ rs := fun h => hesp (List.mem_cons_of_mem g h)
      rw [List.map_cons, execAll_cons, Instr.exec, hsp, ih hrs ?_, popped]
      rw [Function.update_of_ne hg, Function.update_self]
      omega

end Machine
