import Chunix.Mm.Basic
import Chunix.Trap.Tables

/-!
# The way into the kernel and back

Every vector has a short routine that pushes its number, and a zero in the place of the error code
when the processor pushes none. The common part pushes the other registers and calls `trap` with
the address of what is then a `struct stack_frame`. `trap_ret` pops the registers again. From user
mode the frame lies at the top of the kernel stack, at the place that `task_alloc` gives the field
`tf` of a task.
-/

namespace Chunix

namespace Isr

open Machine Descr

/-- The vectors with the routine of `isr_err`. -/
def isErr : Nat → Bool
  | 0x08 | 0x0A | 0x0B | 0x0C | 0x0D | 0x0E | 0x11 => true
  | _ => false

/-- The exceptions for which the processor pushes an error code. -/
def pushesError (n : Nat) : Bool := n ∈ [8, 10, 11, 12, 13, 14, 17]

/-- The routine of a vector. -/
def isr (n : Nat) : List Op := if isErr n then [.pushImm n] else [.pushImm 0, .pushImm n]

/-- `isr_comm` up to the call of `trap`, which pushes the address `after` behind it. -/
def isrComm (after : Nat) : List Op :=
  [.sub 4,
    .pushal,
    .push .ds,
    .push .es,
    .push .fs,
    .push .gs,
    .movAx kerData,
    .movSeg .ds,
    .movSeg .es,
    .movSeg .fs,
    .movSeg .gs,
    .push .esp,
    .pushImm after]

/-- `trap_ret`. -/
def trapRet : List Op :=
  [.pop .gs,
    .pop .fs,
    .pop .es,
    .pop .ds,
    .popal,
    .add 0xC,
    .iret]

/-- The tables after `init_gdt` and `init_idt`. -/
def tables (tss : Nat) (isrTable : Nat → Nat) (esp0 : Nat) : Tables :=
  ⟨initIdt isrTable, initGdt tss, esp0, kerData⟩

/-- An interrupt up to the first instruction of `trap`. -/
def enter (t : Tables) (after n : Nat) (err : Option Nat) (soft : Bool) (s : File × Memory) :
    Option (File × Memory) :=
  (deliver t Mm.v2p n err soft s).map (execOps t.gdt Mm.v2p (isr n ++ isrComm after))

/-- The place of a register among the words of `struct stack_frame`. -/
def slot : Name → Nat
  | .gs => 0
  | .fs => 1
  | .es => 2
  | .ds => 3
  | .edi => 4
  | .esi => 5
  | .ebp => 6
  | .ebx => 8
  | .edx => 9
  | .ecx => 10
  | .eax => 11
  | .eip => 15
  | .cs => 16
  | .eflags => 17
  | .esp => 18
  | .ss => 19

/-- The registers that the words of `struct stack_frame` are popped into, up to the stack of the
program. -/
def frameSlots : List (Option Name) :=
  [some .gs, some .fs, some .es, some .ds, some .edi, some .esi, some .ebp, none, some .ebx, some .edx,
    some .ecx, some .eax, none, none, none, some .eip, some .cs, some .eflags]

/-- The registers in the frame at `tf`. -/
def frameRegs (m : Memory) (tf : Nat) : File := fun g =>
  narrow g (load32 m (Mm.v2p (tf + 4 * slot g)))

/-- The words of the frame: the registers `f`, the number of the vector and the error code. The
words `old_esp` and `ret_addr` are of no use. -/
def frameWords (f : File) (n err esp ret : Nat) : List Nat :=
  [f .gs, f .fs, f .es, f .ds, f .edi, f .esi, f .ebp, esp, f .ebx, f .edx, f .ecx, f .eax, ret, n,
    err, f .eip, f .cs, f .eflags, f .esp, f .ss]

theorem direct_v2p : Direct Mm.v2p 0x80000000 0x100000000 0x80000000 where
  eq := fun a ha ha' => by
    unfold Mm.v2p u32
    omega
  high := by decide

theorem isErr_eq (n : Nat) (hn : n ≤ tSyscall) : isErr n = pushesError n := by
  have hall : ∀ i : Fin 49, isErr i.val = pushesError i.val := by decide
  exact hall ⟨n, by unfold tSyscall at hn; omega⟩

variable {f : File} {m : Memory} {top n : Nat} {err : Option Nat} {soft : Bool} {tss : Nat}
  {isrTable : Nat → Nat}

/-- The processor takes an interrupt from user mode: it has the code segment of the kernel, the
stack that the task state segment names, and interrupts are off. -/
theorem deliver_user (tss : Nat) (hisr : ∀ n, isrTable n < 4294967296) (hf : f.Fits) (huser : f .cs % 4 = 3)
    (hn : n ≤ tSyscall) (hsoft : soft = true → n = tSyscall) (herr : ∀ e ∈ err, e < 4294967296)
    (htop : 0x80000018 ≤ top) (htop' : top ≤ 0x100000000) :
    ∃ s f₁, deliver (tables tss isrTable top) Mm.v2p n err soft (f, m) = some s ∧
      Pushing Mm.v2p 0x80000000 m top f₁ (top - 4 * (5 + err.toList.length))
        (err.toList ++ [f .eip, f .cs, f .eflags, f .esp, f .ss]) s ∧
      f₁ .cs = kerCode ∧ f₁ .eip = isrTable n ∧ flagIf (f₁ .eflags) = 0 ∧
      ∀ g, g ≠ .cs → g ≠ .eip → g ≠ .eflags → g ≠ .ss → f₁ g = f g := by
  have hgate := gateAt_initIdt hisr n
  rw [if_pos hn] at hgate
  have hlevel : dplOf (initGdt tss) kerCode = 0 := (dplOf_initGdt tss).1
  have hallow : soft = true → f .cs % 4 ≤ if n = tSyscall then 3 else 0 := by
    intro hs
    rw [huser, if_pos (hsoft hs)]
  have hless : dplOf (initGdt tss) kerCode < f .cs % 4 := by
    rw [hlevel, huser]
    decide
  obtain ⟨s, hs, hpush⟩ := deliver_inner (m := m) (t := tables tss isrTable top) direct_v2p hgate rfl
    rfl hallow hless hf herr htop htop'
  rw [show dplOf (tables tss isrTable top).gdt kerCode = 0 from hlevel] at hpush
  refine ⟨s, _, hs, hpush, ?_, ?_, ?_, ?_⟩
  · simp [enterRegs, kerCode]
  · simp [enterRegs]
  · simp [enterRegs, flagIf_maskFlags]
  · intro g h₁ h₂ h₃ h₄
    simp [enterRegs, h₁, h₂, h₃, h₄]

/-- The routine of the vector brings every frame to the same shape. -/
theorem enter_isr (hn : n ≤ tSyscall) (hcode : err.isSome = pushesError n)
    (htop : 0x8000001C ≤ top) (htop' : top ≤ 0x100000000) {f₁ : File} {ws : List Nat}
    {s : File × Memory} (gdt : Memory)
    (h : Pushing Mm.v2p 0x80000000 m top f₁ (top - 4 * (5 + err.toList.length))
      (err.toList ++ ws) s) :
    Pushing Mm.v2p 0x80000000 m top f₁ (top - 28) (n :: err.getD 0 :: ws)
      (execOps gdt Mm.v2p (isr n) s) := by
  have hw : n < 4294967296 := by
    unfold tSyscall at hn
    omega
  rw [isr, isErr_eq n hn, ← hcode]
  cases err with
  | none =>
      have h₁ := h.pushWords direct_v2p (l := [0, n])
        (by simp only [List.length_cons, List.length_nil, Option.toList_none]; omega) htop'
        (by simp [hw])
      rw [show top - 4 * (5 + (none : Option Nat).toList.length) - 4 * [0, n].length = top - 28 by
        simp only [List.length_cons, List.length_nil, Option.toList_none]
        omega] at h₁
      exact h₁
  | some e =>
      have h₁ := h.pushWord direct_v2p
        (by simp only [List.length_cons, List.length_nil, Option.toList_some]; omega) htop' hw
      rw [show top - 4 * (5 + (some e).toList.length) - 4 = top - 28 by
        simp only [List.length_cons, List.length_nil, Option.toList_some]
        omega] at h₁
      exact h₁

/-- The common part pushes the registers, and the processor works on the data segment of the
kernel from there on. -/
theorem enter_comm {after : Nat} (hafter : after < 4294967296) (htop : 0x80000058 ≤ top)
    (htop' : top ≤ 0x100000000) {f₁ : File} {ws : List Nat} {s : File × Memory} (gdt : Memory)
    (hf : f.Fits) (hf₁ : ∀ g, g ≠ .cs → g ≠ .eip → g ≠ .eflags → g ≠ .ss → f₁ g = f g)
    (h : Pushing Mm.v2p 0x80000000 m top f₁ (top - 28) ws s) :
    ∃ f₂, Pushing Mm.v2p 0x80000000 m top f₂ (top - 88)
      ([after, top - 80, f .gs, f .fs, f .es, f .ds, f .edi, f .esi, f .ebp, top - 32, f .ebx,
        f .edx, f .ecx, f .eax, load32 m (Mm.v2p (top - 32))] ++ ws)
      (execOps gdt Mm.v2p (isrComm after) s) ∧
      (∀ g, g = .ds ∨ g = .es ∨ g = .fs ∨ g = .gs → f₂ g = kerData) ∧
      f₂ .cs = f₁ .cs ∧ f₂ .eflags = f₁ .eflags := by
  have h₁ := h.skip direct_v2p (by omega) htop' gdt
  rw [show top - 28 - 4 = top - 32 by omega] at h₁
  generalize hs₁ : (Op.sub 4).exec gdt Mm.v2p s = s₁ at h₁
  have hall : [Name.eax, .ecx, .edx, .ebx, .esp, .ebp, .esi, .edi].map s₁.1 =
      [f .eax, f .ecx, f .edx, f .ebx, top - 32, f .ebp, f .esi, f .edi] := by
    simp [h₁.regs, h₁.esp, hf₁]
  have h₂ := h₁.pushWords direct_v2p
    (l := [f .eax, f .ecx, f .edx, f .ebx, top - 32, f .ebp, f .esi, f .edi])
    (by simp only [List.length_cons, List.length_nil]; omega) htop'
    (by simp only [List.forall_mem_cons, hf.word, true_and]; exact ⟨by omega, by simp⟩)
  generalize hs₂ : pushWords Mm.v2p _ s₁ = s₂ at h₂
  have hsegs : [Name.ds, .es, .fs, .gs].map s₂.1 = [f .ds, f .es, f .fs, f .gs] := by
    simp [h₂.regs, hf₁]
  have h₃ := h₂.pushWords direct_v2p (l := [f .ds, f .es, f .fs, f .gs])
    (by simp only [List.length_cons, List.length_nil]; omega) htop' (by simp [hf.word])
  generalize hs₃ : pushWords Mm.v2p [f .ds, f .es, f .fs, f .gs] s₂ = s₃ at h₃
  -- The four segment registers get the low half of `eax`.
  have hax : (s₃.1 .eax / 65536 * 65536 + kerData) % 65536 = kerData := by
    unfold kerData
    omega
  have hmove : execOps gdt Mm.v2p [.movAx kerData, .movSeg .ds, .movSeg .es, .movSeg .fs, .movSeg .gs]
      s₃ = (Function.update (Function.update (Function.update (Function.update
        (Function.update s₃.1 .eax (s₃.1 .eax / 65536 * 65536 + kerData)) .ds kerData) .es kerData)
        .fs kerData) .gs kerData, s₃.2) := by
    simp [execOps, Op.exec, hax]
  have h₄ := ((((h₃.update (g := .eax) (by decide) (s₃.1 .eax / 65536 * 65536 + kerData)).update
    (g := .ds) (by decide) kerData).update (g := .es) (by decide) kerData).update (g := .fs)
    (by decide) kerData).update (g := .gs) (by decide) kerData
  rw [← hmove] at h₄
  generalize hs₄ : execOps gdt Mm.v2p _ s₃ = s₄ at h₄
  have hesp : s₄.1 .esp = top - 80 := by
    rw [h₄.esp]
    simp only [List.length_cons, List.length_nil]
    omega
  have h₅ := h₄.pushWords direct_v2p (l := [top - 80, after])
    (by simp only [List.length_cons, List.length_nil]; omega) htop' (by simp [hafter]; omega)
  have hrun : execOps gdt Mm.v2p (isrComm after) s = pushWords Mm.v2p [top - 80, after] s₄ := by
    have hpush : execOps gdt Mm.v2p ([Name.ds, .es, .fs, .gs].map .push) s₂ = s₃ := by
      rw [execOps_push gdt (by decide), hsegs, hs₃]
    rw [show isrComm after = [.sub 4, .pushal] ++ ([Name.ds, .es, .fs, .gs].map .push ++
      ([.movAx kerData, .movSeg .ds, .movSeg .es, .movSeg .fs, .movSeg .gs] ++
        [.push .esp, .pushImm after])) from rfl, execOps_append, execOps_append, execOps_append]
    rw [show execOps gdt Mm.v2p [.sub 4, .pushal] s = s₂ by
      rw [execOps_cons, hs₁, execOps_cons, Op.exec, hall, hs₂]
      rfl, hpush, hs₄, ← hesp]
    rfl
  rw [hrun]
  refine ⟨_, by simpa [Nat.sub_sub] using h₅, ?_, ?_, ?_⟩
  · rintro g (rfl | rfl | rfl | rfl) <;> simp
  · simp
  · simp

/-- An interrupt from user mode calls `trap` with interrupts off, on the kernel stack of the task.
At the top of the stack are the words of a `struct stack_frame` with the registers of the program,
below it its address and the return address, and nothing else was written. -/
theorem enter_user (tss : Nat) {after : Nat} (hafter : after < 4294967296)
    (hisr : ∀ n, isrTable n < 4294967296) (hf : f.Fits) (huser : f .cs % 4 = 3)
    (hn : n ≤ tSyscall) (hsoft : soft = true → n = tSyscall)
    (hcode : err.isSome = pushesError n) (herr : ∀ e ∈ err, e < 4294967296)
    (htop : 0x80000058 ≤ top) (htop' : top ≤ 0x100000000) :
    ∃ s f₁, enter (tables tss isrTable top) after n err soft (f, m) = some s ∧
      Pushing Mm.v2p 0x80000000 m top f₁ (top - 88)
        (after :: (top - 80) ::
          frameWords f n (err.getD 0) (top - 32) (load32 m (Mm.v2p (top - 32)))) s ∧
      (∀ g, g = .ds ∨ g = .es ∨ g = .fs ∨ g = .gs → f₁ g = kerData) ∧
      f₁ .cs = kerCode ∧ flagIf (f₁ .eflags) = 0 := by
  obtain ⟨s, f₁, hs, h₁, hcs, -, hflag, hregs⟩ := deliver_user (m := m) tss hisr hf huser hn
    hsoft herr (by omega) htop'
  have h₂ := enter_isr hn hcode (by omega) htop' (initGdt tss) h₁
  obtain ⟨f₂, h₃, hsegs, hcs₂, hflag₂⟩ := enter_comm hafter htop htop' (initGdt tss) hf hregs h₂
  refine ⟨_, f₂, ?_, h₃, hsegs, hcs₂.trans hcs, by rw [hflag₂, hflag]⟩
  rw [enter, hs, Option.map_some, execOps_append]
  rfl

/-- The registers in a frame with these words. -/
theorem frameRegs_of_words {m : Memory} {tf n e x y : Nat} (hf : f.Fits)
    (h : Stack Mm.v2p m tf (frameWords f n e x y)) : frameRegs m tf = f := by
  funext g
  have hword : ∀ i w, (frameWords f n e x y)[i]? = some w → load32 m (Mm.v2p (tf + 4 * i)) = w := h
  rw [frameRegs, hword (slot g) (f g) (by cases g <;> rfl), hf.narrow_eq]

/-- `trap_ret` gives the program the registers in the frame. -/
theorem execOps_trapRet {s : File × Memory} {tf : Nat} {gdt : Memory} (hesp : s.1 .esp = tf)
    (hkernel : s.1 .cs % 4 = 0) (htf : tf + 80 ≤ 0x100000000)
    (huser : frameRegs s.2 tf .cs % 4 = 3)
    (hsegs : ∀ g, g = .ds ∨ g = .es ∨ g = .fs ∨ g = .gs → 3 ≤ dplOf gdt (frameRegs s.2 tf g)) :
    execOps gdt Mm.v2p trapRet s = (frameRegs s.2 tf, s.2) := by
  obtain ⟨s₁, hs₁⟩ : ∃ s₁, s₁ = popSlots Mm.v2p (frameSlots.take 15) s := ⟨_, rfl⟩
  obtain ⟨s₂, hs₂⟩ : ∃ s₂, s₂ = popSlots Mm.v2p frameSlots s := ⟨_, rfl⟩
  have hpop : Popped Mm.v2p frameSlots s s₂ :=
    hs₂ ▸ popSlots_popped (by decide) (by decide) (by rw [hesp]; simp [frameSlots]; omega)
  have hrun : execOps gdt Mm.v2p trapRet s = Machine.iret gdt Mm.v2p s₁ := by
    have hpops : execOps gdt Mm.v2p [.pop .gs, .pop .fs, .pop .es, .pop .ds] s =
        popSlots Mm.v2p (frameSlots.take 4) s := rfl
    rw [hs₁, show frameSlots.take 15 = frameSlots.take 4 ++
        [some .edi, some .esi, some .ebp, none, some .ebx, some .edx, some .ecx, some .eax] ++
        [none, none, none] from rfl, popSlots_append, popSlots_append,
      show trapRet = [.pop .gs, .pop .fs, .pop .es, .pop .ds] ++ [.popal, .add 0xC, .iret] from rfl,
      execOps_append, hpops, execOps_cons, execOps_cons, exec_add_twelve, execOps_cons, Op.exec,
      Op.exec]
    rfl
  have hrest : popSlots Mm.v2p [some .eip, some .cs, some .eflags] s₁ = s₂ := by
    rw [hs₁, hs₂, ← popSlots_append, show frameSlots.take 15 ++ [some .eip, some .cs, some .eflags] =
      frameSlots from rfl]
  have hcs : s₁.1 .cs = s.1 .cs := by
    rw [hs₁]
    exact (popSlots_popped (by decide) (by decide)
      (by rw [hesp]; simp [frameSlots]; omega)).other _ (by decide) (by decide)
  have hregs : ∀ g, g ≠ .esp → g ≠ .ss → s₂.1 g = frameRegs s.2 tf g := by
    intro g he hss
    have hslot : frameSlots[slot g]? = some (some g) := by
      cases g <;> first | rfl | exact absurd rfl he | exact absurd rfl hss
    rw [hpop.loaded _ _ hslot, hesp, frameRegs]
  have hesp₂ : s₂.1 .esp = tf + 72 := by
    rw [hpop.esp, hesp]
    rfl
  have hfile : Function.update (Function.update s₂.1 .esp (load32 s.2 (Mm.v2p (tf + 72)))) .ss
      (load32 s.2 (Mm.v2p (tf + 72 + 4)) % 65536) = frameRegs s.2 tf := by
    funext g
    by_cases hss : g = .ss
    · rw [hss, Function.update_self]
      rfl
    · rw [Function.update_of_ne hss]
      by_cases he : g = .esp
      · rw [he, Function.update_self]
        rfl
      · rw [Function.update_of_ne he, hregs g he hss]
  have hless : s₁.1 .cs % 4 < s₂.1 .cs % 4 := by
    rw [hcs, hkernel, hregs _ (by decide) (by decide), huser]
    decide
  rw [hrun, Machine.iret, hrest, if_pos hless, hesp₂, hpop.mem,
    u32_eq_self (show tf + 72 + 4 < 4294967296 by omega)]
  dsimp only
  rw [hfile, dropSegs_eq fun g hg => by rw [huser]; exact hsegs g hg]

/-- The way back from `trap` to the program, behind the call. -/
def leave : List Op := .add 4 :: trapRet

/-- The end of the handler, on a frame that a program in user mode can have. -/
theorem execOps_leave {s : File × Memory} {tf : Nat} {gdt : Memory} (hesp : s.1 .esp + 4 = tf)
    (hkernel : s.1 .cs % 4 = 0) (htf : tf + 80 ≤ 0x100000000)
    (huser : frameRegs s.2 tf .cs % 4 = 3)
    (hsegs : ∀ g, g = .ds ∨ g = .es ∨ g = .fs ∨ g = .gs → 3 ≤ dplOf gdt (frameRegs s.2 tf g)) :
    execOps gdt Mm.v2p leave s = (frameRegs s.2 tf, s.2) := by
  rw [leave, execOps_cons, Op.exec]
  refine execOps_trapRet ?_ ?_ htf huser hsegs
  · simp [hesp, u32_eq_self (show tf < 4294967296 by omega)]
  · simp [hkernel]

theorem frameRegs_congr {m m' : Memory} {tf : Nat} (hlo : 0x80000000 ≤ tf)
    (hhi : tf + 80 ≤ 0x100000000)
    (h : ∀ a, tf ≤ a → a < tf + 80 → m' (Mm.v2p a) = m (Mm.v2p a)) :
    frameRegs m' tf = frameRegs m tf := by
  funext g
  have hslot : slot g < 20 := by cases g <;> decide
  rw [frameRegs, frameRegs, direct_v2p.load_congr (by omega) (by omega) fun b hb hb' =>
    h b (by omega) (by omega)]

/-- Every interrupt, exception and system call of a program in user mode reaches `trap` with
interrupts off and the registers of the program in the frame, with the number of the vector and the
error code. When `trap` returns and has left the frame alone, the program goes on with the
registers it had. -/
theorem trap_transparent {after : Nat} (hafter : after < 4294967296)
    (hisr : ∀ n, isrTable n < 4294967296) (hf : f.Fits) (huser : f .cs % 4 = 3)
    (hsegs : ∀ g, g = .ds ∨ g = .es ∨ g = .fs ∨ g = .gs → 3 ≤ dplOf (initGdt tss) (f g))
    (hn : n ≤ tSyscall) (hsoft : soft = true → n = tSyscall)
    (hcode : err.isSome = pushesError n) (herr : ∀ e ∈ err, e < 4294967296)
    (htop : 0x80000058 ≤ top) (htop' : top ≤ 0x100000000) :
    ∃ s, enter (tables tss isrTable top) after n err soft (f, m) = some s ∧
      flagIf (s.1 .eflags) = 0 ∧ load32 s.2 (Mm.v2p (s.1 .esp)) = after ∧
      load32 s.2 (Mm.v2p (s.1 .esp + 4)) = top - 80 ∧ frameRegs s.2 (top - 80) = f ∧
      load32 s.2 (Mm.v2p (top - 80 + 52)) = n ∧
      load32 s.2 (Mm.v2p (top - 80 + 56)) = err.getD 0 ∧
      ∀ s' : File × Memory, s'.1 .esp = s.1 .esp + 4 → s'.1 .cs = kerCode →
        (∀ a, top - 80 ≤ a → a < top → s'.2 (Mm.v2p a) = s.2 (Mm.v2p a)) →
        execOps (initGdt tss) Mm.v2p leave s' = (f, s'.2) := by
  obtain ⟨s, f₁, hs, hpush, -, hcs, hflag⟩ := enter_user (m := m) tss hafter hisr hf huser hn hsoft hcode
    herr htop htop'
  have hesp := hpush.esp
  have hframe : Stack Mm.v2p s.2 (top - 80)
      (frameWords f n (err.getD 0) (top - 32) (load32 m (Mm.v2p (top - 32)))) := by
    intro i w hi
    rw [show top - 80 + 4 * i = top - 88 + 4 * (i + 2) by omega]
    exact hpush.stack (i + 2) w hi
  have hregs := frameRegs_of_words hf hframe
  refine ⟨s, hs, by rw [hpush.regs _ (by decide), hflag], ?_, ?_, hregs, hframe 13 _ rfl,
    hframe 14 _ rfl, ?_⟩
  · rw [hesp]
    exact hpush.stack 0 _ rfl
  · rw [hesp]
    exact hpush.stack 1 _ rfl
  · intro s' hesp' hcs' hkeep
    have hsame : frameRegs s'.2 (top - 80) = f :=
      (frameRegs_congr (by omega) (by omega) fun a ha ha' => hkeep a ha (by omega)).trans hregs
    have hback : execOps (initGdt tss) Mm.v2p leave s' = (frameRegs s'.2 (top - 80), s'.2) :=
      execOps_leave (by omega) (by rw [hcs']; rfl) (by omega) (by rw [hsame, huser])
        (by rw [hsame]; exact hsegs)
    rw [hback, hsame]

/-- The registers of a new program. -/
def startFile : File
  | .cs => 0x1b
  | .ds | .es | .fs | .gs | .ss => 0x23
  | .eflags => 0x200
  | .esp => 0x80000000
  | _ => 0

theorem startFile_fits : startFile.Fits :=
  ⟨fun g => by cases g <;> decide, fun g hg => by revert hg; cases g <;> decide⟩

theorem startFile_segs (tss : Nat) : ∀ g, g = .ds ∨ g = .es ∨ g = .fs ∨ g = .gs →
    3 ≤ dplOf (initGdt tss) (startFile g) := by
  have h := (dplOf_initGdt tss).2.2
  rintro g (rfl | rfl | rfl | rfl) <;> exact h.ge

/-- A page fault, with its error code in the frame. -/
theorem trap_transparent_fault :
    ∃ s, enter (tables 0x80100000 (fun n => 0x80101000 + n % 256) 0x80201000) 0x80101200 14 (some 6) false
        (startFile, fun _ => 0) = some s ∧ frameRegs s.2 0x80200FB0 = startFile ∧
      load32 s.2 (Mm.v2p (0x80200FB0 + 56)) = 6 := by
  obtain ⟨s, hs, -, -, -, hregs, -, herr, -⟩ := @trap_transparent startFile (fun _ => 0) 0x80201000 14
    (some 6) false 0x80100000 (fun n => 0x80101000 + n % 256) 0x80101200 (by decide)
    (fun n => by omega) startFile_fits rfl (startFile_segs _) (by decide) (by decide) rfl
    (fun e he => by cases he; decide) (by decide) (by decide)
  exact ⟨s, hs, hregs, herr⟩

end Isr

end Chunix
