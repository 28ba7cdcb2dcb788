import Chunix.Trap.Boundary
import Chunix.Trap.Fork

/-!
# A system call as a function of C

A stub of `usys.S` puts the number of its system call into `eax`, raises the interrupt and
returns. It pushes nothing, so the `esp` in the frame points to the return address of the stub,
with the arguments of the function above it, which is where `argint` looks for them. The result
that `syscall` puts into the frame is in `eax` when the program goes on. So for the program a system
call is a call of a function.
-/

namespace Chunix

namespace Usys

open Machine Chunix.Task Kernel Descr Isr Preempt
open Syscall (Handler World argint)

/-- The instructions of the stubs. -/
inductive Instr
  | movl (w : Nat)
  | int (n : Nat)
  | ret
deriving DecidableEq, Repr

/-- The number of bytes of an instruction. -/
def Instr.size : Instr → Nat
  | .movl _ => 5
  | .int _ => 2
  | .ret => 1

/-- The macro `SYSCALL` for a system call. -/
def stub (g : Handler) : List Instr := [.movl g.number, .int tSyscall, .ret]

/-- The registers behind an instruction. -/
def Instr.next (i : Instr) (f : File) : File := Function.update f .eip (u32 (f .eip + i.size))

/-- What an instruction does in user mode. An interrupt is taken with `eip` behind the
instruction that raises it. -/
def Instr.exec : Instr → File → Act Mm File
  | .movl w, f => return Function.update ((Instr.movl w).next f) .eax w
  | .int n, f => return (Instr.int n).next f
  | .ret, f => do
      let a ← Mm.vload32 (f .esp)
      return Function.update (Function.update f .esp (u32 (f .esp + 4))) .eip a

/-- Instructions one after the other. -/
def execAll : List Instr → File → Act Mm File
  | [], f => return f
  | i :: is, f => do
      let f' ← i.exec f
      execAll is f'

/-- The word `v` is at the address `va`, whatever the page `q` holds. -/
def Word (m : Mm) (q va v : Nat) : Prop :=
  ∀ mem : Memory, (∀ a, a < q ∨ q + 4096 ≤ a → mem a = m.mem a) →
    Mm.vload32 va { m with mem := mem } = .ok (v, { m with mem := mem })

/-- The table `syscalls` has the addresses of the functions, which differ, and is not on the
page `q`. -/
structure Installed (w : World) (q : Nat) : Prop where
  table : ∀ g : Handler, Word w.kernel.mm q (u32 (w.syscalls + 4 * g.number)) (w.entry g)
  nonzero : ∀ g, w.entry g ≠ 0
  inj : ∀ g g', w.entry g = w.entry g' → g = g'

/-- The kernel in the trap of a program, with the memory that the interrupt has left. -/
def entered (w : World) (m : Memory) : World := { w with kernel := withMem w.kernel m }

/-- The registers of a program when the stub of a system call has raised the interrupt. -/
def raised (g : Handler) (f : File) : File :=
  (Instr.int tSyscall).next (Function.update ((Instr.movl g.number).next f) .eax g.number)

theorem number_inj {g g' : Handler} (h : g.number = g'.number) : g = g' := by
  revert h
  cases g <;> cases g' <;> decide

section

variable {L : Labels} {s : Cpu} {w : World} {c : Slot} {f : File} {m : Memory}

theorem execAll_take_stub (g : Handler) (f : File) (mm : Mm) :
    execAll ((stub g).take 2) f mm = .ok (raised g f, mm) := rfl

/-- Behind the interrupt the stub returns to its caller. -/
theorem execAll_drop_stub {mm : Mm} {ret : Nat} (g : Handler)
    (h : Mm.vload32 (f .esp) mm = .ok (ret, mm)) :
    execAll ((stub g).drop 2) f mm =
      .ok (Function.update (Function.update f .esp (u32 (f .esp + 4))) .eip ret, mm) := by
  rw [stub, List.drop_succ_cons, List.drop_succ_cons, List.drop_zero, execAll, Instr.exec]
  exact Act.bind_eq_ok.2 ⟨_, _, Act.bind_eq_ok.2 ⟨_, _, h, rfl⟩, rfl⟩

theorem userRegs_raised (g : Handler) (h : UserRegs L f) : UserRegs L (raised g f) := by
  have hnum : 1 ≤ g.number ∧ g.number ≤ 11 := Syscall.exists_number_iff.1 ⟨g, rfl⟩
  exact ((h.set rfl (u32_lt _)).set rfl (by omega)).set rfl (u32_lt _)

/-- The number in the frame selects the function. -/
theorem syscall_called {g : Handler} (hc : w.kernel.current = some c)
    (hin : Installed w (Mm.v2p (w.kernel.tasks c).kstack))
    (hm : ∀ a, a < Mm.v2p (w.kernel.tasks c).kstack ∨ Mm.v2p (w.kernel.tasks c).kstack + 4096 ≤ a →
      m a = w.kernel.mm.mem a)
    (heax : saved (withMem w.kernel m) c .eax = g.number) :
    Syscall.syscall (entered w m) = .ok (.called g, entered w m) := by
  have hlinked : Syscall.Linked (entered w m) c :=
    ⟨hc, fun g => hin.table g m hm, hin.nonzero, hin.inj⟩
  have hnumber : (entered w m).eax c = g.number := heax
  have hrange := Syscall.exists_number_iff.1 ⟨g, hnumber.symm⟩
  rcases (Syscall.dispatched_iff hlinked).2 (Or.inl hrange) with ⟨g', hg', hcall⟩ | ⟨hne, -⟩
  · rwa [number_inj (hg'.trans hnumber)] at hcall
  · exact absurd hnumber.symm (hne g)

/-- The words above the return address are the arguments. -/
theorem argint_eq {i v : Nat} (hc : w.kernel.current = some c)
    (hv : Word w.kernel.mm (Mm.v2p (w.kernel.tasks c).kstack)
      (u32 (saved (withMem w.kernel m) c .esp + 4 * (i + 1))) v)
    (hm : ∀ a, a < Mm.v2p (w.kernel.tasks c).kstack ∨ Mm.v2p (w.kernel.tasks c).kstack + 4096 ≤ a →
      m a = w.kernel.mm.mem a) :
    argint i (entered w m) = .ok (v, entered w m) := by
  have htask : Syscall.getTask (entered w m) = .ok (w.kernel.tasks c, entered w m) :=
    Act.bind_eq_ok.2 ⟨c, _, Syscall.getCurrent_of_eq hc, Act.gets_eq_ok.2 ⟨rfl, rfl⟩⟩
  have hesp : Syscall.onMm (Mm.kload ((w.kernel.tasks c).tf + Syscall.espAt)) (entered w m) =
      .ok (saved (withMem w.kernel m) c .esp, entered w m) :=
    Act.zoom_eq_ok.2 ⟨_, Act.gets_eq_ok.2 ⟨rfl, rfl⟩, rfl⟩
  rw [argint, Act.bind_of_ok htask, Act.bind_of_ok hesp,
    show saved (withMem w.kernel m) c .esp + 4 + 4 * i =
      saved (withMem w.kernel m) c .esp + 4 * (i + 1) by omega]
  exact Syscall.onMm_of_ok (hv m hm)

/-- A program that calls the stub of a system call gets into the function with that number, and
the function finds the arguments of the call. When it has done its work and returns a result, the
program goes on behind the call: the result is in `eax`, the return address has been popped, and all
other registers are what they were. -/
theorem stub_call {ret : Nat} {args : List Nat} (g : Handler) (h : Inv L s) (hw : w.kernel = s.k)
    (hc : s.k.current = some c) (hin : Installed w (Mm.v2p (s.k.tasks c).kstack))
    (hstack : ∀ i v, (ret :: args)[i]? = some v →
      Word s.k.mm (Mm.v2p (s.k.tasks c).kstack) (u32 (s.file .esp + 4 * i)) v) :
    ∃ f s₁, execAll ((stub g).take 2) s.file s.k.mm = .ok (f, s.k.mm) ∧
      enter (tables L.tss L.isrTable s.k.esp0) L.after tSyscall none true (f, s.k.mm.mem) =
        some s₁ ∧
      Syscall.syscall (entered w s₁.2) = .ok (.called g, entered w s₁.2) ∧
      (∀ i v, args[i]? = some v → argint i (entered w s₁.2) = .ok (v, entered w s₁.2)) ∧
      ∀ live k r, Body L c s.live live (entered w s₁.2).kernel k →
        saved k c = Function.update (saved (entered w s₁.2).kernel c) .eax r →
        Mm.vload32 (s.file .esp) k.mm = .ok (ret, k.mm) →
        ∃ s', Step L ⟨s.k, f, s.live⟩ (.trap (saved k c) live (saved k) c) s' ∧ s'.k = k ∧
          execAll ((stub g).drop 2) s'.file k.mm =
            .ok (Function.update (Function.update (Function.update s.file .eax r) .esp
              (u32 (s.file .esp + 4))) .eip ret, k.mm) := by
  obtain ⟨t, ht, hcur, -⟩ := h.current
  cases hcur.symm.trans hc
  obtain ⟨hlo, hhi, -⟩ := h.places.bounds ht
  have htf := h.places.tf c ht
  have hbelow := h.places.below c ht
  obtain ⟨hinv, -⟩ := h.user_step (m := s.k.mm.mem) (userRegs_raised g h.user) fun _ _ _ _ => rfl
  obtain ⟨s₁, hs₁, hsaved, -, hsame⟩ := hinv.entered hcur interrupt_syscall
  -- the interrupt writes to the kernel stack only
  have hdirect := direct_v2p.eq (s.k.tasks c).kstack (by omega) (by omega)
  have hmem : ∀ a, a < Mm.v2p (s.k.tasks c).kstack ∨ Mm.v2p (s.k.tasks c).kstack + 4096 ≤ a →
      s₁.2 a = s.k.mm.mem a := by
    intro a ha
    have hout : a + 0x80000000 < (s.k.tasks c).tf - 8 ∨ (s.k.tasks c).tf + 80 ≤ a + 0x80000000 := by
      omega
    exact hsame a hout
  have hsaved' : saved (withMem s.k s₁.2) c = raised g s.file := hsaved
  rw [← hw] at hin hmem hsaved' hc
  refine ⟨raised g s.file, s₁, execAll_take_stub g _ _, hs₁, ?_, ?_, ?_⟩
  · exact syscall_called hc hin hmem (by rw [hsaved']; rfl)
  · intro i v hi
    refine argint_eq hc ?_ hmem
    rw [hsaved', hw]
    exact hstack (i + 1) v (by rw [List.getElem?_cons_succ]; exact hi)
  · intro live k r hbody hregs hret
    have hbody' : Body L c s.live live (withMem s.k s₁.2) k := hw ▸ hbody
    obtain ⟨hstep, -⟩ := hinv.returns hcur interrupt_syscall hs₁ hbody'
    refine ⟨_, hstep, rfl, ?_⟩
    have hregs' : saved k c = Function.update (raised g s.file) .eax r :=
      hregs.trans (by rw [← hsaved']; rfl)
    have hesp : saved k c .esp = s.file .esp := by rw [hregs']; rfl
    dsimp only
    rw [execAll_drop_stub g (hesp ▸ hret), hesp, hregs']
    -- `ret` overwrites the `eip` behind the interrupt
    refine congrArg (fun f => Except.ok (f, k.mm)) ?_
    funext g'
    cases g' <;> rfl

/-- A word that is read through tables below the page `q`. -/
theorem Word.of_walk {m : Mm} {q va pa : Nat} (hva : va < 4294967296 ∧ va % 4096 ≤ 4092)
    (hw : Mm.walk m.mem m.cr3 va = some pa) (hq : q ≤ 4294967296) (hdir : m.cr3 + 4096 ≤ q)
    (htab : Mm.pteAddr (load32 m.mem (m.cr3 + 4 * Mm.pdx va)) + 4096 ≤ q) (hpa : pa + 4 ≤ q) :
    Word m q va (load32 m.mem pa) := by
  intro mem hmem
  have hload : ∀ a, a + 4 ≤ q → load32 mem a = load32 m.mem a := fun a ha =>
    load32_congr_range (by omega) fun x _ hx => hmem x (Or.inl (by omega))
  have hpdx : Mm.pdx va < 1024 := Nat.mod_lt _ (by decide)
  have hptx : Mm.ptx va < 1024 := Nat.mod_lt _ (by decide)
  have hwalk : Mm.walk mem m.cr3 va = some pa := by
    rw [← hw]
    unfold Mm.walk
    dsimp only
    rw [hload _ (by omega), hload _ (by omega)]
  rw [Mm.vload32_of_walk (m := { m with mem := mem }) hva.1 hva.2 hwalk, hload _ hpa]

/-- A result that is put into the frame is work that a trap may do. -/
theorem body_returned {n : Int} (h : Inv L s) (hc : s.k.current = some c)
    (hret : load32 m (Mm.v2p ((s.k.tasks c).tf - 8)) = L.after)
    (hregs : UserRegs L (saved (withMem s.k m) c)) :
    Body L c s.live s.live (withMem s.k m) (returned (withMem s.k m) c n) ∧
      saved (returned (withMem s.k m) c n) c =
        Function.update (saved (withMem s.k m) c) .eax (n % 4294967296).toNat := by
  obtain ⟨t, ht, hcur, -⟩ := h.current
  cases hcur.symm.trans hc
  obtain ⟨hlo, hhi, -⟩ := h.places.bounds ht
  have htf := h.places.tf c ht
  have hlow : 0x80000000 ≤ (s.k.tasks c).tf := by omega
  have hhigh : (s.k.tasks c).tf + 80 ≤ 0x100000000 := by omega
  have hmem : ∀ a, 0x80000000 ≤ a → a < 0x100000000 →
      a < (s.k.tasks c).tf + 44 ∨ (s.k.tasks c).tf + 48 ≤ a →
      (returned (withMem s.k m) c n).mm.mem (Mm.v2p a) = m (Mm.v2p a) :=
    fun a ha ha' hout => returned_mem (show 0x80000000 ≤ ((withMem s.k m).tasks c).tf from hlow)
      hhigh ha ha' hout
  have heax : saved (returned (withMem s.k m) c n) c =
      Function.update (saved (withMem s.k m) c) .eax (n % 4294967296).toNat :=
    frameRegs_store_eax hlow hhigh (by omega)
  have hafter : load32 (returned (withMem s.k m) c n).mm.mem (Mm.v2p ((s.k.tasks c).tf - 8)) =
      L.after :=
    (direct_v2p.load_congr (by omega) (by omega) fun b hb hb' =>
      hmem b (by omega) (by omega) (by omega)).trans hret
  have hset := hregs.set (g := .eax) (w := (n % 4294967296).toNat) rfl (by omega)
  rw [← heax] at hset
  have hother : ∀ a, 0x80000000 ≤ a → a < 0x100000000 →
      a < (s.k.tasks c).kstack ∨ (s.k.tasks c).kstack + 4096 ≤ a →
      (returned (withMem s.k m) c n).mm.mem (Mm.v2p a) = m (Mm.v2p a) :=
    fun a ha ha' hout => hmem a ha ha' (by omega)
  have hsame : returned (withMem s.k m) c n = withMem s.k (returned (withMem s.k m) c n).mm.mem := rfl
  refine ⟨?_, heax⟩
  rw [hsame]
  exact h.body hcur (Quiet.refl s.k) hother hafter hset

end

/-- A program in the world of `Syscall.demo` that is about to call a stub: the return address zero
and three arguments are on its stack. -/
def caller : Cpu where
  k :=
    { (Syscall.demo 0).kernel with
      tasks := fun _ =>
        { Task.zero with
          kstack := 0x80008000, context := 0x80008f98, tf := 0x80008fb0, pgdir := 0x80001000 }
      esp0 := 0x80009000, trapRet := 0x80101300, doNothing := 0x80101400 }
  file := Function.update startFile .esp 0x10
  live := {0}

theorem caller_inv : Inv somewhere caller where
  labels := ⟨fun n => by simp only [somewhere]; omega, by decide, by decide, by decide, by decide⟩
  places := by
    have hmem : ∀ t ∈ caller.live, t = 0 := by simp [caller]
    refine ⟨⟨fun t ht => by rw [hmem t ht]; decide, fun t ht => by rw [hmem t ht]; decide,
      fun t ht => by rw [hmem t ht]; decide, fun t ht u hu h => ?_⟩,
      fun t ht => by rw [hmem t ht]; decide, fun t ht => by rw [hmem t ht]; decide⟩
    exact absurd ((hmem t ht).trans (hmem u hu).symm) h
  current := ⟨0, by decide, rfl, rfl⟩
  user := userRegs_startFile.set rfl (by decide)
  waiting := by
    intro u hu hcur
    rw [show u = 0 by simpa [caller] using hu] at hcur
    exact absurd rfl hcur

theorem caller_word (va pa : Nat) {v : Nat} (h : (va < 4294967296 ∧ va % 4096 ≤ 4092) ∧
      Mm.walk caller.k.mm.mem 0x1000 va = some pa ∧
      Mm.pteAddr (load32 caller.k.mm.mem (0x1000 + 4 * Mm.pdx va)) + 4096 ≤ 0x8000 ∧
      pa + 4 ≤ 0x8000 ∧ load32 caller.k.mm.mem pa = v) : Word caller.k.mm 0x8000 va v := by
  obtain ⟨hva, hw, htab, hpa, rfl⟩ := h
  exact Word.of_walk hva hw (by decide) (by decide) htab hpa

def callerWorld : World := { Syscall.demo 0 with kernel := caller.k }

theorem callerWorld_installed : Installed callerWorld 0x8000 := by
  refine ⟨fun g => ?_, fun g => by cases g <;> decide, fun g g' => ?_⟩
  · refine caller_word _ (0x3000 + 4 * g.number) ?_
    cases g <;> decide +kernel
  · cases g <;> cases g' <;> decide

theorem caller_stack : ∀ i v, [0, 0, 0x80003000, 1][i]? = some v →
    Word caller.k.mm 0x8000 (u32 (caller.file .esp + 4 * i)) v := by
  intro i v hi
  have hall : ∀ j, j < 4 → (u32 (0x10 + 4 * j) < 4294967296 ∧ u32 (0x10 + 4 * j) % 4096 ≤ 4092) ∧
      Mm.walk caller.k.mm.mem 0x1000 (u32 (0x10 + 4 * j)) = some (0x6010 + 4 * j) ∧
      Mm.pteAddr (load32 caller.k.mm.mem (0x1000 + 4 * Mm.pdx (u32 (0x10 + 4 * j)))) + 4096 ≤ 0x8000 ∧
      0x6010 + 4 * j + 4 ≤ 0x8000 ∧
      load32 caller.k.mm.mem (0x6010 + 4 * j) = [0, 0, 0x80003000, 1].getD j 0 := by decide +kernel
  have hword := caller_word _ _ (hall i (List.getElem?_eq_some_iff.1 hi).1)
  rwa [List.getD_eq_getElem?_getD, hi] at hword

/-- The call of `get_ticks` comes back with the ticks. -/
theorem caller_gets_ticks : ∃ f m s', execAll ((stub .sysGticks).take 2) caller.file caller.k.mm =
      .ok (f, caller.k.mm) ∧
    Syscall.syscall (entered callerWorld m) = .ok (.called .sysGticks, entered callerWorld m) ∧
    argint 1 (entered callerWorld m) = .ok (0x80003000, entered callerWorld m) ∧
    Step somewhere ⟨caller.k, f, caller.live⟩ (.trap (saved s'.k 0) caller.live (saved s'.k) 0) s' ∧
    ∃ f', execAll ((stub .sysGticks).drop 2) s'.file s'.k.mm = .ok (f', s'.k.mm) ∧
      f' .eax = 77 ∧ f' .eip = 0 ∧ f' .esp = 0x14 := by
  obtain ⟨f, s₁, hexec, henter, hcall, hargs, hreturn⟩ := stub_call .sysGticks
    caller_inv rfl rfl callerWorld_installed caller_stack
  have huser : UserRegs somewhere f := by
    obtain ⟨rfl, -⟩ := Prod.mk.inj (Except.ok.inj hexec)
    exact userRegs_raised .sysGticks caller_inv.user
  obtain ⟨hinv, -⟩ := caller_inv.user_step (m := caller.k.mm.mem) huser fun _ _ _ _ => rfl
  obtain ⟨s₂, hs₂, hsaved, hafter, hsame⟩ := hinv.entered (t := 0) rfl interrupt_syscall
  cases henter.symm.trans hs₂
  obtain ⟨hbody, hregs⟩ := body_returned (n := 77) (c := 0) caller_inv rfl hafter (hsaved ▸ huser)
  have hret : Mm.vload32 0x10 (returned (withMem caller.k s₁.2) 0 77).mm =
      .ok (0, (returned (withMem caller.k s₁.2) 0 77).mm) := by
    refine caller_stack 0 0 rfl _ fun a ha => ?_
    have haddr : Mm.v2p (0x80008fb0 + Syscall.eaxAt) = 0x8fdc := by decide
    have hfar : (returned (withMem caller.k s₁.2) 0 77).mm.mem a = s₁.2 a := by
      refine store32_apply_of_lt_or_ge (a := Mm.v2p (0x80008fb0 + Syscall.eaxAt)) ?_ ?_
      · rw [haddr]
        decide
      · rw [haddr]
        omega
    have hout : a + 0x80000000 < 0x80008fb0 - 8 ∨ 0x80008fb0 + 80 ≤ a + 0x80000000 := by omega
    exact hfar.trans (hsame a hout)
  obtain ⟨s', hstep, hk, hback⟩ := hreturn _ _ _ hbody hregs hret
  rw [← hk] at hback hstep
  exact ⟨f, s₁.2, s', hexec, hcall, hargs 1 _ rfl, hstep, _, hback, rfl, rfl, rfl⟩

end Usys

end Chunix
