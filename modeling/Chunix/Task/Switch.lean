import Chunix.Machine.Cpu
import Chunix.Machine.Run
import Chunix.Task.Spec

/-!
# The context switch

`swtch` saves the callee-saved registers of the caller on its stack and is meant
to store the stack pointer in the task. It is declared to take a pointer to the
`context` field, but `task_run` passes the field itself, so the stack pointer
goes to the first word of the context that `task_alloc` built and the field
never changes. A task is therefore resumed from that one place on its kernel
stack. `swtch_resumes_iff` says for which calls this is the place the call
saved its registers at.
-/

namespace Chunix

namespace Switch

open Machine Chunix.Task Kernel

/-- The routine `swtch`. -/
def swtch : List Instr :=
  [.load 4 .esp .eax,
    .load 8 .esp .edx,
    .push .ebp,
    .push .ebx,
    .push .esi,
    .push .edi,
    .store .esp .eax,
    .mov .edx .esp,
    .pop .edi,
    .pop .esi,
    .pop .ebx,
    .pop .ebp,
    .ret]

/-- The processor and the kernel state. -/
structure Core where
  k : Kernel
  regs : Regs

/-- A call of `swtch` from a processor state in which the arguments are on the
stack. -/
def callSwtch (k : Kernel) (r : Regs) : Core :=
  let s := execAll Mm.v2p (.push .eip :: swtch) (r, k.mm.mem)
  ⟨{ k with mm := { k.mm with mem := s.2 } }, s.1⟩

/-- The addresses of the kernel stack of `t`. -/
def InStack (k : Kernel) (t : Slot) (a : Nat) : Prop :=
  (k.tasks t).kstack ≤ a ∧ a < (k.tasks t).kstack + kstacksize

/-- The tasks of `T` have kernel stacks of their own in the direct map, with the
context where `task_alloc` puts it. -/
structure StacksOk (T : Set Slot) (k : Kernel) : Prop where
  aligned : ∀ t ∈ T, (k.tasks t).kstack % 4096 = 0
  direct : ∀ t ∈ T, Mm.kernbase ≤ (k.tasks t).kstack ∧ (k.tasks t).kstack + 4096 ≤ 4294967296
  context : ∀ t ∈ T, (k.tasks t).context = (k.tasks t).kstack + kstacksize - stackFrameSize - 4 -
    contextSize
  apart : ∀ t ∈ T, ∀ u ∈ T, t ≠ u → (k.tasks t).kstack ≠ (k.tasks u).kstack

/-- The task `c` is about to call `swtch(c->context, u->context)`: its stack
pointer is on its own kernel stack, where the two arguments are. -/
structure CallFrame (c u : Slot) (k : Kernel) (r : Regs) : Prop where
  word : ∀ g, r g < 4294967296
  low : (k.tasks c).kstack + 20 ≤ r .esp
  high : r .esp + 8 ≤ (k.tasks c).kstack + kstacksize
  old : load32 k.mm.mem (Mm.v2p (r .esp)) = (k.tasks c).context
  new : load32 k.mm.mem (Mm.v2p (r .esp + 4)) = (k.tasks u).context

/-- What a task does between two events: it executes, or it calls `task_run`. -/
inductive Ev
  | work
  | switch (c u : Slot)

/-- The steps of the tasks of `T`. While it executes a task may change anything
but the current task, the places of the kernel stacks, and the kernel stacks of
other tasks. -/
inductive Step (T : Set Slot) : Core → Ev → Core → Prop
  | work {s k' r'} (hcur : k'.current = s.k.current)
      (hplace : ∀ t, (k'.tasks t).kstack = (s.k.tasks t).kstack ∧
        (k'.tasks t).context = (s.k.tasks t).context)
      (hmem : ∀ t ∈ T, s.k.current ≠ some t → ∀ a, InStack s.k t a →
        k'.mm.mem (Mm.v2p a) = s.k.mm.mem (Mm.v2p a)) :
      Step T s .work ⟨k', r'⟩
  | switch {s c u k'} (hc : s.k.current = some c) (hcT : c ∈ T) (huT : u ∈ T)
      (h : taskRun u s.k = .ok ((), k')) (hf : CallFrame c u k' s.regs) :
      Step T s (.switch c u) (callSwtch k' s.regs)

/-- The registers in the order `swtch` saves them, behind the return address. -/
def savedRegs : List Reg := [.eip, .ebp, .ebx, .esi, .edi]

/-- The memory after `swtch` has stored the stack pointer. -/
def savedMem (m : Memory) (r : Regs) (old : Nat) : Memory :=
  store32 (pushed Mm.v2p r savedRegs (r .esp) m) (Mm.v2p old) (r .esp - 20)

theorem v2p_eq {a : Nat} (h : 0x80000000 ≤ a) (h' : a < 0x100000000) :
    Mm.v2p a = a - 0x80000000 := by
  unfold Mm.v2p u32
  omega

/-- The word at a place of the direct map is not changed by a write below it. -/
theorem load32_store32_above {m : Memory} {a b w : Nat} (hlo : 0x80000000 ≤ a)
    (hab : a + 4 ≤ b) (hhi : b + 4 ≤ 0x100000000) :
    load32 (store32 m (Mm.v2p a) w) (Mm.v2p b) = load32 m (Mm.v2p b) := by
  rw [v2p_eq hlo (by omega), v2p_eq (by omega) (by omega)]
  exact load32_store32_of_disjoint (by omega) (by omega) (by omega)

/-- The registers and the memory after a call of `swtch`: the registers were
saved below the stack pointer of the caller, the stack pointer was written to
the first word of the old context, and the registers are loaded from the new
one. -/
theorem execAll_swtch {r : Regs} {m : Memory} {old new : Nat} (hlo : 0x80000014 ≤ r .esp)
    (hhi : r .esp + 8 ≤ 0x100000000) (hold : load32 m (Mm.v2p (r .esp)) = old)
    (hnew : load32 m (Mm.v2p (r .esp + 4)) = new) (hn : new + 20 < 0x100000000) :
    ∃ r₁ : Regs, r₁ .esp = new ∧
      execAll Mm.v2p (.push .eip :: swtch) (r, m) =
        (popped Mm.v2p (savedMem m r old) [.edi, .esi, .ebx, .ebp, .eip] r₁, savedMem m r old) := by
  have hcode : (Instr.push .eip :: swtch) = [Reg.eip].map Instr.push ++
      ([.load 4 .esp .eax, .load 8 .esp .edx] ++
      ([Reg.ebp, .ebx, .esi, .edi].map Instr.push ++ ([.store .esp .eax, .mov .edx .esp] ++
        [Reg.edi, .esi, .ebx, .ebp, .eip].map Instr.pop))) := rfl
  have hS : u32 (r .esp - 4 + 4) = r .esp := by unfold u32; omega
  have hS' : u32 (r .esp - 4 + 8) = r .esp + 4 := by unfold u32; omega
  have hargs : execAll Mm.v2p [.load 4 .esp .eax, .load 8 .esp .edx]
      (Function.update r .esp (r .esp - 4), store32 m (Mm.v2p (r .esp - 4)) (r .eip)) =
      (Function.update (Function.update (Function.update r .esp (r .esp - 4)) .eax old) .edx new,
        store32 m (Mm.v2p (r .esp - 4)) (r .eip)) := by
    simp only [execAll, List.foldl, Instr.exec, Function.update_self, hS,
      Function.update_of_ne (show Reg.esp ≠ .eax by decide), hS']
    rw [load32_store32_above (by omega) (by omega) (by omega), hold,
      load32_store32_above (by omega) (by omega) (by omega), hnew]
  rw [hcode, execAll_append, execAll_push (by decide) (by simp; omega) (by omega), execAll_append]
  simp only [List.length_singleton, Nat.mul_one, pushed]
  rw [hargs, execAll_append]
  generalize hr₂ : Function.update (Function.update (Function.update r .esp (r .esp - 4)) .eax old)
    .edx new = r₂
  have hesp : r₂ .esp = r .esp - 4 := by rw [← hr₂]; rfl
  have hpush : pushed Mm.v2p r₂ [.ebp, .ebx, .esi, .edi] (r .esp - 4)
      (store32 m (Mm.v2p (r .esp - 4)) (r .eip)) = pushed Mm.v2p r savedRegs (r .esp) m := by
    refine pushed_congr ?_
    rw [← hr₂]
    intro g hg
    simp only [List.mem_cons, List.not_mem_nil, or_false] at hg
    rcases hg with rfl | rfl | rfl | rfl <;> rfl
  rw [execAll_push (by decide) (by rw [hesp]; simp; omega) (by rw [hesp]; omega), execAll_append,
    hesp, hpush]
  have hswap : execAll Mm.v2p [.store .esp .eax, .mov .edx .esp]
      (Function.update r₂ .esp (r .esp - 4 - 4 * 4), pushed Mm.v2p r savedRegs (r .esp) m) =
      (Function.update (Function.update r₂ .esp (r .esp - 20)) .esp new, savedMem m r old) := by
    rw [show r .esp - 4 - 4 * 4 = r .esp - 20 by omega, ← hr₂]
    rfl
  rw [show [Reg.ebp, .ebx, .esi, .edi].length = 4 from rfl, hswap, execAll_pop (by decide)
    (by simp; omega)]
  exact ⟨_, by simp, rfl⟩

/-- Pushes leave the bytes outside their words alone. -/
theorem pushed_apply {r : Regs} {rs : List Reg} {sp x : Nat} {m : Memory}
    (hlo : 0x80000000 + 4 * rs.length ≤ sp) (hhi : sp ≤ 0x100000000)
    (hx : x + 0x80000000 + 4 * rs.length < sp ∨ sp ≤ x + 0x80000000) :
    pushed Mm.v2p r rs sp m x = m x := by
  induction rs generalizing sp m with
  | nil => rfl
  | cons g rs ih =>
      simp only [List.length_cons] at hlo hx
      rw [pushed, ih (by omega) (by omega) (by omega), v2p_eq (by omega) (by omega)]
      exact store32_apply_of_lt_or_ge (by omega) (by omega)

/-- The words pushes write can be read back. -/
theorem load32_pushed {r : Regs} {rs : List Reg} {sp : Nat} {m : Memory} (i : Nat)
    (hi : i < rs.length) (hlo : 0x80000000 + 4 * rs.length ≤ sp) (hhi : sp ≤ 0x100000000) :
    load32 (pushed Mm.v2p r rs sp m) (Mm.v2p (sp - 4 * (i + 1))) = u32 (r (rs.get ⟨i, hi⟩)) := by
  induction rs generalizing sp m i with
  | nil => simp at hi
  | cons g rs ih =>
      simp only [List.length_cons] at hlo hi
      cases i with
      | zero =>
          -- The later pushes are below the first one.
          change _ = u32 (r g)
          rw [pushed, ← load32_store32_self m (Mm.v2p (sp - 4)) (r g), Nat.zero_add, Nat.mul_one,
            v2p_eq (a := sp - 4) (by omega) (by omega)]
          refine load32_congr_range (by omega) fun x hx hx' => ?_
          exact pushed_apply (by omega) (by omega) (by omega)
      | succ i =>
          have hsp : sp - 4 * (i + 1 + 1) = sp - 4 - 4 * (i + 1) := by omega
          rw [pushed, hsp, ih i (by omega) (by omega) (by omega)]
          rfl

theorem savedMem_apply {m : Memory} {r : Regs} {old a : Nat} (hlo : 0x80000014 ≤ r .esp)
    (hhi : r .esp ≤ 0x100000000) (hold : 0x80000000 ≤ old) (hold' : old + 4 ≤ 0x100000000)
    (ha : 0x80000000 ≤ a) (ha' : a < 0x100000000) (hs : a + 20 < r .esp ∨ r .esp ≤ a)
    (ho : a < old ∨ old + 4 ≤ a) : savedMem m r old (Mm.v2p a) = m (Mm.v2p a) := by
  rw [savedMem, v2p_eq ha ha', v2p_eq hold (by omega),
    store32_apply_of_lt_or_ge (by omega) (by omega)]
  exact pushed_apply (by simp [savedRegs]; omega) hhi (by simp only [savedRegs, List.length_cons, List.length_nil]; omega)

/-- The places of kernel stacks and contexts and the memory are the same. -/
structure SamePlace (k k' : Kernel) : Prop where
  kstack : ∀ t, (k'.tasks t).kstack = (k.tasks t).kstack
  context : ∀ t, (k'.tasks t).context = (k.tasks t).context

theorem SamePlace.trans {k k' k'' : Kernel} (h : SamePlace k k') (h' : SamePlace k' k'') :
    SamePlace k k'' :=
  ⟨fun t => (h'.kstack t).trans (h.kstack t), fun t => (h'.context t).trans (h.context t)⟩

theorem SamePlace.of_update {k k' : Kernel} {t : Slot} {tp : Task}
    (hk : k'.tasks = Function.update k.tasks t tp) (hs : tp.kstack = (k.tasks t).kstack)
    (hc : tp.context = (k.tasks t).context) : SamePlace k k' := by
  constructor
  · intro u
    by_cases hu : u = t
    · rw [hk, hu, Function.update_self, hs]
    · rw [hk, Function.update_of_ne hu]
  · intro u
    by_cases hu : u = t
    · rw [hk, hu, Function.update_self, hc]
    · rw [hk, Function.update_of_ne hu]

/-- `task_run` makes `u` current and leaves memory and places alone. -/
theorem taskRun_place {c u : Slot} {k k' : Kernel} {x : Unit} (hc : k.current = some c)
    (h : taskRun u k = .ok (x, k')) :
    k'.current = some u ∧ k'.mm.mem = k.mm.mem ∧ SamePlace k k' := by
  simp only [taskRun] at h
  obtain ⟨_, _, h₁, h⟩ := Act.bind_eq_ok.1 h
  obtain ⟨rfl, rfl⟩ := Act.get_eq_ok.1 h₁
  rcases Act.ite_eq_ok.1 h with ⟨-, h⟩ | ⟨he, h⟩
  · simp only [hc] at h
    have key : ∀ k₁ : Kernel, k₁.mm.mem = k.mm.mem → SamePlace k k₁ → (do
          Act.modify fun k => { k with current := some u }
          updTask u fun t => { t with state := .running, priority := t.priority - 1 }
          let tp ← Act.gets fun k => k.tasks u
          Act.modify fun k => { k with esp0 := u32 (tp.kstack + kstacksize) }
          onMm (Mm.lcr3 (Mm.p2v tp.pgdir)) : Act Kernel Unit) k₁ = .ok (x, k') →
        k'.current = some u ∧ k'.mm.mem = k.mm.mem ∧ SamePlace k k' := by
      intro k₁ hm hp hk
      simp only [Act.bind_eq_ok, updTask_eq_ok, Act.modify_eq_ok, Act.gets_eq_ok,
        onMm_eq_ok] at hk
      obtain ⟨_, _, rfl, _, _, rfl, _, _, ⟨-, rfl⟩, _, _, rfl, m, hcr, rfl⟩ := hk
      exact ⟨rfl, (Mm.lcr3_mem hcr).trans hm, hp.trans (SamePlace.of_update rfl rfl rfl)⟩
    rcases Act.ite_eq_ok.1 h with ⟨-, h⟩ | ⟨-, h⟩
    · obtain ⟨_, k₁, h₁, h⟩ := Act.bind_eq_ok.1 h
      rw [updTask_eq_ok] at h₁
      subst h₁
      exact key (k.setTask c fun t => { t with state := .runnable }) rfl
        (SamePlace.of_update rfl rfl rfl) h
    · exact key k rfl ⟨fun _ => rfl, fun _ => rfl⟩ h
  · obtain rfl := (Act.pure_eq_ok.1 h).2
    exact ⟨not_not.1 he, rfl, fun _ => rfl, fun _ => rfl⟩

theorem StacksOk.of_samePlace {T : Set Slot} {k k' : Kernel} (h : StacksOk T k)
    (hp : SamePlace k k') : StacksOk T k' := by
  constructor <;> intro t ht
  · rw [hp.kstack t]
    exact h.aligned t ht
  · rw [hp.kstack t]
    exact h.direct t ht
  · rw [hp.kstack t, hp.context t]
    exact h.context t ht
  · intro u hu htu
    rw [hp.kstack t, hp.kstack u]
    exact h.apart t ht u hu htu

/-- The numbers that describe the stack of one task. -/
theorem StacksOk.bounds {T : Set Slot} {k : Kernel} (h : StacksOk T k) {t : Slot} (ht : t ∈ T) :
    0x80000000 ≤ (k.tasks t).kstack ∧ (k.tasks t).kstack + 4096 ≤ 0x100000000 ∧
      (k.tasks t).context = (k.tasks t).kstack + 3992 := by
  obtain ⟨hlo, hhi⟩ := h.direct t ht
  have hctx := h.context t ht
  simp only [kstacksize, stackFrameSize, contextSize, Mm.kernbase] at hlo hctx
  omega

/-- The memory after a call of `swtch` and the registers it loads. -/
theorem callSwtch_eq {T : Set Slot} {c u : Slot} {k : Kernel} {r : Regs} (hk : StacksOk T k)
    (hc : c ∈ T) (hu : u ∈ T) (hf : CallFrame c u k r) :
    (callSwtch k r).k.mm.mem = savedMem k.mm.mem r (k.tasks c).context ∧
      (callSwtch k r).regs .esp = (k.tasks u).context + 20 ∧
      ∀ i g, [Reg.edi, .esi, .ebx, .ebp, .eip][i]? = some g →
        (callSwtch k r).regs g = load32 (savedMem k.mm.mem r (k.tasks c).context)
          (Mm.v2p ((k.tasks u).context + 4 * i)) := by
  obtain ⟨hlo, hhi, -⟩ := hk.bounds hc
  obtain ⟨-, hhi', hctx⟩ := hk.bounds hu
  have hlow := hf.low
  have hhigh := hf.high
  simp only [kstacksize] at hhigh
  obtain ⟨r₁, hesp, he⟩ := execAll_swtch (by omega) (by omega) hf.old hf.new (by omega)
  simp only [callSwtch, he]
  refine ⟨trivial, ?_, ?_⟩
  · rw [← hesp]
    rfl
  · intro i g hi
    rw [← hesp]
    match i, hi with
    | 0, hi | 1, hi | 2, hi | 3, hi | 4, hi =>
        cases hi
        rfl
    | i + 5, hi => simp at hi

/-- A call of `swtch` does not touch the kernel stacks of other tasks. -/
theorem callSwtch_frame {T : Set Slot} {c u t : Slot} {k : Kernel} {r : Regs} {a : Nat}
    (hk : StacksOk T k) (hc : c ∈ T) (hu : u ∈ T) (ht : t ∈ T) (htc : t ≠ c)
    (hf : CallFrame c u k r) (ha : InStack k t a) :
    (callSwtch k r).k.mm.mem (Mm.v2p a) = k.mm.mem (Mm.v2p a) := by
  rw [(callSwtch_eq hk hc hu hf).1]
  obtain ⟨hlo, hhi, hctx⟩ := hk.bounds hc
  obtain ⟨hlo', hhi', -⟩ := hk.bounds ht
  have hal := hk.aligned c hc
  have hal' := hk.aligned t ht
  have hne := hk.apart t ht c hc htc
  have hlow := hf.low
  have hhigh := hf.high
  obtain ⟨ha₁, ha₂⟩ := ha
  simp only [kstacksize] at hhigh ha₂
  exact savedMem_apply (by omega) (by omega) (by omega) (by omega) (by omega) (by omega)
    (by omega) (by omega)

/-- The task `t` is switched out: `s₁` is the state right after its call of
`swtch`, and its stack has not been touched since. -/
structure Parked (t : Slot) (s₁ s : Core) : Prop where
  place : SamePlace s₁.k s.k
  out : s.k.current ≠ some t
  mem : ∀ a, InStack s₁.k t a → s.k.mm.mem (Mm.v2p a) = s₁.k.mm.mem (Mm.v2p a)

theorem parked_step {T : Set Slot} {t : Slot} {s₁ s s' : Core} {e : Ev} (hk : StacksOk T s₁.k)
    (ht : t ∈ T) (hp : Parked t s₁ s) (he : ∀ c, e ≠ .switch c t) (h : Step T s e s') :
    Parked t s₁ s' := by
  have hst : ∀ a, InStack s₁.k t a → InStack s.k t a := by
    intro a ha
    rw [InStack, hp.place.kstack t]
    exact ha
  cases h with
  | work hcur hplace hmem =>
      refine ⟨hp.place.trans ⟨fun t => (hplace t).1, fun t => (hplace t).2⟩, ?_, ?_⟩
      · exact fun hc => hp.out (hcur ▸ hc)
      · intro a ha
        exact (hmem t ht hp.out a (hst a ha)).trans (hp.mem a ha)
  | @switch c u k' hc hcT huT h hf =>
      obtain ⟨hcur, hm, hpl⟩ := taskRun_place hc h
      have hk' := (hk.of_samePlace hp.place).of_samePlace hpl
      have htc : t ≠ c := by
        rintro rfl
        exact hp.out hc
      refine ⟨hp.place.trans ⟨hpl.kstack, hpl.context⟩, ?_, ?_⟩
      · intro hcur'
        cases hcur.symm.trans hcur'
        exact he c rfl
      · intro a ha
        have ha' : InStack k' t a := by
          rw [InStack, hpl.kstack t]
          exact hst a ha
        rw [callSwtch_frame hk' hcT huT ht htc hf ha', hm]
        exact hp.mem a ha

/-- Execution of `t` goes on as if its call of `swtch` in `s₀` had returned: at
the return address, with the same stack pointer and callee-saved registers, and
with its kernel stack unchanged outside the five words the call saves. -/
structure Resumes (t : Slot) (s₀ s : Core) : Prop where
  current : s.k.current = some t
  regs : ∀ g ∈ [Reg.eip, .esp, .ebp, .ebx, .esi, .edi], s.regs g = s₀.regs g
  stack : ∀ a, InStack s₀.k t a → a + 20 < s₀.regs .esp ∨ s₀.regs .esp ≤ a →
    s.k.mm.mem (Mm.v2p a) = s₀.k.mm.mem (Mm.v2p a)

/-- The words of the context are on the kernel stack. -/
theorem load32_context {T : Set Slot} {t : Slot} {k : Kernel} {m m' : Memory} {i : Nat}
    (hk : StacksOk T k) (ht : t ∈ T) (hi : i < 5)
    (hm : ∀ a, InStack k t a → m' (Mm.v2p a) = m (Mm.v2p a)) :
    load32 m' (Mm.v2p ((k.tasks t).context + 4 * i)) =
      load32 m (Mm.v2p ((k.tasks t).context + 4 * i)) := by
  obtain ⟨hlo, hhi, hctx⟩ := hk.bounds ht
  rw [v2p_eq (by omega) (by omega)]
  refine load32_congr_range (by omega) fun x hx hx' => ?_
  have hv : Mm.v2p (x + 0x80000000) = x := by rw [v2p_eq (by omega) (by omega)]; omega
  have := hm (x + 0x80000000) ⟨by omega, by simp only [kstacksize]; omega⟩
  rwa [hv] at this

/-- The words of the context after a call of `swtch`: the first one is the stack
pointer, and the others are the saved registers if those were saved there. -/
theorem load32_savedMem {m : Memory} {r : Regs} {ctx : Nat} (hw : ∀ g, r g < 4294967296)
    (hlo : 0x80000000 ≤ ctx) (hesp : r .esp = ctx + 20) (hhi : ctx + 20 ≤ 0x100000000)
    (hedi : r .edi = ctx) {i : Nat} {g : Reg}
    (hi : [Reg.edi, .esi, .ebx, .ebp, .eip][i]? = some g) :
    load32 (savedMem m r ctx) (Mm.v2p (ctx + 4 * i)) = r g := by
  have above : ∀ j (hj : j < 4), load32 (savedMem m r ctx) (Mm.v2p (ctx + 4 * (4 - j))) =
      r (savedRegs.get ⟨j, by simp only [savedRegs, List.length_cons]; omega⟩) := by
    intro j hj
    have hsp : ctx + 4 * (4 - j) = r .esp - 4 * (j + 1) := by omega
    rw [savedMem, load32_store32_above hlo (by omega) (by omega), hsp,
      load32_pushed j (by simp only [savedRegs, List.length_cons]; omega)
        (by simp only [savedRegs, List.length_cons, List.length_nil]; omega) (by omega),
      u32_eq_self (hw _)]
  match i, hi with
  | 0, hi =>
      cases hi
      rw [Nat.mul_zero, Nat.add_zero, savedMem, load32_store32_self, hedi, hesp,
        u32_eq_self (by omega)]
      omega
  | 1, hi => cases hi; exact above 3 (by decide)
  | 2, hi => cases hi; exact above 2 (by decide)
  | 3, hi => cases hi; exact above 1 (by decide)
  | 4, hi => cases hi; exact above 0 (by decide)
  | i + 5, hi => simp at hi

/-- A task that switched itself out and is then made current for the next time
resumes behind its call exactly when the stack pointer at the call was just
above its context and `edi` held the address of its context. -/
theorem swtch_resumes_iff {T : Set Slot} {t u c : Slot} {s₀ s₁ s₂ s₃ : Core} {es : List Ev}
    (hk : StacksOk T s₀.k) (hout : Step T s₀ (.switch t u) s₁) (hu : u ≠ t)
    (hrun : Run (Step T) s₁ es s₂) (hes : ∀ v, .switch v t ∉ es)
    (hin : Step T s₂ (.switch c t) s₃) :
    Resumes t s₀ s₃ ↔ s₀.regs .esp = (s₀.k.tasks t).context + 20 ∧
      s₀.regs .edi = (s₀.k.tasks t).context := by
  obtain ⟨k₁, rfl, htT, huT, hcur₁, hm₁, hp₁, hf₁⟩ : ∃ k₁, s₁ = callSwtch k₁ s₀.regs ∧ t ∈ T ∧
      u ∈ T ∧ k₁.current = some u ∧ k₁.mm.mem = s₀.k.mm.mem ∧ SamePlace s₀.k k₁ ∧
      CallFrame t u k₁ s₀.regs := by
    cases hout with
    | switch hc hcT huT h hf =>
        obtain ⟨hcur, hm, hp⟩ := taskRun_place hc h
        exact ⟨_, rfl, hcT, huT, hcur, hm, hp, hf⟩
  obtain ⟨k₃, rfl, hcT, hcur₂, hcur₃, hm₃, hp₃, hf₃⟩ : ∃ k₃, s₃ = callSwtch k₃ s₂.regs ∧ c ∈ T ∧
      s₂.k.current = some c ∧ k₃.current = some t ∧ k₃.mm.mem = s₂.k.mm.mem ∧
      SamePlace s₂.k k₃ ∧ CallFrame c t k₃ s₂.regs := by
    cases hin with
    | switch hc hcT huT h hf =>
        obtain ⟨hcur, hm, hp⟩ := taskRun_place hc h
        exact ⟨_, rfl, hcT, hc, hcur, hm, hp, hf⟩
  have hk₁ : StacksOk T (callSwtch k₁ s₀.regs).k := (hk.of_samePlace hp₁).of_samePlace
    ⟨fun _ => rfl, fun _ => rfl⟩
  have hpark : Parked t (callSwtch k₁ s₀.regs) s₂ := by
    refine hrun.invariant (I := Parked t (callSwtch k₁ s₀.regs)) ?_ ?_
    · intro s e s' he hI hs
      exact parked_step hk₁ htT hI (fun v hv => hes v (hv ▸ he)) hs
    · refine ⟨⟨fun _ => rfl, fun _ => rfl⟩, ?_, fun _ _ => rfl⟩
      intro hcur
      cases hcur₁.symm.trans hcur
      exact hu rfl
  have htc : t ≠ c := by
    rintro rfl
    exact hpark.out hcur₂
  -- The stack of `t` in the last state is the one its own call left behind.
  have hplace : SamePlace s₀.k k₃ := (hp₁.trans ⟨hpark.place.kstack, hpark.place.context⟩).trans hp₃
  have hk₃ := hk.of_samePlace hplace
  have hmem : ∀ a, InStack s₀.k t a → (callSwtch k₃ s₂.regs).k.mm.mem (Mm.v2p a) =
      savedMem s₀.k.mm.mem s₀.regs (s₀.k.tasks t).context (Mm.v2p a) := by
    intro a ha
    have ha₃ : InStack k₃ t a := by rw [InStack, hplace.kstack t]; exact ha
    have ha₁ : InStack (callSwtch k₁ s₀.regs).k t a := by
      rw [InStack]
      exact hp₁.kstack t ▸ ha
    rw [callSwtch_frame hk₃ hcT htT htT htc hf₃ ha₃, hm₃, hpark.mem a ha₁,
      (callSwtch_eq (hk.of_samePlace hp₁) htT huT hf₁).1, hm₁, hp₁.context t]
  obtain ⟨hs₃, hesp₃, hreg₃⟩ := callSwtch_eq hk₃ hcT htT hf₃
  rw [← hs₃] at hreg₃
  rw [hplace.context t] at hesp₃ hreg₃
  have hreg : ∀ i g, [Reg.edi, .esi, .ebx, .ebp, .eip][i]? = some g →
      (callSwtch k₃ s₂.regs).regs g = load32 (savedMem s₀.k.mm.mem s₀.regs
        (s₀.k.tasks t).context) (Mm.v2p ((s₀.k.tasks t).context + 4 * i)) := by
    intro i g hi
    rw [hreg₃ i g hi]
    exact load32_context hk htT (List.getElem?_eq_some_iff.1 hi).1 hmem
  obtain ⟨hlo, hhi, hctx⟩ := hk.bounds htT
  have hlow := hf₁.low
  have hhigh := hf₁.high
  rw [hp₁.kstack t] at hlow hhigh
  simp only [kstacksize] at hhigh
  constructor
  · intro h
    have hesp := h.regs .esp (by decide)
    have hedi := h.regs .edi (by decide)
    rw [hesp₃] at hesp
    rw [hreg 0 .edi rfl, Nat.mul_zero, Nat.add_zero, savedMem, load32_store32_self,
      u32_eq_self (by omega)] at hedi
    omega
  · rintro ⟨hesp, hedi⟩
    refine ⟨hcur₃, ?_, ?_⟩
    · have hload : ∀ (i : Nat) (g : Reg), [Reg.edi, .esi, .ebx, .ebp, .eip][i]? = some g →
          (callSwtch k₃ s₂.regs).regs g = s₀.regs g := by
        intro i g hi
        rw [hreg i g hi]
        exact load32_savedMem hf₁.word (by omega) hesp (by omega) hedi hi
      intro g hg
      simp only [List.mem_cons, List.not_mem_nil, or_false] at hg
      rcases hg with rfl | rfl | rfl | rfl | rfl | rfl
      · exact hload 4 _ rfl
      · rw [hesp₃, hesp]
      · exact hload 3 _ rfl
      · exact hload 2 _ rfl
      · exact hload 1 _ rfl
      · exact hload 0 _ rfl
    · intro a ha hout
      rw [hmem a ha]
      obtain ⟨ha₁, ha₂⟩ := ha
      simp only [kstacksize] at ha₂
      exact savedMem_apply (by omega) (by omega) (by omega) (by omega) (by omega) (by omega)
        hout (by omega)

/-- Two tasks with kernel stacks, of which task 0 calls `swtch` with the stack
pointer `sp` and the value `edi` in that register. -/
def pair (sp edi : Nat) : Core where
  k :=
    { mm :=
        { mem := store32 (store32 (store32 (store32 (fun _ => 0) (Mm.v2p sp) 0x80001f98)
            (Mm.v2p (sp + 4)) 0x80002f98) (Mm.v2p 0x80002800) 0x80002f98) (Mm.v2p 0x80002804)
            0x80001f98
          freeList := 0, cr3 := 0, memsz := 0, memStart := 0, data := 0 }
      tasks := fun t =>
        if t = 0 then { Task.zero with kstack := 0x80001000, context := 0x80001f98 }
        else { Task.zero with kstack := 0x80002000, context := 0x80002f98 }
      rootp := some 0, current := some 0, inittask := some 0, nextpid := 1, kpgdir := 0,
      esp0 := 0, trapRet := 0, doNothing := 0 }
  regs := fun g => if g = .esp then sp else if g = .edi then edi else 0

/-- The two tasks. -/
def both : Set Slot := {t | t = 0 ∨ t = 1}

theorem pair_stacksOk (sp edi : Nat) : StacksOk both (pair sp edi).k := by
  constructor
  · rintro t (rfl | rfl) <;> simp [pair]
  · rintro t (rfl | rfl) <;> simp [pair, Mm.kernbase]
  · rintro t (rfl | rfl) <;> simp [pair, kstacksize, stackFrameSize, contextSize]
  · rintro t (rfl | rfl) u (rfl | rfl) h <;> simp_all [pair]

/-- The memory of `pair` holds the arguments of both calls. -/
theorem pair_args {sp edi : Nat} (hlo : 0x80001014 ≤ sp) (hhi : sp + 8 ≤ 0x80002000) :
    load32 (pair sp edi).k.mm.mem (Mm.v2p sp) = 0x80001f98 ∧
      load32 (pair sp edi).k.mm.mem (Mm.v2p (sp + 4)) = 0x80002f98 ∧
      load32 (pair sp edi).k.mm.mem (Mm.v2p 0x80002800) = 0x80002f98 ∧
      load32 (pair sp edi).k.mm.mem (Mm.v2p 0x80002804) = 0x80001f98 := by
  have h₁ : Mm.v2p sp = sp - 0x80000000 := v2p_eq (by omega) (by omega)
  have h₂ : Mm.v2p (sp + 4) = sp + 4 - 0x80000000 := v2p_eq (by omega) (by omega)
  have h₃ : Mm.v2p 0x80002800 = 0x2800 := by decide
  have h₄ : Mm.v2p 0x80002804 = 0x2804 := by decide
  simp only [pair, h₁, h₂, h₃, h₄]
  refine ⟨?_, ?_, ?_, ?_⟩
  · rw [load32_store32_of_disjoint (by omega) (by omega) (by omega),
      load32_store32_of_disjoint (by omega) (by omega) (by omega),
      load32_store32_of_disjoint (by omega) (by omega) (by omega), load32_store32_self]
    rfl
  · rw [load32_store32_of_disjoint (by omega) (by omega) (by omega),
      load32_store32_of_disjoint (by omega) (by omega) (by omega), load32_store32_self]
    rfl
  · rw [load32_store32_of_disjoint (by omega) (by omega) (by omega), load32_store32_self]
    rfl
  · rw [load32_store32_self]
    rfl

/-- Task 0 switches to task 1, which executes for a while and switches back. -/
theorem pair_run {sp edi : Nat} (hlo : 0x80001014 ≤ sp) (hhi : sp + 8 ≤ 0x80002000)
    (hedi : edi < 0x100000000) :
    ∃ s₁ s₂ s₃, Step both (pair sp edi) (.switch 0 1) s₁ ∧ Run (Step both) s₁ [.work] s₂ ∧
      Step both s₂ (.switch 1 0) s₃ ∧ s₃.regs .esp = 0x80001fac := by
  have hk := pair_stacksOk sp edi
  obtain ⟨ha₁, ha₂, ha₃, ha₄⟩ := @pair_args sp edi hlo hhi
  obtain ⟨k₁, h₁⟩ : ∃ k₁, taskRun 1 (pair sp edi).k = .ok ((), k₁) := ⟨_, rfl⟩
  obtain ⟨-, hm₁, hp₁⟩ := taskRun_place rfl h₁
  have hf₁ : CallFrame 0 1 k₁ (pair sp edi).regs := by
    refine ⟨?_, ?_, ?_, ?_, ?_⟩
    · rintro (_ | _ | _ | _ | _ | _ | _ | _) <;> simp [pair] <;> omega
    · rw [hp₁.kstack]
      simpa [pair] using hlo
    · rw [hp₁.kstack]
      simpa [pair, kstacksize] using hhi
    · rw [hm₁, hp₁.context]
      exact ha₁
    · rw [hm₁, hp₁.context]
      exact ha₂
  have hk₁ := hk.of_samePlace hp₁
  have hT₀ : (0 : Slot) ∈ both := Or.inl rfl
  have hT₁ : (1 : Slot) ∈ both := Or.inr rfl
  -- The call of task 0 leaves the arguments on the stack of task 1 alone.
  have hargs : ∀ a, 0x80002000 ≤ a → a + 4 ≤ 0x80003000 →
      load32 (callSwtch k₁ (pair sp edi).regs).k.mm.mem (Mm.v2p a) =
        load32 (pair sp edi).k.mm.mem (Mm.v2p a) := by
    intro a ha ha'
    rw [v2p_eq (by omega) (by omega), ← hm₁]
    refine load32_congr_range (by omega) fun x hx hx' => ?_
    have hv : Mm.v2p (x + 0x80000000) = x := by rw [v2p_eq (by omega) (by omega)]; omega
    have hin : InStack k₁ 1 (x + 0x80000000) := by
      rw [InStack, hp₁.kstack]
      simp only [pair, kstacksize]
      constructor <;> simp <;> omega
    have := callSwtch_frame hk₁ hT₀ hT₁ hT₁ (by decide) hf₁ hin
    rwa [hv] at this
  obtain ⟨k₃, h₃⟩ : ∃ k₃, taskRun 0 (callSwtch k₁ (pair sp edi).regs).k = .ok ((), k₃) := by
    cases h₁
    exact ⟨_, rfl⟩
  have hc₁ : (callSwtch k₁ (pair sp edi).regs).k.current = some 1 := (taskRun_place rfl h₁).1
  obtain ⟨-, hm₃, hp₃⟩ := taskRun_place hc₁ h₃
  have hp : SamePlace (pair sp edi).k k₃ := hp₁.trans ⟨hp₃.kstack, hp₃.context⟩
  have hf₃ : CallFrame 1 0 k₃ fun g => if g = .esp then 0x80002800 else 0 := by
    refine ⟨?_, ?_, ?_, ?_, ?_⟩
    · rintro (_ | _ | _ | _ | _ | _ | _ | _) <;> decide
    · rw [hp.kstack]
      simp [pair]
    · rw [hp.kstack]
      simp [pair, kstacksize]
    · rw [hm₃, hp.context, if_pos rfl, hargs _ (by decide) (by decide)]
      exact ha₃
    · rw [hm₃, hp.context, if_pos rfl, hargs _ (by decide) (by decide)]
      exact ha₄
  have hwork : Step both (callSwtch k₁ (pair sp edi).regs) .work
      ⟨(callSwtch k₁ (pair sp edi).regs).k, fun g => if g = .esp then 0x80002800 else 0⟩ :=
    .work rfl (fun _ => ⟨rfl, rfl⟩) fun _ _ _ _ _ => rfl
  refine ⟨_, _, _, .switch rfl hT₀ hT₁ h₁ hf₁, .single hwork, .switch hc₁ hT₁ hT₀ h₃ hf₃, ?_⟩
  rw [(callSwtch_eq (hk.of_samePlace hp) hT₁ hT₀ hf₃).2.1, hp.context]
  rfl

/-- A task that calls `swtch` just above its context with the address of the
context in `edi` resumes behind the call. -/
theorem swtch_pair_resumes :
    ∃ s₃, Resumes 0 (pair 0x80001fac 0x80001f98) s₃ := by
  obtain ⟨s₁, s₂, s₃, hout, hrun, hin, -⟩ :=
    pair_run (show 0x80001014 ≤ 0x80001fac by decide) (by decide)
      (show 0x80001f98 < 0x100000000 by decide)
  refine ⟨s₃, (swtch_resumes_iff (pair_stacksOk _ _) hout (by decide) hrun ?_ hin).2 ⟨rfl, rfl⟩⟩
  simp

/-- A task that calls `swtch` in the middle of its stack is resumed with the stack
pointer just above its context instead. -/
theorem swtch_loses_stackPointer :
    ∃ s₁ s₂ s₃, StacksOk both (pair 0x80001800 0).k ∧
      Step both (pair 0x80001800 0) (.switch 0 1) s₁ ∧ Run (Step both) s₁ [.work] s₂ ∧
      Step both s₂ (.switch 1 0) s₃ ∧ ¬ Resumes 0 (pair 0x80001800 0) s₃ := by
  obtain ⟨s₁, s₂, s₃, hout, hrun, hin, hesp⟩ :=
    pair_run (show 0x80001014 ≤ 0x80001800 by decide) (by decide)
      (show 0 < 0x100000000 by decide)
  refine ⟨s₁, s₂, s₃, pair_stacksOk _ _, hout, hrun, hin, ?_⟩
  intro h
  have := h.regs .esp (by decide)
  rw [hesp] at this
  exact absurd this (by decide)

end Switch

end Chunix
