import Chunix.Machine.Run
import Chunix.Task.Switch
import Chunix.Trap.Isr
import Mathlib.Data.Finset.Basic

/-!
# Programs and the processor they share

A program in user mode is interrupted, `trap` works on its behalf, and either returns or calls
`task_run`. The context of a task is a fixed place just below its frame, and the return address of
`trap` is in the place of its `eip`. So a task that another one switches to goes on behind the call
of `trap`, whatever it was doing when it was switched out, and from there with the registers in
its frame. For the programs this is all that is needed: the processor, the kernel stacks and
`swtch` together refine a machine in which every task has registers of its own, which nothing but
the task itself and its own traps changes.
-/

namespace Chunix

namespace Preempt

open Machine Chunix.Task Kernel Descr Isr
open Switch (InStack StacksOk CallFrame callSwtch)

/-- Addresses in the kernel: the task state segment, the routines of the vectors and the place
behind the call of `trap`. -/
structure Labels where
  tss : Nat
  isrTable : Nat → Nat
  after : Nat

/-- The table of the segments. -/
def Labels.gdt (L : Labels) : Memory := initGdt L.tss

/-- The addresses fit the processor, and the three places of code are different. -/
structure Labels.Ok (L : Labels) (k : Kernel) : Prop where
  isr : ∀ n, L.isrTable n < 4294967296
  after : L.after < 4294967296
  trapRet : k.trapRet ≠ L.after
  doNothing : k.doNothing ≠ L.after
  apart : k.doNothing ≠ k.trapRet

/-- The code of the kernel on the way back to user mode, by its address. -/
def text (L : Labels) (k : Kernel) (a : Nat) : Option (List Op) :=
  if a = L.after then some leave
  else if a = k.trapRet then some Isr.trapRet
  else if a = k.doNothing then some [.ret]
  else none

/-- The processor executes code of the kernel until it is in user mode. -/
def resume (L : Labels) (k : Kernel) : Nat → File × Memory → Option (File × Memory)
  | 0, _ => none
  | n + 1, s =>
      if s.1 .cs % 4 = 3 then some s
      else
        match text L k (s.1 .eip) with
        | none => none
        | some is => resume L k n (execOps L.gdt Mm.v2p is s)

/-- Registers that a program in user mode can have. -/
structure UserRegs (L : Labels) (f : File) : Prop where
  fits : f.Fits
  user : f .cs % 4 = 3
  segs : ∀ g, g = .ds ∨ g = .es ∨ g = .fs ∨ g = .gs → 3 ≤ dplOf L.gdt (f g)

/-- The registers in the frame of a task. -/
def saved (k : Kernel) (u : Slot) : File := frameRegs k.mm.mem (k.tasks u).tf

/-- The task `u` waits for the processor: its context leads to the end of a trap, or is the one
that `task_alloc` made. -/
structure Waiting (L : Labels) (k : Kernel) (u : Slot) : Prop where
  code : load32 k.mm.mem (Mm.v2p ((k.tasks u).tf - 8)) = L.after ∨
    load32 k.mm.mem (Mm.v2p ((k.tasks u).tf - 8)) = k.doNothing ∧
      load32 k.mm.mem (Mm.v2p ((k.tasks u).tf - 4)) = k.trapRet
  regs : UserRegs L (saved k u)

/-- A program in user mode on the processor, and the tasks there are. -/
structure Cpu where
  k : Kernel
  file : File
  live : Finset Slot

/-- The kernel with another memory. -/
def withMem (k : Kernel) (m : Memory) : Kernel := { k with mm := { k.mm with mem := m } }

/-- The registers of a task: those of the processor while it runs, those in its frame
otherwise. -/
def Cpu.regsOf (s : Cpu) (u : Slot) : File := if s.k.current = some u then s.file else saved s.k u

theorem Cpu.regsOf_current {s : Cpu} {u : Slot} (h : s.k.current = some u) : s.regsOf u = s.file :=
  if_pos h

theorem Cpu.regsOf_waiting {s : Cpu} {u : Slot} (h : s.k.current ≠ some u) :
    s.regsOf u = saved s.k u := if_neg h

/-- The kernel stacks of the tasks, with the frame at the end and not at the end of the address
space. -/
structure Placed (live : Finset Slot) (k : Kernel) : Prop extends StacksOk live k where
  tf : ∀ u ∈ live, (k.tasks u).tf = (k.tasks u).kstack + 4016
  below : ∀ u ∈ live, (k.tasks u).kstack + 4096 < 4294967296

/-- Between two traps: the current task is in user mode and its kernel stack is the one that the
processor will change to. All others wait. -/
structure Inv (L : Labels) (s : Cpu) : Prop where
  labels : L.Ok s.k
  places : Placed s.live s.k
  current : ∃ t ∈ s.live, s.k.current = some t ∧ s.k.esp0 = (s.k.tasks t).kstack + 4096
  user : UserRegs L s.file
  waiting : ∀ u ∈ s.live, s.k.current ≠ some u → Waiting L s.k u

/-- What the code that `trap` calls may do on behalf of the task `t`. It changes the frame of the
task, but not to one that is not for user mode, and not the return address of `trap`; it leaves the
kernel stacks of the other tasks alone, and it may make and free tasks. -/
structure Body (L : Labels) (t : Slot) (live live' : Finset Slot) (k k' : Kernel) : Prop where
  current : k'.current = k.current
  esp0 : k'.esp0 = k.esp0
  trapRet : k'.trapRet = k.trapRet
  doNothing : k'.doNothing = k.doNothing
  self : t ∈ live'
  places : Placed live' k'
  kept : ∀ u ∈ live', u ∈ live → (k'.tasks u).kstack = (k.tasks u).kstack ∧
    (u ≠ t → ∀ a, InStack k u a → k'.mm.mem (Mm.v2p a) = k.mm.mem (Mm.v2p a))
  born : ∀ u ∈ live', u ∉ live → Waiting L k' u
  ret : load32 k'.mm.mem (Mm.v2p ((k'.tasks t).tf - 8)) = L.after
  frame : UserRegs L (saved k' t)

/-- Work that changes the tasks in what is not about traps: in their states, their channels and
their families. -/
structure Quiet (k k' : Kernel) : Prop extends Switch.SamePlace k k' where
  tf : ∀ t, (k'.tasks t).tf = (k.tasks t).tf
  current : k'.current = k.current
  esp0 : k'.esp0 = k.esp0
  trapRet : k'.trapRet = k.trapRet
  doNothing : k'.doNothing = k.doNothing

theorem Quiet.refl (k : Kernel) : Quiet k k :=
  ⟨⟨fun _ => rfl, fun _ => rfl⟩, fun _ => rfl, rfl, rfl, rfl, rfl⟩

theorem quiet_withMem (k : Kernel) (m : Memory) : Quiet k (withMem k m) :=
  ⟨⟨fun _ => rfl, fun _ => rfl⟩, fun _ => rfl, rfl, rfl, rfl, rfl⟩

theorem Quiet.trans {k k' k'' : Kernel} (h : Quiet k k') (h' : Quiet k' k'') : Quiet k k'' :=
  ⟨h.toSamePlace.trans h'.toSamePlace, fun t => (h'.tf t).trans (h.tf t),
    h'.current.trans h.current, h'.esp0.trans h.esp0, h'.trapRet.trans h.trapRet,
    h'.doNothing.trans h.doNothing⟩

/-- What the processor interrupts a program for. -/
structure Interrupt (n : Nat) (err : Option Nat) (soft : Bool) : Prop where
  vector : n ≤ tSyscall
  soft : soft = true → n = tSyscall
  code : err.isSome = pushesError n
  error : ∀ e ∈ err, e < 4294967296

theorem interrupt_syscall : Interrupt tSyscall none true :=
  ⟨Nat.le_refl _, fun _ => rfl, rfl, by simp⟩

/-- A trap of the current task comes to its end: the kernel is in the state `k₁` when its work is
done, and goes on as the task `u`, in the state `k` and with the registers `f`. Either `trap`
returns, or the work ends in a call of `task_run`. -/
inductive Ends (L : Labels) (s : Cpu) (live : Finset Slot) : Slot → Slot → Kernel → Kernel → File → Prop
  | ret {t n err soft s₁ k f} (hcur : s.k.current = some t) (hint : Interrupt n err soft)
      (henter : enter (tables L.tss L.isrTable s.k.esp0) L.after n err soft (s.file, s.k.mm.mem) =
        some s₁)
      (hbody : Body L t s.live live (withMem s.k s₁.2) k) (heip : f .eip = L.after)
      (hesp : f .esp + 4 = (k.tasks t).tf) (hcs : f .cs % 4 = 0) : Ends L s live t t k k f
  | switch {t u n err soft s₁ k k₂ r f} (hcur : s.k.current = some t) (hint : Interrupt n err soft)
      (henter : enter (tables L.tss L.isrTable s.k.esp0) L.after n err soft (s.file, s.k.mm.mem) =
        some s₁)
      (hbody : Body L t s.live live (withMem s.k s₁.2) k) (hu : u ∈ live)
      (hrun : taskRun u k = .ok ((), k₂)) (hcall : CallFrame t u k₂ r)
      (hdeep : r .esp + 16 ≤ (k.tasks t).tf) (heip : f .eip = (callSwtch k₂ r).regs .eip)
      (hesp : f .esp = (callSwtch k₂ r).regs .esp) (hcs : f .cs % 4 = 0) :
      Ends L s live t u k (callSwtch k₂ r).k f

/-- The program computes, or a trap ends: with the frame `f` of the task that was interrupted, the
frames `born` of new tasks, and the task `u` on the processor. -/
inductive Ev
  | user (f : File)
  | trap (f : File) (live : Finset Slot) (born : Slot → File) (u : Slot)

/-- The steps of the processor. A program changes its registers and the memory, but not the kernel
stacks. -/
inductive Step (L : Labels) : Cpu → Ev → Cpu → Prop
  | user {s f m} (hf : UserRegs L f)
      (hmem : ∀ u ∈ s.live, ∀ a, InStack s.k u a → m (Mm.v2p a) = s.k.mm.mem (Mm.v2p a)) :
      Step L s (.user f) ⟨withMem s.k m, f, s.live⟩
  | trap {s live t u k₁ k f r} (hends : Ends L s live t u k₁ k f)
      (hres : resume L k 3 (f, k.mm.mem) = some r) :
      Step L s (.trap (saved k₁ t) live (saved k₁) u) ⟨withMem k r.2, r.1, live⟩

/-- Tasks with registers of their own. -/
structure Abs where
  cur : Slot
  regs : Slot → File
  live : Finset Slot

/-- A program changes the registers of its task. A trap changes those of the task it interrupts,
gives new tasks theirs and chooses the task that goes on. -/
def Abs.step (a : Abs) : Ev → Abs
  | .user f => { a with regs := Function.update a.regs a.cur f }
  | .trap f live born u =>
      { cur := u
        regs := fun v => if v = a.cur then f else if v ∈ a.live then a.regs v else born v
        live := live }

/-- The processor and the kernel stacks hold the registers of the tasks. -/
structure Refines (s : Cpu) (a : Abs) : Prop where
  cur : s.k.current = some a.cur
  live : s.live = a.live
  regs : ∀ u ∈ s.live, s.regsOf u = a.regs u

section

variable {L : Labels} {s s' : Cpu} {k k₁ k₂ : Kernel} {t u : Slot} {f : File} {m : Memory}
  {live : Finset Slot}

/-- A register that is not for a segment can have every value. -/
theorem UserRegs.set {g : Name} {w : Nat} (h : UserRegs L f)
    (hg : g.isSeg = false) (hw : w < 4294967296) : UserRegs L (Function.update f g w) := by
  have hother : ∀ g', g'.isSeg = true → Function.update f g w g' = f g' :=
    fun g' hg' => Function.update_of_ne (by rintro rfl; rw [hg] at hg'; cases hg') _ _
  refine ⟨⟨fun g' => ?_, fun g' hg' => ?_⟩, ?_, fun g' hg' => ?_⟩
  · by_cases he : g' = g
    · rw [he, Function.update_self]
      exact hw
    · rw [Function.update_of_ne he]
      exact h.fits.word g'
  · rw [hother g' hg']
    exact h.fits.sel g' hg'
  · rw [hother _ rfl]
    exact h.user
  · rw [hother g' (by rcases hg' with rfl | rfl | rfl | rfl <;> rfl)]
    exact h.segs g' hg'

/-- The way back to user mode from the context of a task. -/
theorem resume_eq {tf : Nat} (hL : L.Ok k) (hcode : f .eip = L.after ∨
      f .eip = k.doNothing ∧ load32 m (Mm.v2p (tf - 4)) = k.trapRet)
    (hregs : UserRegs L (frameRegs m tf)) (hesp : f .esp + 4 = tf) (hcs : f .cs % 4 = 0)
    (htf : tf + 80 ≤ 0x100000000) : resume L k 3 (f, m) = some (frameRegs m tf, m) := by
  have hkernel : ¬ f .cs % 4 = 3 := by omega
  rcases hcode with heip | ⟨heip, hret⟩
  · have hback : execOps L.gdt Mm.v2p leave (f, m) = (frameRegs m tf, m) :=
      execOps_leave hesp hcs htf hregs.user hregs.segs
    have htext : text L k (f .eip) = some leave := by rw [text, if_pos heip]
    simp only [resume, hkernel, if_false, htext, hback, hregs.user, if_true]
  · have htext : text L k (f .eip) = some [.ret] := by
      rw [text, heip, if_neg hL.doNothing, if_neg hL.apart, if_pos rfl]
    -- The routine `do_nothing` returns to `trap_ret`.
    obtain ⟨f₁, hf₁⟩ : ∃ f₁, execOps L.gdt Mm.v2p [.ret] (f, m) = (f₁, m) ∧ f₁ .eip = k.trapRet ∧
        f₁ .esp = tf ∧ f₁ .cs % 4 = 0 := by
      refine ⟨_, rfl, ?_, ?_, ?_⟩
      · simp [narrow, Name.isSeg, ← hret, ← hesp]
      · simp [hesp, u32_eq_self (show tf < 4294967296 by omega)]
      · simp [hcs]
    obtain ⟨hrun, heip₁, hesp₁, hcs₁⟩ := hf₁
    have htext₁ : text L k (f₁ .eip) = some Isr.trapRet := by
      rw [text, heip₁, if_neg hL.trapRet, if_pos rfl]
    have hback : execOps L.gdt Mm.v2p Isr.trapRet (f₁, m) = (frameRegs m tf, m) :=
      execOps_trapRet hesp₁ hcs₁ htf hregs.user hregs.segs
    have hkernel₁ : ¬ f₁ .cs % 4 = 3 := by omega
    simp only [resume, hkernel, if_false, htext, hrun, hkernel₁, htext₁, hback, hregs.user, if_true]

/-- What `task_run` leaves to the next trap: frames and code where they were, and the kernel stack
of the task it chose. -/
theorem taskRun_esp0 {x : Unit} (hc : k.current = some t) (h : taskRun u k = .ok (x, k₁)) :
    (∀ v, (k₁.tasks v).tf = (k.tasks v).tf) ∧ k₁.trapRet = k.trapRet ∧
      k₁.doNothing = k.doNothing ∧
      (u = t ∧ k₁ = k ∨ k₁.esp0 = u32 ((k.tasks u).kstack + kstacksize)) := by
  simp only [taskRun] at h
  obtain ⟨_, _, h₁, h⟩ := Act.bind_eq_ok.1 h
  obtain ⟨rfl, rfl⟩ := Act.get_eq_ok.1 h₁
  rcases Act.ite_eq_ok.1 h with ⟨-, h⟩ | ⟨he, h⟩
  · simp only [hc] at h
    have key : ∀ k₂ : Kernel, (∀ v, (k₂.tasks v).tf = (k.tasks v).tf) →
        (∀ v, (k₂.tasks v).kstack = (k.tasks v).kstack) → k₂.trapRet = k.trapRet →
        k₂.doNothing = k.doNothing → (do
          Act.modify fun k => { k with current := some u }
          updTask u fun t => { t with state := .running, priority := t.priority - 1 }
          let tp ← Act.gets fun k => k.tasks u
          Act.modify fun k => { k with esp0 := u32 (tp.kstack + kstacksize) }
          onMm (Mm.lcr3 (Mm.p2v tp.pgdir)) : Act Kernel Unit) k₂ = .ok (x, k₁) →
        (∀ v, (k₁.tasks v).tf = (k.tasks v).tf) ∧ k₁.trapRet = k.trapRet ∧
          k₁.doNothing = k.doNothing ∧
          (u = t ∧ k₁ = k ∨ k₁.esp0 = u32 ((k.tasks u).kstack + kstacksize)) := by
      intro k₂ htf hks hret hno hk
      simp only [Act.bind_eq_ok, updTask_eq_ok, Act.modify_eq_ok, Act.gets_eq_ok,
        onMm_eq_ok] at hk
      obtain ⟨_, _, rfl, _, _, rfl, _, _, ⟨rfl, rfl⟩, _, _, rfl, m, -, rfl⟩ := hk
      refine ⟨?_, hret, hno, Or.inr ?_⟩
      · intro v
        rw [← htf v]
        by_cases hv : v = u
        · rw [hv, setTask_tasks_self]
        · rw [setTask_tasks_of_ne _ _ hv]
      · rw [← hks u, setTask_tasks_self]
    rcases Act.ite_eq_ok.1 h with ⟨-, h⟩ | ⟨-, h⟩
    · obtain ⟨_, k₂, h₂, h⟩ := Act.bind_eq_ok.1 h
      rw [updTask_eq_ok] at h₂
      subst h₂
      refine key (k.setTask t fun tp => { tp with state := .runnable }) ?_ ?_ rfl rfl h <;>
      · intro v
        by_cases hv : v = t
        · rw [hv, setTask_tasks_self]
        · rw [setTask_tasks_of_ne _ _ hv]
    · exact key k (fun _ => rfl) (fun _ => rfl) rfl rfl h
  · obtain rfl := (Act.pure_eq_ok.1 h).2
    have hu := not_not.1 he
    rw [hc] at hu
    exact ⟨fun _ => rfl, rfl, rfl, Or.inl ⟨(Option.some.inj hu).symm, rfl⟩⟩

theorem saved_congr {k' : Kernel} (htf : (k'.tasks u).tf = (k.tasks u).tf)
    (hlo : 0x80000000 ≤ (k.tasks u).tf) (hhi : (k.tasks u).tf + 80 ≤ 0x100000000)
    (hmem : ∀ a, (k.tasks u).tf ≤ a → a < (k.tasks u).tf + 80 →
      k'.mm.mem (Mm.v2p a) = k.mm.mem (Mm.v2p a)) : saved k' u = saved k u := by
  rw [saved, saved, htf]
  exact frameRegs_congr hlo hhi hmem

theorem Waiting.congr {k' : Kernel} (h : Waiting L k u) (htf : (k'.tasks u).tf = (k.tasks u).tf)
    (hret : k'.trapRet = k.trapRet) (hno : k'.doNothing = k.doNothing)
    (hlo : 0x80000008 ≤ (k.tasks u).tf) (hhi : (k.tasks u).tf + 80 ≤ 0x100000000)
    (hmem : ∀ a, (k.tasks u).tf ≤ a + 8 → a < (k.tasks u).tf + 80 →
      k'.mm.mem (Mm.v2p a) = k.mm.mem (Mm.v2p a)) : Waiting L k' u := by
  refine ⟨?_, ?_⟩
  · rw [htf, hret, hno, direct_v2p.load_congr (by omega) (by omega) fun b hb hb' =>
      hmem b (by omega) (by omega), direct_v2p.load_congr (a := (k.tasks u).tf - 4) (by omega)
      (by omega) fun b hb hb' => hmem b (by omega) (by omega)]
    exact h.code
  · rw [saved_congr htf (by omega) hhi fun a ha ha' => hmem a (by omega) ha']
    exact h.regs

/-- Two kernel stacks have no byte in common. -/
theorem InStack.apart {T : Set Slot} {a : Nat} (h : StacksOk T k) (ht : t ∈ T) (hu : u ∈ T)
    (htu : u ≠ t) (ha : InStack k u a) :
    a < (k.tasks t).kstack ∨ (k.tasks t).kstack + 4096 ≤ a := by
  have hal := h.aligned t ht
  have hal' := h.aligned u hu
  have hne := h.apart u hu t ht htu
  obtain ⟨ha₁, ha₂⟩ := ha
  simp only [kstacksize] at ha₂
  omega

/-- After the work of a trap all tasks wait, the one that was interrupted with what is in its frame
and the others with the registers they had. -/
theorem Body.waiting {n : Nat} {err : Option Nat} {soft : Bool} {s₁ : File × Memory}
    (h : Inv L s) (hcur : s.k.current = some t) (hint : Interrupt n err soft)
    (henter : enter (tables L.tss L.isrTable s.k.esp0) L.after n err soft (s.file, s.k.mm.mem) =
      some s₁) (hbody : Body L t s.live live (withMem s.k s₁.2) k) :
    (∀ v ∈ live, Waiting L k v) ∧
      (∀ v ∈ live, v ∈ s.live → v ≠ t → saved k v = saved s.k v) ∧
      k.esp0 = (k.tasks t).kstack + 4096 := by
  obtain ⟨t', ht, hcur', hesp0⟩ := h.current
  cases hcur.symm.trans hcur'
  obtain ⟨hlo, hhi, -⟩ := h.places.bounds ht
  obtain ⟨s₂, f₁, hs₂, hpush, -⟩ := enter_user (m := s.k.mm.mem) L.tss h.labels.after h.labels.isr
    h.user.fits h.user.user hint.vector hint.soft hint.code hint.error
    (show 0x80000058 ≤ s.k.esp0 by omega) (by omega)
  cases henter.symm.trans hs₂
  -- The interrupt itself writes to the kernel stack of its own task only.
  have hother : ∀ v ∈ live, v ∈ s.live → v ≠ t → ∀ a, InStack s.k v a →
      k.mm.mem (Mm.v2p a) = s.k.mm.mem (Mm.v2p a) := by
    intro v hv hv' hvt a ha
    obtain ⟨hlo', hhi', -⟩ := h.places.bounds hv'
    have hfar := InStack.apart h.places.toStacksOk ht hv' hvt ha
    obtain ⟨ha₁, ha₂⟩ := ha
    simp only [kstacksize] at ha₂
    have hva := direct_v2p.eq a (by omega) (by omega)
    refine ((hbody.kept v hv hv').2 hvt a ⟨ha₁, ha₂⟩).trans ?_
    exact hpush.other _ (by omega)
  have htf : ∀ v ∈ live, v ∈ s.live → (k.tasks v).tf = (s.k.tasks v).tf := by
    intro v hv hv'
    rw [hbody.places.tf v hv, h.places.tf v hv', (hbody.kept v hv hv').1]
    rfl
  refine ⟨fun v hv => ?_, fun v hv hv' hvt => ?_, ?_⟩
  · by_cases hv' : v ∈ s.live
    · by_cases hvt : v = t
      · rw [hvt]
        exact ⟨Or.inl hbody.ret, hbody.frame⟩
      · obtain ⟨hlo', hhi', -⟩ := h.places.bounds hv'
        have htfv := h.places.tf v hv'
        have hwait := h.waiting v hv' fun he => hvt (Option.some.inj (hcur.symm.trans he)).symm
        refine hwait.congr (htf v hv hv') hbody.trapRet hbody.doNothing (by omega) (by omega)
          fun a ha ha' => ?_
        exact hother v hv hv' hvt a ⟨by omega, by simp only [kstacksize]; omega⟩
    · exact hbody.born v hv hv'
  · obtain ⟨hlo', hhi', -⟩ := h.places.bounds hv'
    have htfv := h.places.tf v hv'
    refine saved_congr (htf v hv hv') (by omega) (by omega) fun a ha ha' => ?_
    exact hother v hv hv' hvt a ⟨by omega, by simp only [kstacksize]; omega⟩
  · rw [hbody.esp0, (hbody.kept t hbody.self ht).1]
    exact hesp0

/-- The kernel is on its way to the task `u` when the work of a trap has left the state `k₁`. -/
structure Arrives (L : Labels) (live : Finset Slot) (u : Slot) (k₁ k : Kernel) (f : File) : Prop where
  labels : L.Ok k
  places : Placed live k
  mem : u ∈ live
  current : k.current = some u
  esp0 : k.esp0 = (k.tasks u).kstack + 4096
  waiting : ∀ v ∈ live, Waiting L k v
  saved : ∀ v ∈ live, saved k v = saved k₁ v
  code : f .eip = load32 k.mm.mem (Mm.v2p ((k.tasks u).tf - 8))
  esp : f .esp + 4 = (k.tasks u).tf
  level : f .cs % 4 = 0

/-- The way back to user mode has an end, with the registers in the frame of the task. -/
theorem Arrives.resume_eq (h : Arrives L live u k₁ k f) :
    resume L k 3 (f, k.mm.mem) = some (Preempt.saved k₁ u, k.mm.mem) := by
  obtain ⟨hlo, hhi, -⟩ := h.places.bounds h.mem
  have htf := h.places.tf u h.mem
  have hw := h.waiting u h.mem
  rw [Preempt.resume_eq h.labels (by rw [h.code]; exact hw.code) hw.regs h.esp h.level (by omega),
    ← h.saved u h.mem]
  rfl

/-- A call of `swtch` that `trap` made leaves the end of the kernel stack alone: the return address
of `trap` and the frame. -/
theorem callSwtch_end {T : Set Slot} {r : Regs} {v : Slot} {a : Nat} (hk : StacksOk T k)
    (ht : t ∈ T) (hu : u ∈ T) (hv : v ∈ T) (hcall : CallFrame t u k r)
    (hdeep : r .esp + 16 ≤ (k.tasks t).kstack + 4016) (ha : (k.tasks v).kstack + 4008 ≤ a)
    (ha' : a < (k.tasks v).kstack + 4096) :
    (callSwtch k r).k.mm.mem (Mm.v2p a) = k.mm.mem (Mm.v2p a) := by
  by_cases hvt : v = t
  · obtain ⟨hlo, hhi, hctx⟩ := hk.bounds ht
    have hlow := hcall.low
    rw [hvt] at ha ha'
    rw [(Switch.callSwtch_eq hk ht hu hcall).1]
    exact Switch.savedMem_apply (by omega) (by omega) (by omega) (by omega) (by omega) (by omega)
      (Or.inr (by omega)) (Or.inr (by omega))
  · exact Switch.callSwtch_frame hk ht hu hv hvt hcall ⟨by omega, by simp only [kstacksize]; omega⟩

theorem Ends.arrives (h : Inv L s) (he : Ends L s live t u k₁ k f) :
    s.k.current = some t ∧ Arrives L live u k₁ k f ∧
      ∀ v ∈ live, v ∈ s.live → v ≠ t → Preempt.saved k₁ v = Preempt.saved s.k v := by
  obtain ⟨hisr, hafter, hl₁, hl₂, hl₃⟩ := h.labels
  cases he with
  | ret hcur hint henter hbody heip hesp hcs =>
      obtain ⟨hwait, hsaved, hesp0⟩ := hbody.waiting h hcur hint henter
      refine ⟨hcur, ?_, hsaved⟩
      exact {
        labels := ⟨hisr, hafter, hbody.trapRet ▸ hl₁, hbody.doNothing ▸ hl₂,
          hbody.trapRet ▸ hbody.doNothing ▸ hl₃⟩
        places := hbody.places
        mem := hbody.self
        current := hbody.current.trans hcur
        esp0 := hesp0
        waiting := hwait
        saved := fun v hv => rfl
        code := heip.trans hbody.ret.symm
        esp := hesp
        level := hcs }
  | @switch _ _ _ _ _ _ k₂ r _ hcur hint henter hbody hu hrun hcall hdeep heip hesp hcs =>
      obtain ⟨hwait, hsaved, hesp0⟩ := hbody.waiting h hcur hint henter
      have hcur₁ : k₁.current = some t := hbody.current.trans hcur
      obtain ⟨hcur₂, hmem₂, hplace⟩ := Switch.taskRun_place hcur₁ hrun
      obtain ⟨htf₂, hret₂, hno₂, hesp₂⟩ := taskRun_esp0 hcur₁ hrun
      have hk₂ := hbody.places.of_samePlace hplace
      obtain ⟨hmem₃, hesp₃, hregs₃⟩ := Switch.callSwtch_eq hk₂ hbody.self hu hcall
      have htf : ∀ v ∈ live, (k₂.tasks v).tf = (k₂.tasks v).kstack + 4016 := by
        intro v hv
        rw [htf₂ v, hplace.kstack v, hbody.places.tf v hv]
      have hdeep₂ : r .esp + 16 ≤ (k₂.tasks t).kstack + 4016 := by
        rw [← htf t hbody.self, htf₂ t]
        exact hdeep
      have hend : ∀ v ∈ live, ∀ a, (k₁.tasks v).tf ≤ a + 8 → a < (k₁.tasks v).tf + 80 →
          (callSwtch k₂ r).k.mm.mem (Mm.v2p a) = k₁.mm.mem (Mm.v2p a) := by
        intro v hv a ha ha'
        have htfv := hbody.places.tf v hv
        have hks := hplace.kstack v
        rw [callSwtch_end hk₂ hbody.self hu hv hcall hdeep₂ (by omega) (by omega), hmem₂]
      have hrange : ∀ v ∈ live, 0x80000008 ≤ (k₁.tasks v).tf ∧ (k₁.tasks v).tf + 80 ≤ 0x100000000 := by
        intro v hv
        obtain ⟨hlo, hhi, -⟩ := hbody.places.bounds hv
        have htfv := hbody.places.tf v hv
        omega
      obtain ⟨hlo, hhi, hctx⟩ := hk₂.bounds hu
      have htfu := htf u hu
      have hbelow := hbody.places.below u hu
      refine ⟨hcur, ?_, hsaved⟩
      exact {
        labels := by
          have hret : (callSwtch k₂ r).k.trapRet = s.k.trapRet := hret₂.trans hbody.trapRet
          have hno : (callSwtch k₂ r).k.doNothing = s.k.doNothing := hno₂.trans hbody.doNothing
          exact ⟨hisr, hafter, hret ▸ hl₁, hno ▸ hl₂, by rw [hret, hno]; exact hl₃⟩
        places :=
          ⟨hk₂.of_samePlace ⟨fun _ => rfl, fun _ => rfl⟩, htf, fun v hv => by
            rw [show (callSwtch k₂ r).k.tasks = k₂.tasks from rfl, hplace.kstack v]
            exact hbody.places.below v hv⟩
        mem := hu
        current := hcur₂
        esp0 := by
          rcases hesp₂ with ⟨rfl, rfl⟩ | hesp₂
          · exact hesp0
          · refine hesp₂.trans ?_
            rw [show (callSwtch k₂ r).k.tasks = k₂.tasks from rfl, hplace.kstack u]
            exact u32_eq_self hbelow
        waiting := fun v hv => (hwait v hv).congr (htf₂ v) hret₂ hno₂ (hrange v hv).1 (hrange v hv).2
          (hend v hv)
        saved := fun v hv => saved_congr (htf₂ v) (by have := hrange v hv; omega) (hrange v hv).2
          fun a ha ha' => hend v hv a (by omega) ha'
        code := by
          rw [heip, hregs₃ 4 .eip rfl, hmem₃, hctx, show (callSwtch k₂ r).k.tasks = k₂.tasks from rfl,
            htfu]
          rfl
        esp := by
          rw [hesp, hesp₃, hctx, show (callSwtch k₂ r).k.tasks = k₂.tasks from rfl, htfu]
        level := hcs }

theorem Arrives.inv (h : Arrives L live u k₁ k f) : Inv L ⟨k, Preempt.saved k₁ u, live⟩ where
  labels := h.labels
  places := h.places
  current := ⟨u, h.mem, h.current, h.esp0⟩
  user := h.saved u h.mem ▸ (h.waiting u h.mem).regs
  waiting := fun v hv _ => h.waiting v hv

/-- A program in user mode does not get at the kernel stacks. -/
theorem Inv.user_step (h : Inv L s) (hf : UserRegs L f)
    (hmem : ∀ u ∈ s.live, ∀ a, InStack s.k u a → m (Mm.v2p a) = s.k.mm.mem (Mm.v2p a)) :
    Inv L ⟨withMem s.k m, f, s.live⟩ ∧ ∀ v ∈ s.live, saved (withMem s.k m) v = saved s.k v := by
  have hrange : ∀ v ∈ s.live, 0x80000008 ≤ (s.k.tasks v).tf ∧ (s.k.tasks v).tf + 80 ≤ 0x100000000 := by
    intro v hv
    obtain ⟨hlo, hhi, -⟩ := h.places.bounds hv
    have htf := h.places.tf v hv
    omega
  have hend : ∀ v ∈ s.live, ∀ a, (s.k.tasks v).tf ≤ a + 8 → a < (s.k.tasks v).tf + 80 →
      m (Mm.v2p a) = s.k.mm.mem (Mm.v2p a) := by
    intro v hv a ha ha'
    have htf := h.places.tf v hv
    exact hmem v hv a ⟨by omega, by simp only [kstacksize]; omega⟩
  refine ⟨?_, fun v hv => ?_⟩
  · exact {
      labels := ⟨h.labels.isr, h.labels.after, h.labels.trapRet, h.labels.doNothing, h.labels.apart⟩
      places := ⟨⟨h.places.aligned, h.places.direct, h.places.context, h.places.apart⟩,
        h.places.tf, h.places.below⟩
      current := h.current
      user := hf
      waiting := fun v hv hcur => (h.waiting v hv hcur).congr rfl rfl rfl (hrange v hv).1
        (hrange v hv).2 (hend v hv) }
  · exact saved_congr rfl (by have := hrange v hv; omega) (hrange v hv).2
      fun a ha ha' => hend v hv a (by omega) ha'

/-- Every step keeps the invariant, and is one of the tasks with registers of their own. -/
theorem Step.refines {e : Ev} {a : Abs} (h : Inv L s) (ha : Refines s a) (hs : Step L s e s') :
    Inv L s' ∧ Refines s' (a.step e) := by
  cases hs with
  | @user f m hf hmem =>
      obtain ⟨hinv, hsaved⟩ := h.user_step hf hmem
      refine ⟨hinv, ha.cur, ha.live, fun v hv => ?_⟩
      by_cases hv' : v = a.cur
      · rw [hv']
        have hleft : Cpu.regsOf ⟨withMem s.k m, f, s.live⟩ a.cur = f := Cpu.regsOf_current ha.cur
        exact hleft.trans (Function.update_self a.cur f a.regs).symm
      · have hne : s.k.current ≠ some v := fun he => hv' (Option.some.inj (he.symm.trans ha.cur))
        have hregs := ha.regs v hv
        rw [Cpu.regsOf_waiting hne] at hregs
        have hleft : Cpu.regsOf ⟨withMem s.k m, f, s.live⟩ v = saved (withMem s.k m) v :=
          Cpu.regsOf_waiting hne
        rw [hleft, hsaved v hv, hregs]
        exact (Function.update_of_ne hv' _ _).symm
  | @trap live t u k₁ k f r hends hres =>
      obtain ⟨hcur, harr, hsaved⟩ := hends.arrives h
      rw [harr.resume_eq] at hres
      cases hres
      refine ⟨harr.inv, harr.current, rfl, fun v hv => ?_⟩
      have hleft : Cpu.regsOf ⟨withMem k k.mm.mem, saved k₁ u, live⟩ v = saved k₁ v := by
        by_cases hvu : u = v
        · rw [← hvu]
          exact Cpu.regsOf_current harr.current
        · have hne : k.current ≠ some v :=
            fun he => hvu (Option.some.inj (harr.current.symm.trans he))
          exact (Cpu.regsOf_waiting hne).trans (harr.saved v hv)
      have ht : a.cur = t := Option.some.inj (ha.cur.symm.trans hcur)
      rw [hleft, Abs.step]
      dsimp only
      by_cases hvt : v = t
      · rw [if_pos (hvt.trans ht.symm), hvt]
      · rw [if_neg fun he => hvt (he.trans ht)]
        by_cases hlive : v ∈ s.live
        · have hne : s.k.current ≠ some v := fun he => hvt (Option.some.inj (he.symm.trans hcur))
          rw [if_pos (ha.live ▸ hlive), ← ha.regs v hlive, Cpu.regsOf_waiting hne,
            hsaved v hv hlive hvt]
        · rw [if_neg fun he => hlive (ha.live ▸ he)]

theorem taskRun_total (u : Slot) (hc : k.current = some t) : ∃ k₁, taskRun u k = .ok ((), k₁) := by
  unfold taskRun
  rw [Act.bind_of_ok (Act.get_eq_ok.2 ⟨rfl, rfl⟩)]
  by_cases hu : k.current = some u
  · rw [if_neg (not_not.2 hu)]
    exact ⟨k, rfl⟩
  · rw [if_pos hu]
    by_cases hr : k.state t = .running
    · simp only [hc, hr, if_true]
      exact ⟨_, rfl⟩
    · simp only [hc, hr, if_false]
      exact ⟨_, rfl⟩

/-- The program that is interrupted has its registers in the frame of its task, and only the end of
its kernel stack was written. -/
theorem Inv.entered {n : Nat} {err : Option Nat} {soft : Bool} (h : Inv L s)
    (hcur : s.k.current = some t) (hint : Interrupt n err soft) :
    ∃ s₁, enter (tables L.tss L.isrTable s.k.esp0) L.after n err soft (s.file, s.k.mm.mem) =
        some s₁ ∧
      saved (withMem s.k s₁.2) t = s.file ∧
      load32 s₁.2 (Mm.v2p ((s.k.tasks t).tf - 8)) = L.after ∧
      ∀ p, p + 0x80000000 < (s.k.tasks t).tf - 8 ∨ (s.k.tasks t).tf + 80 ≤ p + 0x80000000 →
        s₁.2 p = s.k.mm.mem p := by
  obtain ⟨t', ht, hcur', hesp0⟩ := h.current
  cases hcur.symm.trans hcur'
  obtain ⟨hlo, hhi, -⟩ := h.places.bounds ht
  have htf := h.places.tf t ht
  obtain ⟨s₁, f₁, hs₁, hpush, -⟩ := enter_user (m := s.k.mm.mem) L.tss h.labels.after h.labels.isr
    h.user.fits h.user.user hint.vector hint.soft hint.code hint.error
    (show 0x80000058 ≤ s.k.esp0 by omega) (by omega)
  have hframe : Stack Mm.v2p s₁.2 (s.k.tasks t).tf (frameWords s.file n (err.getD 0)
      (s.k.esp0 - 32) (load32 s.k.mm.mem (Mm.v2p (s.k.esp0 - 32)))) := by
    intro i w hi
    rw [show (s.k.tasks t).tf + 4 * i = s.k.esp0 - 88 + 4 * (i + 2) by omega]
    exact hpush.stack (i + 2) w hi
  refine ⟨s₁, hs₁, frameRegs_of_words h.user.fits hframe, ?_, fun p hp => ?_⟩
  · have hret := hpush.stack 0 _ rfl
    rwa [show s.k.esp0 - 88 + 4 * 0 = (s.k.tasks t).tf - 8 by omega] at hret
  · exact hpush.other p (by omega)

/-- Registers of the kernel, of which only three matter on the way back. -/
theorem exists_kernelFile (eip esp : Nat) : ∃ f : File, f .eip = eip ∧ f .esp = esp ∧ f .cs % 4 = 0 :=
  ⟨Function.update (Function.update (fun _ => 0) .eip eip) .esp esp,
    (Function.update_of_ne (by decide) _ _).trans (Function.update_self _ _ _),
    Function.update_self _ _ _, rfl⟩

/-- A trap whose work is done returns to the program it interrupted, with the registers in the
frame. The other tasks keep theirs. -/
theorem Inv.returns {n : Nat} {err : Option Nat} {soft : Bool} {s₁ : File × Memory} (h : Inv L s)
    (hcur : s.k.current = some t) (hint : Interrupt n err soft)
    (henter : enter (tables L.tss L.isrTable s.k.esp0) L.after n err soft (s.file, s.k.mm.mem) =
      some s₁) (hbody : Body L t s.live live (withMem s.k s₁.2) k) :
    Step L s (.trap (saved k t) live (saved k) t) ⟨k, saved k t, live⟩ ∧
      ∀ v ∈ live, v ∈ s.live → v ≠ t → saved k v = saved s.k v := by
  obtain ⟨hlo, -⟩ := hbody.places.bounds hbody.self
  have htf := hbody.places.tf t hbody.self
  obtain ⟨f, heip, hesp, hcs⟩ := exists_kernelFile L.after ((k.tasks t).tf - 4)
  have hends := Ends.ret hcur hint henter hbody heip (by omega) hcs
  obtain ⟨-, harr, hother⟩ := hends.arrives h
  exact ⟨.trap hends harr.resume_eq, hother⟩

/-- Quiet work is work that a trap may do, as long as it stays in the kernel stack of its task and
leaves there the return address of `trap` and a frame for user mode. -/
theorem Inv.body {m' : Memory} (h : Inv L s) (hcur : s.k.current = some t) (hq : Quiet s.k k)
    (hother : ∀ a, 0x80000000 ≤ a → a < 0x100000000 →
      a < (s.k.tasks t).kstack ∨ (s.k.tasks t).kstack + 4096 ≤ a → m' (Mm.v2p a) = m (Mm.v2p a))
    (hret : load32 m' (Mm.v2p ((s.k.tasks t).tf - 8)) = L.after)
    (hregs : UserRegs L (frameRegs m' (s.k.tasks t).tf)) :
    Body L t s.live s.live (withMem s.k m) (withMem k m') := by
  obtain ⟨t', ht, hcur', -⟩ := h.current
  cases hcur.symm.trans hcur'
  have hstacks : StacksOk s.live k := h.places.toStacksOk.of_samePlace hq.toSamePlace
  exact {
    current := hq.current
    esp0 := hq.esp0
    trapRet := hq.trapRet
    doNothing := hq.doNothing
    self := ht
    places :=
      { toStacksOk := ⟨hstacks.aligned, hstacks.direct, hstacks.context, hstacks.apart⟩
        tf := fun v hv => (hq.tf v).trans ((h.places.tf v hv).trans
          (congrArg (· + 4016) (hq.kstack v).symm))
        below := fun v hv => by
          have hbelow := h.places.below v hv
          rw [← hq.kstack v] at hbelow
          exact hbelow }
    kept := fun v hv _ => ⟨hq.kstack v, fun hvt a ha => by
      obtain ⟨hlo, hhi, -⟩ := h.places.bounds hv
      have hout := InStack.apart h.places.toStacksOk ht hv hvt ha
      obtain ⟨ha₁, ha₂⟩ := ha
      simp only [kstacksize, withMem] at ha₁ ha₂
      exact hother a (by omega) (by omega) hout⟩
    born := fun v hv hv' => absurd hv hv'
    ret := by
      rw [← hq.tf t] at hret
      exact hret
    frame := by
      rw [← hq.tf t] at hregs
      exact hregs }

/-- When its work is quiet, a trap can pass the processor on to every task. -/
theorem Inv.switches {n : Nat} {err : Option Nat} {soft : Bool} {s₁ : File × Memory} (h : Inv L s)
    (hcur : s.k.current = some t) (hint : Interrupt n err soft)
    (hs₁ : enter (tables L.tss L.isrTable s.k.esp0) L.after n err soft (s.file, s.k.mm.mem) =
      some s₁) (hq : Quiet s.k k) (hu : u ∈ s.live) :
    ∃ m₂ k₂ s', Step L s (.trap s.file s.live (saved (withMem k m₂)) u) s' ∧
      taskRun u (withMem k m₂) = .ok ((), k₂) ∧ s'.k.tasks = k₂.tasks := by
  obtain ⟨t', ht, hcur', hesp0⟩ := h.current
  cases hcur.symm.trans hcur'
  obtain ⟨hlo, hhi, hctx⟩ := h.places.bounds ht
  obtain ⟨hlo', hhi', hctx'⟩ := h.places.bounds hu
  have htf := h.places.tf t ht
  obtain ⟨s₂, hs₂, hfile, hret, -⟩ := h.entered hcur hint
  cases hs₁.symm.trans hs₂
  -- The two arguments of `swtch` in the middle of the kernel stack.
  obtain ⟨sp, hsp⟩ : ∃ sp, sp = (s.k.tasks t).kstack + 2048 := ⟨_, rfl⟩
  obtain ⟨m₂, hm₂⟩ : ∃ m₂, m₂ = store32 (store32 s₁.2 (Mm.v2p sp) (s.k.tasks t).context)
      (Mm.v2p (sp + 4)) (s.k.tasks u).context := ⟨_, rfl⟩
  have hfar : ∀ a, 0x80000000 ≤ a → a < 0x100000000 → a < sp ∨ sp + 8 ≤ a →
      m₂ (Mm.v2p a) = s₁.2 (Mm.v2p a) := by
    intro a ha ha' hout
    rw [hm₂, direct_v2p.store (by omega) (by omega) ha ha' (by omega),
      direct_v2p.store (by omega) (by omega) ha ha' (by omega)]
  have hregs : frameRegs m₂ (s.k.tasks t).tf = s.file := by
    refine (frameRegs_congr (by omega) (by omega) fun a ha ha' => ?_).trans hfile
    exact hfar a (by omega) (by omega) (by omega)
  have hafter : load32 m₂ (Mm.v2p ((s.k.tasks t).tf - 8)) = L.after :=
    (direct_v2p.load_congr (by omega) (by omega) fun b hb hb' =>
      hfar b (by omega) (by omega) (by omega)).trans hret
  have hbody : Body L t s.live s.live (withMem s.k s₁.2) (withMem k m₂) :=
    h.body hcur hq (fun a ha ha' hout => hfar a ha ha' (by omega)) hafter (hregs ▸ h.user)
  have hsaved : saved (withMem k m₂) t = s.file := by
    rw [← hregs, ← hq.tf t]
    rfl
  have hcur₂ : (withMem k m₂).current = some t := hq.current.trans hcur
  obtain ⟨k₂, hrun⟩ := taskRun_total u hcur₂
  obtain ⟨-, hmem₂, hplace⟩ := Switch.taskRun_place hcur₂ hrun
  have hplace' : Switch.SamePlace s.k k₂ :=
    hq.toSamePlace.trans ⟨hplace.kstack, hplace.context⟩
  have hcall : CallFrame t u k₂ fun g => if g = .esp then sp else 0 := by
    refine ⟨?_, ?_, ?_, ?_, ?_⟩
    · intro g
      by_cases hg : g = .esp
      · rw [if_pos hg]
        omega
      · rw [if_neg hg]
        decide
    · rw [if_pos rfl, hplace'.kstack]
      omega
    · rw [if_pos rfl, hplace'.kstack]
      simp only [kstacksize]
      omega
    · rw [if_pos rfl, hplace'.context, hmem₂]
      refine (congrArg (fun m => load32 m _) hm₂).trans ?_
      rw [direct_v2p.load_store (by omega) (by omega) (by omega) (by omega) (by omega),
        load32_store32_self]
      exact u32_eq_self (by omega)
    · rw [if_pos rfl, hplace'.context, hmem₂]
      refine (congrArg (fun m => load32 m _) hm₂).trans ?_
      rw [load32_store32_self]
      exact u32_eq_self (by omega)
  obtain ⟨f, heip, hesp, hcs⟩ := exists_kernelFile
    ((callSwtch k₂ fun g => if g = .esp then sp else 0).regs .eip)
    ((callSwtch k₂ fun g => if g = .esp then sp else 0).regs .esp)
  have hdeep : sp + 16 ≤ ((withMem k m₂).tasks t).tf := by
    have htf' : ((withMem k m₂).tasks t).tf = (s.k.tasks t).tf := hq.tf t
    omega
  have hends := Ends.switch hcur hint hs₁ hbody hu hrun hcall hdeep heip hesp hcs
  have hstep := Step.trap hends (hends.arrives h).2.1.resume_eq
  rw [hsaved] at hstep
  exact ⟨m₂, k₂, _, hstep, hrun, rfl⟩

/-- Every step of a run keeps the invariant, and the registers are those of tasks with registers of
their own. -/
theorem refines_of_run {es : List Ev} {a : Abs} (h : Inv L s) (ha : Refines s a)
    (hrun : Run (Step L) s es s') : Inv L s' ∧ Refines s' (es.foldl Abs.step a) := by
  induction hrun generalizing a with
  | nil s => exact ⟨h, ha⟩
  | cons hs _ ih =>
      obtain ⟨h', ha'⟩ := hs.refines h ha
      exact ih h' ha'

/-- In every run the processor and the kernel stacks hold the registers of tasks that have
registers of their own, and whenever the work of a trap is done, the way back to user mode comes to
its end, with the registers of the task that is to go on. -/
theorem run_refines {es : List Ev} {a : Abs} (h : Inv L s) (ha : Refines s a)
    (hrun : Run (Step L) s es s') :
    Refines s' (es.foldl Abs.step a) ∧
      ∀ live t u k₁ k f, Ends L s' live t u k₁ k f →
        resume L k 3 (f, k.mm.mem) = some (saved k₁ u, k.mm.mem) := by
  obtain ⟨h', ha'⟩ := refines_of_run h ha hrun
  exact ⟨ha', fun _ _ _ _ _ _ hends => (hends.arrives h').2.1.resume_eq⟩

end

/-- Addresses for the example below. -/
def somewhere : Labels := ⟨0x80100000, fun n => 0x80101000 + n % 256, 0x80101200⟩

/-- Two tasks, of which the first one is on the processor. The other one was interrupted with the
value 7 in `eax`. -/
def duo : Cpu where
  k :=
    { mm :=
        { mem := words [(0x2fa8, 0x80101200), (0x2fb0, 0x23), (0x2fb4, 0x23), (0x2fb8, 0x23),
            (0x2fbc, 0x23), (0x2fdc, 7), (0x2ff0, 0x1b), (0x2ff4, 0x200), (0x2ff8, 0x80000000),
            (0x2ffc, 0x23)]
          freeList := 0, cr3 := 0, memsz := 0, memStart := 0, data := 0 }
      tasks := fun t =>
        if t = 0 then
          { Task.zero with kstack := 0x80001000, context := 0x80001f98, tf := 0x80001fb0 }
        else { Task.zero with kstack := 0x80002000, context := 0x80002f98, tf := 0x80002fb0 }
      rootp := some 0, current := some 0, inittask := some 0, nextpid := 1, kpgdir := 0,
      esp0 := 0x80002000, trapRet := 0x80101300, doNothing := 0x80101400 }
  file := startFile
  live := {0, 1}

theorem userRegs_startFile : UserRegs somewhere startFile :=
  ⟨startFile_fits, rfl, startFile_segs _⟩

theorem duo_saved : saved duo.k 1 = Function.update startFile .eax 7 := by
  funext g
  cases g <;> decide +kernel

theorem duo_inv : Inv somewhere duo where
  labels := ⟨fun n => by simp only [somewhere]; omega, by decide, by decide, by decide, by decide⟩
  places := by
    have hmem : ∀ t ∈ duo.live, t = 0 ∨ t = 1 := by simp [duo]
    refine ⟨⟨fun t ht => ?_, fun t ht => ?_, fun t ht => ?_, fun t ht u hu h => ?_⟩, fun t ht => ?_,
      fun t ht => ?_⟩
    · rcases hmem t ht with rfl | rfl <;> decide
    · rcases hmem t ht with rfl | rfl <;> decide
    · rcases hmem t ht with rfl | rfl <;> decide
    · rcases hmem t ht with rfl | rfl <;> rcases hmem u hu with rfl | rfl <;>
        first | exact absurd rfl h | decide
    · rcases hmem t ht with rfl | rfl <;> decide
    · rcases hmem t ht with rfl | rfl <;> decide
  current := ⟨0, by decide, rfl, rfl⟩
  user := userRegs_startFile
  waiting := by
    intro u hu hcur
    obtain rfl : u = 1 := by
      rcases (by simpa [duo] using hu : u = 0 ∨ u = 1) with rfl | rfl
      · exact absurd rfl hcur
      · rfl
    refine ⟨Or.inl (by decide +kernel), ?_⟩
    rw [duo_saved]
    refine ⟨⟨fun g => by cases g <;> decide, fun g hg => by revert hg; cases g <;> decide⟩, rfl, ?_⟩
    intro g hg
    rw [Function.update_of_ne (by rintro rfl; simp at hg)]
    exact userRegs_startFile.segs g hg

/-- The timer interrupts the first task, and the second one goes on where it was. -/
theorem duo_switches : ∃ es s', Run (Step somewhere) duo es s' ∧
    s'.file = Function.update startFile .eax 7 ∧ s'.regsOf 0 = startFile := by
  have hint : Interrupt 32 none false := ⟨by decide, by simp, rfl, by simp⟩
  obtain ⟨s₁, hs₁, -⟩ := duo_inv.entered (t := 0) rfl hint
  obtain ⟨m, -, s', hstep, -⟩ := duo_inv.switches rfl hint hs₁ (.refl _) (u := 1) (by decide)
  have ha : Refines duo ⟨0, duo.regsOf, duo.live⟩ := ⟨rfl, rfl, fun _ _ => rfl⟩
  obtain ⟨href, -⟩ := run_refines duo_inv ha (Run.single hstep)
  have hlive : s'.live = {0, 1} := href.live
  have hcur : s'.k.current = some 1 := href.cur
  have hone := href.regs 1 (by rw [hlive]; decide)
  rw [Cpu.regsOf_current hcur] at hone
  exact ⟨_, s', Run.single hstep, hone.trans duo_saved, href.regs 0 (by rw [hlive]; decide)⟩

end Preempt

end Chunix
