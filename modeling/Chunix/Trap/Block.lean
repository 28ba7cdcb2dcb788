import Chunix.Task.Spec
import Chunix.Trap.Preempt

/-!
# A system call that sleeps

`wait` sleeps in a loop until a child has exited, and is written as if `sleep_on` returned there.
But a task that is switched to goes on behind the call of `trap`, so a system call that has given
up the processor is over. No result has been put into the frame by then: `eax` is still the number
of the system call.
-/

namespace Chunix

namespace Preempt

open Machine Chunix.Task Kernel Isr

/-- Along the events the task `c` is not on the processor and stays one of the tasks; `cur` is the
task that is on it. -/
def Idle (c : Slot) : Slot → List Ev → Prop
  | _, [] => True
  | cur, .user _ :: es => cur ≠ c ∧ Idle c cur es
  | cur, .trap _ live _ u :: es => cur ≠ c ∧ c ∈ live ∧ Idle c u es

section

variable {L : Labels} {s s' : Cpu} {k k₁ k₂ : Kernel} {c u : Slot} {es : List Ev} {a : Abs}

/-- Nothing changes the registers of a task that is not on the processor. -/
theorem Idle.regs (h : Idle c a.cur es) (hc : c ∈ a.live) :
    (es.foldl Abs.step a).regs c = a.regs c ∧ c ∈ (es.foldl Abs.step a).live := by
  induction es generalizing a with
  | nil => exact ⟨rfl, hc⟩
  | cons e es ih =>
      cases e with
      | user f =>
          obtain ⟨hne, hrest⟩ := h
          obtain ⟨hregs, hlive⟩ := ih (a := a.step (.user f)) hrest hc
          exact ⟨hregs.trans (Function.update_of_ne hne.symm _ _), hlive⟩
      | trap f live born v =>
          obtain ⟨hne, hmem, hrest⟩ := h
          obtain ⟨hregs, hlive⟩ := ih (a := a.step (.trap f live born v)) hrest hmem
          refine ⟨hregs.trans ?_, hlive⟩
          show (if c = a.cur then f else if c ∈ a.live then a.regs c else born c) = a.regs c
          rw [if_neg hne.symm, if_pos hc]

theorem setTask_field {α : Type} {g : Task → α} {f : Task → Task} (hg : ∀ tp, g (f tp) = g tp)
    (v : Slot) : g ((k.setTask c f).tasks v) = g (k.tasks v) := by
  by_cases hv : v = c
  · rw [hv, setTask_tasks_self, hg]
  · rw [setTask_tasks_of_ne _ _ hv]

/-- A pass of `wait` that finds no zombie, and the beginning of `sleep_on`. -/
theorem quiet_wait {b : Bool} {chan : Chan} (hcur : k.current = some c)
    (hwait : waitPass false k = .ok (.none b, k₁)) (hsleep : sleepOn chan k₁ = .ok ((), k₂)) :
    Quiet k k₂ ∧ k₂.state c = .stopped ∧ ∀ v, (k₂.tasks v).parent = (k.tasks v).parent := by
  obtain ⟨_, -, rfl⟩ := (waitPass_cases hwait).resolve_right fun ⟨_, _, _, _, h, _⟩ => by cases h
  obtain ⟨c', hc', rfl⟩ := sleepOn_eq_ok hsleep
  cases hcur.symm.trans hc'
  refine ⟨⟨⟨?_, ?_⟩, ?_, rfl, rfl, rfl, rfl⟩, ?_, ?_⟩
  · exact setTask_field (g := Task.kstack) fun _ => rfl
  · exact setTask_field (g := Task.context) fun _ => rfl
  · exact setTask_field (g := Task.tf) fun _ => rfl
  · rw [Kernel.state, setTask_tasks_self]
  · exact setTask_field (g := Task.parent) fun _ => rfl

/-- A `wait` that finds no zombie puts its task to sleep, and another task goes on. Whatever happens
from then on, when the task is on the processor again, its program has the registers that it had
when it made the call. So the system call has no result, and no child has been freed. -/
theorem wait_without_result {s₁ : File × Memory} (h : Inv L s) (hcur : s.k.current = some c)
    (hs₁ : enter (tables L.tss L.isrTable s.k.esp0) L.after Descr.tSyscall none true
      (s.file, s.k.mm.mem) = some s₁)
    (hwait : waitPass false (withMem s.k s₁.2) = .ok (.none true, k₁))
    (hsleep : sleepOn (.task c) k₁ = .ok ((), k₂)) (hu : u ∈ s.live) (huc : u ≠ c) :
    ∃ born s₂, Step L s (.trap s.file s.live born u) s₂ ∧ s₂.k.state c = .stopped ∧
      (∀ v, (s₂.k.tasks v).parent = (s.k.tasks v).parent) ∧
      ∀ es s', Run (Step L) s₂ es s' → Idle c u es → s'.k.current = some c →
        s'.file = s.file := by
  obtain ⟨c', hc, hcur', -⟩ := h.current
  cases hcur.symm.trans hcur'
  obtain ⟨hq, hstate, hparent⟩ := quiet_wait (k := withMem s.k s₁.2) hcur hwait hsleep
  have hq' : Quiet s.k k₂ := (quiet_withMem s.k s₁.2).trans hq
  obtain ⟨m, k₃, s₂, hstep, htask, htasks⟩ := h.switches hcur interrupt_syscall hs₁ hq' hu
  obtain ⟨-, hsw⟩ := (taskRun_cases (k := withMem k₂ m) (hq'.current.trans hcur) htask).resolve_left
    fun hr => huc hr.1
  refine ⟨_, s₂, hstep, ?_, fun v => ?_, fun es s' hrun hidle hback => ?_⟩
  · rw [Kernel.state, htasks]
    refine hsw.outgoing.trans ?_
    rw [show (withMem k₂ m).state c = .stopped from hstate]
    rfl
  · rw [htasks, hsw.parent v]
    exact hparent v
  · -- the registers of the task are those in its frame until it goes on
    have ha : Refines s ⟨c, s.regsOf, s.live⟩ := ⟨hcur, rfl, fun _ _ => rfl⟩
    obtain ⟨h₂, ha₂⟩ := hstep.refines h ha
    obtain ⟨-, ha'⟩ := refines_of_run h₂ ha₂ hrun
    obtain ⟨hregs, hlive⟩ := Idle.regs
      (a := Abs.step ⟨c, s.regsOf, s.live⟩ (.trap s.file s.live _ u)) hidle hc
    have hfile := ha'.regs c (ha'.live ▸ hlive)
    rw [Cpu.regsOf_current hback, hregs] at hfile
    exact hfile.trans (if_pos rfl)

end

/-- The two tasks of `duo`, of which the second one is a child of the first, which calls `wait`. -/
def family : Cpu where
  k :=
    { duo.k with
      tasks := fun t =>
        { duo.k.tasks t with
          state := if t = 0 then .running else .runnable
          parent := if t = 1 then some 0 else none
          next := if t = 1 then some 0 else none }
      rootp := some 1 }
  file := Function.update startFile .eax 8
  live := {0, 1}

theorem family_inv : Inv somewhere family where
  labels := ⟨duo_inv.labels.isr, duo_inv.labels.after, duo_inv.labels.trapRet,
    duo_inv.labels.doNothing, duo_inv.labels.apart⟩
  places :=
    ⟨⟨duo_inv.places.aligned, duo_inv.places.direct, duo_inv.places.context, duo_inv.places.apart⟩,
      duo_inv.places.tf, duo_inv.places.below⟩
  current := duo_inv.current
  user := userRegs_startFile.set rfl (by decide)
  waiting := fun u hu hcur =>
    ⟨(duo_inv.waiting u hu hcur).code, (duo_inv.waiting u hu hcur).regs⟩

/-- The call of `wait` is over when the timer gives the processor back, with 8 in `eax`. -/
theorem family_waits : ∃ e s₂ es s', Step somewhere family e s₂ ∧ s₂.k.state 0 = .stopped ∧
    Run (Step somewhere) s₂ es s' ∧ s'.k.current = some 0 ∧ s'.file .eax = 8 := by
  obtain ⟨s₁, hs₁, -⟩ := family_inv.entered (t := 0) rfl interrupt_syscall
  have hwait : waitPass false (withMem family.k s₁.2) = .ok (.none true, withMem family.k s₁.2) := rfl
  obtain ⟨born, s₂, hstep, hstate, -, hlater⟩ := wait_without_result (u := 1) family_inv rfl hs₁
    hwait rfl (by decide) (by decide)
  have ha : Refines family ⟨0, family.regsOf, family.live⟩ := ⟨rfl, rfl, fun _ _ => rfl⟩
  obtain ⟨h₂, ha₂⟩ := hstep.refines family_inv ha
  have hint : Interrupt 32 none false := ⟨by decide, by simp, rfl, by simp⟩
  obtain ⟨s₃, hs₃, -⟩ := h₂.entered ha₂.cur hint
  have hlive : s₂.live = {0, 1} := ha₂.live
  obtain ⟨m, -, s', hback, -⟩ := h₂.switches (u := 0) ha₂.cur hint hs₃ (.refl _) (by rw [hlive]; decide)
  have hcur := (hback.refines h₂ ha₂).2.cur
  have hidle : Idle 0 1 [.trap s₂.file s₂.live (saved (withMem s₂.k m)) 0] :=
    ⟨by decide, by rw [hlive]; decide, trivial⟩
  have hfile := hlater _ s' (Run.single hback) hidle hcur
  exact ⟨_, s₂, _, s', hstep, hstate, Run.single hback, hcur, by rw [hfile]; rfl⟩

end Preempt

end Chunix
