import Chunix.Machine.Run
import Chunix.Task.Spec

/-!
# The scheduler and the interleavings of tasks

A task runs until it calls `sched_yield`, from `timer_isr`, `yield`, `sleep_on`
or `exit`. `sched_yield` scans the list from the caller's successor to the end
and then from `rootp` to the caller, calls `task_run` on every runnable task it
meets, and at last calls `task_run` on the caller itself. `Cont` records where
in this code a task is.

A call of `task_run` that switches to another task leaves the caller in the
middle of its scan. Where a task continues when it is switched to is left open:
after its own call of `swtch`, or at `trap_ret`, where the first run of a task
starts. Every result below holds for both.
-/

namespace Chunix

namespace Sched

open Machine Task

/-- Who called `sched_yield`: `timer_isr` or `yield`, a `sleep_on` of the kernel,
the `sleep_on` of `wait`, or `exit`. -/
inductive After
  | user
  | sleep
  | wait
  | exit
deriving DecidableEq, Repr

/-- Where a task is: outside `sched_yield` (`run`, or `wait` before another pass
of the loop of `wait`, or `exitFail` behind the last call of `exit`), before a
test or an increment of the first or the second loop, or before the last call of
`task_run`. -/
inductive Cont
  | run
  | wait
  | exitFail
  | loop1 (tp : Option Slot) (a : After)
  | step1 (tp : Slot) (a : After)
  | loop2 (tp : Option Slot) (a : After)
  | step2 (tp : Slot) (a : After)
  | last (a : After)
deriving DecidableEq, Repr

/-- The task executes code outside the scheduler. -/
def Cont.executes : Cont → Prop
  | run | wait | exitFail => True
  | _ => False

/-- The state of the system. -/
structure Sys where
  k : Kernel
  cont : Slot → Cont

/-- What the scheduler code of a task does next: it goes on, or it calls
`task_run` and goes on when that call returns. -/
inductive Move
  | goto (c : Cont)
  | taskRun (tp : Slot) (ret : Cont)

/-- Where a task goes on when `sched_yield` returns. -/
def After.ret : After → Cont
  | user | sleep => .run
  | wait => .wait
  | exit => .exitFail

/-- The next move of the task `t` inside `sched_yield`. The second loop has no
test for the end of the list, which it would run over through a null pointer. -/
def advance (k : Kernel) (t : Slot) : Cont → Option Move
  | .loop1 none a => some (.goto (.loop2 k.rootp a))
  | .loop1 (some tp) a =>
      if k.state tp = .runnable then some (.taskRun tp (.step1 tp a))
      else some (.goto (.step1 tp a))
  | .step1 tp a => some (.goto (.loop1 (k.next tp) a))
  | .loop2 none _ => none
  | .loop2 (some tp) a =>
      if tp = t then some (.goto (.last a))
      else if k.state tp = .runnable then some (.taskRun tp (.step2 tp a))
      else some (.goto (.step2 tp a))
  | .step2 tp a => some (.goto (.loop2 (k.next tp) a))
  | .last a => some (.taskRun t a.ret)
  | .run | .wait | .exitFail => none

/-- The events of a run. -/
inductive Ev
  | fork (t : Slot) (child : Option Slot)
  | exit (t : Slot) (woken : List Chan)
  | reap (t : Slot) (pid : Nat)
  | noChild (t : Slot)
  | sleep (t : Slot) (c : Chan)
  | wakeup (t : Slot) (c : Chan)
  | yield (t : Slot)
  | timer (t : Slot)
  | scan (t : Slot)
  | switch (t u : Slot)
  | back (t : Slot)

/-- The system after the task `t` has entered `sched_yield`, which panics when
there is no task. -/
def enter (s : Sys) (k : Kernel) (t : Slot) (a : After) : Option Sys :=
  if k.rootp = none then none
  else some ⟨k, Function.update s.cont t (.loop1 (k.next t) a)⟩

/-- The rest of `sleep_on`: the channel is cleared. -/
def clearChan (k : Kernel) (t : Slot) : Cont → Kernel
  | .last .sleep | .last .wait => k.setTask t fun tp => { tp with chan := .null }
  | _ => k

/-- The steps of the system, each taken by the current task `t`. -/
inductive Step : Sys → Ev → Sys → Prop
  | forkFail {s t k'} (hc : s.k.current = some t) (hr : s.cont t = .run)
      (h : fork s.k = .ok (-1, k')) : Step s (.fork t none) ⟨k', s.cont⟩
  | fork {s t u n k'} (hc : s.k.current = some t) (hr : s.cont t = .run) (hn : 0 ≤ n)
      (hu : firstUnused s.k = some u) (h : fork s.k = .ok (n, k')) :
      Step s (.fork t (some u)) ⟨k', Function.update s.cont u .run⟩
  | exit {s t stale cs k' s'} (hc : s.k.current = some t) (hr : s.cont t = .run)
      (h : Task.exit stale s.k = .ok (cs, k')) (he : enter s k' t .exit = some s') :
      Step s (.exit t cs) s'
  | reap {s t n k'} (hc : s.k.current = some t) (hr : s.cont t = .run ∨ s.cont t = .wait)
      (h : waitPass (s.cont t = .wait) s.k = .ok (.pid n, k')) :
      Step s (.reap t n) ⟨k', Function.update s.cont t .run⟩
  | noChild {s t k'} (hc : s.k.current = some t) (hr : s.cont t = .run)
      (h : waitPass false s.k = .ok (.none false, k')) : Step s (.noChild t) ⟨k', s.cont⟩
  | waitSleep {s t k₁ k' s'} (hc : s.k.current = some t)
      (hr : s.cont t = .run ∨ s.cont t = .wait)
      (h₁ : waitPass (s.cont t = .wait) s.k = .ok (.none true, k₁))
      (h : sleepOn (.task t) k₁ = .ok ((), k')) (he : enter s k' t .wait = some s') :
      Step s (.sleep t (.task t)) s'
  | sleep {s t c k' s'} (hc : s.k.current = some t) (hr : s.cont t = .run)
      (h : sleepOn c s.k = .ok ((), k')) (he : enter s k' t .sleep = some s') :
      Step s (.sleep t c) s'
  | wakeup {s t c k'} (hc : s.k.current = some t) (hr : s.cont t = .run)
      (h : Task.wakeup c s.k = .ok ((), k')) : Step s (.wakeup t c) ⟨k', s.cont⟩
  | yield {s t s'} (hc : s.k.current = some t) (hr : s.cont t = .run)
      (he : enter s (s.k.setTask t fun tp => { tp with state := .runnable }) t .user = some s') :
      Step s (.yield t) s'
  | timer {s t s'} (hc : s.k.current = some t) (hr : s.cont t = .run)
      (he : enter s s.k t .user = some s') : Step s (.timer t) s'
  | scan {s t c} (hc : s.k.current = some t) (h : advance s.k t (s.cont t) = some (.goto c)) :
      Step s (.scan t) ⟨s.k, Function.update s.cont t c⟩
  | switch {s t u c k' cont'} (hc : s.k.current = some t) (hu : u ≠ t)
      (h : advance s.k t (s.cont t) = some (.taskRun u c)) (hr : taskRun u s.k = .ok ((), k'))
      (hcont : cont' = Function.update s.cont t c ∨
        cont' = Function.update (Function.update s.cont t c) u .run) :
      Step s (.switch t u) ⟨k', cont'⟩
  | back {s t c} (hc : s.k.current = some t)
      (h : advance s.k t (s.cont t) = some (.taskRun t c)) :
      Step s (.back t) ⟨clearChan s.k t (s.cont t), Function.update s.cont t c⟩
  | trapRet {s t c} (hc : s.k.current = some t)
      (h : advance s.k t (s.cont t) = some (.taskRun t c)) :
      Step s (.back t) ⟨s.k, Function.update s.cont t .run⟩

theorem enter_eq_some {s s' : Sys} {k : Kernel} {t : Slot} {a : After}
    (h : enter s k t a = some s') :
    s' = ⟨k, Function.update s.cont t (.loop1 (k.next t) a)⟩ := by
  unfold enter at h
  split at h
  · cases h
  · exact (Option.some.inj h).symm

/-- Inside the two loops `task_run` is only called on runnable tasks. -/
theorem advance_taskRun {k : Kernel} {t u : Slot} {c r : Cont}
    (h : advance k t c = some (.taskRun u r)) :
    k.state u = .runnable ∨ (u = t ∧ ∃ a, c = .last a ∧ r = a.ret) := by
  cases c with
  | loop1 tp a =>
      cases tp with
      | none => simp [advance] at h
      | some tp =>
          simp only [advance] at h
          split at h
          · cases h
            exact Or.inl ‹_›
          · cases h
  | loop2 tp a =>
      cases tp with
      | none => simp [advance] at h
      | some tp =>
          simp only [advance] at h
          split at h
          · cases h
          · split at h
            · cases h
              exact Or.inl ‹_›
            · cases h
  | last a =>
      simp only [advance] at h
      cases h
      exact Or.inr ⟨rfl, a, rfl, rfl⟩
  | _ => simp [advance] at h

end Sched

end Chunix
