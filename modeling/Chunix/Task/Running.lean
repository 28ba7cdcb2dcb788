import Chunix.Task.List

/-!
# The running task

`task_run` is the only function that makes a task running, and it demotes the
outgoing task first, so no task other than the current one is running. The scan
of `sched_yield` reaches every task of a list in order, so a scan that finds
nothing shows that no other task is runnable.
-/

namespace Chunix

namespace Sched

open Machine Linked Chunix.Task Kernel

/-- No task other than the current one is running. -/
def OneRunning (k : Kernel) : Prop := ∀ t, k.state t = .running → k.current = some t

theorem OneRunning.of_state {k k' : Kernel} (h : OneRunning k) (hc : k'.current = k.current)
    (hst : ∀ t, k'.state t = .running → k.state t = .running) : OneRunning k' := by
  intro t ht
  rw [hc]
  exact h t (hst t ht)

/-- A step keeps every task but the current one from running. -/
theorem oneRunning_effect {s : Sys} {t : Slot} {e : Ev} {k' : Kernel} (h : Effect s t e k')
    (hr : OneRunning s.k) (hc : s.k.current = some t) : OneRunning k' := by
  have setTask : ∀ f : Task → Task,
      ((f (s.k.tasks t)).state = .running → (s.k.tasks t).state = .running) →
      OneRunning (s.k.setTask t f) := by
    intro f hf
    refine hr.of_state rfl ?_
    intro u hu
    by_cases hut : u = t
    · subst hut
      exact hf (by simpa [Kernel.state] using hu)
    · rwa [Kernel.state, setTask_tasks_of_ne _ _ hut] at hu
  cases h with
  | same _ h' => exact hr.of_state h'.current fun u hu => by rwa [h'.state u] at hu
  | @fork v _ _ h' =>
      refine hr.of_state h'.current ?_
      intro u hu
      by_cases huv : u = v
      · rw [huv, h'.state] at hu
        cases hu
      · rwa [Kernel.state, h'.tasks u huv] at hu
  | exit _ h' =>
      refine hr.of_state h'.current ?_
      intro u hu
      by_cases hut : u = t
      · rw [hut, h'.zombie] at hu
        cases hu
      · rcases h'.state u hut with hst | ⟨-, -, hst⟩
        · rwa [hst] at hu
        · rw [hst] at hu
          cases hu
  | @reap v _ _ h' =>
      refine hr.of_state h'.same.current ?_
      intro u hu
      by_cases huv : u = v
      · rw [huv, h'.state] at hu
        cases hu
      · rwa [Kernel.state, h'.same.tasks u huv] at hu
  | sleep _ => exact setTask _ (by simp)
  | wakeup h' =>
      refine hr.of_state h'.current ?_
      intro u hu
      rcases h'.state u with hst | ⟨-, -, hst⟩
      · rwa [hst] at hu
      · rw [hst] at hu
        cases hu
  | yield _ => exact setTask _ (by simp)
  | @switch v _ hv _ h' =>
      intro u hu
      by_cases huv : u = v
      · rw [huv, h'.current]
      · exfalso
        by_cases hut : u = t
        · rw [hut, h'.outgoing] at hu
          split at hu
          · cases hu
          · exact absurd hu ‹_›
        · rw [h'.state u hut huv] at hu
          cases hc.symm.trans (hr u hu)
          exact hut rfl
  | clear _ => exact setTask _ id

theorem oneRunning_run {s s' : Sys} {es : List Ev} (h₀ : OneRunning s.k) (h : Run Step s es s') :
    OneRunning s'.k := by
  refine h.invariant (I := fun s => OneRunning s.k) ?_ h₀
  intro s e s' _ hr hs
  obtain ⟨t, hc, he⟩ := hs.effect
  exact oneRunning_effect he hr hc

theorem oneRunning_of_runnable {k : Kernel}
    (h : ∀ t, k.state t = .unused ∨ k.state t = .runnable) : OneRunning k := by
  intro t ht
  rcases h t with hs | hs
  · rw [hs] at ht
    cases ht
  · rw [hs] at ht
    cases ht

/-- From a state in which every task is runnable, whichever task `current` is, in
every run only the current task is running. -/
theorem single_running {s s' : Sys} {es : List Ev}
    (h₀ : ∀ t, s.k.state t = .unused ∨ s.k.state t = .runnable) (h : Run Step s es s') (t : Slot)
    (ht : s'.k.state t = .running) : s'.k.current = some t :=
  oneRunning_run (oneRunning_of_runnable h₀) h t ht

/-- The tasks 0 and 1, both runnable. -/
def ready : Sys := small fun t =>
  if t = 0 then { Task.zero with state := .runnable, next := some 1 }
  else if t = 1 then { Task.zero with state := .runnable } else Task.zero

theorem ready_state (t : Slot) : ready.k.state t = if t = 0 ∨ t = 1 then .runnable else .unused := by
  by_cases h₀ : t = 0
  · subst h₀; rfl
  · by_cases h₁ : t = 1
    · subst h₁; rfl
    · simp [ready, small, Kernel.state, h₀, h₁, Task.zero]

/-- The timer takes task 0 off the processor, then task 1. -/
theorem ready_single_running : ∃ s', Run Step ready
    [.timer 0, .switch 0 1, .timer 1, .scan 1, .switch 1 0] s' ∧ s'.k.state 0 = .running ∧
      s'.k.current = some 0 := by
  obtain ⟨s', h, hs⟩ : ∃ s', Run Step ready
      [.timer 0, .switch 0 1, .timer 1, .scan 1, .switch 1 0] s' ∧ s'.k.state 0 = .running :=
    ⟨_, .cons (.timer rfl rfl rfl) <| .cons (.switch rfl (by decide) rfl rfl (Or.inl rfl)) <|
      .cons (.timer rfl rfl rfl) <| .cons (.scan rfl rfl) <|
      .cons (.switch rfl (by decide) rfl rfl (Or.inl rfl)) <| .nil _, rfl⟩
  refine ⟨s', h, hs, single_running ?_ h 0 hs⟩
  intro t
  rw [ready_state]
  split_ifs
  · exact Or.inr rfl
  · exact Or.inl rfl

end Sched

end Chunix
