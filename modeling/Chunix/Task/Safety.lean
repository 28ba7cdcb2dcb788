import Chunix.Task.Sched

/-!
# Which tasks the scheduler lets execute

`Effect` says what a step of the system can do to the task table, so that the
facts about whole runs below need nine cases instead of the code. The scheduler
keeps stopped and dead tasks from executing as long as every task that stops or
exits leaves a runnable task behind: `sched_yield` ends with a call of
`task_run` on the caller whatever its state is, and only a switch in one of the
two loops before it prevents that call.
-/

namespace Chunix

namespace Sched

open Machine Chunix.Task Kernel

/-- The states in which a task may execute. -/
def Alive (st : TsState) : Prop := st = .running ∨ st = .runnable

/-- The events that leave the task table as it is. -/
def Ev.quiet : Ev → Prop
  | .fork _ none | .noChild _ | .timer _ | .scan _ | .back _ => True
  | _ => False

/-- What a step of the current task `t` does to the task table. -/
inductive Effect (s : Sys) (t : Slot) : Ev → Kernel → Prop
  | same {e k'} (he : e.quiet) (h : SameTable s.k k') : Effect s t e k'
  | fork {u n k'} (h : Forked u n s.k k') : Effect s t (.fork t (some u)) k'
  | exit {cs k'} (hx : (s.cont t).executes) (h : Exited t cs s.k k') : Effect s t (.exit t cs) k'
  | reap {u n k'} (h : Reaped t u n s.k k') : Effect s t (.reap t n) k'
  | sleep {c} (hx : (s.cont t).executes) : Effect s t (.sleep t c)
      (s.k.setTask t fun tp => { tp with chan := c, state := .stopped })
  | wakeup {c k'} (h : Woken [c] s.k k') : Effect s t (.wakeup t c) k'
  | yield (hx : (s.cont t).executes) : Effect s t (.yield t)
      (s.k.setTask t fun tp => { tp with state := .runnable })
  | switch {u k'} (hu : u ≠ t) (hr : s.k.state u = .runnable) (h : Switched t u s.k k') :
      Effect s t (.switch t u) k'
  | clear {a} (hl : s.cont t = .last a) : Effect s t (.back t)
      (s.k.setTask t fun tp => { tp with chan := .null })

theorem SameTable.rfl {k : Kernel} : SameTable k k := SameTable.mm k k.mm

theorem executes_of_run_or_wait {c : Cont} (h : c = .run ∨ c = .wait) : c.executes := by
  rcases h with rfl | rfl <;> trivial

/-- Every step is one of the effects. -/
theorem Step.effect {s s' : Sys} {e : Ev} (h : Step s e s') :
    ∃ t, s.k.current = some t ∧ Effect s t e s'.k := by
  cases h with
  | @forkFail t k' hc hr h =>
      rcases fork_cases h with ⟨-, hs⟩ | ⟨hn, -⟩
      · exact ⟨t, hc, .same trivial hs⟩
      · exact absurd hn (by decide)
  | @fork t u n k' hc hr hn hu h =>
      rcases fork_cases h with ⟨rfl, -⟩ | ⟨-, v, hf⟩
      · exact absurd hn (by decide)
      · cases hf.slot.symm.trans hu
        exact ⟨t, hc, .fork hf⟩
  | @exit t stale cs k' _ hc hr h he =>
      obtain ⟨c, hc', hx⟩ := exit_cases h
      cases hc.symm.trans hc'
      rw [enter_eq_some he]
      exact ⟨t, hc, .exit (by rw [hr]; trivial) hx⟩
  | @reap t n k' hc hr h =>
      rcases waitPass_cases h with ⟨b, hb, -⟩ | ⟨c, u, m, hc', hm, hd⟩
      · cases hb
      · cases hm
        cases hc.symm.trans hc'
        exact ⟨t, hc, .reap hd⟩
  | @noChild t k' hc hr h =>
      rcases waitPass_cases h with ⟨b, -, rfl⟩ | ⟨c, u, m, -, hm, -⟩
      · exact ⟨t, hc, .same trivial SameTable.rfl⟩
      · cases hm
  | @waitSleep t k₁ k' _ hc hr h₁ h he =>
      rcases waitPass_cases h₁ with ⟨b, -, rfl⟩ | ⟨c, u, m, -, hm, -⟩
      · obtain ⟨c, hc', rfl⟩ := sleepOn_eq_ok h
        cases hc.symm.trans hc'
        rw [enter_eq_some he]
        exact ⟨t, hc, .sleep (executes_of_run_or_wait hr)⟩
      · cases hm
  | @sleep t c k' _ hc hr h he =>
      obtain ⟨u, hc', rfl⟩ := sleepOn_eq_ok h
      cases hc.symm.trans hc'
      rw [enter_eq_some he]
      exact ⟨t, hc, .sleep (by rw [hr]; trivial)⟩
  | @wakeup t c k' hc hr h => exact ⟨t, hc, .wakeup (wakeup_woken h)⟩
  | @yield t _ hc hr he =>
      rw [enter_eq_some he]
      exact ⟨t, hc, .yield (by rw [hr]; trivial)⟩
  | @timer t _ hc hr he =>
      rw [enter_eq_some he]
      exact ⟨t, hc, .same trivial SameTable.rfl⟩
  | @scan t c hc h => exact ⟨t, hc, .same trivial SameTable.rfl⟩
  | @switch t u c k' cont' hc hu h hr hcont =>
      rcases advance_taskRun h with ha | ⟨hut, -⟩
      · rcases taskRun_cases hc hr with ⟨hut, -⟩ | ⟨-, hs⟩
        · exact absurd hut hu
        · exact ⟨t, hc, .switch hu ha hs⟩
      · exact absurd hut hu
  | @back t c hc h =>
      refine ⟨t, hc, ?_⟩
      cases hct : s.cont t with
      | last a =>
          cases a with
          | sleep => exact .clear hct
          | wait => exact .clear hct
          | _ => exact .same trivial SameTable.rfl
      | _ => exact .same trivial SameTable.rfl
  | @trapRet t c hc h => exact ⟨t, hc, .same trivial SameTable.rfl⟩

/-- The scan of `sched_yield` at the point `c` of the task `t` meets a runnable
task before it is over. -/
inductive Finds (k : Kernel) (t : Slot) : Cont → Prop
  | found {c u r} (h : advance k t c = some (.taskRun u r)) (hr : k.state u = .runnable) :
      Finds k t c
  | go {c c'} (h : advance k t c = some (.goto c')) (hf : Finds k t c') : Finds k t c

theorem not_finds_of_executes {k : Kernel} {t : Slot} {c : Cont} (hx : c.executes) :
    ¬ Finds k t c := by
  have hn : advance k t c = none := by
    cases c with
    | run | wait | exitFail => rfl
    | _ => exact absurd hx (by simp [Cont.executes])
  intro hf
  cases hf with
  | found h _ => rw [hn] at h; cases h
  | go h _ => rw [hn] at h; cases h

/-- A task whose scan is to find a runnable task and whose next move is to call
`task_run` calls it on a runnable task. -/
theorem Finds.taskRun {k : Kernel} {t u : Slot} {c r : Cont} (hf : Finds k t c)
    (h : advance k t c = some (.taskRun u r)) : k.state u = .runnable := by
  cases hf with
  | found h' hr =>
      cases h.symm.trans h'
      exact hr
  | go h' _ => cases h.symm.trans h'

theorem Finds.goto {k : Kernel} {t : Slot} {c c' : Cont} (hf : Finds k t c)
    (h : advance k t c = some (.goto c')) : Finds k t c' := by
  cases hf with
  | found h' _ => cases h.symm.trans h'
  | go h' hf' =>
      cases h.symm.trans h'
      exact hf'

/-- The current task may execute, or it is inside a scan that will find another
task. -/
def Safe (s : Sys) : Prop :=
  ∀ t, s.k.current = some t → Alive (s.k.state t) ∨ Finds s.k t (s.cont t)

theorem Safe.alive {s : Sys} (h : Safe s) {t : Slot} (hc : s.k.current = some t)
    (hx : (s.cont t).executes) : Alive (s.k.state t) :=
  (h t hc).resolve_right (not_finds_of_executes hx)

/-- The condition on a call of `sched_yield` from `sleep_on` or `exit`: its scan
finds a runnable task. Other steps are free. -/
def LeavesRunnable (s' : Sys) : Ev → Prop
  | .exit t _ | .sleep t _ => Finds s'.k t (s'.cont t)
  | _ => True

/-- The steps that meet the condition. -/
def GuardedStep (s : Sys) (e : Ev) (s' : Sys) : Prop := Step s e s' ∧ LeavesRunnable s' e

theorem Alive.of_sameTable {k k' : Kernel} {t : Slot} (h : SameTable k k')
    (ha : Alive (k.state t)) : Alive (k'.state t) := by
  rw [Alive, h.state t]
  exact ha

theorem Alive.ne {k : Kernel} {t u : Slot} {st : TsState} (ha : Alive (k.state t))
    (hu : k.state u = st) (hst : ¬ Alive st) : t ≠ u := by
  rintro rfl
  exact hst (hu ▸ ha)

/-- A task that may execute stays so in a step, unless it stops or exits. -/
theorem Effect.alive {s : Sys} {t : Slot} {e : Ev} {k' : Kernel} (h : Effect s t e k')
    (hc : s.k.current = some t) (ha : Alive (s.k.state t)) (hx : ∀ cs, e ≠ .exit t cs)
    (hsl : ∀ c, e ≠ .sleep t c) : ∃ t', k'.current = some t' ∧ Alive (k'.state t') := by
  cases h with
  | same _ h => exact ⟨t, h.current.trans hc, ha.of_sameTable h⟩
  | @fork u n _ h =>
      have htu : t ≠ u := ha.ne (firstUnused_state h.slot) (by simp [Alive])
      exact ⟨t, h.current.trans hc, by simpa only [Kernel.state, h.tasks t htu] using ha⟩
  | exit _ _ => exact absurd rfl (hx _)
  | @reap u n _ h =>
      have htu : t ≠ u := ha.ne h.zombie (by simp [Alive])
      exact ⟨t, h.same.current.trans hc, by simpa only [Kernel.state, h.same.tasks t htu] using ha⟩
  | sleep _ => exact absurd rfl (hsl _)
  | wakeup h =>
      refine ⟨t, h.current.trans hc, ?_⟩
      rcases h.state t with hs | ⟨-, -, hs⟩
      · rw [hs]; exact ha
      · exact Or.inr hs
  | yield _ => exact ⟨t, hc, Or.inr (by simp [Kernel.state])⟩
  | @switch u _ _ _ h => exact ⟨u, h.current, Or.inl h.running⟩
  | clear _ => exact ⟨t, hc, by simpa [Kernel.state] using ha⟩

/-- A task inside a scan that is to find a runnable task only takes steps of the
scan. -/
theorem Step.finds {s s' : Sys} {e : Ev} {t : Slot} (h : Step s e s')
    (hc : s.k.current = some t) (hf : Finds s.k t (s.cont t)) :
    (s'.k = s.k ∧ Finds s.k t (s'.cont t)) ∨ ∃ t', s'.k.current = some t' ∧ Alive (s'.k.state t') := by
  have hrun : ∀ {u}, s.k.current = some u → (s.cont u).executes → False := by
    intro u hu hx
    cases hc.symm.trans hu
    exact not_finds_of_executes hx hf
  cases h with
  | forkFail hu hr _ => exact (hrun hu (by rw [hr]; trivial)).elim
  | fork hu hr _ _ _ => exact (hrun hu (by rw [hr]; trivial)).elim
  | exit hu hr _ _ => exact (hrun hu (by rw [hr]; trivial)).elim
  | reap hu hr _ => exact (hrun hu (executes_of_run_or_wait hr)).elim
  | noChild hu hr _ => exact (hrun hu (by rw [hr]; trivial)).elim
  | waitSleep hu hr _ _ _ => exact (hrun hu (executes_of_run_or_wait hr)).elim
  | sleep hu hr _ _ => exact (hrun hu (by rw [hr]; trivial)).elim
  | wakeup hu hr _ => exact (hrun hu (by rw [hr]; trivial)).elim
  | yield hu hr _ => exact (hrun hu (by rw [hr]; trivial)).elim
  | timer hu hr _ => exact (hrun hu (by rw [hr]; trivial)).elim
  | scan hu h =>
      cases hc.symm.trans hu
      exact Or.inl ⟨rfl, by simpa using hf.goto h⟩
  | @switch _ u _ _ _ hu hne h hr _ =>
      rcases taskRun_cases hu hr with ⟨he, -⟩ | ⟨-, hs⟩
      · exact absurd he hne
      · exact Or.inr ⟨u, hs.current, Or.inl hs.running⟩
  | back hu h =>
      cases hc.symm.trans hu
      have hr := hf.taskRun h
      -- The fallback call is not reached with a runnable task, so nothing is cleared here.
      refine Or.inr ⟨t, ?_, Or.inr ?_⟩
      · unfold clearChan
        split <;> exact hc
      · unfold clearChan
        split <;> simpa [Kernel.state] using hr
  | trapRet hu h =>
      cases hc.symm.trans hu
      exact Or.inr ⟨t, hc, Or.inr (hf.taskRun h)⟩

theorem safe_step {s s' : Sys} {e : Ev} (hs : Safe s) (h : GuardedStep s e s') : Safe s' := by
  obtain ⟨t, hc, he⟩ := h.1.effect
  have of_alive : (∃ t', s'.k.current = some t' ∧ Alive (s'.k.state t')) → Safe s' := by
    rintro ⟨t', hc', ha⟩ u hu
    cases hc'.symm.trans hu
    exact Or.inl ha
  have of_finds : s'.k.current = some t → Finds s'.k t (s'.cont t) → Safe s' := by
    intro hc' hf u hu
    cases hc'.symm.trans hu
    exact Or.inr hf
  rcases hs t hc with ha | hf
  · cases e with
    | exit t₁ cs =>
        cases he with
        | same hq _ => exact hq.elim
        | exit _ h' => exact of_finds (h'.current.trans hc) h.2
    | sleep t₁ c =>
        generalize hk : s'.k = k' at he
        cases he with
        | same hq _ => exact hq.elim
        | sleep _ => exact of_finds (by rw [hk]; exact hc) h.2
    | _ => exact of_alive (he.alive hc ha (by simp) (by simp))
  · rcases h.1.finds hc hf with ⟨hk, hf'⟩ | ha
    · exact of_finds (hk ▸ hc) (hk ▸ hf')
    · exact of_alive ha

/-- The event is a call of `wakeup` on the channel `c`. -/
def Ev.wakes (c : Chan) : Ev → Prop
  | .wakeup _ c' => c' = c
  | .exit _ cs => c ∈ cs
  | _ => False

/-- The event is a fork that takes the slot `t` for the child. -/
def Ev.reuses (t : Slot) : Ev → Prop
  | .fork _ (some u) => u = t
  | _ => False

/-- Only `wakeup` on its channel ends the sleep of a task. -/
theorem stopped_step {s s' : Sys} {e : Ev} {u : Slot} {c : Chan} (hs : Safe s)
    (hu : s.k.state u = .stopped ∧ (s.k.tasks u).chan = c) (h : Step s e s') :
    e.wakes c ∨ (s'.k.state u = .stopped ∧ (s'.k.tasks u).chan = c) := by
  obtain ⟨t, hc, he⟩ := h.effect
  have hne : (s.cont t).executes → u ≠ t := fun hx =>
    ((hs.alive hc hx).ne hu.1 (by simp [Alive])).symm
  have keep : ∀ k' : Kernel, k'.tasks u = s.k.tasks u →
      k'.state u = .stopped ∧ (k'.tasks u).chan = c := by
    intro k' hk
    rw [Kernel.state, hk]
    exact hu
  generalize s'.k = k' at he
  cases he with
  | same _ h' => exact Or.inr (keep _ (h'.used u (by simp [hu.1])))
  | @fork v _ _ h' =>
      refine Or.inr (keep _ (h'.tasks u ?_))
      rintro rfl
      simp [firstUnused_state h'.slot] at hu
  | exit hx h' =>
      rcases h'.state u (hne hx) with hst | ⟨-, hm, -⟩
      · exact Or.inr ⟨hst.trans hu.1, (h'.chan u).trans hu.2⟩
      · exact Or.inl (hu.2 ▸ hm)
  | @reap v _ _ h' =>
      refine Or.inr (keep _ (h'.same.tasks u ?_))
      rintro rfl
      simp [h'.zombie] at hu
  | sleep hx => exact Or.inr (keep _ (setTask_tasks_of_ne _ _ (hne hx)))
  | wakeup h' =>
      rcases h'.state u with hst | ⟨-, hm, -⟩
      · exact Or.inr ⟨hst.trans hu.1, (h'.chan u).trans hu.2⟩
      · rw [hu.2, List.mem_singleton] at hm
        exact Or.inl hm.symm
  | yield hx => exact Or.inr (keep _ (setTask_tasks_of_ne _ _ (hne hx)))
  | @switch v _ _ hr h' =>
      have huv : u ≠ v := by
        rintro rfl
        simp [hr] at hu
      refine Or.inr ⟨?_, (h'.chan u).trans hu.2⟩
      by_cases hut : u = t
      · subst hut
        rw [h'.outgoing, hu.1]
        rfl
      · rw [h'.state u hut huv]
        exact hu.1
  | @clear a hl =>
      refine Or.inr (keep _ (setTask_tasks_of_ne _ _ ?_))
      -- A stopped task never reaches the end of the scan.
      rintro rfl
      rcases hs u hc with ha | hf
      · simp [Alive, hu.1] at ha
      · have := hf.taskRun (u := u) (r := a.ret) (by rw [hl]; rfl)
        simp [hu.1] at this

/-- Only a fork that takes its slot ends the death of a task. -/
theorem dead_step {s s' : Sys} {e : Ev} {u : Slot} (hs : Safe s)
    (hu : s.k.state u = .zombie ∨ s.k.state u = .unused) (h : Step s e s') :
    e.reuses u ∨ s'.k.state u = .zombie ∨ s'.k.state u = .unused := by
  obtain ⟨t, hc, he⟩ := h.effect
  have hna : ¬ Alive (s.k.state u) := by rcases hu with hu | hu <;> simp [Alive, hu]
  have hne : (s.cont t).executes → u ≠ t := fun hx => ((hs.alive hc hx).ne rfl hna).symm
  have keep : ∀ k' : Kernel, k'.state u = s.k.state u →
      k'.state u = .zombie ∨ k'.state u = .unused := by
    intro k' hk
    rw [hk]
    exact hu
  have stays : ∀ (k' : Kernel) (cs : List Chan), (k'.state u = s.k.state u ∨
      (s.k.state u = .stopped ∧ (s.k.tasks u).chan ∈ cs ∧ k'.state u = .runnable)) →
      k'.state u = .zombie ∨ k'.state u = .unused := by
    rintro k' cs (hk | ⟨hst, -, -⟩)
    · exact keep k' hk
    · simp [hst] at hu
  generalize s'.k = k' at he
  cases he with
  | same _ h' => exact Or.inr (keep _ (h'.state u))
  | @fork v _ _ h' =>
      by_cases huv : u = v
      · exact Or.inl huv.symm
      · exact Or.inr (keep _ (congrArg Task.state (h'.tasks u huv)))
  | exit hx h' => exact Or.inr (stays _ _ (h'.state u (hne hx)))
  | @reap v _ _ h' =>
      by_cases huv : u = v
      · exact Or.inr (Or.inr (huv ▸ h'.state))
      · exact Or.inr (keep _ (congrArg Task.state (h'.same.tasks u huv)))
  | sleep hx => exact Or.inr (keep _ (congrArg Task.state (setTask_tasks_of_ne _ _ (hne hx))))
  | wakeup h' => exact Or.inr (stays _ _ (h'.state u))
  | yield hx => exact Or.inr (keep _ (congrArg Task.state (setTask_tasks_of_ne _ _ (hne hx))))
  | @switch v _ _ hr h' =>
      have huv : u ≠ v := by
        rintro rfl
        exact hna (Or.inr hr)
      by_cases hut : u = t
      · subst hut
        refine Or.inr (keep _ (h'.outgoing.trans (if_neg ?_)))
        exact fun hr' => hna (Or.inl hr')
      · exact Or.inr (keep _ (h'.state u hut huv))
  | clear hl =>
      refine Or.inr (keep _ ?_)
      by_cases hut : u = t
      · subst hut
        simp [Kernel.state]
      · exact congrArg Task.state (setTask_tasks_of_ne _ _ hut)

/-- A system whose current task executes and may do so. -/
def Started (s : Sys) : Prop :=
  ∃ t, s.k.current = some t ∧ s.cont t = .run ∧ Alive (s.k.state t)

theorem Started.safe {s : Sys} (h : Started s) : Safe s := by
  obtain ⟨t, hc, -, ha⟩ := h
  intro u hu
  cases hc.symm.trans hu
  exact Or.inl ha

theorem stopped_of_sleep {s s' : Sys} {t : Slot} {c : Chan} (h : Step s (.sleep t c) s') :
    s'.k.state t = .stopped ∧ (s'.k.tasks t).chan = c := by
  cases h with
  | @waitSleep _ k₁ k' _ hc hr h₁ h he =>
      obtain ⟨u, hc', rfl⟩ := sleepOn_eq_ok h
      rcases waitPass_cases h₁ with ⟨b, -, rfl⟩ | ⟨_, _, _, -, hm, -⟩
      · cases hc.symm.trans hc'
        rw [enter_eq_some he]
        simp [Kernel.state]
      · cases hm
  | @sleep _ _ k' _ hc hr h he =>
      obtain ⟨u, hc', rfl⟩ := sleepOn_eq_ok h
      cases hc.symm.trans hc'
      rw [enter_eq_some he]
      simp [Kernel.state]

theorem zombie_of_exit {s s' : Sys} {t : Slot} {cs : List Chan} (h : Step s (.exit t cs) s') :
    s'.k.state t = .zombie := by
  cases h with
  | exit hc hr h he =>
      obtain ⟨u, hc', hx⟩ := exit_cases h
      cases hc.symm.trans hc'
      rw [enter_eq_some he]
      exact hx.zombie

theorem safe_run {s s' : Sys} {es : List Ev} (hs : Safe s) (h : Run GuardedStep s es s') :
    Safe s' :=
  h.invariant (fun _ _ _ _ hI hg => safe_step hI hg) hs

/-- What holds of the task that executes after the label `e` and the further
events `es`. -/
theorem executes_after {s s₁ s' : Sys} {e : Ev} {es : List Ev} {t : Slot} {Q : Sys → Prop}
    {Ends : Ev → Prop} (hs : Safe s) (h₁ : GuardedStep s e s₁) (h : Run GuardedStep s₁ es s')
    (hq : Q s₁) (hstep : ∀ s e s', Safe s → Q s → Step s e s' → Ends e ∨ Q s')
    (hdead : Q s' → ¬ Alive (s'.k.state t)) (hc : s'.k.current = some t)
    (hx : (s'.cont t).executes) : ∃ e ∈ es, Ends e := by
  have hs₁ := safe_step hs h₁
  rcases h.ends_or_stays (fun _ _ _ hI hg => safe_step hI hg)
    (fun s e s' hI hq hg => hstep s e s' hI hq hg.1) hs₁ hq with he | hq'
  · exact he
  · exact absurd ((safe_run hs₁ h).alive hc hx) (hdead hq')

/-- In every run in which each call of `sleep_on` and `exit` leaves a runnable
task for the scan of `sched_yield`, only running and runnable tasks execute: a
task that went to sleep on `c` executes again only after a call of `wakeup` on
`c`, and a task that called `exit` only after its slot was given to a new task. -/
theorem schedYield_executes_alive {s s' : Sys} {es : List Ev} {t : Slot} (h₀ : Started s)
    (h : Run GuardedStep s es s') (hc : s'.k.current = some t) (hx : (s'.cont t).executes) :
    Alive (s'.k.state t) ∧
      (∀ c es₁ es₂, es = es₁ ++ .sleep t c :: es₂ → ∃ e ∈ es₂, e.wakes c) ∧
      (∀ cs es₁ es₂, es = es₁ ++ .exit t cs :: es₂ → ∃ e ∈ es₂, e.reuses t) := by
  refine ⟨(safe_run h₀.safe h).alive hc hx, ?_, ?_⟩
  · rintro c es₁ es₂ rfl
    obtain ⟨s₁, h₁, h₂⟩ := h.split
    cases h₂ with
    | cons hg hr =>
        exact executes_after (Q := fun s => s.k.state t = .stopped ∧ (s.k.tasks t).chan = c)
          (safe_run h₀.safe h₁) hg hr (stopped_of_sleep hg.1)
          (fun _ _ _ hI hq hst => stopped_step hI hq hst) (fun hq => by simp [Alive, hq.1]) hc hx
  · rintro cs es₁ es₂ rfl
    obtain ⟨s₁, h₁, h₂⟩ := h.split
    cases h₂ with
    | cons hg hr =>
        exact executes_after (Q := fun s => s.k.state t = .zombie ∨ s.k.state t = .unused)
          (safe_run h₀.safe h₁) hg hr (Or.inl (zombie_of_exit hg.1))
          (fun _ _ _ hI hq hst => dead_step hI hq hst)
          (fun hq => by rcases hq with hq | hq <;> simp [Alive, hq]) hc hx

/-- A system with the running task 0 and the further tasks of `tasks` behind it
on the list. -/
def small (tasks : Slot → Task) : Sys where
  k :=
    { mm := { mem := fun _ => 0, freeList := 0, cr3 := 0, memsz := 0, memStart := 0, data := 0 }
      tasks := tasks
      rootp := some 0
      current := some 0
      inittask := some 0
      nextpid := 1
      kpgdir := 0
      esp0 := 0
      trapRet := 0
      doNothing := 0 }
  cont := fun _ => .run

/-- The running task 0 and, runnable, task 1. -/
def pair : Sys := small fun t =>
  if t = 0 then { Task.zero with state := .running, next := some 1 }
  else if t = 1 then { Task.zero with state := .runnable } else Task.zero

/-- The events of a run in which task 0 sleeps and task 1 wakes it up. -/
def pairEvents : List Ev :=
  [.sleep 0 (.obj 8), .switch 0 1, .wakeup 1 (.obj 8), .yield 1, .scan 1, .switch 1 0,
    .scan 0, .scan 0, .scan 0, .back 0]

theorem pair_run : ∃ s', Run GuardedStep pair pairEvents s' ∧ s'.k.current = some 0 ∧
    (s'.cont 0).executes := by
  refine ⟨_, .cons ⟨.sleep rfl rfl rfl rfl, .found rfl rfl⟩ <|
    .cons ⟨.switch rfl (by decide) rfl rfl (Or.inl rfl), trivial⟩ <|
    .cons ⟨.wakeup rfl rfl rfl, trivial⟩ <|
    .cons ⟨.yield rfl rfl rfl, trivial⟩ <|
    .cons ⟨.scan rfl rfl, trivial⟩ <|
    .cons ⟨.switch rfl (by decide) rfl rfl (Or.inl rfl), trivial⟩ <|
    .cons ⟨.scan rfl rfl, trivial⟩ <|
    .cons ⟨.scan rfl rfl, trivial⟩ <|
    .cons ⟨.scan rfl rfl, trivial⟩ <|
    .cons ⟨.back rfl rfl, trivial⟩ <| .nil _, rfl, trivial⟩

theorem schedYield_pair_alive : ∃ s', Run GuardedStep pair pairEvents s' ∧
    Alive (s'.k.state 0) ∧ ∃ e ∈ pairEvents.tail, e.wakes (.obj 8) := by
  obtain ⟨s', h, hc, hx⟩ := pair_run
  have h₀ : Started pair := ⟨0, rfl, rfl, Or.inl rfl⟩
  obtain ⟨ha, hsleep, -⟩ := schedYield_executes_alive h₀ h hc hx
  exact ⟨s', h, ha, hsleep (.obj 8) [] _ rfl⟩

/-- The running task 0 alone. -/
def alone : Sys := small fun t => if t = 0 then { Task.zero with state := .running } else Task.zero

/-- A task that is alone goes to sleep: both loops of `sched_yield` find nothing,
`task_run` is called on the caller, and `sleep_on` returns with the caller
stopped and nobody having called `wakeup`. If it calls `exit` instead, it goes
on as a zombie. -/
theorem schedYield_returns_stopped :
    Started alone ∧
      (∃ s', Run Step alone [.sleep 0 (.obj 8), .scan 0, .scan 0, .back 0] s' ∧
        s'.k.current = some 0 ∧ s'.cont 0 = .run ∧ s'.k.state 0 = .stopped) ∧
      (∃ s', Run Step alone [.exit 0 [.null], .scan 0, .scan 0, .back 0] s' ∧
        s'.k.current = some 0 ∧ (s'.cont 0).executes ∧ s'.k.state 0 = .zombie) := by
  refine ⟨⟨0, rfl, rfl, Or.inl rfl⟩, ⟨_, .cons (.sleep rfl rfl rfl rfl) <|
    .cons (.scan rfl rfl) <| .cons (.scan rfl rfl) <| .cons (.back rfl rfl) <| .nil _,
    rfl, rfl, rfl⟩, ⟨_, .cons (.exit rfl rfl (show Task.exit none _ = _ from rfl) rfl) <|
    .cons (.scan rfl rfl) <| .cons (.scan rfl rfl) <| .cons (.back rfl rfl) <| .nil _,
    rfl, trivial, rfl⟩⟩

end Sched

end Chunix
