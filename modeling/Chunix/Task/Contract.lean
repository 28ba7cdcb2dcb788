import Chunix.Task.Kinship

/-!
# The contract of wait and exit

Every deed of a run is allowed by those before it. A task that exits wakes its
parent if that one sleeps in `wait`, and tasks sleep nowhere else; so an exit that
leaves nobody to run is that of a task whose parent is dead. An endless list stops
`exit` and every `wait` that finds nothing, and a list that ends holds every task.
-/

namespace Chunix

namespace Sched

open Machine Linked Chunix.Task Kernel

/-- If the list ends it is in order. Once it is endless it stays so. -/
def Walkable (k : Kernel) : Prop := ∀ l, IsChain k.next k.rootp l → ListOk k

/-- The caller of `sched_yield` of a task inside it. -/
def Cont.after : Cont → Option After
  | .loop1 _ a | .step1 _ a | .loop2 _ a | .step2 _ a | .last a => some a
  | .run | .wait | .exitFail => none

/-- Tasks sleep in `wait` only, on their own channel. A stopped task that executes
all the same is behind a pass of `wait` that has found no zombie child. -/
structure Resting (s : Sys) : Prop where
  after : ∀ t, (s.cont t).after ≠ some .sleep
  stopped : ∀ t, s.k.state t = .stopped →
    (s.k.tasks t).chan = .task t ∨ (s.k.current = some t ∧ s.cont t = .wait)
  waiting : ∀ t, s.k.current = some t → s.k.state t = .stopped →
    s.cont t = .wait ∨ (s.cont t).after = some .wait →
    ∀ u, (s.k.tasks u).parent = some t → s.k.state u ≠ .zombie

/-- The invariant of a run. -/
structure FamilyInv (s : Lived) (init : Nat) : Prop where
  family : FamilyOk s.sys.k
  one : OneRunning s.sys.k
  walkable : Walkable s.sys.k
  resting : Resting s.sys
  kinship : Kinship s init
  doomed : ∃ D, Doomed D s
  contract : ∀ l₁ d l₂, s.log = l₁ ++ d :: l₂ → Allowed init l₂ d

theorem Begins.inv {s : Lived} {init : Nat} (h : Begins s init) : FamilyInv s init := by
  obtain ⟨i, hi, hiu⟩ := h.ready.init
  have hstate : ∀ t, s.sys.k.state t ≠ .stopped ∧ s.sys.k.state t ≠ .zombie := by
    intro t
    rcases h.ready.state t with hs | hs <;> simp [hs]
  refine ⟨⟨?_, ?_, ?_⟩, oneRunning_of_runnable h.ready.state, fun _ _ => h.ready.list,
    ⟨?_, ?_, ?_⟩, ?_, ⟨fun d => s.sys.k.inittask = some d, ?_, fun _ => id, ?_, ?_⟩, ?_⟩
  · intro c hc
    rw [h.ready.current] at hc
    obtain ⟨l, hl, -, -⟩ := h.ready.list
    cases l with
    | nil => cases (isChain_nil.1 hl).symm.trans hc
    | cons a l =>
        cases hl.1.symm.trans hc
        exact h.ready.listed c ⟨c :: l, hl, List.mem_cons_self⟩
  · intro t
    simp [h.ready.orphan t]
  · intro j hj
    cases hi.symm.trans hj
    exact ⟨h.ready.orphan i, hiu⟩
  · intro t
    rcases h.run t with hr | ⟨p, hr⟩ <;> simp [hr, Cont.after]
  · exact fun t ht => absurd ht (hstate t).1
  · exact fun t _ ht => absurd ht (hstate t).1
  · refine ⟨fun t u _ _ => h.inj t u, fun t _ => h.lt t, by simp [h.log],
      ⟨i, hi, h.init i hi⟩, ?_, ?_, ?_, by simp [h.log], ?_, ?_⟩
    · intro t _
      simp [h.log, h.ready.orphan t, keeper]
    · intro t p _ hp
      simp [h.ready.orphan t] at hp
    · intro x w hx
      simp [h.log, keeper] at hx
    · exact fun t ht => absurd ht (hstate t).2
    · intro t w _ hw
      simp [h.log, keeper] at hw
  · intro d hd
    cases hi.symm.trans hd
    exact ⟨hiu, Or.inl (h.ready.orphan i)⟩
  · intro t p _ hp
    simp [h.ready.orphan t] at hp
  · intro t _ hx
    simp [h.log] at hx
  · intro l₁ d l₂ he
    simp [h.log] at he

end Sched

end Chunix
