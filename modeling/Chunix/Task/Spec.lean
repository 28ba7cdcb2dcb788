import Chunix.Task.Basic

/-!
# What the task operations do to the table

One lemma for each operation says everything it can do to the list, the states
and the channels of the slots. Later proofs use these lemmas and never unfold
an operation. The memory manager does not touch the table, so its actions are
opaque here.
-/

namespace Chunix

open Machine Linked

namespace Kernel

theorem onMm_eq_ok {α : Type} {x : Act Mm α} {a : α} {k k' : Kernel} :
    onMm x k = .ok (a, k') ↔ ∃ m, x k.mm = .ok (a, m) ∧ { k with mm := m } = k' :=
  Act.zoom_eq_ok

theorem updTask_eq_ok {t : Slot} {f : Task → Task} {u : Unit} {k k' : Kernel} :
    updTask t f k = .ok (u, k') ↔ k.setTask t f = k' := Act.modify_eq_ok

theorem getCurrent_eq_ok {k k' : Kernel} {c : Slot} :
    getCurrent k = .ok (c, k') ↔ k.current = some c ∧ k = k' := by
  unfold getCurrent
  simp only [Act.bind_eq_ok, Act.get_eq_ok]
  constructor
  · rintro ⟨_, _, ⟨rfl, rfl⟩, h⟩
    cases hc : k.current with
    | none => simp [hc] at h
    | some d => simpa [hc] using h
  · rintro ⟨hc, rfl⟩
    exact ⟨k, k, ⟨rfl, rfl⟩, by simp [hc]⟩

@[simp] theorem setTask_tasks_self (k : Kernel) (t : Slot) (f : Task → Task) :
    (k.setTask t f).tasks t = f (k.tasks t) := Function.update_self ..

theorem setTask_tasks_of_ne (k : Kernel) {t u : Slot} (f : Task → Task) (h : u ≠ t) :
    (k.setTask t f).tasks u = k.tasks u := Function.update_of_ne h _ _

/-- The two kernels agree but for the contents of the slot `t`, whose link is
the same. -/
structure SameBut (t : Slot) (k k' : Kernel) : Prop where
  rootp : k'.rootp = k.rootp
  current : k'.current = k.current
  inittask : k'.inittask = k.inittask
  tasks : ∀ u, u ≠ t → k'.tasks u = k.tasks u
  next : k'.next t = k.next t

theorem SameBut.trans {t : Slot} {k k' k'' : Kernel} (h : SameBut t k k')
    (h' : SameBut t k' k'') : SameBut t k k'' :=
  ⟨h'.rootp.trans h.rootp, h'.current.trans h.current, h'.inittask.trans h.inittask,
    fun u hu => (h'.tasks u hu).trans (h.tasks u hu), h'.next.trans h.next⟩

theorem SameBut.mm (t : Slot) (k : Kernel) (m : Mm) : SameBut t k { k with mm := m } :=
  ⟨rfl, rfl, rfl, fun _ _ => rfl, rfl⟩

theorem SameBut.setTask {t : Slot} {f : Task → Task} (k : Kernel)
    (hf : (f (k.tasks t)).next = (k.tasks t).next) : SameBut t k (k.setTask t f) :=
  ⟨rfl, rfl, rfl, fun _ hu => setTask_tasks_of_ne k f hu, by simp [Kernel.next, hf]⟩

theorem SameBut.next_eq {t : Slot} {k k' : Kernel} (h : SameBut t k k') : k'.next = k.next := by
  funext u
  by_cases hu : u = t
  · rw [hu, h.next]
  · simp only [Kernel.next, h.tasks u hu]

/-- The two kernels have the same list and the same states, and agree on every
slot in use. -/
structure SameTable (k k' : Kernel) : Prop where
  rootp : k'.rootp = k.rootp
  current : k'.current = k.current
  inittask : k'.inittask = k.inittask
  next : k'.next = k.next
  state : ∀ t, k'.state t = k.state t
  used : ∀ t, k.state t ≠ .unused → k'.tasks t = k.tasks t
  parent : ∀ t, (k'.tasks t).parent = (k.tasks t).parent ∨
    (k.state t = .unused ∧ (k'.tasks t).parent = k.current)

theorem SameTable.mm (k : Kernel) (m : Mm) : SameTable k { k with mm := m } :=
  ⟨rfl, rfl, rfl, rfl, fun _ => rfl, fun _ _ => rfl, fun _ => Or.inl rfl⟩

theorem SameTable.trans {k k' k'' : Kernel} (h : SameTable k k') (h' : SameTable k' k'') :
    SameTable k k'' := by
  refine ⟨h'.rootp.trans h.rootp, h'.current.trans h.current, h'.inittask.trans h.inittask,
    h'.next.trans h.next, fun t => (h'.state t).trans (h.state t), ?_, ?_⟩
  · intro t ht
    exact (h'.used t (by rw [h.state t]; exact ht)).trans (h.used t ht)
  · intro t
    rcases h'.parent t with hp | ⟨hu, hp⟩
    · rw [hp]
      exact h.parent t
    · rw [h.state t] at hu
      exact Or.inr ⟨hu, hp.trans h.current⟩

/-- A change of an unused slot that leaves it unused. -/
theorem SameBut.sameTable {t : Slot} {k k' : Kernel} (h : SameBut t k k')
    (ht : k.state t = .unused) (ht' : k'.state t = .unused)
    (hp : (k'.tasks t).parent = (k.tasks t).parent ∨ (k'.tasks t).parent = k.current) :
    SameTable k k' := by
  refine ⟨h.rootp, h.current, h.inittask, h.next_eq, ?_, ?_, ?_⟩
  · intro u
    by_cases hu : u = t
    · rw [hu, ht, ht']
    · simp only [Kernel.state, h.tasks u hu]
  · intro u hu
    refine h.tasks u ?_
    rintro rfl
    exact hu ht
  · intro u
    by_cases hu : u = t
    · subst hu
      exact hp.imp_right fun hp => ⟨ht, hp⟩
    · rw [h.tasks u hu]
      exact Or.inl rfl

/-- The slots only differ in that some tasks stopped on a channel of `cs` are
runnable now, and that some children were handed to `inittask`. -/
structure Woken (cs : List Chan) (k k' : Kernel) : Prop where
  rootp : k'.rootp = k.rootp
  current : k'.current = k.current
  inittask : k'.inittask = k.inittask
  next : k'.next = k.next
  chan : ∀ t, (k'.tasks t).chan = (k.tasks t).chan
  parent : ∀ t, (k'.tasks t).parent = (k.tasks t).parent ∨
    ((k.tasks t).parent ≠ none ∧ (k'.tasks t).parent = k.inittask)
  state : ∀ t, k'.state t = k.state t ∨
    (k.state t = .stopped ∧ (k.tasks t).chan ∈ cs ∧ k'.state t = .runnable)

theorem Woken.refl (k : Kernel) : Woken [] k k :=
  ⟨rfl, rfl, rfl, rfl, fun _ => rfl, fun _ => Or.inl rfl, fun _ => Or.inl rfl⟩

theorem Woken.trans {cs cs' : List Chan} {k k' k'' : Kernel} (h : Woken cs k k')
    (h' : Woken cs' k' k'') : Woken (cs ++ cs') k k'' := by
  refine ⟨h'.rootp.trans h.rootp, h'.current.trans h.current, h'.inittask.trans h.inittask,
    h'.next.trans h.next, fun t => (h'.chan t).trans (h.chan t), ?_, ?_⟩
  · intro t
    rcases h'.parent t with hp' | ⟨hn, hp'⟩
    · rw [hp']
      exact h.parent t
    · rcases h.parent t with hp | ⟨hn', -⟩
      · exact Or.inr ⟨hp ▸ hn, hp'.trans h.inittask⟩
      · exact Or.inr ⟨hn', hp'.trans h.inittask⟩
  · intro t
    rcases h.state t with hs | ⟨hs, hc, hr⟩
    · rcases h'.state t with hs' | ⟨hs', hc', hr'⟩
      · exact Or.inl (hs'.trans hs)
      · refine Or.inr ⟨hs ▸ hs', List.mem_append_right _ ?_, hr'⟩
        rw [← h.chan t]
        exact hc'
    · refine Or.inr ⟨hs, List.mem_append_left _ hc, ?_⟩
      rcases h'.state t with hs' | ⟨hs', -, -⟩
      · exact hs'.trans hr
      · rw [hr] at hs'; cases hs'

theorem Woken.mono {cs cs' : List Chan} {k k' : Kernel} (h : Woken cs k k')
    (hcs : cs ⊆ cs') : Woken cs' k k' :=
  ⟨h.rootp, h.current, h.inittask, h.next, h.chan, h.parent, fun t =>
    (h.state t).imp_right fun hs => ⟨hs.1, hcs hs.2.1, hs.2.2⟩⟩

end Kernel

namespace Task

open Kernel

theorem firstUnused_state {k : Kernel} {t : Slot} (h : firstUnused k = some t) :
    k.state t = .unused := by
  have := List.find?_some h
  simpa using this

theorem taskAlloc_cases {k k' : Kernel} {r : Option Slot} (h : taskAlloc k = .ok (r, k')) :
    (r = none ∧ SameTable k k') ∨
      (∃ t, r = some t ∧ firstUnused k = some t ∧ SameBut t k k' ∧ k'.state t = .stopped ∧
        (k'.tasks t).parent = (k.tasks t).parent) := by
  unfold taskAlloc at h
  simp only [Act.bind_eq_ok, Act.get_eq_ok] at h
  obtain ⟨_, _, ⟨rfl, rfl⟩, h⟩ := h
  cases hu : firstUnused k with
  | none =>
      simp only [hu, Act.pure_eq_ok] at h
      obtain ⟨hr, rfl⟩ := h
      exact Or.inl ⟨hr.symm, SameTable.mm k k.mm⟩
  | some t =>
      simp only [hu, Act.bind_eq_ok, onMm_eq_ok, updTask_eq_ok, Act.ite_eq_ok, Act.pure_eq_ok,
        Act.modify_eq_ok, Act.get_eq_ok] at h
      obtain ⟨kst, _, ⟨m, -, rfl⟩, _, _, rfl, h⟩ := h
      have h₁ : SameBut t k (({ k with mm := m } : Kernel).setTask t
          fun tp => { tp with kstack := kst }) :=
        (SameBut.mm t k m).trans (SameBut.setTask _ rfl)
      rcases h with ⟨-, hr, rfl⟩ | ⟨-, h⟩
      · have hst := firstUnused_state hu
        exact Or.inl ⟨hr.symm, h₁.sameTable hst (by simpa [Kernel.state] using hst)
          (Or.inl (by simp))⟩
      · obtain ⟨_, _, ⟨rfl, rfl⟩, _, _, rfl, _, _, rfl, _, _, ⟨_, -, rfl⟩, _, _, ⟨_, -, rfl⟩,
          _, _, ⟨_, -, rfl⟩, hr, rfl⟩ := h
        refine Or.inr ⟨t, hr.symm, rfl, h₁.trans ?_, ?_, ?_⟩
        · exact ⟨rfl, rfl, rfl, fun u hu => Function.update_of_ne hu _ _, by simp [Kernel.next]⟩
        · simp [Kernel.state]
        · simp

theorem forkFail_cases {k k' : Kernel} {r : Option Slot} {n : Int}
    (h : forkFail r k = .ok (n, k')) :
    n = -1 ∧ ((r = none ∧ SameTable k k') ∨
      ∃ t, r = some t ∧ SameBut t k k' ∧ k'.state t = .unused ∧
        (k'.tasks t).parent = (k.tasks t).parent) := by
  cases r with
  | none =>
      simp only [forkFail, Act.bind_eq_ok, onMm_eq_ok, Act.pure_eq_ok] at h
      obtain ⟨_, _, ⟨_, -, rfl⟩, _, _, ⟨_, -, rfl⟩, _, _, ⟨_, -, rfl⟩, _, _, ⟨m, -, rfl⟩,
        hn, rfl⟩ := h
      exact ⟨hn.symm, Or.inl ⟨rfl, SameTable.mm k m⟩⟩
  | some t =>
      simp only [forkFail, Act.bind_eq_ok, onMm_eq_ok, updTask_eq_ok, Act.gets_eq_ok,
        Act.pure_eq_ok] at h
      obtain ⟨_, _, ⟨rfl, rfl⟩, _, _, ⟨m, -, rfl⟩, _, _, rfl, hn, rfl⟩ := h
      refine ⟨hn.symm, Or.inr ⟨t, rfl, (SameBut.mm t k m).trans (SameBut.setTask _ rfl), ?_, ?_⟩⟩
      · simp [Kernel.state]
      · simp

/-- The table after the first unused slot was filled and pushed on the list. -/
structure Pushed (t : Slot) (k k' : Kernel) : Prop where
  slot : firstUnused k = some t
  rootp : k'.rootp = some t
  next : k'.next = Function.update k.next t k.rootp
  current : k'.current = k.current
  inittask : k'.inittask = k.inittask
  tasks : ∀ u, u ≠ t → k'.tasks u = k.tasks u
  state : k'.state t = .runnable

/-- The table after a fork that returned the pid `n`. -/
structure Forked (t : Slot) (n : Int) (k k' : Kernel) : Prop extends Pushed t k k' where
  parent : (k'.tasks t).parent = k.current
  pid : n = (k'.tasks t).pid

theorem fork_cases {k k' : Kernel} {n : Int} (h : fork k = .ok (n, k')) :
    (n = -1 ∧ SameTable k k') ∨ (0 ≤ n ∧ ∃ t, Forked t n k k') := by
  obtain ⟨r, k₁, hr, h⟩ := Act.bind_eq_ok.1 h
  rcases taskAlloc_cases hr with ⟨rfl, hs⟩ | ⟨t, rfl, hu, hs, hst, hp⟩
  · obtain ⟨hn, ⟨-, hs'⟩ | ⟨t, ht, -⟩⟩ := forkFail_cases h
    · exact Or.inl ⟨hn, hs.trans hs'⟩
    · cases ht
  · have hfail : ∀ k₂, SameBut t k k₂ → ((k₂.tasks t).parent = (k.tasks t).parent ∨
        (k₂.tasks t).parent = k.current) → forkFail (some t) k₂ = .ok (n, k') →
        n = -1 ∧ SameTable k k' := by
      intro k₂ h₂ hp₂ hf
      obtain ⟨hn, ⟨h0, -⟩ | ⟨t', ht', hs', hst', hp'⟩⟩ := forkFail_cases hf
      · cases h0
      · cases ht'
        exact ⟨hn, (h₂.trans hs').sameTable (firstUnused_state hu) hst' (by rw [hp']; exact hp₂)⟩
    simp only [Act.bind_eq_ok, onMm_eq_ok, updTask_eq_ok, Act.gets_eq_ok,
      getCurrent_eq_ok] at h
    obtain ⟨c, _, ⟨hc, rfl⟩, _, _, ⟨rfl, rfl⟩, pgdir, _, ⟨m, -, rfl⟩, _, _, rfl, h⟩ := h
    have h₂ := (hs.trans (SameBut.mm t k₁ m)).trans
      (SameBut.setTask (f := fun tp => { tp with pgdir := pgdir }) { k₁ with mm := m } rfl)
    rcases Act.ite_eq_ok.1 h with ⟨-, h⟩ | ⟨-, h⟩
    · exact Or.inl (hfail _ h₂ (Or.inl (by simpa using hp)) h)
    · simp only [Act.bind_eq_ok, onMm_eq_ok, updTask_eq_ok, Act.gets_eq_ok] at h
      obtain ⟨_, _, rfl, tf, _, ⟨-, rfl⟩, _, _, ⟨m₂, -, rfl⟩, ok, _, ⟨m₃, -, rfl⟩, h⟩ := h
      have h₃ := h₂.trans (SameBut.setTask
        (f := fun tp => { tp with sz := (k₁.tasks c).sz, parent := some c }) _ rfl)
      rcases Act.ite_eq_ok.1 h with ⟨-, h⟩ | ⟨-, h⟩
      · refine Or.inl (hfail _ (h₃.trans (SameBut.mm t _ m₃)) (Or.inr ?_) h)
        rw [← hs.current, hc]
        simp
      · simp only [Act.bind_eq_ok, onMm_eq_ok, updTask_eq_ok, Act.gets_eq_ok,
          Act.modify_eq_ok, Act.pure_eq_ok] at h
        obtain ⟨_, _, ⟨m₄, -, rfl⟩, pid, _, ⟨hpid, rfl⟩, rootp, _, ⟨hroot, rfl⟩, _, _, rfl,
          _, _, rfl, hn, rfl⟩ := h
        refine Or.inr ⟨by rw [← hn]; exact Int.natCast_nonneg pid, t,
          ⟨hu, rfl, ?_, h₃.current, h₃.inittask, ?_, ?_⟩, ?_, ?_⟩
        · funext u
          by_cases hut : u = t
          · subst hut
            rw [Function.update_self, ← hs.rootp, ← show k₁.rootp = rootp from hroot]
            simp [Kernel.next]
          · rw [Function.update_of_ne hut]
            have := h₃.tasks u hut
            simp only [Kernel.next, setTask_tasks_of_ne _ _ hut] at this ⊢
            rw [this]
        · intro u hut
          rw [setTask_tasks_of_ne _ _ hut]
          exact h₃.tasks u hut
        · simp [Kernel.state]
        · simp only [setTask_tasks_self]
          rw [← hs.current, hc]
        · rw [← hn, ← hpid]
          simp

theorem taskList_eq_ok {k k' : Kernel} {l : List Slot} :
    taskList k = .ok (l, k') ↔ follow k.next 64 k.rootp = some l ∧ k = k' := by
  simp only [taskList, Act.bind_eq_ok, Act.get_eq_ok]
  constructor
  · rintro ⟨_, _, ⟨rfl, rfl⟩, h⟩
    cases hf : follow k.next 64 k.rootp with
    | none => simp [hf] at h
    | some l' => simpa [hf] using h
  · rintro ⟨hf, rfl⟩
    exact ⟨k, k, ⟨rfl, rfl⟩, by simp [hf]⟩

/-- `wakeup` wakes some of the tasks stopped on `chan`. -/
theorem wakeup_woken {c : Chan} {k k' : Kernel} {u : Unit} (h : wakeup c k = .ok (u, k')) :
    Woken [c] k k' := by
  simp only [wakeup, Act.bind_eq_ok, Act.modify_eq_ok, taskList_eq_ok] at h
  obtain ⟨l, _, ⟨-, rfl⟩, rfl⟩ := h
  refine ⟨rfl, rfl, rfl, ?_, ?_, ?_, ?_⟩
  · funext t
    simp only [Kernel.next, wake]
    split_ifs <;> rfl
  · intro t
    simp only [wake]
    split_ifs <;> rfl
  · intro t
    refine Or.inl ?_
    simp only [wake]
    split_ifs <;> rfl
  · intro t
    simp only [Kernel.state, wake]
    split_ifs with hl hs
    · exact Or.inr ⟨hs.1, by simp [hs.2], rfl⟩
    · exact Or.inl rfl
    · exact Or.inl rfl

/-- `sleep_on` stops the current task on `chan`. -/
theorem sleepOn_eq_ok {c : Chan} {k k' : Kernel} {u : Unit} (h : sleepOn c k = .ok (u, k')) :
    ∃ t, k.current = some t ∧
      k' = k.setTask t fun tp => { tp with chan := c, state := .stopped } := by
  simp only [sleepOn, Act.bind_eq_ok, Act.get_eq_ok] at h
  obtain ⟨_, _, ⟨rfl, rfl⟩, h⟩ := h
  cases hc : k.current with
  | none => simp [hc] at h
  | some t =>
      simp only [hc, updTask_eq_ok] at h
      exact ⟨t, rfl, h.symm⟩

/-- The table after `wait` has freed the zombie child `t` of `c`. -/
structure Reaped (c t : Slot) (n : Nat) (k k' : Kernel) : Prop where
  parent : (k.tasks t).parent = some c
  zombie : k.state t = .zombie
  pid : n = (k.tasks t).pid
  same : SameBut t k k'
  state : k'.state t = .unused
  orphan : (k'.tasks t).parent = none

/-- A pass of `wait` frees one zombie child or changes nothing. -/
theorem waitLoop_cases {c : Slot} {n : Nat} {p : Option Slot} {child : Bool} {k k' : Kernel}
    {r : Reap} (h : waitLoop c n p child k = .ok (r, k')) :
    (∃ b, r = .none b ∧ k' = k) ∨ ∃ t m, r = .pid m ∧ Reaped c t m k k' := by
  induction n generalizing p child with
  | zero =>
      cases p with
      | none =>
          simp only [waitLoop, Act.pure_eq_ok] at h
          exact Or.inl ⟨child, h.1.symm, h.2.symm⟩
      | some t => simp [waitLoop] at h
  | succ n ih =>
      cases p with
      | none =>
          simp only [waitLoop, Act.pure_eq_ok] at h
          exact Or.inl ⟨child, h.1.symm, h.2.symm⟩
      | some t =>
          simp only [waitLoop] at h
          obtain ⟨_, _, ht, h⟩ := Act.bind_eq_ok.1 h
          obtain ⟨rfl, rfl⟩ := Act.gets_eq_ok.1 ht
          rcases Act.ite_eq_ok.1 h with ⟨-, h⟩ | ⟨hp, h⟩
          · exact ih h
          · rcases Act.ite_eq_ok.1 h with ⟨hz, h⟩ | ⟨-, h⟩
            · simp only [Act.bind_eq_ok, onMm_eq_ok, updTask_eq_ok, Act.pure_eq_ok] at h
              obtain ⟨_, _, rfl, _, _, ⟨m, -, rfl⟩, _, _, rfl, hr, rfl⟩ := h
              refine Or.inr ⟨t, _, hr.symm,
                ⟨not_not.1 hp, hz, rfl, ?_, by simp [Kernel.state], by simp⟩⟩
              exact ((SameBut.setTask k rfl).trans (SameBut.mm t _ m)).trans
                (SameBut.setTask _ rfl)
            · exact ih h

theorem waitPass_cases {child : Bool} {k k' : Kernel} {r : Reap}
    (h : waitPass child k = .ok (r, k')) :
    (∃ b, r = .none b ∧ k' = k) ∨
      ∃ c t m, k.current = some c ∧ r = .pid m ∧ Reaped c t m k k' := by
  simp only [waitPass, Act.bind_eq_ok, getCurrent_eq_ok, Act.gets_eq_ok] at h
  obtain ⟨c, _, ⟨hc, rfl⟩, _, _, ⟨rfl, rfl⟩, h⟩ := h
  rcases waitLoop_cases h with hnone | ⟨t, m, hr, hd⟩
  · exact Or.inl hnone
  · exact Or.inr ⟨c, t, m, hc, hr, hd⟩

theorem setParent_woken {k : Kernel} {t : Slot} (hp : (k.tasks t).parent ≠ none) :
    Woken [] k (k.setTask t fun tp => { tp with parent := k.inittask }) := by
  have hs := SameBut.setTask (t := t) (f := fun tp => { tp with parent := k.inittask }) k rfl
  refine ⟨rfl, rfl, rfl, hs.next_eq, ?_, ?_, ?_⟩
  · intro u
    by_cases hu : u = t
    · subst hu; simp
    · rw [hs.tasks u hu]
  · intro u
    by_cases hu : u = t
    · subst hu; exact Or.inr ⟨hp, by simp⟩
    · rw [hs.tasks u hu]; exact Or.inl rfl
  · intro u
    by_cases hu : u = t
    · subst hu; simp [Kernel.state]
    · exact Or.inl (by simp only [Kernel.state, hs.tasks u hu])

theorem exitLoop_woken {c : Slot} {l : List Slot} {k k' : Kernel} {b : Bool}
    (h : exitLoop c l k = .ok (b, k')) :
    Woken (if b then [.ofPtr k.inittask] else []) k k' := by
  induction l generalizing k b with
  | nil =>
      simp only [exitLoop, Act.pure_eq_ok] at h
      obtain ⟨rfl, rfl⟩ := h
      exact Woken.refl k
  | cons t l ih =>
      simp only [exitLoop] at h
      obtain ⟨_, _, h₁, h⟩ := Act.bind_eq_ok.1 h
      obtain ⟨rfl, rfl⟩ := Act.gets_eq_ok.1 h₁
      obtain ⟨_, _, h₂, h⟩ := Act.bind_eq_ok.1 h
      obtain ⟨rfl, rfl⟩ := Act.gets_eq_ok.1 h₂
      obtain ⟨k₁, hp, h⟩ : ∃ k₁, Woken [] k k₁ ∧ (if (k.tasks t).state = .zombie then do
            wakeup (.ofPtr k.inittask)
            let _ ← exitLoop c l
            return true
          else exitLoop c l) k₁ = .ok (b, k') := by
        rcases Act.ite_eq_ok.1 h with ⟨hp, h⟩ | ⟨-, h⟩
        · obtain ⟨_, k₁, h₃, h⟩ := Act.bind_eq_ok.1 h
          exact ⟨k₁, updTask_eq_ok.1 h₃ ▸ setParent_woken (by simp [hp]), h⟩
        · exact ⟨k, Woken.refl k, h⟩
      rcases Act.ite_eq_ok.1 h with ⟨-, h⟩ | ⟨-, h⟩
      · simp only [Act.bind_eq_ok, Act.pure_eq_ok] at h
        obtain ⟨_, k₂, hw, b', k₃, hl, rfl, rfl⟩ := h
        have hw' := wakeup_woken hw
        have hl' := ih hl
        rw [hw'.inittask, hp.inittask] at hl'
        refine ((hp.trans hw').trans hl').mono ?_
        cases b' <;> simp
      · have hl' := ih h
        rw [hp.inittask] at hl'
        exact (hp.trans hl').mono (by simp)

/-- The table after the task `c` has left through `exit`, waking tasks stopped
on the channels of `cs`. -/
structure Exited (c : Slot) (cs : List Chan) (k k' : Kernel) : Prop where
  rootp : k'.rootp = k.rootp
  current : k'.current = k.current
  inittask : k'.inittask = k.inittask
  next : k'.next = k.next
  zombie : k'.state c = .zombie
  chan : ∀ t, (k'.tasks t).chan = (k.tasks t).chan
  parent : ∀ t, (k'.tasks t).parent = (k.tasks t).parent ∨
    ((k.tasks t).parent ≠ none ∧ (k'.tasks t).parent = k.inittask)
  state : ∀ t, t ≠ c → k'.state t = k.state t ∨
    (k.state t = .stopped ∧ (k.tasks t).chan ∈ cs ∧ k'.state t = .runnable)

theorem exit_cases {stale : Option Slot} {k k' : Kernel} {cs : List Chan}
    (h : exit stale k = .ok (cs, k')) : ∃ c, k.current = some c ∧ Exited c cs k k' := by
  simp only [exit] at h
  obtain ⟨_, _, h₁, h⟩ := Act.bind_eq_ok.1 h
  obtain ⟨rfl, rfl⟩ := Act.gets_eq_ok.1 h₁
  rcases Act.ite_eq_ok.1 h with ⟨-, h⟩ | ⟨-, h⟩
  · simp [Act.bind_eq_ok] at h
  · simp only [Act.bind_eq_ok, getCurrent_eq_ok, taskList_eq_ok, updTask_eq_ok, Act.gets_eq_ok,
      Act.pure_eq_ok] at h
    obtain ⟨c, _, ⟨hc, rfl⟩, l, _, ⟨-, rfl⟩, b, k₁, hl, _, _, rfl, p, _, ⟨-, rfl⟩, _, k₂, hw,
      hcs, rfl⟩ := h
    have h₁ : Woken cs k k₁ := (exitLoop_woken hl).mono (by rw [← hcs]; cases b <;> simp)
    have h₂ : Woken cs _ k₂ := (wakeup_woken hw).mono (by rw [← hcs]; cases b <;> simp)
    have hz := SameBut.setTask (t := c) (f := fun tp => { tp with state := .zombie }) k₁ rfl
    refine ⟨c, hc, h₂.rootp.trans h₁.rootp, h₂.current.trans h₁.current,
      h₂.inittask.trans h₁.inittask, (h₂.next.trans hz.next_eq).trans h₁.next, ?_, ?_, ?_, ?_⟩
    · rcases h₂.state c with hs | ⟨hs, -, -⟩
      · rw [hs]; simp [Kernel.state]
      · simp [Kernel.state] at hs
    · intro t
      rw [h₂.chan t, ← h₁.chan t]
      by_cases ht : t = c
      · subst ht; simp
      · rw [hz.tasks t ht]
    · intro t
      have hzp : ((k₁.setTask c fun tp => { tp with state := .zombie }).tasks t).parent =
          (k₁.tasks t).parent := by
        by_cases ht : t = c
        · subst ht; simp
        · rw [hz.tasks t ht]
      rcases h₂.parent t with hp | ⟨hn, hp⟩
      · rw [hp, hzp]
        exact h₁.parent t
      · rw [hzp] at hn
        refine Or.inr ⟨?_, hp.trans h₁.inittask⟩
        rcases h₁.parent t with hp₁ | ⟨hn₁, -⟩
        · exact hp₁ ▸ hn
        · exact hn₁
    · intro t ht
      have hst : (k₁.setTask c fun tp => { tp with state := .zombie }).state t = k₁.state t := by
        simp only [Kernel.state, hz.tasks t ht]
      have hch := congrArg Task.chan (hz.tasks t ht)
      rcases h₂.state t with hs | ⟨hs, hm, hr⟩
      · rw [hs, hst]
        exact h₁.state t
      · rw [hst] at hs
        rw [hch, h₁.chan t] at hm
        rcases h₁.state t with hs₁ | ⟨hs₁, -, hr₁⟩
        · exact Or.inr ⟨hs₁ ▸ hs, hm, hr⟩
        · rw [hs] at hr₁; cases hr₁

/-- The table after `task_run` has passed control from the task `c` to the task
`u`. -/
structure Switched (c u : Slot) (k k' : Kernel) : Prop where
  rootp : k'.rootp = k.rootp
  current : k'.current = some u
  inittask : k'.inittask = k.inittask
  next : k'.next = k.next
  chan : ∀ t, (k'.tasks t).chan = (k.tasks t).chan
  parent : ∀ t, (k'.tasks t).parent = (k.tasks t).parent
  running : k'.state u = .running
  outgoing : k'.state c = if k.state c = .running then .runnable else k.state c
  state : ∀ t, t ≠ c → t ≠ u → k'.state t = k.state t

theorem taskRun_cases {c u : Slot} {k k' : Kernel} {x : Unit} (hc : k.current = some c)
    (h : taskRun u k = .ok (x, k')) : (u = c ∧ k' = k) ∨ (u ≠ c ∧ Switched c u k k') := by
  simp only [taskRun] at h
  obtain ⟨_, _, h₁, h⟩ := Act.bind_eq_ok.1 h
  obtain ⟨rfl, rfl⟩ := Act.get_eq_ok.1 h₁
  rcases Act.ite_eq_ok.1 h with ⟨hne, h⟩ | ⟨he, h⟩
  · have huc : u ≠ c := by
      rintro rfl
      exact hne hc
    refine Or.inr ⟨huc, ?_⟩
    simp only [hc] at h
    have key : ∀ k₁ : Kernel, SameBut c k k₁ → (k₁.tasks c).chan = (k.tasks c).chan →
        (k₁.tasks c).parent = (k.tasks c).parent → (k₁.state c = if k.state c = .running then .runnable else k.state c) →
        (do
          Act.modify fun k => { k with current := some u }
          updTask u fun t => { t with state := .running, priority := t.priority - 1 }
          let tp ← Act.gets fun k => k.tasks u
          Act.modify fun k => { k with esp0 := u32 (tp.kstack + kstacksize) }
          onMm (Mm.lcr3 (Mm.p2v tp.pgdir)) : Act Kernel Unit) k₁ = .ok (x, k') →
        Switched c u k k' := by
      intro k₁ hs hch hpa hst hk
      simp only [Act.bind_eq_ok, updTask_eq_ok, Act.modify_eq_ok, Act.gets_eq_ok,
        onMm_eq_ok] at hk
      obtain ⟨_, _, rfl, _, _, rfl, _, _, ⟨-, rfl⟩, _, _, rfl, m, -, rfl⟩ := hk
      refine ⟨hs.rootp, rfl, hs.inittask, ?_, ?_, ?_, by simp [Kernel.state], ?_, ?_⟩
      · rw [← hs.next_eq]
        funext t
        by_cases ht : t = u
        · subst ht; simp [Kernel.next]
        · simp only [Kernel.next, setTask_tasks_of_ne _ _ ht]
      · intro t
        have hcht : (k₁.tasks t).chan = (k.tasks t).chan := by
          by_cases htc : t = c
          · rw [htc, hch]
          · rw [hs.tasks t htc]
        by_cases ht : t = u
        · subst ht; simpa using hcht
        · simpa only [setTask_tasks_of_ne _ _ ht] using hcht
      · intro t
        have hpat : (k₁.tasks t).parent = (k.tasks t).parent := by
          by_cases htc : t = c
          · rw [htc, hpa]
          · rw [hs.tasks t htc]
        by_cases ht : t = u
        · subst ht; simpa using hpat
        · simpa only [setTask_tasks_of_ne _ _ ht] using hpat
      · rw [← hst]
        simp only [Kernel.state, setTask_tasks_of_ne _ _ (Ne.symm huc)]
      · intro t htc htu
        simp only [Kernel.state, setTask_tasks_of_ne _ _ htu, hs.tasks t htc]
    by_cases hr : k.state c = .running
    · simp only [hr, if_true] at h
      obtain ⟨_, k₁, h₁, h⟩ := Act.bind_eq_ok.1 h
      rw [updTask_eq_ok] at h₁
      subst h₁
      exact key _ (SameBut.setTask k rfl) (by simp) (by simp) (by rw [if_pos hr]; simp [Kernel.state]) h
    · simp only [hr, if_false] at h
      exact key k ⟨rfl, rfl, rfl, fun _ _ => rfl, rfl⟩ rfl rfl (by simp [hr]) h
  · have huc : u = c := by
      have := not_not.1 he
      rw [hc] at this
      exact (Option.some.inj this).symm
    exact Or.inl ⟨huc, (Act.pure_eq_ok.1 h).2.symm⟩

end Task

end Chunix
