import Chunix.Task.Family

/-!
# Lives and families

A slot holds one task after another; the life of a task lasts from its creation
to the `wait` that returns it. Lives are numbered in the order of their creation,
and a log of what the tasks have done, newest first, is kept beside the system.
The contract is about this log: who is to wait for a task, its `keeper`, is the
task that forked it, and `inittask` from the exit of that task on.

The runs are those of tasks that call `fork`, `exit` and `wait`, with every
interleaving by the timer and by `yield`. A task whose `exit` finds nobody to run
goes on executing, so that a parent may be dead and still fork. Such a parent is
doomed: nobody is left to wait for it, its slot is never taken again, and the links
to it stay true.
-/

namespace Chunix

namespace Sched

open Machine Linked Chunix.Task Kernel

/-- What a task does that matters to its family. Tasks are named by their lives. -/
inductive Deed
  | fork (parent child : Nat) (pid : Int)
  | exit (life : Nat)
  | reap (parent child : Nat) (pid : Int)
  | noChild (life : Nat)
deriving DecidableEq

/-- The life a deed begins or ends, or that of its doer. -/
def Deed.life : Deed → Nat
  | .fork _ x _ => x
  | .exit x => x
  | .reap _ x _ => x
  | .noChild x => x

/-- Who is to wait for the task `x` after the deeds of the log: the task that
forked it, and `init` once that task has exited. -/
def keeper (init : Nat) : List Deed → Nat → Option Nat
  | [], _ => none
  | .fork w y _ :: l, x => if y = x then some w else keeper init l x
  | .exit w :: l, x => if keeper init l x = some w then some init else keeper init l x
  | .reap _ _ _ :: l, x => keeper init l x
  | .noChild _ :: l, x => keeper init l x

/-- What the contract asks of a deed, given those before it. A task that `wait`
returns has exited, is returned for the first time and by its keeper, with the pid
that `fork` gave for it; `wait` fails only when every task kept by the caller has
been returned. -/
def Allowed (init : Nat) (l : List Deed) : Deed → Prop
  | .reap w x n => .exit x ∈ l ∧ (∀ w' n', .reap w' x n' ∉ l) ∧ keeper init l x = some w ∧
      ∃ f, .fork f x n ∈ l ∧ (w = f ∨ (w = init ∧ .exit f ∈ l))
  | .noChild w => ∀ x, keeper init l x = some w → ∃ w' n, .reap w' x n ∈ l
  | .fork _ _ _ | .exit _ => True

/-- The system with the lives in its slots, the number of lives so far and the
log. -/
structure Lived where
  sys : Sys
  life : Slot → Nat
  born : Nat
  log : List Deed

/-- The kernel as the scheduler starts: no task has a parent, and every task is
runnable and on the list. -/
structure Ready (k : Kernel) : Prop where
  list : ListOk k
  listed : ∀ t, OnList k t → k.state t ≠ .unused
  current : k.current = k.rootp
  state : ∀ t, k.state t = .unused ∨ k.state t = .runnable
  orphan : ∀ t, (k.tasks t).parent = none
  init : ∃ i, k.inittask = some i ∧ k.state i ≠ .unused

theorem created_state {k : Kernel} (h : Created k) (t : Slot) :
    k.state t = .unused ∨ k.state t = .runnable := by
  induction h with
  | start ht _ => exact Or.inl (by simp [Kernel.state, ht, Task.zero])
  | @create k k' img binary u _ hc ih =>
      have hk := taskCreate_some hc
      by_cases htu : t = u
      · exact Or.inr (htu ▸ hk.state)
      · rw [Kernel.state, hk.tasks t htu]
        exact ih

theorem Booted.ready {k : Kernel} (h : Booted k) : Ready k := by
  obtain ⟨k₀, i, hc, hi, rfl⟩ := h
  obtain ⟨hl, hon, hpar⟩ := hc.listOk
  exact ⟨hl, hon, rfl, fun t => created_state hc t, hpar, i, rfl, hi⟩

/-- The start of a run: every task has a life of its own, that of `inittask` is
`init`, and nothing is in the log. -/
structure Begins (s : Lived) (init : Nat) : Prop where
  ready : Ready s.sys.k
  run : ∀ t, s.sys.cont t = .run ∨ ∃ p, s.sys.cont t = .loop1 p .user
  log : s.log = []
  lt : ∀ t, s.life t < s.born
  inj : ∀ t u, s.life t = s.life u → t = u
  init : ∀ i, s.sys.k.inittask = some i → s.life i = init

/-- The two kernels have the same families. -/
structure Kin (k k' : Kernel) : Prop where
  used : ∀ t, k'.state t = .unused ↔ k.state t = .unused
  parent : ∀ t, k.state t ≠ .unused → (k'.tasks t).parent = (k.tasks t).parent
  pid : ∀ t, k.state t ≠ .unused → (k'.tasks t).pid = (k.tasks t).pid
  inittask : k'.inittask = k.inittask
  zombie : ∀ t, k'.state t = .zombie → k.state t = .zombie

theorem Kin.of_sameTable {k k' : Kernel} (h : SameTable k k') : Kin k k' where
  used t := by rw [h.state t]
  parent t ht := by rw [h.used t ht]
  pid t ht := by rw [h.used t ht]
  inittask := h.inittask
  zombie t ht := by rwa [h.state t] at ht

theorem Kin.setTask {k : Kernel} {t : Slot} {f : Task → Task}
    (hst : (f (k.tasks t)).state ≠ .unused) (ht : k.state t ≠ .unused)
    (hz : (f (k.tasks t)).state = .zombie → k.state t = .zombie)
    (hp : (f (k.tasks t)).parent = (k.tasks t).parent)
    (hpid : (f (k.tasks t)).pid = (k.tasks t).pid) : Kin k (k.setTask t f) := by
  constructor
  · intro u
    by_cases hu : u = t
    · subst hu
      exact iff_of_false (by simpa [Kernel.state] using hst) ht
    · simp only [Kernel.state, setTask_tasks_of_ne _ _ hu]
  · intro u _
    by_cases hu : u = t
    · subst hu; simpa using hp
    · rw [setTask_tasks_of_ne _ _ hu]
  · intro u _
    by_cases hu : u = t
    · subst hu; simpa using hpid
    · rw [setTask_tasks_of_ne _ _ hu]
  · rfl
  · intro u
    by_cases hu : u = t
    · subst hu
      intro h
      exact hz (by simpa [Kernel.state] using h)
    · simp only [Kernel.state, setTask_tasks_of_ne _ _ hu]
      exact id

/-- The lives in the slots and the links between them, as the log tells them. -/
structure Kinship (s : Lived) (init : Nat) : Prop where
  inj : ∀ t u, s.sys.k.state t ≠ .unused → s.sys.k.state u ≠ .unused →
    s.life t = s.life u → t = u
  lt : ∀ t, s.sys.k.state t ≠ .unused → s.life t < s.born
  fresh : ∀ d ∈ s.log, d.life < s.born
  inittask : ∃ i, s.sys.k.inittask = some i ∧ s.life i = init
  keeper : ∀ t, s.sys.k.state t ≠ .unused →
    keeper init s.log (s.life t) = (s.sys.k.tasks t).parent.map s.life
  linked : ∀ t p, s.sys.k.state t ≠ .unused → (s.sys.k.tasks t).parent = some p →
    s.sys.k.state p ≠ .unused
  gone : ∀ x w, Sched.keeper init s.log x = some w →
    (∃ t, s.sys.k.state t ≠ .unused ∧ s.life t = x) ∨ ∃ w' n, .reap w' x n ∈ s.log
  unreaped : ∀ t w n, s.sys.k.state t ≠ .unused → .reap w (s.life t) n ∉ s.log
  zombie : ∀ t, s.sys.k.state t = .zombie → .exit (s.life t) ∈ s.log
  forked : ∀ t w, s.sys.k.state t ≠ .unused → Sched.keeper init s.log (s.life t) = some w →
    ∃ f, .fork f (s.life t) (s.sys.k.tasks t).pid ∈ s.log ∧
      (w = f ∨ (w = init ∧ .exit f ∈ s.log))

/-- The tasks of `D` are doomed: they have no parent, or one that is a zombie
itself, does not execute and is doomed. A task that has exited is doomed or never
executes again, and every dead parent is doomed. -/
structure Doomed (D : Slot → Prop) (s : Lived) : Prop where
  closed : ∀ d, D d → s.sys.k.state d ≠ .unused ∧ ((s.sys.k.tasks d).parent = none ∨
    ∃ q, (s.sys.k.tasks d).parent = some q ∧ D q ∧ s.sys.k.state q = .zombie ∧
      s.sys.k.current ≠ some q)
  init : ∀ i, s.sys.k.inittask = some i → D i
  linked : ∀ t p, s.sys.k.state t ≠ .unused → (s.sys.k.tasks t).parent = some p →
    .exit (s.life p) ∈ s.log → D p
  exited : ∀ t, s.sys.k.state t ≠ .unused → .exit (s.life t) ∈ s.log → D t ∨
    (s.sys.k.state t = .zombie ∧
      (s.sys.k.current = some t → Finds s.sys.k t (s.sys.cont t)))

section Steps

variable {s : Lived} {s' : Sys} {init : Nat} {D : Slot → Prop}

/-- A fork: the child begins a life whose keeper is the caller. -/
theorem Kinship.fork (h : Kinship s init) (hfam : FamilyOk s.sys.k) {t u : Slot} {n : Int}
    (hc : s.sys.k.current = some t) (hf : Forked u n s.sys.k s'.k) :
    Kinship ⟨s', Function.update s.life u s.born, s.born + 1,
      .fork (s.life t) s.born n :: s.log⟩ init := by
  have ht := hfam.current t hc
  have hu := firstUnused_state hf.slot
  have htu : t ≠ u := fun he => ht (he ▸ hu)
  have hne : ∀ {v}, s.sys.k.state v ≠ .unused → v ≠ u := fun hv he => hv (he ▸ hu)
  have hlife : ∀ {v}, v ≠ u → Function.update s.life u s.born v = s.life v :=
    fun hv => Function.update_of_ne hv _ _
  -- Apart from the child, nothing is new.
  have hold : ∀ {v}, v ≠ u → s'.k.state v ≠ .unused →
      s.sys.k.state v ≠ .unused ∧ s'.k.tasks v = s.sys.k.tasks v := by
    intro v hv hst
    have htask := hf.tasks v hv
    rw [Kernel.state, htask] at hst
    exact ⟨hst, htask⟩
  have hused : ∀ {v}, s.sys.k.state v ≠ .unused → s'.k.state v ≠ .unused := by
    intro v hv
    rw [Kernel.state, hf.tasks v (hne hv)]
    exact hv
  have hborn : ∀ {v}, s.sys.k.state v ≠ .unused → s.born ≠ s.life v :=
    fun hv => (Nat.ne_of_lt (h.lt _ hv)).symm
  refine ⟨?_, ?_, ?_, ?_, ?_, ?_, ?_, ?_, ?_, ?_⟩
  · intro v w hv hw he
    by_cases hvu : v = u
    · by_cases hwu : w = u
      · rw [hvu, hwu]
      · simp only [hvu, Function.update_self, hlife hwu] at he
        exact absurd he (hborn (hold hwu hw).1)
    · by_cases hwu : w = u
      · simp only [hwu, Function.update_self, hlife hvu] at he
        exact absurd he.symm (hborn (hold hvu hv).1)
      · simp only [hlife hvu, hlife hwu] at he
        exact h.inj v w (hold hvu hv).1 (hold hwu hw).1 he
  · intro v hv
    by_cases hvu : v = u
    · simp only [hvu, Function.update_self]
      omega
    · simp only [hlife hvu]
      exact Nat.lt_succ_of_lt (h.lt v (hold hvu hv).1)
  · intro d hd
    rcases List.mem_cons.1 hd with rfl | hd
    · exact Nat.lt_succ_self _
    · exact Nat.lt_succ_of_lt (h.fresh d hd)
  · obtain ⟨i, hi, hl⟩ := h.inittask
    exact ⟨i, hf.inittask.trans hi, by simp only [hlife (hne (hfam.init i hi).2), hl]⟩
  · intro v hv
    by_cases hvu : v = u
    · subst hvu
      simp only [Function.update_self, Sched.keeper, if_true, hf.parent, hc, Option.map_some,
        hlife htu]
    · obtain ⟨hst, htask⟩ := hold hvu hv
      simp only [hlife hvu, Sched.keeper, if_neg (hborn hst), htask]
      rw [h.keeper v hst]
      cases hp : (s.sys.k.tasks v).parent with
      | none => rfl
      | some p => simp only [Option.map_some, hlife (hne (h.linked v p hst hp))]
  · intro v p hv hp
    by_cases hvu : v = u
    · subst hvu
      rw [hf.parent, hc] at hp
      cases hp
      exact hused ht
    · obtain ⟨hst, htask⟩ := hold hvu hv
      rw [htask] at hp
      exact hused (h.linked v p hst hp)
  · intro x w hx
    simp only [Sched.keeper] at hx
    split_ifs at hx with hxb
    · refine Or.inl ⟨u, ?_, by simp only [Function.update_self, hxb]⟩
      rw [hf.state]
      simp
    · rcases h.gone x w hx with ⟨v, hv, rfl⟩ | ⟨w', n', hr⟩
      · exact Or.inl ⟨v, hused hv, hlife (hne hv)⟩
      · exact Or.inr ⟨w', n', List.mem_cons_of_mem _ hr⟩
  · intro v w n' hv hr
    have hr' := List.mem_of_ne_of_mem (by simp) hr
    by_cases hvu : v = u
    · simp only [hvu, Function.update_self] at hr'
      exact absurd (h.fresh _ hr') (by simp [Deed.life])
    · simp only [hlife hvu] at hr'
      exact h.unreaped v w n' (hold hvu hv).1 hr'
  · intro v hv
    by_cases hvu : v = u
    · rw [hvu, hf.state] at hv
      cases hv
    · have hst : s.sys.k.state v = .zombie := by
        rwa [Kernel.state, hf.tasks v hvu] at hv
      simp only [hlife hvu]
      exact List.mem_cons_of_mem _ (h.zombie v hst)
  · intro v w hv hw
    by_cases hvu : v = u
    · subst hvu
      simp only [Function.update_self, Sched.keeper, if_true, Option.some.injEq] at hw
      refine ⟨s.life t, ?_, Or.inl hw.symm⟩
      simp only [Function.update_self, ← hf.pid, List.mem_cons_self]
    · obtain ⟨hst, htask⟩ := hold hvu hv
      simp only [hlife hvu, Sched.keeper, if_neg (hborn hst)] at hw
      obtain ⟨f, hfork, hw'⟩ := h.forked v w hst hw
      refine ⟨f, ?_, hw'.imp_right fun hx => ⟨hx.1, List.mem_cons_of_mem _ hx.2⟩⟩
      simp only [hlife hvu, htask]
      exact List.mem_cons_of_mem _ hfork

/-- A fork by a dead task: it executes, so it is doomed. -/
theorem Doomed.fork (h : Doomed D s) (hk : Kinship s init) (hfam : FamilyOk s.sys.k)
    {t u : Slot} {n : Int} (hc : s.sys.k.current = some t) (hx : (s.sys.cont t).executes)
    (hf : Forked u n s.sys.k s'.k) :
    Doomed D ⟨s', Function.update s.life u s.born, s.born + 1,
      .fork (s.life t) s.born n :: s.log⟩ := by
  have ht := hfam.current t hc
  have hu := firstUnused_state hf.slot
  have hne : ∀ {v}, s.sys.k.state v ≠ .unused → v ≠ u := fun hv he => hv (he ▸ hu)
  have hlife : ∀ {v}, v ≠ u → Function.update s.life u s.born v = s.life v :=
    fun hv => Function.update_of_ne hv _ _
  have hold : ∀ {v}, v ≠ u → s'.k.state v = s.sys.k.state v :=
    fun hv => congrArg Task.state (hf.tasks _ hv)
  have hlog : ∀ {x}, .exit x ∈ Deed.fork (s.life t) s.born n :: s.log → .exit x ∈ s.log :=
    fun hm => List.mem_of_ne_of_mem (by simp) hm
  refine ⟨?_, ?_, ?_, ?_⟩
  · intro d hd
    obtain ⟨hud, hp⟩ := h.closed d hd
    have hdu := hne hud
    simp only [hold hdu, hf.tasks d hdu, hf.current]
    refine ⟨hud, hp.imp_right ?_⟩
    rintro ⟨q, hq, hD, hzq, hcq⟩
    exact ⟨q, hq, hD, (hold (hne (by simp [hzq]))).trans hzq, hcq⟩
  · exact fun i hi => h.init i (hf.inittask ▸ hi)
  · intro v p hv hp hexit
    have hexit' := hlog hexit
    by_cases hvu : v = u
    · subst hvu
      rw [hf.parent, hc] at hp
      cases hp
      simp only [hlife (hne ht)] at hexit'
      refine (h.exited t ht hexit').resolve_right ?_
      rintro ⟨-, hfinds⟩
      exact not_finds_of_executes hx (hfinds hc)
    · simp only [hold hvu] at hv
      simp only [hf.tasks v hvu] at hp
      simp only [hlife (hne (hk.linked v p hv hp))] at hexit'
      exact h.linked v p hv hp hexit'
  · intro v hv hexit
    have hexit' := hlog hexit
    by_cases hvu : v = u
    · subst hvu
      simp only [Function.update_self] at hexit'
      exact absurd (hk.fresh _ hexit') (by simp [Deed.life])
    · simp only [hold hvu] at hv
      simp only [hlife hvu] at hexit'
      refine (h.exited v hv hexit').imp_right ?_
      rintro ⟨hz, hfinds⟩
      refine ⟨(hold hvu).trans hz, fun hcv => ?_⟩
      -- The caller executes, so its scan is not to find anything.
      rw [hf.current, hc] at hcv
      cases hcv
      exact absurd (hfinds hc) (not_finds_of_executes hx)

/-- The families after the exit of `t`. -/
structure Left (t : Slot) (k k' : Kernel) : Prop where
  used : ∀ v, k'.state v = .unused ↔ k.state v = .unused
  parent : ∀ v, k.state v ≠ .unused → (k'.tasks v).parent =
    if (k.tasks v).parent = some t then k.inittask else (k.tasks v).parent
  pid : ∀ v, (k'.tasks v).pid = (k.tasks v).pid
  inittask : k'.inittask = k.inittask
  current : k'.current = k.current
  zombie : ∀ v, k'.state v = .zombie ↔ v = t ∨ k.state v = .zombie

/-- An exit: the children of the caller are handed to `inittask`. -/
theorem Kinship.exit (h : Kinship s init) (hfam : FamilyOk s.sys.k) {t : Slot}
    (ht : s.sys.k.state t ≠ .unused) (hx : Left t s.sys.k s'.k) :
    Kinship { s with sys := s', log := .exit (s.life t) :: s.log } init := by
  obtain ⟨i, hi, hli⟩ := h.inittask
  have hst : ∀ v, s'.k.state v ≠ .unused → s.sys.k.state v ≠ .unused :=
    fun v hv he => hv ((hx.used v).2 he)
  have hst' : ∀ v, s.sys.k.state v ≠ .unused → s'.k.state v ≠ .unused :=
    fun v hv he => hv ((hx.used v).1 he)
  -- The log hands over the same tasks as the kernel.
  have hiff : ∀ v, s.sys.k.state v ≠ .unused →
      (Sched.keeper init s.log (s.life v) = some (s.life t) ↔
        (s.sys.k.tasks v).parent = some t) := by
    intro v hv
    rw [h.keeper v hv]
    constructor
    · intro he
      obtain ⟨p, hp, hpl⟩ := Option.map_eq_some_iff.1 he
      rw [hp, h.inj p t (h.linked v p hv hp) ht hpl]
    · intro he
      rw [he]
      rfl
  refine ⟨?_, ?_, ?_, ?_, ?_, ?_, ?_, ?_, ?_, ?_⟩
  · exact fun v w hv hw => h.inj v w (hst v hv) (hst w hw)
  · exact fun v hv => h.lt v (hst v hv)
  · intro d hd
    rcases List.mem_cons.1 hd with rfl | hd
    · exact h.lt t ht
    · exact h.fresh d hd
  · exact ⟨i, hx.inittask.trans hi, hli⟩
  · intro v hv
    simp only [Sched.keeper]
    rw [hx.parent v (hst v hv)]
    by_cases hp : (s.sys.k.tasks v).parent = some t
    · rw [if_pos ((hiff v (hst v hv)).2 hp), if_pos hp, hi, Option.map_some, hli]
    · rw [if_neg (fun he => hp ((hiff v (hst v hv)).1 he)), if_neg hp, h.keeper v (hst v hv)]
  · intro v p hv hp
    rw [hx.parent v (hst v hv)] at hp
    split_ifs at hp with hpt
    · rw [hi] at hp
      cases hp
      exact hst' i (hfam.init i hi).2
    · exact hst' p (h.linked v p (hst v hv) hp)
  · intro x w hw
    have hw' : ∃ w', Sched.keeper init s.log x = some w' := by
      simp only [Sched.keeper] at hw
      split_ifs at hw with hk
      · exact ⟨_, hk⟩
      · exact ⟨_, hw⟩
    obtain ⟨w', hw'⟩ := hw'
    rcases h.gone x w' hw' with ⟨v, hv, rfl⟩ | ⟨w₂, n, hr⟩
    · exact Or.inl ⟨v, hst' v hv, rfl⟩
    · exact Or.inr ⟨w₂, n, List.mem_cons_of_mem _ hr⟩
  · intro v w n hv hr
    exact h.unreaped v w n (hst v hv) (List.mem_of_ne_of_mem (by simp) hr)
  · intro v hv
    rcases (hx.zombie v).1 hv with rfl | hz
    · exact List.mem_cons_self
    · exact List.mem_cons_of_mem _ (h.zombie v hz)
  · intro v w hv hw
    simp only [hx.pid v]
    simp only [Sched.keeper] at hw
    split_ifs at hw with hk
    · cases hw
      obtain ⟨f, hf, hc⟩ := h.forked v _ (hst v hv) hk
      refine ⟨f, List.mem_cons_of_mem _ hf, Or.inr ⟨rfl, ?_⟩⟩
      rcases hc with rfl | ⟨-, hfx⟩
      · exact List.mem_cons_self
      · exact List.mem_cons_of_mem _ hfx
    · obtain ⟨f, hf, hc⟩ := h.forked v w (hst v hv) hw
      exact ⟨f, List.mem_cons_of_mem _ hf,
        hc.imp_right fun hx => ⟨hx.1, List.mem_cons_of_mem _ hx.2⟩⟩

/-- An exit that finds nobody to run: the parent of the caller is a zombie, so the
caller is doomed as well. -/
theorem Doomed.exit (h : Doomed D s) (hk : Kinship s init) (hfam : FamilyOk s.sys.k) {t : Slot}
    (hc : s.sys.k.current = some t) (hx : Left t s.sys.k s'.k)
    (hdead : ∀ q, (s.sys.k.tasks t).parent = some q → q ≠ t →
      Finds s'.k t (s'.cont t) ∨ s.sys.k.state q = .zombie) :
    ∃ D', Doomed D' { s with sys := s', log := .exit (s.life t) :: s.log } := by
  have ht := hfam.current t hc
  have hst : ∀ v, s'.k.state v ≠ .unused → s.sys.k.state v ≠ .unused :=
    fun v hv he => hv ((hx.used v).2 he)
  have hst' : ∀ v, s.sys.k.state v ≠ .unused → s'.k.state v ≠ .unused :=
    fun v hv he => hv ((hx.used v).1 he)
  have hlog : ∀ {v}, s.sys.k.state v ≠ .unused → v ≠ t →
      .exit (s.life v) ∈ Deed.exit (s.life t) :: s.log → .exit (s.life v) ∈ s.log := by
    intro v hv hvt hm
    refine List.mem_of_ne_of_mem ?_ hm
    intro he
    exact hvt (hk.inj v t hv ht (Deed.exit.inj he))
  -- A doomed task is no child of the caller, so it is not handed over.
  have hparent : ∀ {d}, D d → (s'.k.tasks d).parent = (s.sys.k.tasks d).parent := by
    intro d hd
    obtain ⟨hu, hp⟩ := h.closed d hd
    rw [hx.parent d hu, if_neg]
    rcases hp with hp | ⟨q, hq, -, -, hcq⟩
    · simp [hp]
    · rw [hq]
      rintro he
      exact hcq (he ▸ hc)
  have hclosed : ∀ {D' : Slot → Prop}, (∀ d, D d → D' d) → ∀ d, D d → s'.k.state d ≠ .unused ∧
      ((s'.k.tasks d).parent = none ∨ ∃ q, (s'.k.tasks d).parent = some q ∧ D' q ∧
        s'.k.state q = .zombie ∧ s'.k.current ≠ some q) := by
    intro D' hD' d hd
    obtain ⟨hu, hp⟩ := h.closed d hd
    rw [hparent hd, hx.current]
    refine ⟨hst' d hu, hp.imp_right ?_⟩
    rintro ⟨q, hq, hDq, hz, hcq⟩
    exact ⟨q, hq, hD' q hDq, (hx.zombie q).2 (Or.inr hz), hcq⟩
  have hlinked : ∀ v p, s'.k.state v ≠ .unused → (s'.k.tasks v).parent = some p →
      .exit (s.life p) ∈ Deed.exit (s.life t) :: s.log → D p := by
    intro v p hv hp hexit
    rw [hx.parent v (hst v hv)] at hp
    split_ifs at hp with hpt
    · exact h.init p hp
    · have hpne : p ≠ t := fun he => hpt (he ▸ hp)
      exact h.linked v p (hst v hv) hp (hlog (hk.linked v p (hst v hv) hp) hpne hexit)
  have hothers : ∀ v, v ≠ t → s'.k.state v ≠ .unused →
      .exit (s.life v) ∈ Deed.exit (s.life t) :: s.log → D v ∨ (s'.k.state v = .zombie ∧
        (s'.k.current = some v → Finds s'.k v (s'.cont v))) := by
    intro v hvt hv hexit
    refine (h.exited v (hst v hv) (hlog (hst v hv) hvt hexit)).imp_right ?_
    rintro ⟨hz, -⟩
    refine ⟨(hx.zombie v).2 (Or.inr hz), fun he => ?_⟩
    rw [hx.current, hc] at he
    exact absurd (Option.some.inj he).symm hvt
  by_cases hf : Finds s'.k t (s'.cont t)
  · refine ⟨D, hclosed fun _ => id, fun i hi => h.init i (hx.inittask ▸ hi), hlinked, ?_⟩
    intro v hv hexit
    by_cases hvt : v = t
    · subst hvt
      exact Or.inr ⟨(hx.zombie v).2 (Or.inl rfl), fun _ => hf⟩
    · exact hothers v hvt hv hexit
  · refine ⟨fun d => D d ∨ d = t, ?_, fun i hi => Or.inl (h.init i (hx.inittask ▸ hi)),
      fun v p hv hp he => Or.inl (hlinked v p hv hp he), ?_⟩
    · rintro d (hd | rfl)
      · exact hclosed (fun _ => Or.inl) d hd
      · refine ⟨hst' d ht, ?_⟩
        simp only [hx.parent d ht, if_neg (hfam.parent d)]
        cases hp : (s.sys.k.tasks d).parent with
        | none => exact Or.inl rfl
        | some q =>
            have hqd : q ≠ d := fun he => hfam.parent d (he ▸ hp)
            have hz := (hdead q hp hqd).resolve_left hf
            have hD := h.linked d q ht hp (hk.zombie q hz)
            refine Or.inr ⟨q, rfl, Or.inl hD, (hx.zombie q).2 (Or.inr hz), ?_⟩
            rw [hx.current, hc]
            exact fun he => hqd (Option.some.inj he).symm
    · intro v hv hexit
      by_cases hvt : v = t
      · exact Or.inl (Or.inr hvt)
      · exact (hothers v hvt hv hexit).imp_left Or.inl

/-- The task that `wait` returns is not doomed, so nobody has it for a parent. -/
theorem Doomed.not_reaped (h : Doomed D s) {t u : Slot} (hc : s.sys.k.current = some t)
    (hp : (s.sys.k.tasks u).parent = some t) : ¬ D u := by
  intro hu
  rcases (h.closed u hu).2 with hn | ⟨q, hq, -, -, hcq⟩
  · rw [hp] at hn
    cases hn
  · cases hp.symm.trans hq
    exact hcq hc

/-- The end of a life. -/
theorem Kinship.reap (h : Kinship s init) (hD : Doomed D s) {t u : Slot} {n : Nat}
    (hc : s.sys.k.current = some t) (hr : Reaped t u n s.sys.k s'.k) :
    Kinship { s with sys := s', log := .reap (s.life t) (s.life u) n :: s.log } init := by
  have hu : s.sys.k.state u ≠ .unused := by simp [hr.zombie]
  have hne : ∀ {v}, s'.k.state v ≠ .unused → v ≠ u := fun hv he => hv (he ▸ hr.state)
  have hst : ∀ {v}, s'.k.state v ≠ .unused → s.sys.k.state v ≠ .unused := by
    intro v hv
    rwa [Kernel.state, hr.same.tasks v (hne hv)] at hv
  have hst' : ∀ {v}, v ≠ u → s.sys.k.state v ≠ .unused → s'.k.state v ≠ .unused := by
    intro v hvu hv
    rwa [Kernel.state, hr.same.tasks v hvu]
  refine ⟨?_, ?_, ?_, ?_, ?_, ?_, ?_, ?_, ?_, ?_⟩
  · exact fun v w hv hw => h.inj v w (hst hv) (hst hw)
  · exact fun v hv => h.lt v (hst hv)
  · intro d hd
    rcases List.mem_cons.1 hd with rfl | hd
    · exact h.lt u hu
    · exact h.fresh d hd
  · obtain ⟨i, hi, hli⟩ := h.inittask
    exact ⟨i, hr.same.inittask.trans hi, hli⟩
  · intro v hv
    simp only [Sched.keeper, hr.same.tasks v (hne hv)]
    exact h.keeper v (hst hv)
  · intro v p hv hp
    simp only [hr.same.tasks v (hne hv)] at hp
    refine hst' ?_ (h.linked v p (hst hv) hp)
    rintro rfl
    exact hD.not_reaped hc hr.parent (hD.linked v p (hst hv) hp (h.zombie p hr.zombie))
  · intro x w hw
    simp only [Sched.keeper] at hw
    rcases h.gone x w hw with ⟨v, hv, rfl⟩ | ⟨w', n', hm⟩
    · by_cases hvu : v = u
      · exact Or.inr ⟨s.life t, n, by rw [hvu]; exact List.mem_cons_self⟩
      · exact Or.inl ⟨v, hst' hvu hv, rfl⟩
    · exact Or.inr ⟨w', n', List.mem_cons_of_mem _ hm⟩
  · intro v w n' hv hm
    rcases List.mem_cons.1 hm with he | hm
    · exact hne hv (h.inj v u (hst hv) hu (Deed.reap.inj he).2.1)
    · exact h.unreaped v w n' (hst hv) hm
  · intro v hv
    have hvu : v ≠ u := hne (by simp [hv])
    rw [Kernel.state, hr.same.tasks v hvu] at hv
    exact List.mem_cons_of_mem _ (h.zombie v hv)
  · intro v w hv hw
    simp only [Sched.keeper] at hw
    obtain ⟨f, hf, hc⟩ := h.forked v w (hst hv) hw
    simp only [hr.same.tasks v (hne hv)]
    exact ⟨f, List.mem_cons_of_mem _ hf,
      hc.imp_right fun hx => ⟨hx.1, List.mem_cons_of_mem _ hx.2⟩⟩

theorem Doomed.reap (h : Doomed D s) {t u : Slot} {n : Nat} (hc : s.sys.k.current = some t)
    (hx : (s.sys.cont t).executes) (hr : Reaped t u n s.sys.k s'.k) :
    Doomed D { s with sys := s', log := .reap (s.life t) (s.life u) n :: s.log } := by
  have hne : ∀ {v}, s'.k.state v ≠ .unused → v ≠ u := fun hv he => hv (he ▸ hr.state)
  have hDu := h.not_reaped hc hr.parent
  have hst : ∀ {v}, v ≠ u → s'.k.state v = s.sys.k.state v :=
    fun hv => congrArg Task.state (hr.same.tasks _ hv)
  have hlog : ∀ {x}, .exit x ∈ Deed.reap (s.life t) (s.life u) n :: s.log → .exit x ∈ s.log :=
    fun hm => List.mem_of_ne_of_mem (by simp) hm
  refine ⟨?_, ?_, ?_, ?_⟩
  · intro d hd
    have hdu : d ≠ u := fun he => hDu (he ▸ hd)
    obtain ⟨hud, hp⟩ := h.closed d hd
    simp only [hst hdu, hr.same.tasks d hdu, hr.same.current]
    refine ⟨hud, hp.imp_right ?_⟩
    rintro ⟨q, hq, hDq, hz, hcq⟩
    have hqu : q ≠ u := fun he => hDu (he ▸ hDq)
    exact ⟨q, hq, hDq, (hst hqu).trans hz, hcq⟩
  · exact fun i hi => h.init i (hr.same.inittask ▸ hi)
  · intro v p hv hp hexit
    simp only [hr.same.tasks v (hne hv)] at hp
    simp only [hst (hne hv)] at hv
    exact h.linked v p hv hp (hlog hexit)
  · intro v hv hexit
    have hvu := hne hv
    simp only [hst hvu] at hv
    refine (h.exited v hv (hlog hexit)).imp_right ?_
    rintro ⟨hz, hf⟩
    refine ⟨(hst hvu).trans hz, fun he => ?_⟩
    rw [hr.same.current, hc] at he
    cases he
    exact absurd (hf hc) (not_finds_of_executes hx)

theorem Kinship.noChild (h : Kinship s init) {w : Nat} (hw : w < s.born) :
    Kinship { s with log := .noChild w :: s.log } init := by
  have hmem : ∀ {d}, d ∈ s.log → d ∈ Deed.noChild w :: s.log := List.mem_cons_of_mem _
  refine ⟨h.inj, h.lt, ?_, h.inittask, h.keeper, h.linked, ?_, ?_, ?_, ?_⟩
  · intro d hd
    rcases List.mem_cons.1 hd with rfl | hd
    · exact hw
    · exact h.fresh d hd
  · intro x w' hx
    exact (h.gone x w' hx).imp_right fun ⟨w₂, n, hm⟩ => ⟨w₂, n, hmem hm⟩
  · exact fun v w' n hv hm => h.unreaped v w' n hv (List.mem_of_ne_of_mem (by simp) hm)
  · exact fun v hv => hmem (h.zombie v hv)
  · intro v w' hv hk
    obtain ⟨f, hf, hc⟩ := h.forked v w' hv hk
    exact ⟨f, hmem hf, hc.imp_right fun hx => ⟨hx.1, hmem hx.2⟩⟩

theorem Doomed.noChild (h : Doomed D s) {w : Nat} :
    Doomed D { s with log := .noChild w :: s.log } := by
  have hlog : ∀ {x}, .exit x ∈ Deed.noChild w :: s.log → .exit x ∈ s.log :=
    fun hm => List.mem_of_ne_of_mem (by simp) hm
  exact ⟨h.closed, h.init, fun v p hv hp hx => h.linked v p hv hp (hlog hx),
    fun v hv hx => h.exited v hv (hlog hx)⟩

end Steps

end Sched

end Chunix
