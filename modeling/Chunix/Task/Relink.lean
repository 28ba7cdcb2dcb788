import Chunix.Task.Boot
import Chunix.Task.List

/-!
# A slot that is linked twice

The calls that change the task table return when the list ends, and leave the memory and
the address spaces alone, but for `wait`, which frees a kernel stack. So a task can fork a
child that exits, wait for it and fork again: the second child gets the slot of the first
one, which is still on the list.
-/

namespace Chunix

namespace Task

open Machine Linked Kernel

variable {k k' k₁ : Kernel} {c t : Slot}

/-- The memory, the address spaces and the kernel stacks are the same. -/
structure Keeps (k k' : Kernel) : Prop where
  mm : ∃ val, k'.mm = { k.mm with cr3 := val }
  pgdir : ∀ t, (k'.tasks t).pgdir = (k.tasks t).pgdir
  sz : ∀ t, (k'.tasks t).sz = (k.tasks t).sz
  kstack : ∀ t, (k'.tasks t).kstack = (k.tasks t).kstack

theorem Keeps.refl (k : Kernel) : Keeps k k :=
  ⟨⟨k.mm.cr3, rfl⟩, fun _ => rfl, fun _ => rfl, fun _ => rfl⟩

theorem Keeps.trans (h : Keeps k k₁) (h' : Keeps k₁ k') : Keeps k k' := by
  obtain ⟨val, hmm⟩ := h.mm
  obtain ⟨val', hmm'⟩ := h'.mm
  refine ⟨⟨val', by rw [hmm', hmm]⟩, fun t => (h'.pgdir t).trans (h.pgdir t),
    fun t => (h'.sz t).trans (h.sz t), fun t => (h'.kstack t).trans (h.kstack t)⟩

/-- A change of one slot. -/
theorem Keeps.setTask (k : Kernel) {f : Task → Task}
    (hf : ∀ tp, (f tp).pgdir = tp.pgdir ∧ (f tp).sz = tp.sz ∧ (f tp).kstack = tp.kstack) :
    Keeps k (k.setTask t f) := by
  have htasks : ∀ u, (k.setTask t f).tasks u = k.tasks u ∨
      (k.setTask t f).tasks u = f (k.tasks u) := by
    intro u
    by_cases hu : u = t
    · rw [hu]
      exact Or.inr (setTask_tasks_self k t f)
    · exact Or.inl (setTask_tasks_of_ne k f hu)
  refine ⟨⟨k.mm.cr3, rfl⟩, fun u => ?_, fun u => ?_, fun u => ?_⟩
  · rcases htasks u with h | h <;> rw [h]
    exact (hf _).1
  · rcases htasks u with h | h <;> rw [h]
    exact (hf _).2.1
  · rcases htasks u with h | h <;> rw [h]
    exact (hf _).2.2

/-- `task_run` returns. -/
theorem taskRun_total (u : Slot) (hc : k.current = some c) :
    ∃ k', taskRun u k = .ok ((), k') ∧ Keeps k k' := by
  have tail : ∀ k₁ : Kernel, ∃ k', (do
      Act.modify fun k => { k with current := some u }
      updTask u fun t => { t with state := .running, priority := t.priority - 1 }
      let tp ← Act.gets fun k => k.tasks u
      Act.modify fun k => { k with esp0 := u32 (tp.kstack + kstacksize) }
      onMm (Mm.lcr3 (Mm.p2v tp.pgdir)) : Act Kernel Unit) k₁ = .ok ((), k') ∧ Keeps k₁ k' := by
    intro k₁
    have hrun := Keeps.setTask (t := u) { k₁ with current := some u }
      (f := fun t => { t with state := .running, priority := t.priority - 1 })
      fun _ => ⟨rfl, rfl, rfl⟩
    exact ⟨_, rfl, ⟨_, rfl⟩, hrun.pgdir, hrun.sz, hrun.kstack⟩
  rw [taskRun, Act.bind_of_ok (Act.get_eq_ok.2 ⟨rfl, rfl⟩)]
  by_cases hu : k.current = some u
  · rw [if_neg (not_not.2 hu)]
    exact ⟨k, rfl, Keeps.refl k⟩
  · rw [if_pos hu]
    simp only [hc]
    by_cases hrun : k.state c = .running
    · rw [if_pos hrun, Act.bind_of_ok (updTask_eq_ok (u := ()).2 rfl)]
      obtain ⟨k', hk', hkeeps⟩ := tail (k.setTask c fun t => { t with state := .runnable })
      have hfirst : Keeps k (k.setTask c fun t => { t with state := .runnable }) :=
        Keeps.setTask k fun _ => ⟨rfl, rfl, rfl⟩
      exact ⟨k', hk', hfirst.trans hkeeps⟩
    · rw [if_neg hrun]
      exact tail k

/-- `wakeup` returns when the list ends. -/
theorem wakeup_total {l : List Slot} (ch : Chan) (hl : follow k.next 64 k.rootp = some l) :
    ∃ k', wakeup ch k = .ok ((), k') ∧ Keeps k k' := by
  have hwake : ∀ tp : Task, (wake ch tp).pgdir = tp.pgdir ∧ (wake ch tp).sz = tp.sz ∧
      (wake ch tp).kstack = tp.kstack := by
    intro tp
    unfold wake
    split_ifs <;> exact ⟨rfl, rfl, rfl⟩
  have hif : ∀ t, (if t ∈ l then wake ch (k.tasks t) else k.tasks t).pgdir = (k.tasks t).pgdir ∧
      (if t ∈ l then wake ch (k.tasks t) else k.tasks t).sz = (k.tasks t).sz ∧
      (if t ∈ l then wake ch (k.tasks t) else k.tasks t).kstack = (k.tasks t).kstack := by
    intro t
    split_ifs
    · exact hwake _
    · exact ⟨rfl, rfl, rfl⟩
  rw [wakeup, Act.bind_of_ok (taskList_eq_ok.2 ⟨hl, rfl⟩)]
  exact ⟨_, rfl, ⟨⟨_, rfl⟩, fun t => (hif t).1, fun t => (hif t).2.1, fun t => (hif t).2.2⟩⟩

/-- The loop of `exit` returns when the list ends. -/
theorem exitLoop_total {l : List Slot} (us : List Slot) (hl : follow k.next 64 k.rootp = some l) :
    ∃ b k', exitLoop c us k = .ok (b, k') ∧ Keeps k k' := by
  induction us generalizing k with
  | nil => exact ⟨false, k, rfl, Keeps.refl k⟩
  | cons t us ih =>
      have rest : ∀ k₁ : Kernel, follow k₁.next 64 k₁.rootp = some l →
          ∃ b k', (if (k.tasks t).state = .zombie then do
              wakeup (.ofPtr k.inittask)
              let _ ← exitLoop c us
              return true
            else exitLoop c us : Act Kernel Bool) k₁ = .ok (b, k') ∧ Keeps k₁ k' := by
        intro k₁ hl₁
        by_cases hz : (k.tasks t).state = .zombie
        · obtain ⟨k₂, hk₂, hkeeps₂⟩ := wakeup_total (.ofPtr k.inittask) hl₁
          have hwoken := wakeup_woken hk₂
          obtain ⟨b, k', hk', hkeeps'⟩ := ih (k := k₂) (by rw [hwoken.next, hwoken.rootp, hl₁])
          refine ⟨true, k', ?_, hkeeps₂.trans hkeeps'⟩
          rw [if_pos hz, Act.bind_of_ok hk₂, Act.bind_of_ok hk']
          rfl
        · rw [if_neg hz]
          exact ih hl₁
      rw [exitLoop, Act.bind_of_ok (Act.gets_eq_ok.2 ⟨rfl, rfl⟩),
        Act.bind_of_ok (Act.gets_eq_ok.2 ⟨rfl, rfl⟩)]
      by_cases hp : (k.tasks t).parent = some c
      · have hsame := SameBut.setTask (t := t) (f := fun tp => { tp with parent := k.inittask }) k rfl
        have hkeeps : Keeps k (k.setTask t fun tp => { tp with parent := k.inittask }) :=
          Keeps.setTask k fun _ => ⟨rfl, rfl, rfl⟩
        obtain ⟨b, k', hk', hkeeps'⟩ := rest _ (by rw [hsame.next_eq, hsame.rootp, hl])
        refine ⟨b, k', ?_, hkeeps.trans hkeeps'⟩
        rw [if_pos hp, Act.bind_of_ok (updTask_eq_ok (u := ()).2 rfl)]
        exact hk'
      · rw [if_neg hp]
        exact rest k hl

/-- `exit` returns when the list ends, unless it takes the task for `inittask`. -/
theorem exit_total {l : List Slot} {stale : Option Slot} (hc : k.current = some c)
    (hl : follow k.next 64 k.rootp = some l) (hs : stale ≠ k.inittask) :
    ∃ cs k', exit stale k = .ok (cs, k') ∧ Keeps k k' := by
  obtain ⟨b, k₁, hk₁, hkeeps₁⟩ := exitLoop_total (c := c) l hl
  have hwoken := exitLoop_woken hk₁
  have hkeeps₂ : Keeps k₁ (k₁.setTask c fun tp => { tp with state := .zombie }) :=
    Keeps.setTask k₁ fun _ => ⟨rfl, rfl, rfl⟩
  have hsame := SameBut.setTask (t := c) (f := fun tp => { tp with state := .zombie }) k₁ rfl
  obtain ⟨k₂, hk₂, hkeeps₃⟩ := wakeup_total
    (.ofPtr ((k₁.setTask c fun tp => { tp with state := .zombie }).tasks c).parent)
    (k := k₁.setTask c fun tp => { tp with state := .zombie })
    (by rw [hsame.next_eq, hsame.rootp, hwoken.next, hwoken.rootp, hl])
  rw [exit, Act.bind_of_ok (Act.gets_eq_ok.2 ⟨rfl, rfl⟩), if_neg hs]
  dsimp only
  rw [Act.bind_of_ok (getCurrent_eq_ok.2 ⟨hc, rfl⟩), Act.bind_of_ok (taskList_eq_ok.2 ⟨hl, rfl⟩),
    Act.bind_of_ok hk₁, Act.bind_of_ok (updTask_eq_ok (u := ()).2 rfl),
    Act.bind_of_ok (Act.gets_eq_ok.2 ⟨rfl, rfl⟩), Act.bind_of_ok hk₂]
  exact ⟨_, k₂, rfl, (hkeeps₁.trans hkeeps₂).trans hkeeps₃⟩

/-- `wait` when the first task of the list is a child that has exited. -/
theorem waitPass_first {v : Nat} (hc : k.current = some c) (hr : k.rootp = some t)
    (hp : (k.tasks t).parent = some c) (hz : k.state t = .zombie) (hk : (k.tasks t).kstack = v)
    (hv : Mm.IsPage v) (hin : Mm.InRange k.mm v) :
    ∃ k', waitPass false k = .ok (.pid (k.tasks t).pid, k') ∧ k'.mm = Mm.freed k.mm v ∧
      SameBut t k k' ∧ k'.state t = .unused := by
  have hfree := Mm.kfreePage_of_inRange hv hin
  have hz : (k.tasks t).state = .zombie := hz
  rw [waitPass, Act.bind_of_ok (getCurrent_eq_ok.2 ⟨hc, rfl⟩),
    Act.bind_of_ok (Act.gets_eq_ok.2 ⟨rfl, rfl⟩), hr, waitLoop,
    Act.bind_of_ok (Act.gets_eq_ok.2 ⟨rfl, rfl⟩), if_neg (not_not.2 hp), if_pos hz,
    Act.bind_of_ok (updTask_eq_ok (u := ()).2 rfl), hk]
  refine ⟨_, Act.bind_eq_ok.2 ⟨(), _, onMm_eq_ok.2 ⟨_, hfree, rfl⟩, rfl⟩, rfl, ?_, ?_⟩
  · exact ⟨rfl, rfl, rfl, fun u hu => by simp [Kernel.setTask, hu], by simp [Kernel.next]⟩
  · simp [Kernel.state]

/-- A change of the table and of CR3 leaves the image alone. -/
theorem Imaged.keeps {s : Mm.Space} {l : List Nat} (h : Imaged k c s l) (hk : Keeps k k')
    (hcur : k'.current = some c) (hused : k'.state c ≠ .unused) : Imaged k' c s l := by
  obtain ⟨val, hmm⟩ := hk.mm
  have hagree : Mm.AgreeOff (fun _ => False) k.mm.mem k'.mm.mem := by
    intro a _
    rw [hmm]
  have hpool : Mm.Pool k'.mm l := h.pool.agree (by rw [hmm]) hagree (fun _ hp => hp.elim)
    fun _ _ hp => hp.elim
  exact h.agree hcur hused (hk.pgdir c) (hk.sz c) (by rw [hmm]; exact ⟨rfl, rfl, rfl⟩) hagree
    (fun _ hp => hp.elim) hpool fun v hv => h.spare hv

theorem firstUnused_one (h₀ : k.state 0 ≠ .unused) (h₁ : k.state 1 = .unused) :
    firstUnused k = some 1 := by
  have hrange : List.finRange 64 = 0 :: 1 :: (List.finRange 62).map fun i => i.succ.succ := by decide
  rw [firstUnused, hrange, List.find?_cons_of_neg (by simpa using h₀),
    List.find?_cons_of_pos (by simpa using h₁)]

end Task

namespace Sched

open Machine Linked Chunix.Task Kernel

variable {k k' : Kernel} {a b x y : Cont} {s : Sys}

/-- The kernel is `k`, the task 0 is at `a` and the task 1 at `b`. -/
structure Pair (k : Kernel) (a b : Cont) (s : Sys) : Prop where
  k : s.k = k
  zero : s.cont 0 = a
  one : s.cont 1 = b

theorem Pair.update_zero (h : Pair k a b s) (k' : Kernel) (x : Cont) :
    Pair k' x b ⟨k', Function.update s.cont 0 x⟩ :=
  ⟨rfl, by simp, by simp [h.one]⟩

theorem Pair.update_one (h : Pair k a b s) (k' : Kernel) (y : Cont) :
    Pair k' a y ⟨k', Function.update s.cont 1 y⟩ :=
  ⟨rfl, by simp [h.zero], by simp⟩

/-- The timer makes the task 0 enter the scheduler. -/
theorem Pair.timer (h : Pair k .run b s) (hc : k.current = some 0) (hr : k.rootp ≠ none) :
    ∃ s', Step s (.timer 0) s' ∧ Pair k (.loop1 (k.next 0) .user) b s' := by
  obtain ⟨rfl, hzero, rfl⟩ := h
  exact ⟨_, Step.timer hc hzero (if_neg hr), Pair.update_zero ⟨rfl, hzero, rfl⟩ _ _⟩

/-- A step of the scheduler code of the task 0. -/
theorem Pair.scan (h : Pair k a b s) (hc : k.current = some 0)
    (ha : advance k 0 a = some (.goto x)) : ∃ s', Step s (.scan 0) s' ∧ Pair k x b s' := by
  obtain ⟨rfl, rfl, rfl⟩ := h
  exact ⟨_, Step.scan hc ha, Pair.update_zero ⟨rfl, rfl, rfl⟩ _ _⟩

/-- The task 0 hands over to the task 1. -/
theorem Pair.switch_one (h : Pair k a b s) (hc : k.current = some 0)
    (ha : advance k 0 a = some (.taskRun 1 x)) (hk : taskRun 1 k = .ok ((), k')) :
    ∃ s', Step s (.switch 0 1) s' ∧ Pair k' x b s' := by
  obtain ⟨rfl, rfl, rfl⟩ := h
  exact ⟨_, Step.switch hc (by decide) ha hk (Or.inl rfl), Pair.update_zero ⟨rfl, rfl, rfl⟩ _ _⟩

/-- The task 1 hands over to the task 0. -/
theorem Pair.switch_zero (h : Pair k a b s) (hc : k.current = some 1)
    (hb : advance k 1 b = some (.taskRun 0 y)) (hk : taskRun 0 k = .ok ((), k')) :
    ∃ s', Step s (.switch 1 0) s' ∧ Pair k' a y s' := by
  obtain ⟨rfl, rfl, rfl⟩ := h
  exact ⟨_, Step.switch hc (by decide) hb hk (Or.inl rfl), Pair.update_one ⟨rfl, rfl, rfl⟩ _ _⟩

/-- The task 1 exits. -/
theorem Pair.exit {stale : Option Slot} {cs : List Chan} (h : Pair k a .run s)
    (hc : k.current = some 1) (hk : Task.exit stale k = .ok (cs, k')) (hr : k'.rootp ≠ none) :
    ∃ s', Step s (.exit 1 cs) s' ∧ Pair k' a (.loop1 (k'.next 1) .exit) s' := by
  obtain ⟨rfl, rfl, hone⟩ := h
  exact ⟨_, Step.exit hc hone hk (if_neg hr), Pair.update_one ⟨rfl, rfl, hone⟩ _ _⟩

/-- The task 0 leaves the scheduler. -/
theorem Pair.back (h : Pair k (.last .user) b s) (hc : k.current = some 0) :
    ∃ s', Step s (.back 0) s' ∧ Pair k .run b s' := by
  obtain ⟨rfl, hzero, rfl⟩ := h
  have hstep := @Step.back s 0 .run hc (by rw [hzero]; rfl)
  rw [hzero] at hstep
  exact ⟨_, hstep, Pair.update_zero ⟨rfl, hzero, rfl⟩ _ _⟩

/-- The task 0 waits for a child that has exited. -/
theorem Pair.reap {n : Nat} (h : Pair k .run b s) (hc : k.current = some 0)
    (hk : waitPass false k = .ok (.pid n, k')) :
    ∃ s', Step s (.reap 0 n) s' ∧ Pair k' .run b s' := by
  obtain ⟨rfl, hzero, rfl⟩ := h
  refine ⟨_, Step.reap hc (Or.inl hzero) ?_, Pair.update_zero ⟨rfl, hzero, rfl⟩ _ _⟩
  rwa [show decide (s.cont 0 = .wait) = false by simp [hzero]]

/-- The task 0 forks, and the child gets the slot 1. -/
theorem Pair.fork {n : Int} (h : Pair k .run b s) (hc : k.current = some 0)
    (hu : firstUnused k = some 1) (hk : Task.fork k = .ok (n, k')) (hn : 0 ≤ n) :
    ∃ s', Step s (.fork 0 (some 1)) s' ∧ Pair k' .run .run s' := by
  obtain ⟨rfl, hzero, rfl⟩ := h
  exact ⟨_, Step.fork hc hzero hn hu hk, ⟨rfl, by simp [hzero], by simp⟩⟩

/-- The only task of a list forks a child. -/
theorem Pair.first_fork {sp : Mm.Space} {l : List Nat} (h : Pair k .run b s)
    (himaged : Imaged k 0 sp l) (hroot : k.rootp = some 0) (hnext : k.next 0 = none)
    (hfree : k.state 1 = .unused)
    (hholes : ∀ j, 4096 * j < (k.tasks 0).sz → sp.tab (j / 1024) ≠ none)
    (hlen : 1 + Mm.kvmPages k.mm + Mm.spent sp k.mm.mem 524288 ≤ l.length) :
    ∃ s' k' v l', FreshStep s (.fork 0 (some 1)) s' ∧ Pair k' .run .run s' ∧
      Forked 1 ((k'.tasks 1).pid : Int) k k' ∧ (k'.tasks 1).kstack = v ∧ Spare sp k'.mm v ∧
      v ∉ l' ∧ Imaged k' 0 sp l' ∧ Mm.kvmPages k'.mm = Mm.kvmPages k.mm ∧
      (∀ n, sp.entry k'.mm.mem n = sp.entry k.mm.mem n) ∧
      l'.length + (1 + Mm.kvmPages k.mm + Mm.spent sp k.mm.mem 524288) = l.length := by
  have hu := firstUnused_one himaged.used hfree
  obtain ⟨k', v, l', hf, hstack, hspare, hv, himaged', hpages, hentry, hlength⟩ :=
    himaged.forks hu hholes hlen
  have hforked : Forked 1 ((k'.tasks 1).pid : Int) k k' := by
    rcases fork_cases hf with ⟨hn, -⟩ | ⟨-, t, hforked⟩
    · omega
    · cases hforked.slot.symm.trans hu
      exact hforked
  obtain ⟨s', hs', hpair⟩ := h.fork himaged.current hu hf (Int.natCast_nonneg _)
  refine ⟨s', k', v, l', ⟨hs', ?_⟩, hpair, hforked, hstack, hspare, hv, himaged', hpages, hentry,
    hlength⟩
  rintro ⟨us, hus, hmem⟩
  rw [h.k] at hus
  have hchain : IsChain k.next k.rootp [0] := ⟨hroot, hnext⟩
  rw [hus.unique hchain] at hmem
  simp at hmem

/-- The two tasks of a list: the child 1 is the first one, and the task 0 is current. -/
structure Family (k : Kernel) : Prop where
  current : k.current = some 0
  inittask : k.inittask = some 0
  rootp : k.rootp = some 1
  next : k.next 1 = some 0 ∧ k.next 0 = none
  parent : (k.tasks 1).parent = some 0

theorem Family.follow (h : Family k) : follow k.next 64 k.rootp = some [1, 0] := by
  rw [h.rootp]
  simp [Linked.follow, h.next]

/-- The child runs and exits, and the task 0 is back. -/
theorem Pair.child_exits (h : Pair k .run .run s) (hf : Family k) (hzero : k.state 0 = .runnable)
    (hone : k.state 1 = .runnable) :
    ∃ es s' k' y, Run FreshStep s es s' ∧ Pair k' .run y s' ∧ Family k' ∧ Keeps k k' ∧
      k'.state 0 ≠ .unused ∧ k'.state 1 = .zombie := by
  have hroot : k.rootp ≠ none := by simp [hf.rootp]
  -- the task 0 enters the scheduler and finds the child
  obtain ⟨s₁, hs₁, h₁⟩ := h.timer hf.current hroot
  rw [hf.next.2] at h₁
  obtain ⟨s₂, hs₂, h₂⟩ := h₁.scan (x := .loop2 (some 1) .user) hf.current (by
    rw [advance, hf.rootp])
  obtain ⟨k₁, hk₁, hkeeps₁⟩ := taskRun_total 1 hf.current
  obtain ⟨s₃, hs₃, h₃⟩ := h₂.switch_one (x := .step2 1 .user) hf.current
    (by rw [advance, if_neg (by decide), if_pos hone]) hk₁
  obtain ⟨-, hsw₁⟩ := (taskRun_cases hf.current hk₁).resolve_left fun hs => absurd hs.1 (by decide)
  -- the child exits and finds the task 0
  have hfollow₁ : Linked.follow k₁.next 64 k₁.rootp = some [1, 0] := by
    rw [hsw₁.next, hsw₁.rootp, hf.follow]
  have hinit₁ : none ≠ k₁.inittask := by
    rw [hsw₁.inittask, hf.inittask]
    simp
  obtain ⟨cs, k₂, hk₂, hkeeps₂⟩ := exit_total hsw₁.current hfollow₁ hinit₁
  obtain ⟨c, hc, hexited⟩ := exit_cases hk₂
  cases hsw₁.current.symm.trans hc
  obtain ⟨s₄, hs₄, h₄⟩ := h₃.exit hsw₁.current hk₂ (by
    rw [hexited.rootp, hsw₁.rootp]
    exact hroot)
  have hzero₁ : k₁.state 0 = .runnable := by
    rw [hsw₁.outgoing, hzero, if_neg (by decide)]
  have hzero₂ : k₂.state 0 = .runnable := by
    rcases hexited.state 0 (by decide) with hst | ⟨hst, -, -⟩
    · rw [hst, hzero₁]
    · rw [hzero₁] at hst
      cases hst
  rw [hexited.next, hsw₁.next, hf.next.1] at h₄
  have hcur₂ : k₂.current = some 1 := hexited.current.trans hsw₁.current
  obtain ⟨k₃, hk₃, hkeeps₃⟩ := taskRun_total 0 hcur₂
  obtain ⟨s₅, hs₅, h₅⟩ := h₄.switch_zero (y := .step1 0 .exit) hcur₂
    (by rw [advance, if_pos hzero₂]) hk₃
  obtain ⟨-, hsw₃⟩ := (taskRun_cases hcur₂ hk₃).resolve_left fun hs => absurd hs.1 (by decide)
  have hnext : k₃.next = k.next := by rw [hsw₃.next, hexited.next, hsw₁.next]
  -- the task 0 finishes its own scan
  obtain ⟨s₆, hs₆, h₆⟩ := h₅.scan (x := .loop2 (some 0) .user) hsw₃.current (by
    rw [advance, hnext, hf.next.1])
  obtain ⟨s₇, hs₇, h₇⟩ := h₆.scan (x := .last .user) hsw₃.current (by
    rw [advance, if_pos rfl])
  obtain ⟨s₈, hs₈, h₈⟩ := h₇.back hsw₃.current
  have hparent : (k₃.tasks 1).parent = some 0 := by
    rw [hsw₃.parent]
    rcases hexited.parent 1 with hp | ⟨-, hp⟩
    · rw [hp, hsw₁.parent, hf.parent]
    · rw [hp, hsw₁.inittask, hf.inittask]
  refine ⟨_, s₈, k₃, _, .cons ⟨hs₁, trivial⟩ (.cons ⟨hs₂, trivial⟩ (.cons ⟨hs₃, trivial⟩
    (.cons ⟨hs₄, trivial⟩ (.cons ⟨hs₅, trivial⟩ (.cons ⟨hs₆, trivial⟩ (.cons ⟨hs₇, trivial⟩
    (.cons ⟨hs₈, trivial⟩ (.nil _)))))))), h₈, ⟨hsw₃.current, ?_, ?_, ?_, hparent⟩,
    (hkeeps₁.trans hkeeps₂).trans hkeeps₃, ?_, ?_⟩
  · rw [hsw₃.inittask, hexited.inittask, hsw₁.inittask, hf.inittask]
  · rw [hsw₃.rootp, hexited.rootp, hsw₁.rootp, hf.rootp]
  · rw [hnext]
    exact hf.next
  · rw [hsw₃.running]
    decide
  · rw [hsw₃.outgoing, hexited.zombie, if_neg (by decide)]

/-- The only task of a list can fork a child, wait until it has exited, and fork another one
in the slot of the first, which is still on the list. -/
theorem Pair.relinks {sp : Mm.Space} {l : List Nat} (h : Pair k .run b s)
    (himaged : Imaged k 0 sp l) (hroot : k.rootp = some 0) (hnext : k.next 0 = none)
    (hinit : k.inittask = some 0) (hzero : k.state 0 = .runnable) (hfree : k.state 1 = .unused)
    (hholes : ∀ j, 4096 * j < (k.tasks 0).sz → sp.tab (j / 1024) ≠ none)
    (hlen : 2 * (1 + Mm.kvmPages k.mm + Mm.spent sp k.mm.mem 524288) ≤ l.length + 1) :
    ∃ es s' s'', Run FreshStep s es s' ∧ Step s' (.fork 0 (some 1)) s'' ∧ OnList s'.k 1 := by
  obtain ⟨s₁, k₁, v, l₁, hs₁, h₁, hforked, hstack, hspare, hv, himaged₁, hpages, hentry, hlength⟩ :=
    h.first_fork himaged hroot hnext hfree hholes (by omega)
  have hzero₁ : k₁.state 0 = .runnable := by
    rw [Kernel.state, hforked.tasks 0 (by decide)]
    exact hzero
  have hfamily : Family k₁ := by
    refine ⟨himaged₁.current, hforked.inittask.trans hinit, hforked.rootp, ⟨?_, ?_⟩, ?_⟩
    · rw [hforked.next, Function.update_self, hroot]
    · rw [hforked.next, Function.update_of_ne (by decide), hnext]
    · rw [hforked.parent, himaged.current]
  obtain ⟨es, s₂, k₂, y, hrun, h₂, hfamily₂, hkeeps, hused₂, hzombie⟩ :=
    h₁.child_exits hfamily hzero₁ hforked.state
  have himaged₂ := himaged₁.keeps hkeeps hfamily₂.current hused₂
  obtain ⟨val, hmm⟩ := hkeeps.mm
  -- the kernel stack of the child is given back
  have hspare₂ : Spare sp k₂.mm v := by
    rw [hmm]
    exact ⟨hspare.page, hspare.range, hspare.off, hspare.free⟩
  obtain ⟨k₃, hk₃, hmm₃, hsame, hunused⟩ := waitPass_first hfamily₂.current hfamily₂.rootp
    hfamily₂.parent hzombie ((hkeeps.kstack 1).trans hstack) hspare₂.page hspare₂.range
  obtain ⟨s₃, hs₃, h₃⟩ := h₂.reap hfamily₂.current hk₃
  have htask := hsame.tasks 0 (by decide)
  have hused₃ : k₃.state 0 ≠ .unused := by
    rw [Kernel.state, htask]
    exact hused₂
  have hagree := Mm.agreeOff_freed (m := k₂.mm) hspare₂.page
  have hframe : ∀ p, p = Mm.v2p v → Mm.IsFrame p := fun p hp => hp ▸ hspare₂.page.isFrame
  have himaged₃ : Imaged k₃ 0 sp (v :: l₁) := by
    refine himaged₂.agree (P := fun p => p = Mm.v2p v) (hsame.current.trans hfamily₂.current) hused₃
      (by rw [htask]) (by rw [htask]) (by rw [hmm₃]; exact ⟨rfl, rfl, rfl⟩) (by rw [hmm₃]; exact hagree)
      (fun p hp => ⟨v, hspare₂, hp⟩) (by rw [hmm₃]; exact himaged₂.pool.free hspare₂.page hv) ?_
    intro u hu
    rcases List.mem_cons.1 hu with rfl | hu
    · exact hspare₂
    · exact himaged₂.spare hu
  -- the second fork
  have hentry₃ : ∀ n, sp.entry k₃.mm.mem n = sp.entry k.mm.mem n := by
    intro n
    have := (himaged₂.space.agree hagree hframe fun p hp => hp ▸ hspare₂.off).2 n
    rw [hmm₃, this, hmm]
    exact hentry n
  have hspent : Mm.spent sp k₃.mm.mem 524288 = Mm.spent sp k.mm.mem 524288 :=
    Mm.spent_congr hentry₃ _
  have hpages₃ : Mm.kvmPages k₃.mm = Mm.kvmPages k.mm := by
    rw [← hpages]
    exact Mm.kvmPages_congr (by rw [hmm₃, hmm]; rfl)
  have hsz : (k₃.tasks 0).sz = (k.tasks 0).sz := by
    rw [htask, hkeeps.sz, hforked.tasks 0 (by decide)]
  have hu₃ := firstUnused_one hused₃ hunused
  obtain ⟨k₄, _, _, hf, -⟩ := himaged₃.forks hu₃ (by rw [hsz]; exact hholes)
    (by rw [hspent, hpages₃, List.length_cons]; omega)
  obtain ⟨s₄, hs₄, -⟩ := h₃.fork himaged₃.current hu₃ hf (Int.natCast_nonneg _)
  refine ⟨_, s₃, s₄, (Run.cons hs₁ hrun).append (.single ⟨hs₃, trivial⟩), hs₄, [1, 0], ?_,
    List.mem_cons_self⟩
  rw [h₃.k, hsame.next_eq, hsame.rootp]
  exact ⟨hfamily₂.rootp, hfamily₂.next.1, hfamily₂.next.2⟩

/-- The pages from `0x80160000` on, 24 of them. -/
def bootPages : List Nat := (List.range 24).map fun j => 0x80160000 + 4096 * j

/-- The kernel before the first task is made. -/
def bootKernel : Kernel where
  mm := {
    mem := links 23
    freeList := 0x80160000
    cr3 := 0x121000
    memsz := 2048
    memStart := 0x80140000
    data := 0x80120000 }
  tasks := fun _ => Task.zero
  rootp := none
  current := none
  inittask := none
  nextpid := 1
  kpgdir := 0x80121000
  esp0 := 0
  trapRet := 0
  doNothing := 0

/-- A binary without segments. -/
def bareImage : Memory := store32 (fun _ => 0) 0 Elf.magic

theorem bootKernel_pages : Pages bootKernel bootPages ∧
    ∀ v ∈ bootPages, Mm.InRange bootKernel.mm v := by
  have hmem : ∀ v ∈ bootPages, v % 4096 = 0 ∧ 0x80160000 ≤ v ∧ v < 0x80178000 := by decide
  have hfollow : follow (Mm.link (links 23)) 24 (Mm.ptr 0x80160000) = some bootPages := by
    decide +kernel
  refine ⟨⟨⟨show 0x80120000 % 4096 = 0 by decide, show 2148532224 < 0x80120000 by decide,
    show 0x80120000 < 2147483648 + 2048 * 1024 by decide,
    show 2147483648 + 2048 * 1024 ≤ 4294963200 by decide⟩, show 0 < 0x80140000 by decide,
    isChain_of_follow hfollow, ?_⟩, ?_⟩
  · intro v hv
    obtain ⟨h₁, h₂, h₃⟩ := hmem v hv
    exact ⟨h₁, by omega, by omega⟩
  · intro v hv
    obtain ⟨-, hlo, hhi⟩ := hmem v hv
    refine ⟨le_trans (show 0x80140000 ≤ 0x80160000 by decide) hlo, le_trans hhi.le ?_⟩
    exact show 0x80178000 ≤ Mm.v2p (u32 (2048 * 1024)) by decide

/-- The kernel with one task, which can call `fork` twice. -/
theorem bootKernel_booted : ∃ k sp l, Booted k ∧ Imaged k 0 sp l ∧ k.rootp = some 0 ∧
    k.next 0 = none ∧ k.inittask = some 0 ∧ k.state 0 = .runnable ∧ k.state 1 = .unused ∧
    (k.tasks 0).sz = 0 ∧
    2 * (1 + Mm.kvmPages k.mm + Mm.spent sp k.mm.mem 524288) ≤ l.length + 1 := by
  obtain ⟨hpages, hrange⟩ := bootKernel_pages
  have hu : firstUnused bootKernel = some 0 := rfl
  have hkvm : Mm.kvmPages bootKernel.mm = 2 := by decide
  have hlength : bootPages.length = 24 := by decide
  have hmagic : (Elf.header bareImage 0).magic = Elf.magic := by decide
  have hph : (Elf.header bareImage 0).phnum = 0 := by decide
  obtain ⟨k, sp, l, hk, himaged, hsz, hkvm', honly, hlen⟩ :=
    taskCreate_bare hpages hrange hu (by omega) hmagic hph
  have hmade := taskCreate_some hk
  have hspent : Mm.spent sp k.mm.mem 524288 ≤ 2 := by
    have hlow : Mm.spent sp k.mm.mem 524287 = Mm.spent sp k.mm.mem 0 :=
      Mm.spent_of_absent (by decide) fun j _ hj hp => by
        have := honly j (by omega) hp
        omega
    have hlast := Mm.spent_succ_le sp k.mm.mem 524287
    have hzero : Mm.spent sp k.mm.mem 0 = 0 := rfl
    rw [hlow, hzero] at hlast
    exact hlast
  refine ⟨{ k with inittask := some 0, current := some 0 }, sp, l, ⟨k, 0, ?_, ?_, ?_⟩, himaged _,
    hmade.rootp, ?_, rfl, hmade.state, ?_, hsz, ?_⟩
  · exact .create (.start rfl rfl) hk
  · rw [hmade.state]
    decide
  · rw [hmade.rootp]
  · show k.next 0 = none
    rw [hmade.next, Function.update_self]
    rfl
  · show (k.tasks 1).state = .unused
    rw [hmade.tasks 1 (by decide)]
    rfl
  · show 2 * (1 + Mm.kvmPages k.mm + Mm.spent sp k.mm.mem 524288) ≤ l.length + 1
    omega

/-- In every run from boot in which no fork takes a slot that is on the list, the
list ends, holds no slot twice and holds every slot in use; and the next step
keeps it so exactly when it is not a fork that takes a slot on the list. -/
theorem taskList_wellFormed {s s' : Sys} {es : List Ev} (h₀ : Booted s.k)
    (h : Run FreshStep s es s') :
    ListOk s'.k ∧ ∀ e s'', Step s' e s'' → (ListOk s''.k ↔ TakesFresh s'.k e) := by
  obtain ⟨hl, hf⟩ := listOk_run h₀ h
  refine ⟨hl, ?_⟩
  intro e s'' hs
  obtain ⟨t, hc, he⟩ := hs.effect
  exact listOk_effect he hl hf hc

/-- The first task can fork. -/
theorem bootKernel_forks : ∃ s s', Booted s.k ∧ Run FreshStep s [.fork 0 (some 1)] s' ∧
    ListOk s'.k := by
  obtain ⟨k, sp, l, hbooted, himaged, hroot, hnext, -, -, hfree, hsz, hlen⟩ := bootKernel_booted
  have hpair : Pair k .run .run ⟨k, fun _ => .run⟩ := ⟨rfl, rfl, rfl⟩
  obtain ⟨s', _, _, _, hs', -⟩ := hpair.first_fork himaged hroot hnext hfree
    (fun j hj => by omega) (by omega)
  have hrun : Run FreshStep ⟨k, fun _ => .run⟩ [.fork 0 (some 1)] s' := .single hs'
  exact ⟨_, s', hbooted, hrun, (taskList_wellFormed hbooted hrun).1⟩

/-- After it has waited for its child its next fork breaks the list. -/
theorem bootKernel_relinks : ∃ s es s' s'', Booted s.k ∧ Run Step s es s' ∧ ListOk s'.k ∧
    Step s' (.fork 0 (some 1)) s'' ∧ ¬ ListOk s''.k := by
  obtain ⟨k, sp, l, hbooted, himaged, hroot, hnext, hinit, hzero, hfree, hsz, hlen⟩ :=
    bootKernel_booted
  have hpair : Pair k .run .run ⟨k, fun _ => .run⟩ := ⟨rfl, rfl, rfl⟩
  obtain ⟨es, s', s'', hrun, hs'', hon⟩ := hpair.relinks himaged hroot hnext hinit hzero hfree
    (fun j hj => by omega) hlen
  obtain ⟨hl, hf⟩ := listOk_run (s := ⟨k, fun _ => .run⟩) hbooted hrun
  obtain ⟨t, hc, he⟩ := hs''.effect
  refine ⟨_, es, s', s'', hbooted, hrun.mono fun _ _ _ h => h.1, hl, hs'', fun hl'' => ?_⟩
  exact (listOk_effect he hl hf hc).1 hl'' hon

end Sched

end Chunix
