import Chunix.Task.Clone

/-!
# Recycled slots

`wait` gives a slot back by clearing its pid, its parent, the first byte of its name, its
kernel stack and its state. A later `fork` takes the slot with `task_alloc` and sets every
other field but three: the name, the channel and the table of open files are those of the
task that had the slot before.
-/

namespace Chunix

namespace Task

open Machine Kernel

variable {k k' k₁ : Kernel} {c t : Slot}

/-- What `task_alloc` does to the memory: the kernel stack is the page `v`. -/
inductive Stacks (trapRet doNothing : Nat) (m : Mm) (v : Nat) (m' : Mm) : Prop
  | mk {m₁ m₂ m₃ : Mm} (page : Mm.kallocPage m = .ok (v, m₁)) (hv : v ≠ 0)
      (ret : Mm.kstore (v + kstacksize - stackFrameSize - 4) trapRet m₁ = .ok ((), m₂))
      (context : Mm.kmemset (v + kstacksize - stackFrameSize - 4 - contextSize) 0 contextSize m₂ =
        .ok ((), m₃))
      (eip : Mm.kstore (v + kstacksize - stackFrameSize - 4 - contextSize + 16) doNothing m₃ =
        .ok ((), m'))

/-- What a `fork` that makes a child does to the memory: the kernel stack is the page `v`,
the directory is `pgdir`. -/
inductive Builds (trapRet doNothing : Nat) (cur : Task) (m : Mm) (v pgdir : Nat) (m' : Mm) : Prop
  | mk {m₁ m₂ m₃ m₄ : Mm} {r : Nat} (stack : Stacks trapRet doNothing m v m₁)
      (uvm : Mm.copyUvm cur.pgdir cur.sz m₁ = .ok (pgdir, m₂)) (hp : pgdir ≠ 0)
      (tf : Mm.kmemmove (v + kstacksize - stackFrameSize) cur.tf stackFrameSize m₂ = .ok ((), m₃))
      (page : Mm.copyPage cur.pgdir pgdir (Mm.ustacktop - 4096) m₃ = .ok (r, m₄)) (hr : r ≠ 0)
      (eax : Mm.kstore (v + kstacksize - stackFrameSize + 44) 0 m₄ = .ok ((), m'))

theorem Stacks.unique {trapRet doNothing v v' : Nat} {m m' m'' : Mm}
    (h : Stacks trapRet doNothing m v m') (h' : Stacks trapRet doNothing m v' m'') :
    v = v' ∧ m' = m'' := by
  obtain ⟨h₁, -, h₂, h₃, h₄⟩ := h
  obtain ⟨h₁', -, h₂', h₃', h₄'⟩ := h'
  cases h₁.symm.trans h₁'
  cases h₂.symm.trans h₂'
  cases h₃.symm.trans h₃'
  cases h₄.symm.trans h₄'
  exact ⟨rfl, rfl⟩

theorem Builds.unique {trapRet doNothing v v' pgdir pgdir' : Nat} {cur : Task} {m m' m'' : Mm}
    (h : Builds trapRet doNothing cur m v pgdir m')
    (h' : Builds trapRet doNothing cur m v' pgdir' m'') : v = v' ∧ pgdir = pgdir' ∧ m' = m'' := by
  obtain ⟨h₁, h₂, -, h₃, h₄, -, h₅⟩ := h
  obtain ⟨h₁', h₂', -, h₃', h₄', -, h₅'⟩ := h'
  obtain ⟨rfl, rfl⟩ := h₁.unique h₁'
  cases h₂.symm.trans h₂'
  cases h₃.symm.trans h₃'
  cases h₄.symm.trans h₄'
  cases h₅.symm.trans h₅'
  exact ⟨rfl, rfl, rfl⟩

/-- The slot that `task_alloc` has taken, which held `tp` before. -/
def taken (k : Kernel) (c : Slot) (v : Nat) (tp : Task) : Task :=
  { tp with
    tf := v + kstacksize - stackFrameSize
    context := v + kstacksize - stackFrameSize - 4 - contextSize
    pid := k.nextpid
    ppid := (k.tasks c).pid
    state := .stopped
    priority := initPrio
    kstack := v
    heapTop := heapStartAddr
    heapStart := 0 }

/-- The slot of a child of `c`, which held `tp` before. -/
def child (k : Kernel) (c : Slot) (v pgdir : Nat) (tp : Task) : Task :=
  { taken k c v tp with
    state := .runnable
    sz := (k.tasks c).sz
    pgdir := pgdir
    parent := some c
    next := k.rootp }

/-- A `task_alloc` that finds a slot. -/
theorem taskAlloc_eq_ok (hu : firstUnused k = some t) (hc : k.current = some c) (hct : c ≠ t) :
    taskAlloc k = .ok (some t, k') ↔ ∃ v m', Stacks k.trapRet k.doNothing k.mm v m' ∧
      k' = { k with
        mm := m', tasks := Function.update k.tasks t (taken k c v (k.tasks t)),
        nextpid := u32 (k.nextpid + 1) } := by
  unfold taskAlloc
  simp only [Act.bind_eq_ok, Act.get_eq_ok]
  constructor
  · rintro ⟨_, _, ⟨rfl, rfl⟩, h⟩
    simp only [hu, hc, Act.bind_eq_ok, onMm_eq_ok, updTask_eq_ok, Act.ite_eq_ok, Act.pure_eq_ok,
      Act.modify_eq_ok, Act.get_eq_ok] at h
    obtain ⟨v, _, ⟨m₁, hm₁, rfl⟩, _, _, rfl, ⟨-, h, -⟩ | ⟨hv, h⟩⟩ := h
    · cases h
    obtain ⟨_, _, ⟨rfl, rfl⟩, _, _, rfl, _, _, rfl, _, _, ⟨m₂, hm₂, rfl⟩, _, _, ⟨m₃, hm₃, rfl⟩,
      _, _, ⟨m₄, hm₄, rfl⟩, -, rfl⟩ := h
    refine ⟨v, m₄, ⟨hm₁, hv, hm₂, hm₃, hm₄⟩, ?_⟩
    simp [Kernel.setTask, taken, hc, hct]
  · rintro ⟨v, m', ⟨hm₁, hv, hm₂, hm₃, hm₄⟩, rfl⟩
    refine ⟨k, k, ⟨rfl, rfl⟩, ?_⟩
    simp only [hu, hc, Act.bind_eq_ok, onMm_eq_ok, updTask_eq_ok, Act.ite_eq_ok, Act.pure_eq_ok,
      Act.modify_eq_ok, Act.get_eq_ok]
    refine ⟨v, _, ⟨_, hm₁, rfl⟩, (), _, rfl, Or.inr ⟨hv, _, _, ⟨rfl, rfl⟩, (), _, rfl, (), _, rfl,
      (), _, ⟨_, hm₂, rfl⟩, (), _, ⟨_, hm₃, rfl⟩, (), _, ⟨_, hm₄, rfl⟩, trivial, ?_⟩⟩
    simp [Kernel.setTask, taken, hct]

/-- A `fork` that makes a child: what it does to the memory, and the slot. -/
theorem fork_child {n : Int} (hu : firstUnused k = some t) (hc : k.current = some c) (hct : c ≠ t)
    (h : fork k = .ok (n, k')) (hn : 0 ≤ n) :
    ∃ v pgdir, Builds k.trapRet k.doNothing (k.tasks c) k.mm v pgdir k'.mm ∧
      k'.tasks t = child k c v pgdir (k.tasks t) := by
  obtain ⟨r, k₁, hr, h⟩ := Act.bind_eq_ok.1 h
  have hfail : ∀ o k₂, forkFail o k₂ ≠ .ok (n, k') := by
    intro o k₂ hf
    have := (forkFail_cases hf).1
    omega
  rcases taskAlloc_cases hr with ⟨rfl, -⟩ | ⟨t', rfl, hu', -⟩
  · exact absurd h (hfail none k₁)
  cases hu.symm.trans hu'
  obtain ⟨v, m₁, hstack, hk₁⟩ := (taskAlloc_eq_ok hu hc hct).1 hr
  have hmm : k₁.mm = m₁ := by rw [hk₁]
  have hcur : k₁.current = some c := by rw [hk₁, hc]
  have hroot₁ : k₁.rootp = k.rootp := by rw [hk₁]
  have hkc : k₁.tasks c = k.tasks c := by
    rw [hk₁]
    exact Function.update_of_ne hct _ _
  have hkt : k₁.tasks t = taken k c v (k.tasks t) := by
    rw [hk₁]
    exact Function.update_self _ _ _
  simp only [Act.bind_eq_ok, onMm_eq_ok, updTask_eq_ok, Act.gets_eq_ok, getCurrent_eq_ok] at h
  obtain ⟨c', _, ⟨hc', rfl⟩, _, _, ⟨rfl, rfl⟩, pgdir, _, ⟨m₂, hm₂, rfl⟩, _, _, rfl, h⟩ := h
  cases hcur.symm.trans hc'
  rw [hkc, hmm] at hm₂
  rcases Act.ite_eq_ok.1 h with ⟨-, h⟩ | ⟨hp, h⟩
  · exact absurd h (hfail _ _)
  simp only [Act.bind_eq_ok, onMm_eq_ok, updTask_eq_ok, Act.gets_eq_ok] at h
  obtain ⟨_, _, rfl, tf, _, ⟨htf, rfl⟩, _, _, ⟨m₃, hm₃, rfl⟩, r, _, ⟨m₄, hm₄, rfl⟩, h⟩ := h
  simp only [setTask_tasks_self, hkt] at htf
  have htf : v + kstacksize - stackFrameSize = tf := htf
  rw [← htf, hkc] at hm₃
  rw [hkc] at hm₄
  rcases Act.ite_eq_ok.1 h with ⟨-, h⟩ | ⟨hr0, h⟩
  · exact absurd h (hfail _ _)
  simp only [Act.bind_eq_ok, Act.gets_eq_ok, updTask_eq_ok, Act.modify_eq_ok, Act.pure_eq_ok,
    onMm_eq_ok] at h
  obtain ⟨_, _, ⟨m₅, hm₅, rfl⟩, pid, _, ⟨-, rfl⟩, rootp, _, ⟨hroot, rfl⟩, _, _, rfl, _, _, rfl,
    -, rfl⟩ := h
  rw [← htf] at hm₅
  refine ⟨v, pgdir, ⟨hstack, hm₂, hp, hm₃, hm₄, hr0, hm₅⟩, ?_⟩
  have hroot : k.rootp = rootp := hroot₁.symm.trans hroot
  simp only [setTask_tasks_self, hkt, hkc, hroot, child]

/-- The memory decides that `fork` makes a child. -/
theorem Builds.fork {v pgdir : Nat} {m' : Mm} (hu : firstUnused k = some t)
    (hc : k.current = some c) (hct : c ≠ t)
    (h : Builds k.trapRet k.doNothing (k.tasks c) k.mm v pgdir m') :
    ∃ k', Task.fork k = .ok ((k.nextpid : Int), k') ∧ k'.mm = m' ∧
      k'.tasks t = child k c v pgdir (k.tasks t) := by
  obtain @⟨m₁, m₂, m₃, m₄, r, hstack, hm₂, hp, hm₃, hm₄, hr0, hm₅⟩ := id h
  obtain ⟨k₁, hk₁⟩ : ∃ k₁ : Kernel, k₁ = { k with
      mm := m₁, tasks := Function.update k.tasks t (taken k c v (k.tasks t)),
      nextpid := u32 (k.nextpid + 1) } := ⟨_, rfl⟩
  have hr := (taskAlloc_eq_ok hu hc hct).2 ⟨v, _, hstack, hk₁⟩
  have hcur : k₁.current = some c := by rw [hk₁, hc]
  have hmm : k₁.mm = m₁ := by rw [hk₁]
  have hkc : k₁.tasks c = k.tasks c := by
    rw [hk₁]
    exact Function.update_of_ne hct _ _
  have hkt : k₁.tasks t = taken k c v (k.tasks t) := by
    rw [hk₁]
    exact Function.update_self _ _ _
  have htf : (k₁.tasks t).tf = v + kstacksize - stackFrameSize := by rw [hkt, taken]
  rw [← hkc, ← hmm] at hm₂
  rw [← hkc, ← htf] at hm₃
  rw [← hkc] at hm₄
  obtain ⟨k', m₆, hf, hm₆, hmm', -⟩ := (fork_copied hr hcur hm₂ hp hm₃ hm₄).2 hr0
  rw [htf] at hm₆
  cases hm₅.symm.trans hm₆
  obtain ⟨v', pgdir', hbuilds, hchild⟩ := fork_child hu hc hct hf (Int.natCast_nonneg _)
  rw [hmm'] at hbuilds
  obtain ⟨rfl, rfl, -⟩ := h.unique hbuilds
  refine ⟨k', ?_, hmm', hchild⟩
  rw [hf, hchild]
  rfl

/-- Two kernels in which the task `c` is about to call `fork` and the slot `t` is free,
and which differ in what the slots other than that of `c` hold. -/
structure Alike (t c : Slot) (k k' : Kernel) : Prop where
  mm : k'.mm = k.mm
  current : k.current = some c ∧ k'.current = some c
  parent : k'.tasks c = k.tasks c
  used : k.state c ≠ .unused
  slot : firstUnused k = some t ∧ firstUnused k' = some t
  rootp : k'.rootp = k.rootp
  nextpid : k'.nextpid = k.nextpid
  routines : k'.trapRet = k.trapRet ∧ k'.doNothing = k.doNothing

/-- The child that `fork` makes in a slot is the same in both kernels exactly when the
former task has left the same name, channel and open files in the slot. -/
theorem fork_recycled_iff {n : Int} (h : Alike t c k k') (hf : fork k = .ok (n, k₁)) (hn : 0 ≤ n) :
    ∃ k₁', fork k' = .ok (n, k₁') ∧ k₁'.mm = k₁.mm ∧
      (k₁'.tasks t = k₁.tasks t ↔ (k'.tasks t).name = (k.tasks t).name ∧
        (k'.tasks t).chan = (k.tasks t).chan ∧ (k'.tasks t).ofile = (k.tasks t).ofile) := by
  have hct : c ≠ t := fun he => h.used (he ▸ firstUnused_state h.slot.1)
  obtain ⟨v, pgdir, hbuilds, hchild⟩ := fork_child h.slot.1 h.current.1 hct hf hn
  obtain ⟨k₂, hf₂, hmm₂, -⟩ := Builds.fork h.slot.1 h.current.1 hct hbuilds
  cases hf.symm.trans hf₂
  rw [← h.mm, ← h.parent, ← h.routines.1, ← h.routines.2] at hbuilds
  obtain ⟨k₁', hf', hmm', hchild'⟩ := Builds.fork h.slot.2 h.current.2 hct hbuilds
  refine ⟨k₁', by rw [hf', h.nextpid], hmm', ?_⟩
  rw [hchild, hchild', child, child, taken, taken, h.parent, h.nextpid, h.rootp]
  simp only [Task.mk.injEq, true_and, and_true]

/-- A kernel with a task and its child of the size `sz`, which has exited with the open
file `o`. -/
def reapKernel (sz : Nat) (o : Option Nat) : Kernel :=
  { smallKernel 0 with
    tasks := fun u => if u = 1 then { Task.zero with
        state := .zombie, pid := 2, ppid := 1, sz := sz, parent := some 0, kstack := 0x80168000
        ofile := fun i => if i = 0 then o else none, next := some 0 }
      else (smallKernel 0).tasks u
    rootp := some 1
    nextpid := 3 }

/-- The kernel after the task has waited for its child. -/
def reapedKernel (sz : Nat) (o : Option Nat) : Kernel :=
  ({ (reapKernel sz o).setTask 1 fun tp => { tp with
      pid := 0, parent := none, name := Function.update tp.name 0 0, state := .unused } with
    mm := Mm.freed (smallKernel 0).mm 0x80168000 } : Kernel).setTask 1 fun tp =>
      { tp with kstack := 0 }

/-- The page of the kernel stack of the child. -/
theorem reapKernel_spare : Spare (smallSpace 0) (smallKernel 0).mm 0x80168000 := by
  refine ⟨⟨by decide, by decide, by decide⟩, ⟨show 0x80140000 ≤ 0x80168000 by decide,
    show 0x80168000 ≤ Mm.v2p (u32 (2048 * 1024)) by decide⟩, ?_, ?_⟩
  · intro hs
    have := smallSpace_has hs
    rw [show Mm.v2p 0x80168000 = 0x168000 by decide] at this
    omega
  · intro n _ hp
    rw [show Mm.v2p 0x80168000 = 0x168000 by decide]
    rcases smallKernel_present (by decide) hp with ⟨-, he⟩ | ⟨-, he⟩ <;> omega

theorem reapKernel_wait (sz : Nat) (o : Option Nat) :
    waitPass false (reapKernel sz o) = .ok (.pid 2, reapedKernel sz o) := by
  have hfree := Mm.kfreePage_of_inRange reapKernel_spare.page reapKernel_spare.range
  rw [waitPass, Act.bind_of_ok (getCurrent_eq_ok.2 ⟨rfl, rfl⟩),
    Act.bind_of_ok (Act.gets_eq_ok.2 ⟨rfl, rfl⟩), show (reapKernel sz o).rootp = some 1 from rfl,
    waitLoop, Act.bind_of_ok (Act.gets_eq_ok.2 ⟨rfl, rfl⟩), if_neg (by simp [reapKernel]),
    if_pos (by simp [reapKernel]), Act.bind_of_ok (updTask_eq_ok (u := ()).2 rfl)]
  exact Act.bind_eq_ok.2 ⟨(), _, onMm_eq_ok.2 ⟨_, hfree, rfl⟩, rfl⟩

theorem reapedKernel_imaged (sz : Nat) (o : Option Nat) :
    Imaged (reapedKernel sz o) 0 (smallSpace 0) (0x80168000 :: eightPages) ∧
      ∀ n, (smallSpace 0).entry (reapedKernel sz o).mm.mem n =
        (smallSpace 0).entry (smallKernel 0).mm.mem n := by
  have himaged := smallKernel_imaged (i := 0) (by decide)
  have hspare := reapKernel_spare
  have hnot : 0x80168000 ∉ eightPages := by decide
  have hagree := Mm.agreeOff_freed (m := (smallKernel 0).mm) hspare.page
  refine ⟨himaged.agree rfl himaged.used rfl rfl ⟨rfl, rfl, rfl⟩ hagree
    (fun p hp => ⟨_, hspare, hp⟩) (himaged.pool.free hspare.page hnot) ?_,
    (himaged.space.agree hagree (fun p hp => hp ▸ hspare.page.isFrame)
      fun p hp => hp ▸ hspare.off).2⟩
  intro v hv
  rcases List.mem_cons.1 hv with rfl | hv
  · exact hspare
  · exact himaged.spare hv

/-- The next `fork` makes a child in the slot, which has the file of the former one. -/
theorem reapedKernel_fork (sz : Nat) (o : Option Nat) :
    ∃ k₂, fork (reapedKernel sz o) = .ok (3, k₂) ∧ (k₂.tasks 1).ofile 0 = o := by
  obtain ⟨himaged, hentry⟩ := reapedKernel_imaged sz o
  have hu : firstUnused (reapedKernel sz o) = some 1 := rfl
  have hspent : Mm.spent (smallSpace 0) (reapedKernel sz o).mm.mem 524288 ≤ 4 := by
    refine Mm.spent_le_four (a := 0) (b := 524287) (by decide) fun n hp => ?_
    rw [hentry] at hp
    exact (smallKernel_present (by decide) hp).imp And.left And.left
  have hpages : Mm.kvmPages (reapedKernel sz o).mm = 2 :=
    show Mm.kvmPages (smallKernel 0).mm = 2 by decide
  have hlength : (0x80168000 :: eightPages).length = 9 := rfl
  have hholes : ∀ j, 4096 * j < ((reapedKernel sz o).tasks 0).sz →
      (smallSpace 0).tab (j / 1024) ≠ none := by
    intro j hj
    have hj' : 4096 * j < 4194304 * 0 + 4096 := hj
    obtain rfl : j = 0 := by omega
    simp [smallSpace]
  obtain ⟨k₂, _, _, hf, -⟩ := himaged.forks hu hholes (by omega)
  obtain ⟨v, pgdir, -, hchild⟩ := fork_child hu rfl (by decide) hf (Int.natCast_nonneg _)
  refine ⟨k₂, ?_, ?_⟩
  · rw [hf, hchild]
    rfl
  · rw [hchild]
    rfl

theorem reapedKernel_alike (sz sz' : Nat) (o o' : Option Nat) :
    Alike 1 0 (reapedKernel sz o) (reapedKernel sz' o') :=
  ⟨rfl, ⟨rfl, rfl⟩, rfl, (reapedKernel_imaged sz o).1.used, ⟨rfl, rfl⟩, rfl, rfl, rfl, rfl⟩

/-- The size of the former task does not matter. -/
theorem reapedKernel_recycled : ∃ k₁ k₂, fork (reapedKernel 0 none) = .ok (3, k₁) ∧
    fork (reapedKernel 4096 none) = .ok (3, k₂) ∧ k₂.tasks 1 = k₁.tasks 1 := by
  obtain ⟨k₁, hf, -⟩ := reapedKernel_fork 0 none
  obtain ⟨k₂, hf₂, -, hiff⟩ :=
    fork_recycled_iff (reapedKernel_alike 0 4096 none none) hf (by decide)
  exact ⟨k₁, k₂, hf, hf₂, hiff.2 ⟨rfl, rfl, rfl⟩⟩

/-- The file that the former task had open is open in the new one. -/
theorem reapedKernel_leaks :
    waitPass false (reapKernel 0 none) = .ok (.pid 2, reapedKernel 0 none) ∧
    waitPass false (reapKernel 0 (some 5)) = .ok (.pid 2, reapedKernel 0 (some 5)) ∧
    Alike 1 0 (reapedKernel 0 none) (reapedKernel 0 (some 5)) ∧
    ∃ k₁ k₂, fork (reapedKernel 0 none) = .ok (3, k₁) ∧
      fork (reapedKernel 0 (some 5)) = .ok (3, k₂) ∧
      (k₁.tasks 1).ofile 0 = none ∧ (k₂.tasks 1).ofile 0 = some 5 := by
  obtain ⟨k₁, hf₁, hfile₁⟩ := reapedKernel_fork 0 none
  obtain ⟨k₂, hf₂, hfile₂⟩ := reapedKernel_fork 0 (some 5)
  exact ⟨reapKernel_wait 0 none, reapKernel_wait 0 (some 5), reapedKernel_alike 0 0 none (some 5),
    k₁, k₂, hf₁, hf₂, hfile₁, hfile₂⟩

end Task

end Chunix
