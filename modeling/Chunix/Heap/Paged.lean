import Chunix.Heap.Paging
import Chunix.Task.Spec

/-!
# The heap of a task

The window of the heap that the kernel really has: words are read and written
through the page tables in CR3, `heap_start` and `heap_top` are fields of the
current task, and a page at `heap_top` is taken from the free list and mapped, or
unmapped and given back. The window is lawful, so what holds on lawful windows
holds for the heap of a task.
-/

namespace Chunix

namespace Heap

open Machine Kernel

/-- The operations of the heap on the current task. `grow` is the body of the loop
of `alloc_chunk`, which ignores whether `kalloc_page` and `mappages` fail, and
`shrink` is the body of the loop of `free_chunk`. -/
def taskWindow : Window Kernel where
  ld a := onMm (Mm.vload32 a)
  st a w := onMm (Mm.vstore32 a w)
  start := do
    let c ← getCurrent
    Act.gets fun k => (k.tasks c).heapStart
  setStart a := do
    let c ← getCurrent
    updTask c fun tp => { tp with heapStart := a }
  top := do
    let c ← getCurrent
    Act.gets fun k => (k.tasks c).heapTop
  grow := do
    let page ← onMm Mm.kallocPage
    let c ← getCurrent
    let tp ← Act.gets fun k => k.tasks c
    let _ ← onMm (Mm.mappages tp.pgdir tp.heapTop (Mm.v2p (Mm.pteAddr page)) 4096
      (Mm.pteP ||| Mm.pteW))
    updTask c fun tp => { tp with heapTop := u32 (tp.heapTop + 4096) }
  shrink := do
    let c ← getCurrent
    updTask c fun tp => { tp with heapTop := u32 (tp.heapTop + 4294963200) }
    let tp ← Act.gets fun k => k.tasks c
    let page ← onMm (Mm.pgdirWalk tp.pgdir tp.heapTop false)
    if page = 0 then
      Act.halt (.panic "ASSERTION FAILED!!")
    onMm (Mm.unmapPage tp.pgdir tp.heapTop)

/-- The current task runs in the address space `s` with the free list `l`. -/
structure Paged (own : Nat → Prop) (k : Kernel) (c : Slot) (s : Mm.Space) (l : List Nat) :
    Prop where
  current : k.current = some c
  pgdir : (k.tasks c).pgdir = Mm.p2v s.dir
  paging : Paging own k.mm (k.tasks c).heapTop s l

/-- The current task. -/
def curTask (k : Kernel) : Task := (k.current.map k.tasks).getD Task.zero

/-- The heap of the current task as the proofs see it. A page of the heap is counted
twice among the pages to be had, which is what the laws allow it to take. -/
def taskView (k : Kernel) : View :=
  ⟨heapMem k.mm (curTask k).heapTop, (curTask k).heapTop, (curTask k).heapStart,
    2 * capacity k.mm (curTask k).heapTop⟩

namespace Paged

variable {own : Nat → Prop} {k : Kernel} {c : Slot} {s : Mm.Space} {l : List Nat} {a : Nat}

theorem view_eq (h : Paged own k c s l) : taskView k =
    ⟨heapMem k.mm (k.tasks c).heapTop, (k.tasks c).heapTop, (k.tasks c).heapStart,
      2 * capacity k.mm (k.tasks c).heapTop⟩ := by
  simp only [taskView, curTask, h.current, Option.map_some, Option.getD_some]

theorem getCurrent (h : Paged own k c s l) : getCurrent k = .ok (c, k) :=
  getCurrent_eq_ok.2 ⟨h.current, rfl⟩

/-- A change of the memory and of the heap fields. -/
theorem change {m : Mm} {f : Task → Task} {s' : Mm.Space} {l' : List Nat} (h : Paged own k c s l)
    (hf : ∀ tp, (f tp).pgdir = tp.pgdir) (hdir : s'.dir = s.dir)
    (hm : Paging own m (f (k.tasks c)).heapTop s' l') :
    Paged own (({ k with mm := m } : Kernel).setTask c f) c s' l' ∧
      taskView (({ k with mm := m } : Kernel).setTask c f) =
        ⟨heapMem m (f (k.tasks c)).heapTop, (f (k.tasks c)).heapTop, (f (k.tasks c)).heapStart,
          2 * capacity m (f (k.tasks c)).heapTop⟩ := by
  have hself := setTask_tasks_self ({ k with mm := m } : Kernel) c f
  have h' : Paged own (({ k with mm := m } : Kernel).setTask c f) c s' l' := by
    refine ⟨h.current, ?_, ?_⟩
    · rw [hself, hf, hdir]
      exact h.pgdir
    · rw [hself]
      exact hm
  refine ⟨h', ?_⟩
  rw [h'.view_eq, hself]
  rfl

theorem ld (h : Paged own k c s l) (ha : heapStart ≤ a) (ha' : a + 4 ≤ (taskView k).top) :
    taskWindow.ld a k = .ok (load32 (taskView k).mem a, k) := by
  rw [h.view_eq] at ha' ⊢
  exact onMm_eq_ok.2 ⟨k.mm, h.paging.vload32 ha ha', rfl⟩

theorem st (h : Paged own k c s l) (ha : heapStart ≤ a) (ha' : a + 4 ≤ (taskView k).top) (w : Nat) :
    ∃ k', taskWindow.st a w k = .ok ((), k') ∧ Paged own k' c s l ∧
      taskView k' = (taskView k).store a w := by
  rw [h.view_eq] at ha' ⊢
  obtain ⟨m', hs, hp, hmem⟩ := h.paging.vstore32 ha ha' w
  have h' : Paged own { k with mm := m' } c s l := ⟨h.current, h.pgdir, hp⟩
  have hcap := Nat.le_antisymm (hp.capacity_le h.paging) (h.paging.capacity_le hp)
  refine ⟨_, onMm_eq_ok.2 ⟨m', hs, rfl⟩, h', ?_⟩
  rw [h'.view_eq]
  simp only [View.store, hmem, hcap]

theorem start (h : Paged own k c s l) : taskWindow.start k = .ok ((taskView k).start, k) := by
  rw [h.view_eq]
  exact Act.bind_of_ok h.getCurrent

theorem top (h : Paged own k c s l) : taskWindow.top k = .ok ((taskView k).top, k) := by
  rw [h.view_eq]
  exact Act.bind_of_ok h.getCurrent

theorem setStart (h : Paged own k c s l) (a : Nat) :
    ∃ k', taskWindow.setStart a k = .ok ((), k') ∧ Paged own k' c s l ∧
      taskView k' = { taskView k with start := a } := by
  obtain ⟨h', hview⟩ := h.change (m := k.mm) (f := fun tp => { tp with heapStart := a })
    (fun _ => rfl) rfl h.paging
  rw [h.view_eq]
  exact ⟨_, Act.bind_of_ok h.getCurrent, h', hview⟩

theorem grow (h : Paged own k c s l) (hend : (taskView k).top + 4096 ≤ heapEnd)
    (havail : 2 ≤ (taskView k).avail) :
    ∃ k' s' l', taskWindow.grow k = .ok ((), k') ∧ Paged own k' c s' l' ∧
      (taskView k').top = (taskView k).top + 4096 ∧ (taskView k').start = (taskView k).start ∧
      (taskView k).avail ≤ (taskView k').avail + 2 ∧
      ∀ a, a < (taskView k).top → (taskView k').mem a = (taskView k).mem a := by
  rw [h.view_eq] at hend havail ⊢
  simp only at hend havail ⊢
  obtain ⟨v, m₁, m', s', l', hr, hr', hdir, hp, hcap, hheap⟩ := h.paging.grow (by omega)
  have htop : u32 ((k.tasks c).heapTop + 4096) = (k.tasks c).heapTop + 4096 := by
    unfold heapEnd at hend
    exact u32_eq_self (by omega)
  obtain ⟨h', hview⟩ := h.change (m := m')
    (f := fun tp => { tp with heapTop := u32 (tp.heapTop + 4096) }) (fun _ => rfl) hdir
    (by simp only; rw [htop]; exact hp)
  refine ⟨_, s', l', ?_, h', ?_⟩
  · rw [← h.pgdir] at hr'
    have hcur : Kernel.getCurrent ({ k with mm := m₁ } : Kernel) = .ok (c, { k with mm := m₁ }) :=
      getCurrent_eq_ok.2 ⟨h.current, rfl⟩
    refine (Act.bind_of_ok (onMm_eq_ok.2 ⟨m₁, hr, rfl⟩)).trans ?_
    refine (Act.bind_of_ok hcur).trans ?_
    refine (Act.bind_of_ok (Act.gets_eq_ok.2 ⟨rfl, rfl⟩)).trans ?_
    exact (Act.bind_of_ok (onMm_eq_ok.2 ⟨m', hr', rfl⟩)).trans rfl
  · rw [hview]
    simp only [htop]
    exact ⟨trivial, trivial, by omega, hheap⟩

theorem shrink (h : Paged own k c s l) (hlow : heapStart + 4096 ≤ (taskView k).top) :
    ∃ k' v, taskWindow.shrink k = .ok ((), k') ∧ Paged own k' c s (v :: l) ∧
      (taskView k').top + 4096 = (taskView k).top ∧ (taskView k').start = (taskView k).start ∧
      (taskView k).avail + 2 ≤ (taskView k').avail ∧
      ∀ a, a < (taskView k').top → (taskView k').mem a = (taskView k).mem a := by
  rw [h.view_eq] at hlow ⊢
  simp only at hlow ⊢
  obtain ⟨p, m', v, hw, hne, hun, hp, hcap, hheap⟩ := h.paging.shrink hlow
  have htop : u32 ((k.tasks c).heapTop + 4294963200) = (k.tasks c).heapTop - 4096 := by
    have := h.paging.lt_of_lt_top (Nat.le_refl _)
    unfold heapStart at hlow
    unfold u32
    omega
  obtain ⟨h', hview⟩ := h.change (m := m')
    (f := fun tp => { tp with heapTop := u32 (tp.heapTop + 4294963200) }) (fun _ => rfl) rfl
    (by simp only; rw [htop]; exact hp)
  refine ⟨_, v, ?_, h', ?_⟩
  · generalize hf : (fun tp : Task => { tp with heapTop := u32 (tp.heapTop + 4294963200) }) = f
    have hself := setTask_tasks_self k c f
    have hpgdir : ((k.setTask c f).tasks c).pgdir = Mm.p2v s.dir := by
      rw [hself, ← hf]
      exact h.pgdir
    have hheapTop : ((k.setTask c f).tasks c).heapTop = (k.tasks c).heapTop - 4096 := by
      rw [hself, ← hf]
      exact htop
    rw [← hpgdir, ← hheapTop] at hw hun
    refine (Act.bind_of_ok h.getCurrent).trans ?_
    refine (Act.bind_of_ok (t := k.setTask c f) (a := ()) (by rw [← hf]; rfl)).trans ?_
    refine (Act.bind_of_ok (Act.gets_eq_ok.2 ⟨rfl, rfl⟩)).trans ?_
    refine (Act.bind_of_ok ((onMm_eq_ok (k := k.setTask c f)).2 ⟨_, hw, rfl⟩)).trans ?_
    rw [if_neg hne]
    exact (onMm_eq_ok (k := k.setTask c f)).2 ⟨m', hun, rfl⟩
  · rw [hview]
    simp only [htop]
    exact ⟨by unfold heapStart at hlow; omega, trivial, by omega, hheap⟩

end Paged

/-- The heap of the current task. -/
def paged (own : Nat → Prop) : Abstraction Kernel View where
  ok k := ∃ c s l, Paged own k c s l
  view := taskView

/-- The heap of the current task in a fixed address space, which can only shrink. -/
def pagedIn (own : Nat → Prop) (s : Mm.Space) : Abstraction Kernel View where
  ok k := ∃ c l, Paged own k c s l
  view k := { taskView k with avail := 0 }

/-- The window of a task is lawful. -/
theorem taskWindow_lawful (own : Nat → Prop) : Lawful taskWindow (paged own) where
  top_le := by
    rintro k ⟨c, s, l, h⟩
    change (taskView k).top ≤ heapEnd
    rw [h.view_eq]
    exact h.paging.high
  ld := by
    rintro v a ha ha' k ⟨c, s, l, h⟩ rfl
    exact ⟨_, k, h.ld ha ha', ⟨c, s, l, h⟩, rfl, rfl⟩
  st := by
    rintro v a w ha ha' k ⟨c, s, l, h⟩ rfl
    obtain ⟨k', hk, h', hview⟩ := h.st ha ha' w
    exact ⟨(), k', hk, ⟨c, s, l, h'⟩, rfl, hview⟩
  start := by
    rintro v k ⟨c, s, l, h⟩ rfl
    exact ⟨_, k, h.start, ⟨c, s, l, h⟩, rfl, rfl⟩
  setStart := by
    rintro v a k ⟨c, s, l, h⟩ rfl
    obtain ⟨k', hk, h', hview⟩ := h.setStart a
    exact ⟨(), k', hk, ⟨c, s, l, h'⟩, rfl, hview⟩
  top := by
    rintro v k ⟨c, s, l, h⟩ rfl
    exact ⟨_, k, h.top, ⟨c, s, l, h⟩, rfl, rfl⟩
  grow := by
    rintro v - hend havail k ⟨c, s, l, h⟩ rfl
    obtain ⟨k', s', l', hk, h', hview⟩ := h.grow hend havail
    exact ⟨(), k', hk, ⟨c, s', l', h'⟩, hview⟩
  shrink := by
    rintro v hlow k ⟨c, s, l, h⟩ rfl
    obtain ⟨k', v, hk, h', htop, hstart, havail, hmem⟩ := h.shrink hlow
    exact ⟨(), k', hk, ⟨c, s, v :: l, h'⟩, htop, hstart, Nat.le_of_add_right_le havail, hmem⟩

/-- It is lawful as well when no page is to be had, and keeps the address space then. -/
theorem taskWindow_lawfulIn (own : Nat → Prop) (s : Mm.Space) :
    Lawful taskWindow (pagedIn own s) where
  top_le := by
    rintro k ⟨c, l, h⟩
    change (taskView k).top ≤ heapEnd
    rw [h.view_eq]
    exact h.paging.high
  ld := by
    rintro v a ha ha' k ⟨c, l, h⟩ rfl
    exact ⟨_, k, h.ld ha ha', ⟨c, l, h⟩, rfl, rfl⟩
  st := by
    rintro v a w ha ha' k ⟨c, l, h⟩ rfl
    obtain ⟨k', hk, h', hview⟩ := h.st ha ha' w
    refine ⟨(), k', hk, ⟨c, l, h'⟩, rfl, ?_⟩
    simp only [pagedIn, hview, View.store]
  start := by
    rintro v k ⟨c, l, h⟩ rfl
    exact ⟨_, k, h.start, ⟨c, l, h⟩, rfl, rfl⟩
  setStart := by
    rintro v a k ⟨c, l, h⟩ rfl
    obtain ⟨k', hk, h', hview⟩ := h.setStart a
    refine ⟨(), k', hk, ⟨c, l, h'⟩, rfl, ?_⟩
    simp only [pagedIn, hview]
  top := by
    rintro v k ⟨c, l, h⟩ rfl
    exact ⟨_, k, h.top, ⟨c, l, h⟩, rfl, rfl⟩
  grow := by
    rintro v - - havail k - rfl
    exact absurd havail (by simp [pagedIn])
  shrink := by
    rintro v hlow k ⟨c, l, h⟩ rfl
    obtain ⟨k', v, hk, h', htop, hstart, -, hmem⟩ := h.shrink hlow
    exact ⟨(), k', hk, ⟨c, v :: l, h'⟩, htop, hstart, Nat.le_refl _, hmem⟩

end Heap

end Chunix
