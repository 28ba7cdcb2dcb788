import Chunix.Exec.Load
import Chunix.Heap.Local

/-!
# The heap of a task that loads a program

The file lies in a block of the heap, whose pages are pages of the caller like those of
the user. `Running` joins the two: loading a segment keeps the heap, and what `kmalloc` and
`kfree` do leaves the pages of the user, the new directory and the copies alone.
-/

namespace Chunix

namespace Exec

open Machine Kernel

/-- The pages of the free list, of the address space and of the heap. -/
def owned (x : Stage) (top v : Nat) : Prop :=
  v ∈ x.l ∨ x.s.Has (Mm.v2p v) ∨ Heap.Backs x.s x.m.mem top v

/-- The task `c` runs at the stage `x`: the pages of `U` are those of the user and those of
its heap, and the tables of the address space are pages that can be freed. -/
structure Running (own : Nat → Prop) (k : Kernel) (c : Slot) (x : Stage) : Prop where
  mm : k.mm = x.m
  paged : Heap.Paged own k c x.s x.l
  heap : ∀ n, Heap.InHeap (k.tasks c).heapTop n → x.U n
  bound : ∀ n, x.U n → n < 524288 ∨ Heap.InHeap (k.tasks c).heapTop n
  tables : ∀ p, x.s.Has p → Mm.InRange x.m (Mm.p2v p)

section

variable {own : Nat → Prop} {k k' : Kernel} {c : Slot} {x y : Stage}

/-- A page that the heap can use can be freed. -/
theorem usable_inRange {m : Mm} {v p : Nat} (h : Heap.Usable m v) (he : p = Mm.v2p v) :
    Mm.InRange m (Mm.p2v p) := by
  rw [he, Mm.p2v_v2p h.page.2.2]
  exact ⟨h.low, h.high⟩

theorem Running.paging (h : Running own k c x) :
    Heap.Paging own x.m (k.tasks c).heapTop x.s x.l := h.mm ▸ h.paged.paging

/-- A page that is off is one of `own` only if it is a page of the heap. -/
theorem Running.heap_of_own {p : Nat} (h : Running own k c x) (hoff : Mm.Off x.s x.d x.l p)
    (hp : Heap.OwnFrame own p) :
    ∃ n, Heap.InHeap (k.tasks c).heapTop n ∧ x.s.frame x.m.mem n = p := by
  obtain ⟨v, hv, hown, he⟩ := hp
  rcases (h.paging.own v hv).1 hown with hl | hs | ⟨n, hn, hb⟩
  · exact absurd ⟨v, hl, he⟩ hoff.2.2
  · exact absurd (he ▸ hs) hoff.1
  · exact ⟨n, hn, hb.trans he.symm⟩

theorem Running.not_own_user {n : Nat} (h : Running own k c x) (hn : n < 524288) (hU : x.U n) :
    ¬ Heap.OwnFrame own (x.s.frame x.m.mem n) := by
  intro hp
  obtain ⟨j, hj, he⟩ := h.heap_of_own (x.loading.frame n hU).2 hp
  have hjn := x.loading.inj j n (h.heap j hj) hU he
  have hlow := hj.1
  unfold Heap.firstPage at hlow
  omega

theorem Running.not_own_copy {n : Nat} (h : Running own k c x) (hC : x.C n) :
    ¬ Heap.OwnFrame own (x.d.frame x.m.mem n) := by
  intro hp
  obtain ⟨j, hj, he⟩ := h.heap_of_own (x.loading.copied n hC).2.2 hp
  exact x.loading.own j n (h.heap j hj) hC he

theorem Running.not_own_program {p : Nat} (h : Running own k c x) (hp : x.d.Has p) :
    ¬ Heap.OwnFrame own p := by
  rintro ⟨v, hv, hown, he⟩
  rcases (h.paging.own v hv).1 hown with hl | hs | ⟨n, hn, hb⟩
  · exact x.loading.program.off v hl (he ▸ hp)
  · exact x.loading.apart.space _ hs (he ▸ hp)
  · have hf : x.s.frame x.m.mem n = p := hb.trans he.symm
    exact (x.loading.frame n (h.heap n hn)).2.2.1 (hf ▸ hp)

/-- Loading keeps the heap. -/
theorem Running.later (h : Running own k c x) (hlater : Later x y) :
    Running (owned y (k.tasks c).heapTop) { k with mm := y.m } c y := by
  have hpaging := h.paging
  have hb := hpaging.bounds
  have hst : Heap.firstPage = 851968 := rfl
  have husable : ∀ v, Heap.Usable x.m v → Heap.Usable y.m v := by
    intro v hv
    rw [hlater.regs]
    exact ⟨hv.page, hv.low, hv.high⟩
  have hentry : ∀ n, Heap.InHeap (k.tasks c).heapTop n →
      y.s.entry y.m.mem n = x.s.entry x.m.mem n :=
    fun n hn => hlater.entry n (Or.inr (h.heap n hn))
  refine ⟨rfl, ⟨h.paged.current, ?_, ⟨y.loading.cr3, y.loading.caller, hpaging.low, hpaging.high,
    hpaging.aligned, ?_, ?_, ?_, ?_, fun v _ => Iff.rfl⟩⟩, fun n hn => hlater.user n (h.heap n hn),
    fun n hn => (hlater.low n hn).elim Or.inl (h.bound n), ?_⟩
  · rw [hlater.caller]
    exact h.paged.pgdir
  · intro n hn
    obtain ⟨hp, v, hv, hu, hvl, -⟩ := hpaging.mapped n hn
    have hoff := (y.loading.frame n (hlater.user n (h.heap n hn))).2.1
    rw [hentry n hn]
    refine ⟨hp, v, hv, husable v hu, fun hm => hvl (hlater.list v hm), fun hs => hoff ?_⟩
    rw [Mm.Space.frame, hentry n hn, hv]
    exact hs
  · intro n n' hn hn'
    rw [hentry n hn, hentry n' hn']
    exact hpaging.inj n n' hn hn'
  · intro n (hn : (k.tasks c).heapTop / 4096 ≤ n) hn'
    rw [hlater.entry n (Or.inl (by omega))]
    exact hpaging.absent n hn hn'
  · exact fun v hv => husable v (hpaging.usable v (hlater.list v hv))
  · intro p hp
    rw [hlater.regs]
    change Mm.InRange x.m _
    rcases hlater.origin p hp with hp | ⟨v, hv, he⟩
    · exact h.tables p hp
    · exact usable_inRange (hpaging.usable v hv) he

/-- The heap holds what it held when its bytes are the same. -/
theorem Running.inv_later {live : List Heap.Block} {cs : List Heap.Chunk} (h : Running own k c x)
    (hlater : Later x y) (hinv : Heap.Inv (Heap.paged own) ⟨k, live⟩ cs)
    (hview : ∀ a, 2147483648 ≤ a → x.U (a / 4096) → y.view a = x.view a) :
    Heap.Inv (Heap.paged (owned y (k.tasks c).heapTop)) ⟨{ k with mm := y.m }, live⟩ cs := by
  have h' := h.later hlater
  have hmem : Heap.heapMem y.m (k.tasks c).heapTop = Heap.heapMem x.m (k.tasks c).heapTop := by
    funext a
    by_cases ha : Heap.heapStart ≤ a ∧ a < (k.tasks c).heapTop
    · have hb := h.paging.bounds
      have hlow := ha.1
      rw [Heap.heapStart_eq] at hlow
      rw [h'.paging.heapMem_eq ha.1 ha.2, h.paging.heapMem_eq ha.1 ha.2]
      refine hview a ?_ (h.heap _ ⟨?_, ?_⟩)
      · unfold Heap.firstPage at hlow
        omega
      · omega
      · omega
    · rw [Heap.heapMem, if_neg ha, Heap.heapMem, if_neg ha]
  have hx := hinv.holds
  rw [show (Heap.paged own).view k = Heap.taskView k from rfl, h.paged.view_eq, h.mm] at hx
  refine ⟨⟨c, y.s, y.l, h'.paged⟩, ?_, hinv.backed, hinv.nodup⟩
  rw [show (Heap.paged (owned y (k.tasks c).heapTop)).view { k with mm := y.m } =
    Heap.taskView { k with mm := y.m } from rfl, h'.paged.view_eq]
  simp only [hmem]
  exact ⟨hx.start, hx.seg, hx.sized, hx.tidy, hx.top, hx.fits⟩

theorem isFrame_of_ownFrame {p : Nat} (h : Heap.OwnFrame own p) : Mm.IsFrame p := by
  obtain ⟨v, hv, -, he⟩ := h
  exact he ▸ hv.isFrame

/-- A page that is not one of `own` is off whatever the heap has made of its own. -/
theorem off_of_not_own {d s' : Mm.Space} {l' : List Nat} {m' : Mm} {top p : Nat}
    (h : Heap.Paging own m' top s' l') (hp : ¬ Heap.OwnFrame own p) (hd : ¬ d.Has p) :
    Mm.Off s' d l' p :=
  ⟨fun hs => hp (h.ownFrame (Or.inl hs)), hd, fun hl => hp (h.ownFrame (Or.inr hl))⟩

/-- An operation of the heap leaves everything else alone. -/
theorem Running.heap_step {s' : Mm.Space} {l' : List Nat} (h : Running own k c x)
    (hlocal : Heap.Local own k k') (hpaged : Heap.Paged own k' c s' l') :
    ∃ y : Stage, Running own k' c y ∧ y.s = s' ∧ y.d = x.d ∧ y.l = l' ∧ y.C = x.C ∧
      (∀ n, n < 524288 → (y.U n ↔ x.U n)) ∧
      (∀ n, n < 524288 → y.s.entry y.m.mem n = x.s.entry x.m.mem n) ∧
      (∀ j, y.d.entry y.m.mem j = x.d.entry x.m.mem j) ∧
      (∀ a, a < 2147483648 → x.U (a / 4096) → y.view a = x.view a) ∧
      ∀ a, x.C (a / 4096) → y.image a = x.image a := by
  have hin := hlocal.mm
  rw [h.mm] at hin
  have hpg := hpaged.paging
  have hP : ∀ p, Heap.OwnFrame own p → Mm.IsFrame p := fun p => isFrame_of_ownFrame
  have hs : ∀ n, n < 524288 → s'.entry k'.mm.mem n = x.s.entry x.m.mem n := by
    intro n hn
    have hpte := hin.pte (4096 * n) (by unfold Heap.heapStart; omega)
    rw [hpg.cr3, x.loading.cr3, hpg.held.space.pte_eq (by omega),
      x.loading.caller.space.pte_eq (by omega), Nat.mul_div_cancel_left n (by decide)] at hpte
    exact hpte
  have hsf : ∀ n, n < 524288 → s'.frame k'.mm.mem n = x.s.frame x.m.mem n :=
    fun n hn => frame_congr (hs n hn)
  obtain ⟨hdat, hd⟩ := x.loading.program.space.agree hin.agree hP fun p hp hdp =>
    h.not_own_program hdp hp
  have hdf : ∀ n, x.d.frame k'.mm.mem n = x.d.frame x.m.mem n := fun n => frame_congr (hd n)
  have hheap : ∀ n, Heap.InHeap (k'.tasks c).heapTop n →
      Heap.OwnFrame own (s'.frame k'.mm.mem n) := fun n hn => hpg.ownFrame_heap hn
  have hloading : Loading k'.mm s' x.d l'
      (fun n => n < 524288 ∧ x.U n ∨ Heap.InHeap (k'.tasks c).heapTop n) x.C := by
    refine ⟨hpg.cr3, hpg.held, ⟨hdat, hpg.held.pool, fun v hv hdv => h.not_own_program hdv
      (hpg.ownFrame (Or.inr ⟨v, hv, rfl⟩))⟩, ⟨fun p hp hdp => h.not_own_program hdp
      (hpg.ownFrame (Or.inl hp)), ?_⟩, ?_, ?_, ?_, ?_, ?_, ?_⟩
    · rintro p hp ⟨v, hv, he⟩
      exact hpg.held.off v hv (he ▸ hp)
    · intro n hn hp
      rw [hs n hn] at hp
      exact Or.inl ⟨hn, x.loading.user n hn hp⟩
    · rintro n (⟨hn, hU⟩ | hn)
      · rw [hs n hn]
        exact x.loading.present n hU
      · exact (hpg.mapped n hn).1
    · rintro n (⟨hn, hU⟩ | hn)
      · rw [hsf n hn]
        exact ⟨(x.loading.frame n hU).1,
          off_of_not_own hpg (h.not_own_user hn hU) (x.loading.frame n hU).2.2.1⟩
      · obtain ⟨-, v, hv, hu, hvl, hoff⟩ := hpg.mapped n hn
        have hf : s'.frame k'.mm.mem n = Mm.v2p v := hv
        refine ⟨hP _ (hheap n hn), ?_, fun hdp => h.not_own_program hdp (hheap n hn), ?_⟩
        · rw [hf]
          exact hoff
        · rw [hf]
          exact fun hl => hvl (Mm.mem_of_framesOf hpg.held.pool hu.page hl)
    · rintro n j (⟨hn, hU⟩ | hn) (⟨hj, hU'⟩ | hj) he
      · rw [hsf n hn, hsf j hj] at he
        exact x.loading.inj n j hU hU' he
      · rw [hsf n hn] at he
        exact absurd (he.symm ▸ hheap j hj) (h.not_own_user hn hU)
      · rw [hsf j hj] at he
        exact absurd (he ▸ hheap n hn) (h.not_own_user hj hU')
      · exact hpg.inj n j hn hj he
    · intro n hn
      rw [hd, hdf]
      obtain ⟨hp, hf, hoff⟩ := x.loading.copied n hn
      exact ⟨hp, hf, off_of_not_own hpg (h.not_own_copy hn) hoff.2.1⟩
    · rintro n j (⟨hn, hU⟩ | hn) hC
      · rw [hsf n hn, hdf]
        exact x.loading.own n j hU hC
      · rw [hdf]
        exact fun he => h.not_own_copy hC (he ▸ hheap n hn)
  refine ⟨⟨k'.mm, s', x.d, l', _, x.C, hloading⟩, ⟨rfl, hpaged, fun n hn => Or.inr hn, ?_, ?_⟩, rfl,
    rfl, rfl, rfl, ?_, hs, hd, ?_, ?_⟩
  · exact fun n hn => hn.imp_left And.left
  · intro p hp
    change Mm.InRange k'.mm _
    rw [hin.regs]
    change Mm.InRange x.m _
    obtain ⟨v, hv, hown, he⟩ := hpg.ownFrame (Or.inl hp)
    rcases (h.paging.own v hv).1 hown with hl | hs | ⟨n, hn, hb⟩
    · exact usable_inRange (h.paging.usable v hl) he
    · exact he ▸ h.tables _ hs
    · obtain ⟨-, u, hu, husable, -⟩ := h.paging.mapped n hn
      exact usable_inRange husable (he.trans (hb.symm.trans hu))
  · intro n hn
    refine ⟨fun hU => hU.elim And.right fun hh => ?_, fun hU => Or.inl ⟨hn, hU⟩⟩
    have hlow := hh.1
    unfold Heap.firstPage at hlow
    omega
  · intro a ha hU
    exact byte_agree hin.agree hP (x.loading.frame _ hU).1 (h.not_own_user (by omega) hU)
      (hs _ (by omega))
  · intro a ha
    exact byte_agree hin.agree hP (x.loading.copied _ ha).2.1 (h.not_own_copy ha) (hd _)

end

end Exec

end Chunix
