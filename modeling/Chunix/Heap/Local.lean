import Chunix.Heap.Paged
import Chunix.Mm.Clone
import Chunix.Mm.Kvm

/-!
# What the heap leaves alone

The heap of a task works on pages of its own: those on the free list, those of the
address space and those that back the heap. Whatever `kmalloc` and `kfree` do, no other
page is written, and no page below `HEAP_START` is mapped elsewhere.
-/

namespace Chunix

namespace Heap

open Machine Kernel

/-- The page frames of the pages of `own`. -/
def OwnFrame (own : Nat → Prop) (p : Nat) : Prop := ∃ v, Mm.IsPage v ∧ own v ∧ p = Mm.v2p v

/-- Only pages of `own` are written, and the pages below the heap stay where they are. -/
structure Inside (own : Nat → Prop) (m m' : Mm) : Prop where
  agree : Mm.AgreeOff (OwnFrame own) m.mem m'.mem
  pte : ∀ va, va < heapStart → Mm.pte m'.mem m'.cr3 va = Mm.pte m.mem m.cr3 va
  regs : m' = { m with mem := m'.mem, freeList := m'.freeList }

section

variable {own : Nat → Prop} {m m₁ m' : Mm} {top a : Nat} {s s' : Mm.Space} {l l' : List Nat}

theorem Inside.refl (own : Nat → Prop) (m : Mm) : Inside own m m :=
  ⟨fun _ _ => rfl, fun _ _ => rfl, rfl⟩

theorem Inside.trans (h : Inside own m m₁) (h' : Inside own m₁ m') : Inside own m m' where
  agree := h.agree.trans h'.agree (fun _ hp => hp) fun _ hp => hp
  pte := fun va hva => (h'.pte va hva).trans (h.pte va hva)
  regs := by rw [h'.regs, h.regs]

/-- Pages of the address space and pages from the list are pages of `own`. -/
theorem Paging.ownFrame {p : Nat} (h : Paging own m top s l) (hp : s.Has p ∨ Mm.framesOf l p) :
    OwnFrame own p := by
  rcases hp with hp | ⟨v, hv, he⟩
  · have hf := h.held.space.isFrame hp
    have hle := hf.le
    have hvp : Mm.v2p (Mm.p2v p) = p := Mm.v2p_p2v (by omega)
    refine ⟨Mm.p2v p, hf.isPage, (h.own _ hf.isPage).2 (Or.inr (Or.inl ?_)), hvp.symm⟩
    rwa [hvp]
  · have hpage := h.held.pool.page v hv
    exact ⟨v, hpage, (h.own v hpage).2 (Or.inl hv), he⟩

/-- The pages below the heap, when their entries are kept. -/
theorem Paging.pte_eq (h : Paging own m top s l) (hs : s'.At m'.mem) (hdir : s'.dir = s.dir)
    (hcr3 : m'.cr3 = m.cr3)
    (hentry : ∀ n, n < firstPage → s'.entry m'.mem n = s.entry m.mem n) {va : Nat}
    (hva : va < heapStart) : Mm.pte m'.mem m'.cr3 va = Mm.pte m.mem m.cr3 va := by
  have hlt : va / 4096 < firstPage := by
    unfold heapStart at hva
    unfold firstPage
    omega
  have hva' : va < 4294967296 := by
    unfold heapStart at hva
    omega
  rw [hcr3, h.cr3, h.held.space.pte_eq hva', ← hdir, hs.pte_eq hva', hentry _ hlt]

theorem Paging.inside_of_extends (h : Paging own m top s l) (hext : Mm.Extends s s' l l' m m')
    (hentry : ∀ n, n < firstPage → s'.entry m'.mem n = s.entry m.mem n) : Inside own m m' where
  agree := fun a ha => hext.agree a fun p hp => ha p (h.ownFrame hp)
  pte := fun va hva => h.pte_eq hext.held.space hext.dir (by rw [hext.regs]) hentry hva
  regs := hext.regs

/-- A page of the heap. -/
theorem Paging.ownFrame_heap {n : Nat} (h : Paging own m top s l) (hn : InHeap top n) :
    OwnFrame own (Mm.pteAddr (s.entry m.mem n)) := by
  obtain ⟨-, v, hv, hu, -⟩ := h.mapped n hn
  exact ⟨v, hu.page, (h.own v hu.page).2 (Or.inr (Or.inr ⟨n, hn, hv⟩)), hv⟩

theorem Paging.inside_vstore8 {b : UInt8} (h : Paging own m top s l) (ha : heapStart ≤ a)
    (ha' : a < top) (hrun : Mm.vstore8 a b m = .ok ((), m')) :
    Inside own m m' ∧ Paging own m' top s l := by
  obtain ⟨v, hw, hv, hin, hu, hvl, hoff⟩ := h.walk ha ha'
  have hlt := h.lt_of_lt_top (Nat.le_of_lt ha')
  obtain ⟨m₁, hstore, h', -⟩ := h.vstore8 ha ha' b
  obtain ⟨-, rfl⟩ := Prod.mk.inj (Except.ok.inj (hstore.symm.trans hrun))
  obtain ⟨-, hm⟩ := Prod.mk.inj (Except.ok.inj
    ((Mm.vstore8_of_walk (b := b) (by rwa [u32_eq_self hlt])).symm.trans hstore))
  have hagree : Mm.AgreeOff (fun p => p = Mm.v2p v) m.mem m₁.mem := by
    intro x hx
    have hnot := hx _ rfl
    have hmod := Nat.mod_lt a (show 0 < 4096 by decide)
    rw [← hm]
    refine Function.update_of_ne (fun he => hnot ?_) _ _
    rw [he]
    exact ⟨Nat.le_add_right _ _, Nat.add_lt_add_left hmod _⟩
  obtain ⟨-, hentry⟩ := h.held.space.agree hagree (fun p hp => hp ▸ hu.page.isFrame)
    fun p hp => hp ▸ hoff
  refine ⟨⟨fun x hx => hagree x fun p hp => hx p ?_, fun va hva => ?_, by rw [← hm]⟩, h'⟩
  · rw [hp, ← hv]
    exact h.ownFrame_heap hin
  · exact h.pte_eq h'.held.space rfl (by rw [← hm]) (fun n _ => hentry n) hva

theorem Paging.inside_vstore32 {w : Nat} (h : Paging own m top s l) (ha : heapStart ≤ a)
    (ha' : a + 4 ≤ top) (hrun : Mm.vstore32 a w m = .ok ((), m')) : Inside own m m' := by
  rw [Mm.vstore32] at hrun
  simp only [Act.bind_eq_ok] at hrun
  obtain ⟨_, m₁, h₁, _, m₂, h₂, _, m₃, h₃, h₄⟩ := hrun
  obtain ⟨hin₁, h⟩ := h.inside_vstore8 ha (by omega) h₁
  obtain ⟨hin₂, h⟩ := h.inside_vstore8 (by omega) (by omega) h₂
  obtain ⟨hin₃, h⟩ := h.inside_vstore8 (by omega) (by omega) h₃
  obtain ⟨hin₄, -⟩ := h.inside_vstore8 (by omega) (by omega) h₄
  exact ((hin₁.trans hin₂).trans hin₃).trans hin₄

/-- A page taken from the list is mapped at `heap_top`. -/
theorem Paging.inside_grow {r perm pa : Nat} {i : Int} (h : Paging own m top s l)
    (hperm : perm < 4096) (hpa : pa < 4294967296) (halloc : Mm.kallocPage m = .ok (r, m₁))
    (hmap : Mm.mappages (Mm.p2v s.dir) top pa 4096 perm m₁ = .ok (i, m')) : Inside own m m' := by
  have hb := h.bounds
  have hen : endPage = 1047551 := rfl
  obtain ⟨l₁, hext, hentry⟩ : ∃ l₁, Mm.Extends s s l l₁ m m₁ ∧
      ∀ j, s.entry m₁.mem j = s.entry m.mem j := by
    rcases Mm.kallocPage_cases h.held.pool halloc with
      ⟨rfl, -, rfl⟩ | ⟨l₁, rfl, -, hpool, hmem, hregs⟩
    · exact ⟨[], Mm.Extends.refl h.held, fun _ => rfl⟩
    · obtain ⟨htake, hentry⟩ := h.held.take rfl hpool hmem hregs (fun _ _ => rfl)
      rw [← hmem] at htake hentry
      exact ⟨l₁, htake, fun j => by rw [hmem]⟩
  have hmapped : ∀ {s' : Mm.Space} {l' : List Nat} {k : Nat} {m₂ : Mm},
      Mm.Mapped s s' l₁ l' m₁ m₂ (top / 4096) k pa perm → Inside own m m₂ := by
    intro s' l' k m₂ hm
    refine h.inside_of_extends (hext.trans hm.toExtends) fun n hn => ?_
    rw [hm.entry, if_neg (by omega), hentry]
  rcases Mm.mappages_spec hext.held (show 0 < 4096 by decide)
    (show top + 4096 ≤ 4294963200 by omega) hpa hperm with
    ⟨s', l', m₂, he, hm⟩ | ⟨s', m₂, k, he, hm, -⟩ | ⟨he, -⟩
  · obtain ⟨-, rfl⟩ := Prod.mk.inj (Except.ok.inj (he.symm.trans hmap))
    exact hmapped hm
  · obtain ⟨-, rfl⟩ := Prod.mk.inj (Except.ok.inj (he.symm.trans hmap))
    exact hmapped hm
  · rw [he] at hmap
    cases hmap

/-- The last page of the heap is unmapped. -/
theorem Paging.inside_shrink (h : Paging own m top s l) (hlow : heapStart + 4096 ≤ top)
    (hrun : Mm.unmapPage (Mm.p2v s.dir) (top - 4096) m = .ok ((), m')) : Inside own m m' := by
  have hb := h.bounds
  have hen : endPage = 1047551 := rfl
  have hfirst : firstPage + 1 ≤ top / 4096 := by
    unfold heapStart at hlow
    unfold firstPage
    omega
  clear hlow
  obtain ⟨n, hn⟩ : ∃ n, n + 1 = top / 4096 := ⟨top / 4096 - 1, by omega⟩
  have hva : top - 4096 = 4096 * n := by omega
  have hin : InHeap top n := ⟨by omega, by omega⟩
  obtain ⟨hp, v, hv, hu, hvl, hoff⟩ := h.mapped n hin
  obtain ⟨t, ht⟩ := Mm.Space.tab_of_present hp
  obtain ⟨-, hframe, -⟩ := h.held.space.tab _ t ht
  obtain ⟨hne, hptr⟩ := Mm.entry_pointer (n := n) hframe
  have hw := @Mm.pgdirWalk_of_some s m n t false h.held.space (by omega) ht
  have hload : Mm.kload (u32 (Mm.p2v t + 4 * (n % 1024))) m = .ok (s.entry m.mem n, m) :=
    Act.gets_eq_ok.2 ⟨by rw [hptr, Mm.Space.entry_of_some ht], rfl⟩
  obtain ⟨m₁, hstore, hext, hset⟩ := h.held.setEntry (w := 0) ht
  have hvv : Mm.v2p (Mm.v2p v) = v := by
    have := hu.page.2.2
    unfold Mm.v2p u32
    omega
  rw [hva, Mm.unmapPage, Act.bind_of_ok hw, if_neg hne] at hrun
  dsimp only at hrun
  rw [Act.bind_of_ok hload, if_neg (not_not.2 hp), hv, hvv, Act.bind_of_ok hstore] at hrun
  obtain ⟨-, rfl⟩ := Mm.kfreePage_eq_ok.1 hrun
  have hin₁ := h.inside_of_extends hext fun j hj => by rw [hset, if_neg (by omega)]
  obtain ⟨hat, hentry⟩ := hext.held.space.agree (Mm.agreeOff_freed (m := m₁) hu.page)
    (fun p hp => hp ▸ hu.page.isFrame) fun p hp => hp ▸ hoff
  refine ⟨hin₁.agree.trans (Mm.agreeOff_freed hu.page) (fun _ hp => hp) fun p hp => ?_,
    fun va hva => ?_, by rw [Mm.freed, hext.regs]⟩
  · rw [hp, ← hv]
    exact h.ownFrame_heap hin
  · refine h.pte_eq hat rfl (by rw [Mm.freed, hext.regs]) (fun j hj => ?_) hva
    rw [hentry, hset, if_neg (by omega)]

end

/-- The heap works inside `own`, and changes no other field of a task than its own. -/
structure Local (own : Nat → Prop) (k k' : Kernel) : Prop where
  mm : Inside own k.mm k'.mm
  kernel : k' = { k with mm := k'.mm, tasks := k'.tasks }
  task : ∀ t, k'.tasks t =
    { k.tasks t with heapStart := (k'.tasks t).heapStart, heapTop := (k'.tasks t).heapTop }

section

variable {own : Nat → Prop} {k k₁ k' : Kernel} {c : Slot} {s : Mm.Space} {l : List Nat}

theorem Local.refl (own : Nat → Prop) (k : Kernel) : Local own k k :=
  ⟨Inside.refl own k.mm, rfl, fun _ => rfl⟩

theorem Local.trans (h : Local own k k₁) (h' : Local own k₁ k') : Local own k k' where
  mm := h.mm.trans h'.mm
  kernel := by rw [h'.kernel, h.kernel]
  task := fun t => by rw [h'.task t, h.task t]

theorem Local.onMm {m' : Mm} (h : Inside own k.mm m') : Local own k { k with mm := m' } :=
  ⟨h, rfl, fun _ => rfl⟩

theorem Local.setTask (own : Nat → Prop) (k : Kernel) (t : Slot) {f : Task → Task}
    (hf : ∀ tp, f tp = { tp with heapStart := (f tp).heapStart, heapTop := (f tp).heapTop }) :
    Local own k (k.setTask t f) := by
  refine ⟨Inside.refl own k.mm, rfl, fun u => ?_⟩
  by_cases hu : u = t
  · subst hu
    rw [setTask_tasks_self]
    exact hf _
  · rw [setTask_tasks_of_ne k f hu]

theorem Local.of_readOnly {α : Type} {x : Act Kernel α} {r : α} (hx : Act.ReadOnly x)
    (h : x k = .ok (r, k')) : Local own k k' :=
  hx _ _ _ h ▸ Local.refl own k

end

/-- The window of a task works inside `own`. -/
theorem taskWindow_stays (own : Nat → Prop) : Stays taskWindow (paged own) (Local own) where
  trans := fun _ _ _ h h' => h.trans h'
  ld := by
    rintro a k r k' - h
    obtain ⟨m, hm, rfl⟩ := onMm_eq_ok.1 h
    rw [Mm.readOnly_vload32 a _ _ _ hm]
    exact Local.refl own k
  st := by
    rintro a w k r k' ⟨c, s, l, h⟩ ha ha' hrun
    rw [show (paged own).view k = taskView k from rfl, h.view_eq] at ha'
    obtain ⟨m, hm, rfl⟩ := onMm_eq_ok.1 hrun
    exact Local.onMm (h.paging.inside_vstore32 ha ha' hm)
  start := by
    rintro k r k' ⟨c, s, l, h⟩ hrun
    cases h.start.symm.trans hrun
    exact Local.refl own k
  setStart := by
    rintro a k r k' ⟨c, s, l, h⟩ hrun
    obtain ⟨c', _, hc, hrun⟩ := Act.bind_eq_ok.1 hrun
    obtain ⟨-, rfl⟩ := getCurrent_eq_ok.1 hc
    rw [← updTask_eq_ok.1 hrun]
    exact Local.setTask own k c' fun _ => rfl
  top := by
    rintro k r k' ⟨c, s, l, h⟩ hrun
    cases h.top.symm.trans hrun
    exact Local.refl own k
  grow := by
    rintro k r k' ⟨c, s, l, h⟩ hrun
    simp only [taskWindow, Act.bind_eq_ok, onMm_eq_ok, getCurrent_eq_ok, Act.gets_eq_ok,
      updTask_eq_ok] at hrun
    obtain ⟨page, _, ⟨m₁, hm₁, rfl⟩, c', _, ⟨hc, rfl⟩, tp, _, ⟨rfl, rfl⟩, i, _, ⟨m₂, hm₂, rfl⟩, rfl⟩ :=
      hrun
    cases h.current.symm.trans hc
    have hm₂' : Mm.mappages (Mm.p2v s.dir) (k.tasks c).heapTop (Mm.v2p (Mm.pteAddr page)) 4096
        (Mm.pteP ||| Mm.pteW) m₁ = .ok (i, m₂) := by
      rw [← h.pgdir]
      exact hm₂
    have hin := h.paging.inside_grow (by decide) (u32_lt _) hm₁ hm₂'
    exact (Local.onMm hin).trans (Local.setTask own _ c fun _ => rfl)
  shrink := by
    rintro k r k' ⟨c, s, l, h⟩ hlow hrun
    rw [show (paged own).view k = taskView k from rfl, h.view_eq] at hlow
    simp only at hlow
    simp only [taskWindow, Act.bind_eq_ok, onMm_eq_ok, getCurrent_eq_ok, Act.gets_eq_ok,
      updTask_eq_ok] at hrun
    obtain ⟨c', _, ⟨hc, rfl⟩, _, _, rfl, tp, _, ⟨rfl, rfl⟩, page, _, ⟨m₁, hm₁, rfl⟩, hrun⟩ := hrun
    cases h.current.symm.trans hc
    rcases Act.ite_eq_ok.1 hrun with ⟨-, hrun⟩ | ⟨-, hrun⟩
    · cases hrun
    obtain ⟨m₂, hm₂, rfl⟩ := onMm_eq_ok.1 hrun
    have hself := setTask_tasks_self k c
      fun tp => { tp with heapTop := u32 (tp.heapTop + 4294963200) }
    have htop : u32 ((k.tasks c).heapTop + 4294963200) = (k.tasks c).heapTop - 4096 := by
      have := h.paging.lt_of_lt_top (Nat.le_refl _)
      unfold heapStart at hlow
      unfold u32
      omega
    rw [hself] at hm₁ hm₂
    simp only [htop, h.pgdir] at hm₁ hm₂
    have hwalk : m₁ = k.mm := by
      obtain ⟨p, _, _, hw, -⟩ := h.paging.shrink hlow
      cases hw.symm.trans hm₁
      rfl
    subst hwalk
    have hin := h.paging.inside_shrink hlow hm₂
    have htask := Local.setTask own k c
      (f := fun tp => { tp with heapTop := u32 (tp.heapTop + 4294963200) }) fun _ => rfl
    exact htask.trans ⟨hin, rfl, fun _ => rfl⟩

section

variable {own : Nat → Prop} {k k' : Kernel} {live : List Block} {cs : List Chunk}

/-- `kmalloc` works inside `own`. -/
theorem Inv.kmalloc_local {n p : Nat} (h : Inv (paged own) ⟨k, live⟩ cs)
    (hroom : Room (taskView k) n) (hn : n + 12 < 4294967296)
    (hk : Heap.kmalloc taskWindow n k = .ok (p, k')) :
    Inv (paged own) ⟨k', ⟨p, n⟩ :: live⟩ (malloc (n + 12) cs) ∧ Local own k k' := by
  have hlaw := (taskWindow_lawful own).since (taskWindow_stays own) k
  have hinv := (h.since (R := Local own) (Local.refl own k)).kmalloc hlaw hroom hn hk
  exact ⟨h.kmalloc (taskWindow_lawful own) hroom hn hk, hinv.ok.2⟩

/-- `kfree` works inside `own`. -/
theorem Inv.kfree_local {b : Block} (h : Inv (paged own) ⟨k, live⟩ cs) (hb : b ∈ live)
    (hk : Heap.kfree taskWindow b.ptr k = .ok ((), k')) :
    (∃ cs', Inv (paged own) ⟨k', live.erase b⟩ cs') ∧ Local own k k' := by
  have hlaw := (taskWindow_lawful own).since (taskWindow_stays own) k
  obtain ⟨_, -, hinv⟩ := (h.since (R := Local own) (Local.refl own k)).kfree hlaw hb hk
  obtain ⟨o, -, hinv'⟩ := h.kfree (taskWindow_lawful own) hb hk
  exact ⟨⟨_, hinv'⟩, hinv.ok.2⟩

end

end Heap

end Chunix
