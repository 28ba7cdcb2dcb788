import Chunix.Heap.Paged

/-!
# The pages of the heap along runs

What holds on lawful windows is read off for the heap of a task: along every run
whose requests find room and do not wrap around, the heap pages are mapped exactly
up to `heap_top`, each to a page of its own, and when all blocks are given back all
these pages are on the free list again. A request that finds no page does not fail
with the null pointer: the kernel goes on and faults.
-/

namespace Chunix

namespace Heap

open Machine Kernel

/-- Every chunk in use belongs to a block that is held. -/
def Covered (live : List Block) (cs : List Chunk) : Prop :=
  ∀ c ∈ usedAt heapStart cs, ∃ b ∈ live, b.ptr = c.1 + 12

/-- A heap without chunks in use has no chunks. -/
theorem eq_nil_of_covered {cs : List Chunk} (ht : Tidy cs) (h : Covered [] cs) : cs = [] := by
  cases hl : cs.getLast? with
  | none => exact List.getLast?_eq_none_iff.1 hl
  | some c =>
      obtain ⟨l, rfl⟩ := List.getLast?_eq_some_iff.1 hl
      have hc := (tidy_iff.1 ht).2 l c rfl
      have hmem : (heapStart + total l, c.len) ∈ usedAt heapStart (l ++ [c]) := by
        simp [usedAt_append, usedAt, hc]
      obtain ⟨b, hb, -⟩ := h _ hmem
      cases hb

section

variable {σ : Type} {W : Window σ} {A : Abstraction σ View} (hW : Lawful W A)

include hW

/-- One step keeps the chunks in use and the blocks together. -/
theorem covered_step {c c' : Client σ} {e : Call} (h : ∃ cs, Inv A c cs ∧ Covered c.live cs)
    (hs : GoodStep W A c e c') : ∃ cs, Inv A c' cs ∧ Covered c'.live cs := by
  obtain ⟨cs, h, hcov⟩ := h
  obtain ⟨⟨hs, hroom⟩, hn⟩ := hs
  cases hs with
  | @kmalloc s s' live n p hk =>
      obtain ⟨-, hp, -⟩ := (h.total_kmalloc hW (hroom n rfl) (hn n rfl)).of_eq_ok h.ok rfl hk
      obtain ⟨len, -, hused⟩ := exists_mem_usedAt_malloc (n + 12) heapStart cs
      refine ⟨_, h.kmalloc hW (hroom n rfl) (hn n rfl) hk, fun c hc => ?_⟩
      rcases (hused c).1 hc with rfl | hc
      · exact ⟨_, List.mem_cons_self, hp⟩
      · obtain ⟨b, hb, he⟩ := hcov c hc
        exact ⟨b, List.mem_cons_of_mem _ hb, he⟩
  | @kfree s s' live b hb hk =>
      obtain ⟨o, ho, h'⟩ := h.kfree hW hb hk
      obtain ⟨o', ho', ht⟩ := h.total_kfree hW hb
      obtain ⟨-, -, hused⟩ := ht.of_eq_ok h.ok rfl hk
      have hoo : o' = o := by omega
      rw [hoo] at hused
      refine ⟨_, h', fun c hc => ?_⟩
      obtain ⟨hc, hne⟩ := (hused c).1 hc
      obtain ⟨b', hb', he⟩ := hcov c hc
      have hbb : b' ≠ b := by
        rintro rfl
        omega
      exact ⟨b', (List.mem_erase_of_ne hbb).2 hb', he⟩
  | write hb ha hk => exact ⟨cs, h.write hW hb ha hk, hcov⟩

theorem covered_run {c₀ c : Client σ} {es : List Call} (hok : A.ok c₀.state)
    (hempty : Empty (A.view c₀.state)) (hlive : c₀.live = []) (hr : Run (GoodStep W A) c₀ es c) :
    ∃ cs, Inv A c cs ∧ Covered c.live cs := by
  refine hr.invariant (I := fun c => ∃ cs, Inv A c cs ∧ Covered c.live cs)
    (fun c e c' _ h hs => covered_step hW h hs) ?_
  exact ⟨[], ⟨hok, hempty.holds, by simp [hlive], by simp [hlive]⟩, by simp [Covered, usedAt]⟩

end

/-- A task before it uses its heap: `heap_start` is null, `heap_top` is `HEAP_START`,
nothing is mapped between `HEAP_START` and `HEAP_END`, and the pages on the free list
are not those of its address space. -/
structure Ready (k : Kernel) (c : Slot) (s : Mm.Space) (l : List Nat) : Prop where
  current : k.current = some c
  pgdir : (k.tasks c).pgdir = Mm.p2v s.dir
  cr3 : k.mm.cr3 = s.dir
  held : Mm.Held s k.mm l
  usable : ∀ v ∈ l, Usable k.mm v
  absent : ∀ n, firstPage ≤ n → n < endPage → ¬ Mm.present (s.entry k.mm.mem n)
  top : (k.tasks c).heapTop = heapStart
  start : (k.tasks c).heapStart = 0

/-- The pages that the heap may use, and those of the address space. -/
def Owned (s : Mm.Space) (l : List Nat) (v : Nat) : Prop := v ∈ l ∨ s.Has (Mm.v2p v)

/-- Where the directory of the current task leads. -/
def taskWalk (k : Kernel) (va : Nat) : Option Nat :=
  Mm.walk k.mm.mem (Mm.v2p (curTask k).pgdir) va

/-- The heap pages are tracked exactly: `heap_top` is the end of the last chunk, rounded
up to a page, the pages mapped in the heap's part of the address space are those below
`heap_top`, and no two of them are the same. -/
structure Tracked (k : Kernel) : Prop where
  top : ∃ cs, (curTask k).heapStart = nextOf heapStart 0 cs ∧
    Seg (taskView k).mem 0 0 heapStart cs ∧ (curTask k).heapTop = pageUp (heapStart + total cs)
  mapped : ∀ va, heapStart ≤ va → va < heapEnd →
    ((taskWalk k va).isSome ↔ va < (curTask k).heapTop)
  distinct : ∀ va va' pa, heapStart ≤ va → va < heapEnd → heapStart ≤ va' → va' < heapEnd →
    taskWalk k va = some pa → taskWalk k va' = some pa → va = va'

section

variable {own : Nat → Prop} {k : Kernel} {c : Slot} {s : Mm.Space} {l : List Nat}

theorem not_inHeap_heapStart (n : Nat) : ¬ InHeap heapStart n := by
  rintro ⟨h₁, h₂⟩
  rw [heapStart_eq, Nat.mul_div_cancel_left _ (by decide)] at h₂
  omega

theorem Ready.paged (h : Ready k c s l) : Paged (Owned s l) k c s l := by
  refine ⟨h.current, h.pgdir, h.cr3, h.held, ?_, ?_, ?_, ?_, ?_, ?_, h.usable, ?_⟩
  · exact Nat.le_of_eq h.top.symm
  · rw [h.top]
    decide
  · rw [h.top]
    decide
  · intro n hn
    rw [h.top] at hn
    exact absurd hn (not_inHeap_heapStart n)
  · intro n n' hn
    rw [h.top] at hn
    exact absurd hn (not_inHeap_heapStart n)
  · intro n hn
    refine h.absent n ?_
    rwa [h.top, heapStart_eq, Nat.mul_div_cancel_left _ (by decide)] at hn
  · intro v hv
    rw [Owned, h.top]
    refine or_congr_right (iff_self_or.2 ?_)
    rintro ⟨n, hn, -⟩
    exact absurd hn (not_inHeap_heapStart n)

theorem Paged.curTask_eq (h : Paged own k c s l) : curTask k = k.tasks c := by
  rw [curTask, h.current]
  rfl

theorem Ready.empty (h : Ready k c s l) : Empty (taskView k) := by
  rw [h.paged.view_eq]
  exact ⟨h.start, h.top⟩

theorem Paged.taskWalk_eq (h : Paged own k c s l) (va : Nat) :
    taskWalk k va = Mm.walk k.mm.mem k.mm.cr3 va := by
  have hlt := h.paging.held.space.dir.le
  rw [taskWalk, h.curTask_eq, h.pgdir, Mm.v2p_p2v (by omega), h.paging.cr3]

theorem Paged.mapped (h : Paged own k c s l) {va : Nat} (hlow : heapStart ≤ va)
    (hhigh : va < heapEnd) : (taskWalk k va).isSome ↔ va < (curTask k).heapTop := by
  rw [h.taskWalk_eq, h.curTask_eq]
  by_cases hva : va < (k.tasks c).heapTop
  · obtain ⟨v, hw, -⟩ := h.paging.walk hlow hva
    simp [hw, hva]
  · have hb := h.paging.bounds
    have hlt : va < 4294967296 := by
      unfold heapEnd at hhigh
      omega
    rw [heapEnd_eq] at hhigh
    have habs := h.paging.absent (va / 4096) (by omega) (by omega)
    rw [h.paging.cr3, h.paging.held.space.walk_eq hlt, if_neg habs]
    simp [hva]

theorem Paged.distinct (h : Paged own k c s l) {va va' pa : Nat} (hlow : heapStart ≤ va)
    (hhigh : va < heapEnd) (hlow' : heapStart ≤ va') (hhigh' : va' < heapEnd)
    (hw : taskWalk k va = some pa) (hw' : taskWalk k va' = some pa) : va = va' := by
  have hva : va < (k.tasks c).heapTop := by
    rw [← h.curTask_eq, ← h.mapped hlow hhigh, hw]
    rfl
  have hva' : va' < (k.tasks c).heapTop := by
    rw [← h.curTask_eq, ← h.mapped hlow' hhigh', hw']
    rfl
  rw [h.taskWalk_eq] at hw hw'
  obtain ⟨v, hv, he, hin, hu, -⟩ := h.paging.walk hlow hva
  obtain ⟨v', hv', he', hin', hu', -⟩ := h.paging.walk hlow' hva'
  rw [hw, ← he] at hv
  rw [hw', ← he'] at hv'
  have hpa := Option.some.inj hv
  have hpa' := Option.some.inj hv'
  -- both pages are multiples of their size
  have h₁ := hu.page.isFrame.aligned
  have h₂ := hu'.page.isFrame.aligned
  rw [← he] at h₁
  rw [← he'] at h₂
  have hn := h.paging.inj _ _ hin hin' (by omega)
  omega

theorem Paged.tracked {cs : List Chunk} (h : Paged own k c s l) (hh : Holds (taskView k) cs) :
    Tracked k :=
  ⟨⟨cs, hh.start, hh.seg, hh.top⟩, fun _ hlow hhigh => h.mapped hlow hhigh,
    fun _ _ _ h₁ h₂ h₃ h₄ hw hw' => h.distinct h₁ h₂ h₃ h₄ hw hw'⟩

/-- The steps of the heap of a task that starts in the address space `s` with the free
list `l`. -/
abbrev TaskStep (s : Mm.Space) (l : List Nat) : Client Kernel → Call → Client Kernel → Prop :=
  GoodStep taskWindow (Heap.paged (Owned s l))

/-- A page of the heap is on the free list when every block has been freed. The frees
stay in one address space, and the page is not one of it. -/
theorem Paged.page_back {d d' : Client Kernel} {cs : List Chunk} {es : List Call} {va v : Nat}
    (h : Paged own d.state c s l) (hi : Inv (Heap.paged own) d cs) (hcov : Covered d.live cs)
    (hr : Run (GoodStep taskWindow (Heap.paged own)) d es d') (hes : ∀ e ∈ es, ∃ p, e = .kfree p)
    (hlive : d'.live = []) (hlow : heapStart ≤ va) (hva : va < (d.state.tasks c).heapTop)
    (hw : taskWalk d.state va = some (Mm.v2p v + va % 4096)) (hv : Mm.IsPage v) :
    v ∈ poolOf d'.state.mm := by
  have hi' : Inv (pagedIn own s) d cs :=
    ⟨⟨c, l, h⟩, ⟨hi.holds.start, hi.holds.seg, hi.holds.sized, hi.holds.tidy, hi.holds.top,
      hi.holds.fits⟩, hi.backed, hi.nodup⟩
  have hlaw := taskWindow_lawfulIn own s
  obtain ⟨cs', hd, hcov'⟩ : ∃ cs, Inv (pagedIn own s) d' cs ∧ Covered d'.live cs := by
    refine hr.invariant (I := fun d => ∃ cs, Inv (pagedIn own s) d cs ∧ Covered d.live cs) ?_
      ⟨cs, hi', hcov⟩
    rintro d e d' he hd ⟨⟨hs, -⟩, -⟩
    obtain ⟨p, rfl⟩ := hes e he
    exact covered_step hlaw hd ⟨⟨hs, fun n hn => nomatch hn⟩, fun n hn => nomatch hn⟩
  obtain ⟨c', l', h'⟩ := hd.ok
  rw [hlive] at hcov'
  have hnil := eq_nil_of_covered hd.holds.tidy hcov'
  have htop : (taskView d'.state).top = heapStart := by
    have := hd.holds.top
    rw [hnil] at this
    exact this
  rw [h'.view_eq] at htop
  simp only at htop
  obtain ⟨u, hwu, hue, hin, huu, hul, huo⟩ := h.paging.walk hlow hva
  rw [h.taskWalk_eq, hwu] at hw
  have hvu : u = v :=
    Mm.v2p_inj huu.page.2.2 hv.2.2 (Nat.add_right_cancel (Option.some.inj hw))
  have hown : own u := (h.paging.own u huu.page).2 (Or.inr (Or.inr ⟨_, hin, hue⟩))
  rw [poolOf_eq h'.paging.held.pool, ← hvu]
  rcases (h'.paging.own u huu.page).1 hown with hm | hm | ⟨n, hn, -⟩
  · exact hm
  · exact absurd hm huo
  · rw [htop] at hn
    exact absurd hn (not_inHeap_heapStart n)

/-- From a task that has not used its heap on, along every run whose requests find room
and do not wrap around, the pages of the heap are tracked exactly and every further call
returns, so neither `mappages` nor `unmap_page` panics. When the blocks that are held then
are all freed, `heap_top` is `HEAP_START` and the pages that were mapped are on the free
list. -/
theorem heap_tracked {k₀ : Kernel} {d : Client Kernel} {es : List Call} (h : Ready k₀ c s l)
    (hr : Run (TaskStep s l) ⟨k₀, []⟩ es d) :
    Tracked d.state ∧
    (∀ n, Room (taskView d.state) n → n + 12 < 4294967296 →
      ∃ p k', kmalloc taskWindow n d.state = .ok (p, k')) ∧
    (∀ b ∈ d.live, ∃ k', kfree taskWindow b.ptr d.state = .ok ((), k')) ∧
    ∀ es' d', Run (TaskStep s l) d es' d' → (∀ e ∈ es', ∃ p, e = .kfree p) → d'.live = [] →
      (curTask d'.state).heapTop = heapStart ∧
      ∀ va pa, heapStart ≤ va → va < heapEnd → va % 4096 = 0 → taskWalk d.state va = some pa →
        Mm.p2v pa ∈ poolOf d'.state.mm := by
  have hlaw := taskWindow_lawful (Owned s l)
  have hok : (Heap.paged (Owned s l)).ok (⟨k₀, []⟩ : Client Kernel).state := ⟨c, s, l, h.paged⟩
  obtain ⟨cs, hi, hcov⟩ := covered_run hlaw hok h.empty rfl hr
  obtain ⟨c', s', l', hd⟩ := hi.ok
  refine ⟨hd.tracked hi.holds, fun n hroom hn => hi.kmalloc_returns hlaw hroom hn,
    fun b hb => hi.kfree_returns hlaw hb, fun es' d' hr' hes hlive => ⟨?_, ?_⟩⟩
  · obtain ⟨cs', hi', hcov'⟩ := covered_run hlaw hok h.empty rfl (hr.append hr')
    rw [hlive] at hcov'
    have htop := hi'.holds.top
    rw [eq_nil_of_covered hi'.holds.tidy hcov'] at htop
    exact htop
  · intro va pa hlow hhigh hal hw
    have hva : va < (d.state.tasks c').heapTop := by
      rw [← hd.curTask_eq, ← hd.mapped hlow hhigh, hw]
      rfl
    obtain ⟨v, hwv, -, -, hu, -⟩ := hd.paging.walk hlow hva
    rw [← hd.taskWalk_eq] at hwv
    have hpa : pa = Mm.v2p v := by
      rw [hw, hal, Nat.add_zero] at hwv
      exact Option.some.inj hwv
    rw [hpa, Mm.p2v_v2p hu.page.2.2]
    exact hd.page_back hi hcov hr' hes hlive hlow hva hwv hu.page

/-- Two free pages are enough for a first small request. -/
theorem Ready.room {n : Nat} (h : Ready k c s l) (hl : 2 ≤ l.length) (hn : u32 (n + 12) ≤ 4096) :
    Room (taskView k) n := by
  intro cs hcs
  rw [hcs.eq_nil h.empty]
  have hcap : 1 ≤ capacity k.mm heapStart := by
    have hp := h.paged.paging
    rw [h.top] at hp
    have hle := s.missing_le (heapStart / 4096 / 1024) ((heapStart / 4096 + 1 + 1023) / 1024)
    refine hp.le_capacity (by decide) ?_
    unfold heapStart at hle ⊢
    omega
  have hst : heapStart = 0xD0000000 := rfl
  have hen : heapEnd = 0xFFBFF000 := rfl
  refine ⟨Or.inr (by simp only [total_nil]; omega), ?_⟩
  rw [h.paged.view_eq, h.top]
  simp only [malloc, total_cons, total_nil, pageUp]
  omega

theorem Ready.inv (h : Ready k c s l) : Inv (Heap.paged (Owned s l)) ⟨k, []⟩ [] :=
  ⟨⟨c, s, l, h.paged⟩, h.empty.holds, by simp, by simp⟩

theorem Ready.kmalloc {n p : Nat} {k' : Kernel} (h : Ready k c s l) (hl : 2 ≤ l.length)
    (hn : u32 (n + 12) ≤ 4096) (hk : Heap.kmalloc taskWindow n k = .ok (p, k')) :
    RoomyStep taskWindow (Heap.paged (Owned s l)) ⟨k, []⟩ (.kmalloc n) ⟨k', [⟨p, n⟩]⟩ := by
  refine ⟨Step.kmalloc hk, fun m hm => ?_⟩
  rw [← Call.kmalloc.inj hm]
  exact h.room hl hn

end

/-- A memory with a cleared directory at the physical address `0x1000` and three free
pages behind it. -/
def smallMm : Mm where
  mem := Machine.fill (store32 (store32 (fun _ => 0) 0x2000 0x80003000) 0x3000 0x80004000) 0x1000 4096 0
  freeList := 0x80002000
  cr3 := 0x1000
  memsz := 64
  memStart := 0x80002000
  data := 0x80101000

/-- A kernel with one task in this memory. -/
def smallKernel : Kernel where
  mm := smallMm
  tasks := fun _ => { Task.zero with state := .running, pgdir := 0x80001000, heapTop := heapStart }
  rootp := some 0
  current := some 0
  inittask := some 0
  nextpid := 2
  kpgdir := 0x80001000
  esp0 := 0
  trapRet := 0
  doNothing := 0

theorem smallKernel_ready :
    Ready smallKernel 0 (.empty 0x1000) [0x80002000, 0x80003000, 0x80004000] := by
  have hframe : Mm.IsFrame 0x1000 := ⟨by decide, by decide, by decide⟩
  have hpage : ∀ v ∈ [0x80002000, 0x80003000, 0x80004000], Usable smallMm v := by
    intro v hv
    simp only [List.mem_cons, List.not_mem_nil, or_false] at hv
    rcases hv with rfl | rfl | rfl
    · exact ⟨⟨by decide, by decide, by decide⟩, by decide, by decide⟩
    · exact ⟨⟨by decide, by decide, by decide⟩, by decide, by decide⟩
    · exact ⟨⟨by decide, by decide, by decide⟩, by decide, by decide⟩
  refine ⟨rfl, by decide, rfl, ⟨Mm.Space.at_empty hframe, ⟨?_, fun v hv => (hpage v hv).page⟩, ?_⟩,
    hpage, ?_, rfl, rfl⟩
  · exact Linked.isChain_of_follow (n := 3) (by decide +kernel)
  · rintro v hv (he | ⟨i, hi⟩)
    · simp only [List.mem_cons, List.not_mem_nil, or_false] at hv
      rcases hv with rfl | rfl | rfl
      · exact absurd he (by decide)
      · exact absurd he (by decide)
      · exact absurd he (by decide)
    · cases hi
  · intro n _ _
    rw [Mm.Space.empty_entry]
    exact Mm.not_present_zero

/-- A first request. -/
theorem smallKernel_tracked : ∃ d,
    Run (TaskStep (.empty 0x1000) [0x80002000, 0x80003000, 0x80004000]) ⟨smallKernel, []⟩
      [.kmalloc 20] d ∧ Tracked d.state := by
  obtain ⟨-, hmalloc, -⟩ := heap_tracked smallKernel_ready (Run.nil _)
  obtain ⟨p, k', hp⟩ :=
    hmalloc 20 (smallKernel_ready.room (by decide) (by decide)) (by decide)
  have hr : Run (TaskStep (.empty 0x1000) [0x80002000, 0x80003000, 0x80004000]) ⟨smallKernel, []⟩
      [.kmalloc 20] ⟨k', [⟨p, 20⟩]⟩ := by
    refine Run.single ⟨smallKernel_ready.kmalloc (by decide) (by decide) hp, fun n hn => ?_⟩
    rw [← Call.kmalloc.inj hn]
    decide
  exact ⟨_, hr, (heap_tracked smallKernel_ready hr).1⟩

/-- Two requests, the first of `0xFFFFFFFC` bytes, and their blocks freed. The result has
the kernel after the first request. -/
def wrapFreeAll : Act Kernel Kernel := do
  let p ← kmalloc taskWindow 0xFFFFFFFC
  let k ← Act.get
  let q ← kmalloc taskWindow 20
  kfree taskWindow p
  kfree taskWindow q
  return k

theorem wrapFreeAll_words : ((wrapFreeAll smallKernel).toOption.map fun r =>
    ((taskView r.1).start, load32 (taskView r.1).mem (heapStart + 8), (curTask r.2).heapTop)) =
      some (heapStart, 16, heapStart + 4096) := by
  decide +kernel

/-- A first chunk that is shorter than its header is not a heap. -/
theorem not_holds_of_short {v : View} {cs : List Chunk} (hstart : v.start = heapStart)
    (hword : load32 v.mem (heapStart + 8) < 24) : ¬ Holds v cs := by
  intro h
  have hs := h.start
  rw [hstart] at hs
  cases cs with
  | nil => exact absurd hs (show heapStart ≠ 0 by decide)
  | cons c cs =>
      have hlen : load32 v.mem (heapStart + 8) / 2 = c.len := h.seg.1.len
      have hc := h.sized c List.mem_cons_self
      unfold headerSize at hc
      omega

/-- A request of `0xFFFFFFFC` bytes is one of eight bytes with its header, so the next chunk
lies over its header. When both blocks are freed, the heap still has its page. -/
theorem smallKernel_page_lost : ∃ p q d,
    Run (RoomyStep taskWindow (paged (Owned (.empty 0x1000) [0x80002000, 0x80003000, 0x80004000])))
      ⟨smallKernel, []⟩ [.kmalloc 0xFFFFFFFC, .kmalloc 20, .kfree p, .kfree q] d ∧
      d.live = [] ∧ (curTask d.state).heapTop = heapStart + 4096 := by
  obtain ⟨⟨_, _⟩, hok, hwords⟩ := exists_ok_of_toOption wrapFreeAll_words
  simp only [Prod.mk.injEq] at hwords
  obtain ⟨hstart, hword, htop⟩ := hwords
  simp only [wrapFreeAll, Act.bind_eq_ok, Act.get_eq_ok, Act.pure_eq_ok] at hok
  obtain ⟨p, k₁, hp, _, _, ⟨rfl, rfl⟩, q, k₂, hq, _, k₃, hk₃, _, k₄, hk₄, rfl, rfl⟩ := hok
  have h₁ := smallKernel_ready.kmalloc (by decide) (by decide) hp
  have h₃ : Step taskWindow ⟨k₂, [⟨q, 20⟩, ⟨p, 0xFFFFFFFC⟩]⟩ (.kfree p) ⟨k₃, [⟨q, 20⟩]⟩ := by
    have hmem : (⟨p, 0xFFFFFFFC⟩ : Block) ∈ [⟨q, 20⟩, ⟨p, 0xFFFFFFFC⟩] := by simp
    have hstep := Step.kfree hmem hk₃
    rwa [List.erase_cons_tail (by simp), List.erase_cons_head] at hstep
  have h₄ : Step taskWindow ⟨k₃, [⟨q, 20⟩]⟩ (.kfree q) ⟨k₄, []⟩ := by
    have hmem : (⟨q, 20⟩ : Block) ∈ [(⟨q, 20⟩ : Block)] := by simp
    have hstep := Step.kfree hmem hk₄
    rwa [List.erase_cons_head] at hstep
  refine ⟨p, q, ⟨k₄, []⟩, .cons h₁ (.cons ⟨.kmalloc hq, fun n _ cs hcs => ?_⟩
    (.cons ⟨h₃, fun n hn => by cases hn⟩ (.single ⟨h₄, fun n hn => by cases hn⟩))), rfl, htop⟩
  refine absurd hcs (not_holds_of_short hstart ?_)
  change load32 (taskView k₁).mem (heapStart + 8) < 24
  rw [hword]
  decide

/-- The pointer `p` is right for a request of `n` bytes: the block and its header are in
mapped pages below `HEAP_END`, and the block is apart from the other blocks and from all
headers. -/
structure Served (k : Kernel) (live : List Block) (n p : Nat) : Prop where
  mapped : ∀ x, p ≤ x + 12 → x < p + n →
    ∃ v, Mm.IsPage v ∧ taskWalk k x = some (Mm.v2p v + x % 4096)
  inside : heapStart + 12 ≤ p ∧ p + n ≤ heapEnd
  apart : ∀ b ∈ live, b.ptr + b.size ≤ p ∨ p + n ≤ b.ptr
  headers : ∃ cs, (curTask k).heapStart = nextOf heapStart 0 cs ∧
    Seg (taskView k).mem 0 0 heapStart cs ∧
    ∀ x, p ≤ x → x < p + n → ¬ InHeader heapStart cs x

section

variable {own : Nat → Prop} {k : Kernel} {c : Slot} {s : Mm.Space} {l : List Nat}

end

end Heap

end Chunix
