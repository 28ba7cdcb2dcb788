import Chunix.Heap.Paging
import Chunix.Mm.Uvm
import Chunix.Task.Create

/-!
# Failed creations of tasks

What a `fork` that returns `-1` and a `task_create` that returns the null pointer
leave behind. The list of tasks is not touched by either of them. A failed
`task_create` leaves its slot in use unless it fails in `task_alloc`, and a failed
`fork` loses the pages that `mapkvm` and the copies have taken.
-/

namespace Chunix

namespace Task

open Machine Kernel Heap

/-- The states of the slots, the list of tasks and the set of free pages are the same. -/
structure Atomic (k k' : Kernel) : Prop where
  state : ∀ t, k'.state t = k.state t
  rootp : k'.rootp = k.rootp
  next : k'.next = k.next
  free : ∀ l, Mm.Pool k.mm l → ∃ l', Mm.Pool k'.mm l' ∧ ∀ v, v ∈ l' ↔ v ∈ l

variable {k k' : Kernel} {t : Slot} {l : List Nat}

theorem v2p_add {v x : Nat} (hv : Mm.IsPage v) (hx : x < 4096) : Mm.v2p (v + x) = Mm.v2p v + x := by
  obtain ⟨h₁, -, h₃⟩ := hv
  unfold Mm.v2p u32
  omega

/-- A word inside the page `v` is written. -/
theorem agreeOff_kstore {v x w : Nat} {m m' : Mm} {u : Unit} (hv : Mm.IsPage v) (hx : x + 4 ≤ 4096)
    (h : Mm.kstore (v + x) w m = .ok (u, m')) :
    Mm.AgreeOff (fun p => p = Mm.v2p v) m.mem m'.mem ∧ m' = { m with mem := m'.mem } := by
  have hm := Act.modify_eq_ok.1 h
  rw [← hm, v2p_add hv (by omega)]
  refine ⟨fun a ha => ?_, rfl⟩
  have hin := ha _ rfl
  have hle := Mm.v2p_add_le hv
  unfold Mm.InPage at hin
  exact store32_apply_of_lt_or_ge (by omega) (by omega)

/-- Bytes inside the page `v` are cleared. -/
theorem agreeOff_kmemset {v x n : Nat} {m m' : Mm} {u : Unit} (hv : Mm.IsPage v)
    (hx : x + n ≤ 4096) (hn : 0 < n) (h : Mm.kmemset (v + x) 0 n m = .ok (u, m')) :
    Mm.AgreeOff (fun p => p = Mm.v2p v) m.mem m'.mem ∧ m' = { m with mem := m'.mem } := by
  have hm := Act.modify_eq_ok.1 h
  rw [← hm, v2p_add hv (by omega)]
  refine ⟨fun a ha => ?_, rfl⟩
  have hin := ha _ rfl
  unfold Mm.InPage at hin
  exact fill_apply_of_notMem (by omega)

/-- Bytes are copied into the page `v`. -/
theorem agreeOff_kmemmove {v x n src : Nat} {m m' : Mm} {u : Unit} (hv : Mm.IsPage v)
    (hx : x + n ≤ 4096) (hn : 0 < n) (h : Mm.kmemmove (v + x) src n m = .ok (u, m')) :
    Mm.AgreeOff (fun p => p = Mm.v2p v) m.mem m'.mem ∧ m' = { m with mem := m'.mem } := by
  have hm := Act.modify_eq_ok.1 h
  rw [← hm, v2p_add hv (by omega)]
  refine ⟨fun a ha => ?_, rfl⟩
  have hin := ha _ rfl
  unfold Mm.InPage at hin
  exact blit_apply_of_notMem (by omega)

/-- The three writes of `task_alloc` to a new kernel stack stay inside it. -/
theorem agreeOff_stack {v w w' : Nat} {m m₁ m₂ m₃ : Mm} {u₁ u₂ u₃ : Unit} (hv : Mm.IsPage v)
    (h₁ : Mm.kstore (v + 4012) w m = .ok (u₁, m₁))
    (h₂ : Mm.kmemset (v + 3992) 0 contextSize m₁ = .ok (u₂, m₂))
    (h₃ : Mm.kstore (v + 4008) w' m₂ = .ok (u₃, m₃)) :
    Mm.AgreeOff (fun p => p = Mm.v2p v) m.mem m₃.mem ∧ m₃ = { m with mem := m₃.mem } := by
  obtain ⟨ha₁, hr₁⟩ := agreeOff_kstore hv (by omega) h₁
  obtain ⟨ha₂, hr₂⟩ := agreeOff_kmemset hv (by unfold contextSize; omega)
    (by unfold contextSize; omega) h₂
  obtain ⟨ha₃, hr₃⟩ := agreeOff_kstore hv (by omega) h₃
  refine ⟨(ha₁.trans ha₂ (fun _ hp => hp) fun _ hp => hp).trans ha₃ (fun _ hp => hp)
    fun _ hp => hp, ?_⟩
  rw [hr₃, hr₂, hr₁]

/-- What `task_alloc` does to the free list: it takes the first page, unless it fails. -/
theorem taskAlloc_pool {r : Option Slot} (hpool : Mm.Pool k.mm l) (h : taskAlloc k = .ok (r, k')) :
    (r = none ∧ k'.mm = k.mm ∧ (firstUnused k = none ∨ l = [])) ∨
    ∃ t v l', r = some t ∧ firstUnused k = some t ∧ l = v :: l' ∧ Mm.Pool k'.mm l' ∧
      (k'.tasks t).kstack = v ∧ (k'.tasks t).tf = v + 4016 ∧
      k'.mm = { k.mm with mem := k'.mm.mem, freeList := k'.mm.freeList } ∧
      Mm.AgreeOff (fun p => p = Mm.v2p v) k.mm.mem k'.mm.mem := by
  unfold taskAlloc at h
  simp only [Act.bind_eq_ok, Act.get_eq_ok] at h
  obtain ⟨_, _, ⟨rfl, rfl⟩, h⟩ := h
  cases hu : firstUnused k with
  | none =>
      simp only [hu, Act.pure_eq_ok] at h
      obtain ⟨hr, rfl⟩ := h
      exact Or.inl ⟨hr.symm, rfl, Or.inl rfl⟩
  | some t =>
      simp only [hu, Act.bind_eq_ok, onMm_eq_ok, updTask_eq_ok, Act.ite_eq_ok, Act.pure_eq_ok,
        Act.modify_eq_ok, Act.get_eq_ok] at h
      obtain ⟨v, _, ⟨m, hm, rfl⟩, _, _, rfl, h⟩ := h
      rcases Mm.kallocPage_cases hpool hm with ⟨rfl, rfl, rfl⟩ | ⟨l', rfl, hv, hpool', hmem, hregs⟩
      · rcases h with ⟨-, hr, rfl⟩ | ⟨hne, -⟩
        · exact Or.inl ⟨hr.symm, rfl, Or.inr rfl⟩
        · exact absurd rfl hne
      · rcases h with ⟨h0, -⟩ | ⟨-, h⟩
        · exact absurd h0 hv.2.1
        obtain ⟨_, _, ⟨rfl, rfl⟩, _, _, rfl, _, _, rfl, _, _, ⟨m₁, hm₁, rfl⟩, _, _, ⟨m₂, hm₂, rfl⟩,
          _, _, ⟨m₃, hm₃, rfl⟩, hr, rfl⟩ := h
        have htf : v + kstacksize - stackFrameSize - 4 = v + 4012 := by
          unfold kstacksize stackFrameSize
          omega
        have hctx : v + 4012 - contextSize = v + 3992 := by
          unfold contextSize
          omega
        simp only [htf, hctx, Nat.add_assoc, Kernel.setTask, Nat.reduceAdd] at hm₁ hm₂ hm₃
        obtain ⟨hagree, hregs'⟩ := agreeOff_stack hv hm₁ hm₂ hm₃
        refine Or.inr ⟨t, v, l', hr.symm, rfl, rfl, ?_, by simp, ?_, ?_, ?_⟩
        · refine hpool'.agree (by rw [hregs']) hagree (fun p hp => hp ▸ hv.isFrame) fun u hu he => ?_
          exact Mm.not_framesOf_tail hpool ⟨u, hu, he.symm⟩
        · simp only [setTask_tasks_self]
          unfold kstacksize stackFrameSize
          omega
        · rw [hregs', hregs]
        · rw [← hmem]
          exact hagree

theorem atomic_iff {l' : List Nat} (h : SameTable k k') (hl : Mm.Pool k.mm l)
    (hl' : Mm.Pool k'.mm l') : Atomic k k' ↔ ∀ v, v ∈ l' ↔ v ∈ l := by
  constructor
  · intro ha
    obtain ⟨l'', hl'', hmem⟩ := ha.free l hl
    rwa [hl'.unique hl'']
  · intro hmem
    refine ⟨h.state, h.rootp, h.next, fun l₁ hl₁ => ⟨l', hl', ?_⟩⟩
    rwa [hl₁.unique hl]

/-- What the memory manager promises of its state. -/
structure Pages (k : Kernel) (l : List Nat) : Prop where
  layout : Mm.Layout k.mm
  start : 0 < k.mm.memStart
  pool : Mm.Pool k.mm l

/-- The task `c` with the address space `s` is about to call `fork`. -/
structure Parent (k : Kernel) (c : Slot) (s : Mm.Space) (l : List Nat) : Prop
    extends Pages k l where
  current : k.current = some c
  used : k.state c ≠ .unused
  space : s.At k.mm.mem
  pgdir : (k.tasks c).pgdir = Mm.p2v s.dir
  off : ∀ p, s.Has p → ¬ Mm.framesOf l p
  sz : (k.tasks c).sz ≤ Mm.kernbase

/-- The write of a byte at a virtual address stays at its offset in a page. -/
theorem vstore8_offset {va : Nat} {b : UInt8} {m m' : Mm} {u : Unit}
    (h : Mm.vstore8 va b m = .ok (u, m')) :
    m'.freeList = m.freeList ∧ ∀ a, a % 4096 ≠ u32 va % 4096 → m'.mem a = m.mem a := by
  rw [Mm.vstore8, Act.bind_of_ok (Act.get_eq_ok.2 ⟨rfl, rfl⟩)] at h
  cases ht : Mm.translate m (u32 va) with
  | none =>
      rw [ht] at h
      cases h
  | some pa =>
      rw [ht] at h
      rw [← Act.modify_eq_ok.1 h]
      refine ⟨rfl, fun a ha => Function.update_of_ne (fun he => ha ?_) _ _⟩
      obtain ⟨p, rfl⟩ : ∃ p, pa = 4096 * p + u32 va % 4096 := by
        unfold Mm.translate Mm.walk at ht
        dsimp only at ht
        split_ifs at ht
        cases ht
        exact ⟨_, by rw [Mm.pteAddr, Nat.mul_comm]⟩
      rw [he]
      omega

/-- A word that is written in the first page stays at its offsets in a page. -/
theorem vstore32_offset {va w : Nat} {m m' : Mm} {u : Unit} (hlt : va + 4 ≤ 4096)
    (h : Mm.vstore32 va w m = .ok (u, m')) :
    m'.freeList = m.freeList ∧ ∀ a, a % 4096 < va ∨ va + 4 ≤ a % 4096 → m'.mem a = m.mem a := by
  have hoff : ∀ i, i < 4 → u32 (va + i) % 4096 = va + i := by
    intro i hi
    unfold u32
    omega
  have h0 := hoff 0 (by decide)
  have h1 := hoff 1 (by decide)
  have h2 := hoff 2 (by decide)
  have h3 := hoff 3 (by decide)
  simp only [Mm.vstore32, Act.bind_eq_ok] at h
  obtain ⟨_, m₁, hs₁, _, m₂, hs₂, _, m₃, hs₃, hs₄⟩ := h
  obtain ⟨hf₁, ha₁⟩ := vstore8_offset hs₁
  obtain ⟨hf₂, ha₂⟩ := vstore8_offset hs₂
  obtain ⟨hf₃, ha₃⟩ := vstore8_offset hs₃
  obtain ⟨hf₄, ha₄⟩ := vstore8_offset hs₄
  rw [Nat.add_zero] at h0
  refine ⟨by rw [hf₄, hf₃, hf₂, hf₁], fun a ha => ?_⟩
  rw [ha₄ a (by omega), ha₃ a (by omega), ha₂ a (by omega), ha₁ a (by omega)]

/-- A page that is freed is a new one on the list, or the list becomes cyclic. -/
theorem Pool.not_freed {m m' : Mm} {w : Nat} (h : Mm.Pool m l) (hw : w ≠ 0)
    (hf : m'.freeList = w) (hm : ∀ a, a % 4096 < 4 → m'.mem a = (Mm.freed m w).mem a) :
    ¬ ∃ l', Mm.Pool m' l' ∧ ∀ v, v ∈ l' ↔ v ∈ l := by
  rintro ⟨l', hl', hmem⟩
  obtain ⟨l₁, rfl, hl₁⟩ := Mm.Pool.of_freed (h.chain.freeList_lt h.page) hw hf hm hl'
  cases hl₁.unique h
  exact (List.nodup_cons.1 hl'.nodup).1 ((hmem w).1 List.mem_cons_self)

/-- The failure path of `fork` without a slot frees a page that was not taken. -/
theorem forkFail_none_pages {n : Int} (h : Pages k l) (hf : forkFail none k = .ok (n, k')) :
    ¬ ∃ l', Mm.Pool k'.mm l' ∧ ∀ v, v ∈ l' ↔ v ∈ l := by
  simp only [forkFail, Act.bind_eq_ok, onMm_eq_ok, Act.pure_eq_ok] at hf
  obtain ⟨w, _, ⟨m, hload, rfl⟩, _, _, ⟨m₁, hfree, rfl⟩, _, _, ⟨m₂, hs₁, rfl⟩, _, _,
    ⟨m₃, hs₂, rfl⟩, -, rfl⟩ := hf
  cases Mm.readOnly_vload32 _ _ _ _ hload
  obtain ⟨⟨-, hlow, -⟩, hm₁⟩ := Mm.kfreePage_eq_ok.1 hfree
  obtain ⟨hf₁, ha₁⟩ := vstore32_offset (by decide) hs₁
  obtain ⟨hf₂, ha₂⟩ := vstore32_offset (by decide) hs₂
  refine Pool.not_freed (w := w) h.pool ?_ ?_ ?_
  · have hstart := h.start
    have hlow' : k.mm.memStart ≤ w := hlow
    omega
  · rw [hf₂, hf₁, ← hm₁]
    rfl
  · intro a ha
    rw [ha₂ a (by omega), ha₁ a (by omega), ← hm₁]

/-- The failure path of `fork` with a slot gives the kernel stack back. -/
theorem forkFail_some_pool {n : Int} {v : Nat} (hpool : Mm.Pool k.mm l) (hv : Mm.IsPage v)
    (hk : (k.tasks t).kstack = v) (hvl : v ∉ l) (hf : forkFail (some t) k = .ok (n, k')) :
    Mm.Pool k'.mm (v :: l) := by
  simp only [forkFail, Act.bind_eq_ok, onMm_eq_ok, updTask_eq_ok, Act.gets_eq_ok,
    Act.pure_eq_ok] at hf
  obtain ⟨w, _, ⟨hw, rfl⟩, _, _, ⟨m, hfree, rfl⟩, _, _, rfl, -, rfl⟩ := hf
  obtain ⟨-, hm⟩ := Mm.kfreePage_eq_ok.1 hfree
  rw [← hw, hk] at hm
  rw [← show Mm.freed k.mm v = m from hm]
  exact hpool.free hv hvl

/-- The memory of a `fork` that has a slot: the address space is copied, and the page
of the stack. -/
theorem fork_some_mm {k₁ : Kernel} {c : Slot} (hc : k₁.current = some c)
    (hr : taskAlloc k = .ok (some t, k₁)) (hf : fork k = .ok (-1, k')) :
    ∃ pgdir m, Mm.copyUvm (k₁.tasks c).pgdir (k₁.tasks c).sz k₁.mm = .ok (pgdir, m) ∧
      ((pgdir = 0 ∧ ∃ k₂ n, k₂.mm = m ∧ (k₂.tasks t).kstack = (k₁.tasks t).kstack ∧
        forkFail (some t) k₂ = .ok (n, k')) ∨
      ∃ m₁ m₂ k₂ n, pgdir ≠ 0 ∧
        Mm.kmemmove (k₁.tasks t).tf (k₁.tasks c).tf stackFrameSize m = .ok ((), m₁) ∧
        Mm.copyPage (k₁.tasks c).pgdir pgdir (Mm.ustacktop - 4096) m₁ = .ok (0, m₂) ∧
        k₂.mm = m₂ ∧ (k₂.tasks t).kstack = (k₁.tasks t).kstack ∧
        forkFail (some t) k₂ = .ok (n, k')) := by
  rw [fork, Act.bind_of_ok hr] at hf
  simp only [Act.bind_eq_ok, onMm_eq_ok, updTask_eq_ok, Act.gets_eq_ok, getCurrent_eq_ok] at hf
  obtain ⟨c', _, ⟨hc', rfl⟩, _, _, ⟨rfl, rfl⟩, pgdir, _, ⟨m, hm, rfl⟩, _, _, rfl, hf⟩ := hf
  cases hc.symm.trans hc'
  refine ⟨pgdir, m, hm, ?_⟩
  rcases Act.ite_eq_ok.1 hf with ⟨hz, hf⟩ | ⟨hz, hf⟩
  · exact Or.inl ⟨hz, _, _, rfl, by simp, hf⟩
  · simp only [Act.bind_eq_ok, onMm_eq_ok, updTask_eq_ok, Act.gets_eq_ok] at hf
    obtain ⟨_, _, rfl, tf, _, ⟨htf, rfl⟩, _, _, ⟨m₁, hm₁, rfl⟩, r, _, ⟨m₂, hm₂, rfl⟩, hf⟩ := hf
    rcases Act.ite_eq_ok.1 hf with ⟨hr0, hf⟩ | ⟨-, hf⟩
    · subst hr0
      have htf' : (k₁.tasks t).tf = tf := by
        rw [← htf]
        simp
      rw [htf']
      exact Or.inr ⟨m₁, m₂, _, _, hz, hm₁, hm₂, rfl, by simp, hf⟩
    · simp only [Act.bind_eq_ok, Act.gets_eq_ok, updTask_eq_ok, Act.modify_eq_ok, Act.pure_eq_ok,
        onMm_eq_ok] at hf
      obtain ⟨_, _, ⟨m₄, -, rfl⟩, pid, _, ⟨-, rfl⟩, _, _, ⟨-, rfl⟩, _, _, rfl, _, _, rfl,
        hn, rfl⟩ := hf
      omega

/-- What a `fork` that fails after `task_alloc` does to the free list. -/
theorem fork_some_pool {k₁ : Kernel} {c : Slot} {s : Mm.Space} (h : Parent k c s l)
    (hr : taskAlloc k = .ok (some t, k₁)) (hf : fork k = .ok (-1, k')) :
    ∃ l', Mm.Pool k'.mm l' ∧ ((∀ u, u ∈ l' ↔ u ∈ l) ↔
      l.length = 1 ∨ l.length = Mm.kvmPages k.mm + 1 ∧ Mm.Copies s k.mm (k.tasks c).sz) := by
  rcases taskAlloc_pool h.pool hr with ⟨hr, -⟩ |
    ⟨t', v, l₁, ht, hu, rfl, hpool, hstack, htf, hregs, hagree⟩
  · cases hr
  cases ht
  rcases taskAlloc_cases hr with ⟨hr, -⟩ | ⟨t', ht, -, hsame, -, -⟩
  · cases hr
  cases ht
  have hct : c ≠ t := fun he => h.used (he ▸ firstUnused_state hu)
  have hv : Mm.IsPage v := h.pool.page v List.mem_cons_self
  have hvframe : ∀ p, p = Mm.v2p v → Mm.IsFrame p := fun p hp => hp ▸ hv.isFrame
  have hvl : v ∉ l₁ := (List.nodup_cons.1 h.pool.nodup).1
  have hvs : ¬ s.Has (Mm.v2p v) := fun hs => h.off _ hs ⟨v, List.mem_cons_self, rfl⟩
  obtain ⟨hs, hentry⟩ := h.space.agree hagree hvframe fun p hp => hp ▸ hvs
  have hoff : ∀ p, s.Has p → ¬ Mm.framesOf l₁ p :=
    fun p hp hl => h.off p hp (Mm.framesOf_cons.2 (Or.inr hl))
  have hlayout : Mm.Layout k₁.mm := by
    rw [hregs]
    exact ⟨h.layout.aligned, h.layout.above, h.layout.below, h.layout.fits⟩
  have hpages : Mm.kvmPages k₁.mm = Mm.kvmPages k.mm := by
    rw [hregs]
    rfl
  have hcopies : Mm.Copies s k₁.mm (k.tasks c).sz ↔ Mm.Copies s k.mm (k.tasks c).sz := by
    simp only [Mm.Copies, hentry]
  have hpos : 0 < Mm.kvmPages k.mm := Nat.succ_pos _
  obtain ⟨pgdir, m, huvm, hcase⟩ := fork_some_mm (hsame.current.trans h.current) hr hf
  rw [hsame.tasks c hct, h.pgdir] at huvm hcase
  have hsz : (k.tasks c).sz ≤ 4294963200 := h.sz.trans (by decide)
  have huvm' := Mm.copyUvm_cases hpool hlayout hs hoff hsz huvm
  rw [hpages, hcopies] at huvm'
  rcases huvm' with ⟨hz, l', hl', hsub, hall⟩ |
    ⟨a, l', d, hz, hheld, hapart, hsm, hsub, hhas, hd, hdir, hnot⟩
  · rcases hcase with ⟨-, k₂, n, rfl, hk₂, hfail⟩ | ⟨_, _, _, _, hne, -⟩
    · have hvl' : v ∉ l' := fun hv => hvl (hsub v hv)
      refine ⟨v :: l', forkFail_some_pool hl' hv (hk₂.trans hstack) hvl' hfail, ?_⟩
      rw [List.length_cons, Nat.add_right_cancel_iff, Nat.add_right_cancel_iff,
        List.length_eq_zero_iff,
        ← hall]
      constructor
      · intro hset u hu
        rcases List.mem_cons.1 ((hset u).2 (List.mem_cons_of_mem _ hu)) with rfl | hu'
        · exact absurd hu hvl
        · exact hu'
      · intro hset u
        rw [List.mem_cons, List.mem_cons]
        exact or_congr_right ⟨hsub u, hset u⟩
    · exact absurd hz hne
  · have hne : pgdir ≠ 0 := fun h0 => Mm.p2v_ne_zero hheld.space.dir (hz.symm.trans h0)
    rcases hcase with ⟨h0, -⟩ | ⟨m₁, m₂, k₂, n, -, hmove, hcopy, rfl, hk₂, hfail⟩
    · exact absurd h0 hne
    have hva : ¬ a.Has (Mm.v2p v) := fun ha => hvl (Mm.mem_of_framesOf hpool hv (hhas _ ha))
    have hvl' : ¬ Mm.framesOf l' (Mm.v2p v) :=
      fun hl => hvl (hsub v (Mm.mem_of_framesOf hheld.pool hv hl))
    obtain ⟨hmoved, hregs₁⟩ := agreeOff_kmemmove hv (by decide) (by decide) (htf ▸ hmove)
    have hheld₁ : Mm.Held a m₁ l' := Mm.Held.agree hheld (by rw [hregs₁]) hmoved hvframe
      fun p hp => hp ▸ ⟨hva, hvl'⟩
    have hs₁ := (hsm.agree hmoved hvframe fun p hp => hp ▸ hvs).1
    rw [hz] at hcopy
    obtain ⟨l'', hl'', hsub'⟩ := Mm.copyPage_zero hheld₁ hs₁ (by decide) hcopy
    have hvl'' : v ∉ l'' := fun hv => hvl (hsub v (hsub' v hv))
    refine ⟨v :: l'', forkFail_some_pool hl'' hv (hk₂.trans hstack) hvl'' hfail, ?_⟩
    -- the directory is not given back
    refine iff_of_false (fun hset => ?_) ?_
    · rcases List.mem_cons.1 ((hset d).2 (List.mem_cons_of_mem _ hd)) with rfl | hd'
      · exact hvl hd
      · exact hheld.off d (hsub' d hd') (Or.inl hdir)
    · rw [List.length_cons, Nat.add_right_cancel_iff, Nat.add_right_cancel_iff,
        List.length_eq_zero_iff]
      rintro (rfl | hl)
      · cases hd
      · exact hnot hl

/-- When a failed `fork` leaves the slots, the list and the free pages as they were. -/
theorem fork_pages {c : Slot} {s : Mm.Space} (h : Parent k c s l) (hf : fork k = .ok (-1, k')) :
    Atomic k k' ↔ firstUnused k ≠ none ∧ (l.length = 1 ∨
      l.length = Mm.kvmPages k.mm + 1 ∧ Mm.Copies s k.mm (k.tasks c).sz) := by
  have hpos : 0 < Mm.kvmPages k.mm := Nat.succ_pos _
  have hsame : SameTable k k' := by
    rcases fork_cases hf with ⟨-, hs⟩ | ⟨hn, -⟩
    · exact hs
    · omega
  obtain ⟨r, k₁, hr, hf'⟩ := Act.bind_eq_ok.1 hf
  rcases taskAlloc_pool h.pool hr with ⟨rfl, hmm, hnone⟩ | ⟨t, v, l₁, rfl, hu, -⟩
  · -- `fork_fail` works on the null pointer
    refine iff_of_false (fun ha => ?_) ?_
    · have hpages : Pages k₁ l := by
        refine ⟨?_, ?_, ?_⟩
        · rw [hmm]
          exact h.layout
        · rw [hmm]
          exact h.start
        · rw [hmm]
          exact h.pool
      exact forkFail_none_pages hpages hf' (ha.free l h.pool)
    · rintro ⟨hu, hl⟩
      rcases hnone with hnone | rfl
      · exact hu hnone
      · rw [List.length_nil] at hl
        omega
  · obtain ⟨l', hl', hiff⟩ := fork_some_pool h hr hf
    rw [atomic_iff hsame h.pool hl', hiff, hu]
    simp

/-- When a failed `task_create` does. -/
theorem taskCreate_pages {img : Memory} {binary : Nat} (h : Pages k l)
    (hf : taskCreate img binary k = .ok (none, k')) :
    Atomic k k' ↔ firstUnused k = none ∨ l = [] := by
  obtain ⟨r, k₁, hr, hf⟩ := Act.bind_eq_ok.1 hf
  rcases taskAlloc_pool h.pool hr with ⟨rfl, hmm, hnone⟩ | ⟨t, v, l₁, rfl, hu, rfl, -⟩
  · obtain ⟨-, rfl⟩ := Act.pure_eq_ok.1 hf
    rcases taskAlloc_cases hr with ⟨-, hs⟩ | ⟨t, ht, -⟩
    · refine iff_of_true ?_ hnone
      have hpool : Mm.Pool k₁.mm l := by
        rw [hmm]
        exact h.pool
      rw [atomic_iff hs h.pool hpool]
      exact fun _ => Iff.rfl
    · cases ht
  · rcases taskAlloc_cases hr with ⟨hr, -⟩ | ⟨t', ht, -, hs, hst, -⟩
    · cases hr
    cases ht
    refine iff_of_false (fun ha => ?_) (by simp [hu])
    simp only [Act.bind_eq_ok, onMm_eq_ok, updTask_eq_ok] at hf
    obtain ⟨pgdir, _, ⟨m, -, rfl⟩, _, _, rfl, hf⟩ := hf
    have hstate := ha.state t
    rw [firstUnused_state hu] at hstate
    rcases Act.ite_eq_ok.1 hf with ⟨-, hf⟩ | ⟨-, hf⟩
    · -- the slot stays stopped
      simp only [Act.bind_eq_ok, onMm_eq_ok, Act.gets_eq_ok, Act.pure_eq_ok] at hf
      obtain ⟨_, _, ⟨-, rfl⟩, _, _, ⟨_, -, rfl⟩, -, rfl⟩ := hf
      simp only [Kernel.state, setTask_tasks_self] at hstate hst
      rw [hst] at hstate
      cases hstate
    · simp [Act.bind_eq_ok] at hf

/-- A `fork` that returns `-1` leaves the slots, the list of tasks and the set of free
pages as they were exactly when there is a slot and the only free page becomes the
kernel stack, or the pages run out at the first page that `copy_uvm` copies. A
`task_create` that returns the null pointer does exactly when it fails in
`task_alloc`. -/
theorem failed_creation_atomic (h : Pages k l) :
    (∀ c s k', Parent k c s l → fork k = .ok (-1, k') →
      (Atomic k k' ↔ firstUnused k ≠ none ∧ (l.length = 1 ∨
        l.length = Mm.kvmPages k.mm + 1 ∧ Mm.Copies s k.mm (k.tasks c).sz))) ∧
    ∀ img binary k', taskCreate img binary k = .ok (none, k') →
      (Atomic k k' ↔ firstUnused k = none ∨ l = []) :=
  ⟨fun _ _ _ hp hf => fork_pages hp hf, fun _ _ _ hf => taskCreate_pages h hf⟩

/-- A kernel with one task, whose directory is empty, and the free pages `0x80102000`
and `0x80103000`, of which the list holds those from `free` on. -/
def crampedKernel (free : Nat) : Kernel where
  mm := {
    mem := Machine.fill (store32 (fun _ => 0) 0x102000 0x80103000) 0x101000 4096 0
    freeList := free
    cr3 := 0x101000
    memsz := 2048
    memStart := 0x80102000
    data := 0x80101000 }
  tasks := fun t => if t = 0 then { Task.zero with state := .running, pgdir := 0x80101000 }
    else Task.zero
  rootp := some 0
  current := some 0
  inittask := some 0
  nextpid := 2
  kpgdir := 0x80101000
  esp0 := 0
  trapRet := 0
  doNothing := 0

theorem crampedKernel_pages {free n : Nat} {l : List Nat}
    (hl : Linked.follow (Mm.link (crampedKernel 0).mm.mem) n (Mm.ptr free) = some l)
    (hp : ∀ v ∈ l, v = 0x80102000 ∨ v = 0x80103000) : Pages (crampedKernel free) l := by
  refine ⟨⟨show 0x80101000 % 4096 = 0 by decide, show 2148532224 < 0x80101000 by decide,
    show 0x80101000 < 2147483648 + 2048 * 1024 by decide,
    show 2147483648 + 2048 * 1024 ≤ 4294963200 by decide⟩, show 0 < 0x80102000 by decide,
    Linked.isChain_of_follow hl, ?_⟩
  intro v hv
  rcases hp v hv with rfl | rfl
  · exact ⟨by decide, by decide, by decide⟩
  · exact ⟨by decide, by decide, by decide⟩

theorem crampedKernel_parent {free n : Nat} {l : List Nat}
    (hl : Linked.follow (Mm.link (crampedKernel 0).mm.mem) n (Mm.ptr free) = some l)
    (hp : ∀ v ∈ l, v = 0x80102000 ∨ v = 0x80103000) :
    Parent (crampedKernel free) 0 (.empty 0x101000) l := by
  refine ⟨crampedKernel_pages hl hp, rfl, by simp [Kernel.state, crampedKernel],
    Mm.Space.at_empty ⟨by decide, by decide, by decide⟩, rfl, ?_, Nat.zero_le _⟩
  rintro p (rfl | ⟨i, hi⟩)
  · rintro ⟨v, hv, he⟩
    rcases hp v hv with rfl | rfl
    · exact absurd he (by decide)
    · exact absurd he (by decide)
  · cases hi

/-- With one free page a failed `fork` gives it back. -/
theorem crampedKernel_atomic :
    ∃ k', fork (crampedKernel 0x80103000) = .ok (-1, k') ∧ Atomic (crampedKernel 0x80103000) k' := by
  have hfollow : Linked.follow (Mm.link (crampedKernel 0).mm.mem) 1 (Mm.ptr 0x80103000) =
      some [0x80103000] := by decide +kernel
  have hparent := crampedKernel_parent hfollow (by simp)
  have hfork : (fork (crampedKernel 0x80103000)).toOption.map Prod.fst = some (-1) := by
    decide +kernel
  obtain ⟨⟨n, k'⟩, hk', rfl⟩ := exists_ok_of_toOption hfork
  refine ⟨k', hk', ((failed_creation_atomic hparent.toPages).1 _ _ _ hparent hk').2 ⟨?_, Or.inl rfl⟩⟩
  decide +kernel

/-- With two free pages `fork` loses the directory that `mapkvm` has begun, and with one
`task_create` leaves its slot stopped. -/
theorem crampedKernel_leaks :
    (∃ k', fork (crampedKernel 0x80102000) = .ok (-1, k') ∧
      ¬ Atomic (crampedKernel 0x80102000) k') ∧
    ∃ k', taskCreate (fun _ => 0) 0 (crampedKernel 0x80103000) = .ok (none, k') ∧
      (crampedKernel 0x80103000).state 1 = .unused ∧ k'.state 1 = .stopped := by
  constructor
  · have hfollow : Linked.follow (Mm.link (crampedKernel 0).mm.mem) 2 (Mm.ptr 0x80102000) =
        some [0x80102000, 0x80103000] := by decide +kernel
    have hparent := crampedKernel_parent hfollow (by simp)
    have hfork : (fork (crampedKernel 0x80102000)).toOption.map Prod.fst = some (-1) := by
      decide +kernel
    obtain ⟨⟨n, k'⟩, hk', rfl⟩ := exists_ok_of_toOption hfork
    refine ⟨k', hk', fun ha => ?_⟩
    obtain ⟨-, hl | ⟨hl, -⟩⟩ := (fork_pages hparent hk').1 ha
    · exact absurd hl (by decide)
    · exact absurd hl (by decide)
  · have hcreate : (taskCreate (fun _ => 0) 0 (crampedKernel 0x80103000)).toOption.map
        (fun r => (r.1, r.2.state 1)) = some (none, .stopped) := by decide +kernel
    obtain ⟨⟨r, k'⟩, hk', hr⟩ := exists_ok_of_toOption hcreate
    obtain ⟨rfl, hst⟩ := Prod.mk.inj hr
    exact ⟨k', hk', rfl, hst⟩

end Task

end Chunix
