import Chunix.Heap.Client
import Chunix.Mm.Copy
import Chunix.Mm.User

/-!
# The pages of a heap

The pages from `HEAP_START` up to `heap_top` are mapped by the directory in CR3.
`Paging` says that each of them is a page of its own, neither on the free list nor
part of the address space, and that no page is lost: the pages of the list, of the
address space and of the heap are together always the same ones. Reads and writes
of heap words, mapping a page at `heap_top` and unmapping the last page keep it.
-/

namespace Chunix

namespace Heap

open Machine Linked

/-- The number of the first page of the heap. -/
def firstPage : Nat := 851968

/-- The number of the page at `HEAP_END`. -/
def endPage : Nat := 1047551

theorem heapStart_eq : heapStart = 4096 * firstPage := rfl

theorem heapEnd_eq : heapEnd = 4096 * endPage := rfl

/-- A page that `kfree_page` takes. -/
structure Usable (m : Mm) (v : Nat) : Prop where
  page : Mm.IsPage v
  low : m.memStart ≤ v
  high : v ≤ Mm.v2p (u32 (m.memsz * 1024))

/-- The page number `n` is one of the heap when `heap_top` is `top`. -/
def InHeap (top n : Nat) : Prop := firstPage ≤ n ∧ n < top / 4096

/-- The page `v` backs one of the heap pages. -/
def Backs (s : Mm.Space) (mem : Memory) (top v : Nat) : Prop :=
  ∃ n, InHeap top n ∧ Mm.pteAddr (s.entry mem n) = Mm.v2p v

/-- The memory manager runs in the address space `s` with the free list `l`. The heap
pages are present up to `top` and absent from there on, and each is a page of its
own. The pages of `own` are those on the free list, those of the address space and
those of the heap. -/
structure Paging (own : Nat → Prop) (m : Mm) (top : Nat) (s : Mm.Space) (l : List Nat) :
    Prop where
  cr3 : m.cr3 = s.dir
  held : Mm.Held s m l
  low : heapStart ≤ top
  high : top ≤ heapEnd
  aligned : top % 4096 = 0
  mapped : ∀ n, InHeap top n → Mm.present (s.entry m.mem n) ∧
    ∃ v, Mm.pteAddr (s.entry m.mem n) = Mm.v2p v ∧ Usable m v ∧ v ∉ l ∧ ¬ s.Has (Mm.v2p v)
  inj : ∀ n n', InHeap top n → InHeap top n' →
    Mm.pteAddr (s.entry m.mem n) = Mm.pteAddr (s.entry m.mem n') → n = n'
  absent : ∀ n, top / 4096 ≤ n → n < endPage → ¬ Mm.present (s.entry m.mem n)
  usable : ∀ v ∈ l, Usable m v
  own : ∀ v, Mm.IsPage v → (own v ↔ v ∈ l ∨ s.Has (Mm.v2p v) ∨ Backs s m.mem top v)

/-- The pages on the free list. -/
def poolOf (m : Mm) : List Nat :=
  (follow (Mm.link m.mem) 1048576 (Mm.ptr m.freeList)).getD []

/-- The number of page tables that the directory in CR3 lacks for the indices from `a`
up to `b`. -/
def missing (m : Mm) (a b : Nat) : Nat :=
  ((Finset.Ico a b).filter fun i => ¬ Mm.present (load32 m.mem (m.cr3 + 4 * i))).card

/-- The number of pages that mapping `j` pages from `top` on takes. -/
def needed (m : Mm) (top j : Nat) : Nat :=
  j + missing m (top / 4096 / 1024) ((top / 4096 + j + 1023) / 1024)

/-- The number of pages that can be mapped from `top` on. -/
def capacity (m : Mm) (top : Nat) : Nat :=
  Nat.findGreatest (fun j => needed m top j ≤ (poolOf m).length) (endPage - top / 4096)

/-- The memory of the heap. -/
def heapMem (m : Mm) (top : Nat) : Memory := fun a =>
  if heapStart ≤ a ∧ a < top then ((Mm.walk m.mem m.cr3 a).map m.mem).getD 0 else 0

theorem length_le_of_isPage {l : List Nat} (h : ∀ v ∈ l, Mm.IsPage v) (hnd : l.Nodup) :
    l.length ≤ 1048576 := by
  have hsub : l.toFinset ⊆ (Finset.range 1048576).image fun i => 4096 * i := by
    intro v hv
    have hp := h v (List.mem_toFinset.1 hv)
    exact Finset.mem_image.2 ⟨v / 4096, by rw [Finset.mem_range]; have := hp.2.2; omega,
      by have := hp.1; omega⟩
  have hcard := Finset.card_le_card hsub
  rw [List.toFinset_card_of_nodup hnd] at hcard
  exact hcard.trans (Finset.card_image_le.trans (by rw [Finset.card_range]))

theorem poolOf_eq {m : Mm} {l : List Nat} (h : Mm.Pool m l) : poolOf m = l := by
  have hlen := length_le_of_isPage h.page h.nodup
  rw [poolOf, h.chain.follow_eq hlen, Option.getD_some]

theorem missing_eq {m : Mm} {s : Mm.Space} {a b : Nat} (h : s.At m.mem) (hcr3 : m.cr3 = s.dir)
    (hb : b ≤ 1024) : missing m a b = s.missing a b := by
  rw [missing, Mm.Space.missing]
  congr 1
  refine Finset.filter_congr fun i hi => ?_
  have hlt := (Finset.mem_Ico.1 hi).2
  rw [hcr3]
  cases ht : s.tab i with
  | none => simp [h.absent i (by omega) ht]
  | some t => simp [(h.pde i t ht).1]

namespace Paging

variable {own : Nat → Prop} {m m' : Mm} {top a j : Nat} {s : Mm.Space} {l : List Nat}

theorem bounds (h : Paging own m top s l) :
    firstPage ≤ top / 4096 ∧ top / 4096 ≤ endPage ∧ 4096 * (top / 4096) = top := by
  have h₁ := h.low
  have h₂ := h.high
  have h₃ := h.aligned
  rw [heapStart_eq] at h₁
  rw [heapEnd_eq] at h₂
  omega

theorem needed_eq (h : Paging own m top s l) (hj : j ≤ endPage - top / 4096) :
    needed m top j = j + s.missing (top / 4096 / 1024) ((top / 4096 + j + 1023) / 1024) := by
  have hb := h.bounds
  unfold endPage at hb hj
  rw [needed, missing_eq h.held.space h.cr3 (by omega)]

theorem le_capacity (h : Paging own m top s l) (hj : j ≤ endPage - top / 4096)
    (hle : j + s.missing (top / 4096 / 1024) ((top / 4096 + j + 1023) / 1024) ≤ l.length) :
    j ≤ capacity m top := by
  refine Nat.le_findGreatest hj ?_
  rwa [h.needed_eq hj, poolOf_eq h.held.pool]

theorem of_capacity (h : Paging own m top s l) (hj : capacity m top = j) (hne : j ≠ 0) :
    j ≤ endPage - top / 4096 ∧
      j + s.missing (top / 4096 / 1024) ((top / 4096 + j + 1023) / 1024) ≤ l.length := by
  have hle : j ≤ endPage - top / 4096 := hj ▸ Nat.findGreatest_le _
  have hneed : needed m top j ≤ (poolOf m).length :=
    Nat.findGreatest_of_ne_zero (P := fun j => needed m top j ≤ (poolOf m).length) hj hne
  rw [h.needed_eq hle, poolOf_eq h.held.pool] at hneed
  exact ⟨hle, hneed⟩

/-- The address space and the list are all that counts. -/
theorem capacity_le (h : Paging own m top s l) (h' : Paging own m' top s l) :
    capacity m top ≤ capacity m' top := by
  by_cases hne : capacity m top = 0
  · omega
  · obtain ⟨hle, hneed⟩ := h.of_capacity rfl hne
    exact h'.le_capacity hle hneed

/-- Where an address of the heap leads. -/
theorem walk (h : Paging own m top s l) (ha : heapStart ≤ a) (ha' : a < top) :
    ∃ v, Mm.walk m.mem m.cr3 a = some (Mm.v2p v + a % 4096) ∧
      Mm.pteAddr (s.entry m.mem (a / 4096)) = Mm.v2p v ∧ InHeap top (a / 4096) ∧
      Usable m v ∧ v ∉ l ∧ ¬ s.Has (Mm.v2p v) := by
  have hb := h.bounds
  have hhigh := h.high
  rw [heapStart_eq] at ha
  have hin : InHeap top (a / 4096) := ⟨by omega, by omega⟩
  obtain ⟨hp, v, hv, hrest⟩ := h.mapped _ hin
  refine ⟨v, ?_, hv, hin, hrest⟩
  rw [h.cr3, h.held.space.walk_eq (by unfold heapEnd at hhigh; omega), if_pos hp, hv]

theorem heapMem_eq (h : Paging own m top s l) (ha : heapStart ≤ a) (ha' : a < top) :
    heapMem m top a = m.mem (Mm.pteAddr (s.entry m.mem (a / 4096)) + a % 4096) := by
  obtain ⟨v, hw, hv, -⟩ := h.walk ha ha'
  rw [heapMem, if_pos ⟨ha, ha'⟩, hw, hv]
  rfl

theorem lt_of_lt_top (h : Paging own m top s l) (ha : a ≤ top) : a < 4294967296 := by
  have := h.high
  unfold heapEnd at this
  omega

/-- The read of a byte. -/
theorem vload8 (h : Paging own m top s l) (ha : heapStart ≤ a) (ha' : a < top) :
    Mm.vload8 a m = .ok (heapMem m top a, m) := by
  obtain ⟨v, hw, hv, -⟩ := h.walk ha ha'
  rw [h.heapMem_eq ha ha', hv]
  refine Mm.vload8_of_walk ?_
  rwa [u32_eq_self (h.lt_of_lt_top (by omega))]

/-- The read of a word. -/
theorem vload32 (h : Paging own m top s l) (ha : heapStart ≤ a) (ha' : a + 4 ≤ top) :
    Mm.vload32 a m = .ok (load32 (heapMem m top) a, m) := by
  have hlt := h.lt_of_lt_top ha'
  rw [Mm.vload32, Act.bind_of_ok (h.vload8 ha (by omega)),
    Act.bind_of_ok (h.vload8 (a := a + 1) (by omega) (by omega)),
    Act.bind_of_ok (h.vload8 (a := a + 2) (by omega) (by omega)),
    Act.bind_of_ok (h.vload8 (a := a + 3) (by omega) (by omega)), load32,
    u32_eq_self (by omega), u32_eq_self (by omega), u32_eq_self (by omega), u32_eq_self (by omega)]
  rfl

/-- A write into a page `f` of the heap. -/
theorem write {f : Nat} (h : Paging own m top s l)
    (hregs : m' = { m with mem := m'.mem }) (hw : Mm.AgreeOff (fun p => p = f) m.mem m'.mem)
    (hf : Mm.IsFrame f) (hl : ∀ v ∈ l, Mm.v2p v ≠ f) (hoff : ¬ s.Has f) :
    Paging own m' top s l ∧ ∀ n, s.entry m'.mem n = s.entry m.mem n := by
  have hP : ∀ p, p = f → Mm.IsFrame p := fun p hp => hp ▸ hf
  obtain ⟨hat, hentry⟩ := h.held.space.agree hw hP fun p hp => hp ▸ hoff
  have husable : ∀ v, Usable m v → Usable m' v := by
    intro v hv
    rw [hregs]
    exact ⟨hv.page, hv.low, hv.high⟩
  have hcr3 : m'.cr3 = m.cr3 := by rw [hregs]
  have hlist : m'.freeList = m.freeList := by rw [hregs]
  refine ⟨⟨hcr3.trans h.cr3, ⟨hat, h.held.pool.agree hlist hw hP hl, h.held.off⟩, h.low, h.high,
    h.aligned, ?_, ?_, ?_, fun v hv => husable v (h.usable v hv), ?_⟩, hentry⟩
  · intro n hn
    rw [hentry]
    obtain ⟨hp, v, hv, hu, hrest⟩ := h.mapped n hn
    exact ⟨hp, v, hv, husable v hu, hrest⟩
  · intro n n' hn hn'
    rw [hentry, hentry]
    exact h.inj n n' hn hn'
  · intro n hn hn'
    rw [hentry]
    exact h.absent n hn hn'
  · intro v hv
    simp only [h.own v hv, Backs, hentry]

/-- The write of a byte. -/
theorem vstore8 (h : Paging own m top s l) (ha : heapStart ≤ a) (ha' : a < top) (b : UInt8) :
    ∃ m', Mm.vstore8 a b m = .ok ((), m') ∧ Paging own m' top s l ∧
      heapMem m' top = Function.update (heapMem m top) a b := by
  obtain ⟨v, hw, hv, hin, hu, hvl, hoff⟩ := h.walk ha ha'
  have hframe := hu.page.isFrame
  have hl : ∀ u ∈ l, Mm.v2p u ≠ Mm.v2p v :=
    fun u hul he => hvl (Mm.v2p_inj (h.usable u hul).page.2.2 hu.page.2.2 he ▸ hul)
  generalize Mm.v2p v = q at *
  have hmod : a % 4096 < 4096 := Nat.mod_lt _ (by decide)
  have hstore : Mm.vstore8 a b m =
      .ok ((), { m with mem := Function.update m.mem (q + a % 4096) b }) := by
    refine Mm.vstore8_of_walk ?_ b
    rwa [u32_eq_self (h.lt_of_lt_top (by omega))]
  have hagree : Mm.AgreeOff (fun p => p = q) m.mem (Function.update m.mem (q + a % 4096) b) := by
    intro x hx
    have := hx q rfl
    unfold Mm.InPage at this
    exact Function.update_of_ne (by omega) _ _
  have hregs : ({ m with mem := Function.update m.mem (q + a % 4096) b } : Mm) =
      { m with mem := Function.update m.mem (q + a % 4096) b } := rfl
  obtain ⟨h', hentry⟩ := h.write hregs hagree hframe hl hoff
  refine ⟨_, hstore, h', ?_⟩
  funext x
  by_cases hx : heapStart ≤ x ∧ x < top
  · rw [h'.heapMem_eq hx.1 hx.2, hentry]
    by_cases hxa : x = a
    · rw [hxa, hv, Function.update_self]
      exact Function.update_self _ _ _
    · rw [Function.update_of_ne hxa, h.heapMem_eq hx.1 hx.2]
      obtain ⟨v', -, hv', hin', hu', -⟩ := h.walk hx.1 hx.2
      refine Function.update_of_ne (fun he => hxa ?_) _ _
      -- a page is a multiple of its size, so the frames agree, and with them the numbers
      have hmod' : x % 4096 < 4096 := Nat.mod_lt _ (by decide)
      have h₁ := hframe.aligned
      have h₂ := hu'.page.isFrame.aligned
      rw [← hv'] at h₂
      have hn := h.inj _ _ hin' hin (by omega)
      omega
  · have hxa : x ≠ a := by
      rintro rfl
      exact hx ⟨ha, ha'⟩
    rw [Function.update_of_ne hxa, heapMem, if_neg hx, heapMem, if_neg hx]

/-- The write of a word. -/
theorem vstore32 (h : Paging own m top s l) (ha : heapStart ≤ a) (ha' : a + 4 ≤ top) (w : Nat) :
    ∃ m', Mm.vstore32 a w m = .ok ((), m') ∧ Paging own m' top s l ∧
      heapMem m' top = store32 (heapMem m top) a w := by
  have hlt := h.lt_of_lt_top ha'
  obtain ⟨m₁, hs₁, h₁, he₁⟩ := h.vstore8 ha (by omega) (UInt8.ofNat w)
  obtain ⟨m₂, hs₂, h₂, he₂⟩ := h₁.vstore8 (a := a + 1) (by omega) (by omega)
    (UInt8.ofNat (w / 256))
  obtain ⟨m₃, hs₃, h₃, he₃⟩ := h₂.vstore8 (a := a + 2) (by omega) (by omega)
    (UInt8.ofNat (w / 65536))
  obtain ⟨m₄, hs₄, h₄, he₄⟩ := h₃.vstore8 (a := a + 3) (by omega) (by omega)
    (UInt8.ofNat (w / 16777216))
  refine ⟨m₄, ?_, h₄, ?_⟩
  · rw [Mm.vstore32, Act.bind_of_ok hs₁, Act.bind_of_ok hs₂, Act.bind_of_ok hs₃]
    exact hs₄
  · funext x
    rw [he₄, he₃, he₂, he₁]
    simp only [store32, Function.update_apply]
    rw [u32_eq_self (by omega), u32_eq_self (by omega), u32_eq_self (by omega),
      u32_eq_self (by omega)]
    by_cases h₀ : x = a
    · rw [if_neg (by omega), if_neg (by omega), if_neg (by omega), if_pos h₀, if_pos h₀]
    by_cases h₁ : x = a + 1
    · rw [if_neg (by omega), if_neg (by omega), if_pos h₁, if_neg h₀, if_pos h₁]
    by_cases h₂ : x = a + 2
    · rw [if_neg (by omega), if_pos h₂, if_neg h₀, if_neg h₁, if_pos h₂]
    by_cases h₃ : x = a + 3
    · rw [if_pos h₃, if_neg h₀, if_neg h₁, if_neg h₂, if_pos h₃]
    · rw [if_neg h₃, if_neg h₂, if_neg h₁, if_neg h₀, if_neg h₀, if_neg h₁, if_neg h₂, if_neg h₃]

/-- The page `v` of the free list is mapped at `heap_top`. -/
theorem mapPage {v : Nat} {m₁ : Mm} {s' : Mm.Space} {l' : List Nat} (h : Paging own m top s (v :: l))
    (hend : top / 4096 < endPage) (hmem : m₁.mem = m.mem)
    (hregs : m₁ = { m with freeList := m₁.freeList })
    (hmap : Mm.Mapped s s' l l' m₁ m' (top / 4096) 1 (Mm.v2p v) 3) :
    Paging own m' (top + 4096) s' l' ∧
      ∀ a, a < top → heapMem m' (top + 4096) a = heapMem m top a := by
  obtain ⟨us, hus, htab, hagree⟩ := hmap.used
  have hb := h.bounds
  have hvl : v ∉ l := (List.nodup_cons.1 h.held.pool.nodup).1
  have hv := h.usable v List.mem_cons_self
  have hoff := h.held.off v List.mem_cons_self
  have hul : ∀ u ∈ us, u ∈ l := fun u hu => hus ▸ List.mem_append_left _ hu
  have hl'l : ∀ u ∈ l', u ∈ l := fun u hu => hus ▸ List.mem_append_right _ hu
  have hhas : ∀ u, Mm.IsPage u → s'.Has (Mm.v2p u) → s.Has (Mm.v2p u) ∨ u ∈ us := by
    rintro u hu (he | ⟨i, hi⟩)
    · exact Or.inl (Or.inl (he.trans hmap.dir))
    · rcases htab i _ hi with hi | ⟨u', hu', he⟩
      · exact Or.inl (Or.inr ⟨i, hi⟩)
      · have hp := (h.usable u' (List.mem_cons_of_mem _ (hul u' hu'))).page
        exact Or.inr (Mm.v2p_inj hu.2.2 hp.2.2 he ▸ hu')
  have hregs' : m' = { m with mem := m'.mem, freeList := m'.freeList } := by
    rw [hmap.regs, hregs]
  have husable : ∀ u, Usable m u → Usable m' u := by
    intro u hu
    rw [hregs']
    exact ⟨hu.page, hu.low, hu.high⟩
  have hold : ∀ n, n ≠ top / 4096 → s'.entry m'.mem n = s.entry m.mem n := by
    intro n hn
    rw [hmap.entry n, if_neg (by omega), hmem]
  have hnew : s'.entry m'.mem (top / 4096) = Mm.mkPte (Mm.v2p v) 3 := by
    rw [hmap.entry, if_pos (by omega), Nat.sub_self, Nat.mul_zero, Nat.add_zero,
      u32_eq_self (show Mm.v2p v < 4294967296 from u32_lt _)]
  obtain ⟨hpres, haddr, -⟩ := @Mm.mkPte_spec (Mm.v2p v) 3 (by decide)
  have hpte : Mm.pteAddr (Mm.v2p v) = Mm.v2p v := by
    have := hv.page.isFrame.aligned
    unfold Mm.pteAddr
    omega
  rw [hpte, ← hnew] at haddr
  rw [← hnew] at hpres
  have hin : ∀ n, InHeap (top + 4096) n → n ≠ top / 4096 → InHeap top n := by
    rintro n ⟨h₁, h₂⟩ hn
    exact ⟨h₁, by omega⟩
  have hne : ∀ n, InHeap top n → Mm.pteAddr (s.entry m.mem n) ≠ Mm.v2p v := by
    intro n hn he
    obtain ⟨-, u, hu, hus, hul, -⟩ := h.mapped n hn
    have huv := Mm.v2p_inj hus.page.2.2 hv.page.2.2 (hu.symm.trans he)
    exact hul (huv ▸ List.mem_cons_self)
  have hpaging : Paging own m' (top + 4096) s' l' := by
    refine ⟨?_, hmap.held, by have := h.low; omega, ?_, by have := h.aligned; omega, ?_, ?_, ?_, ?_, ?_⟩
    · rw [hregs', hmap.dir]
      exact h.cr3
    · rw [heapEnd_eq]
      omega
    · intro n hn
      by_cases hnt : n = top / 4096
      · rw [hnt]
        exact ⟨hpres, v, haddr, husable v hv, fun hm => hvl (hl'l v hm),
          fun hh => (hhas v hv.page hh).elim hoff fun hu => hvl (hul v hu)⟩
      · obtain ⟨hp, u, hu, hus', hul', hoff'⟩ := h.mapped n (hin n hn hnt)
        rw [hold n hnt]
        exact ⟨hp, u, hu, husable u hus', fun hm => hul' (List.mem_cons_of_mem _ (hl'l u hm)),
          fun hh => (hhas u hus'.page hh).elim hoff'
            fun hm => hul' (List.mem_cons_of_mem _ (hul u hm))⟩
    · intro n n' hn hn' he
      by_cases hnt : n = top / 4096
      · by_cases hnt' : n' = top / 4096
        · rw [hnt, hnt']
        · rw [hnt, haddr, hold n' hnt'] at he
          exact absurd he.symm (hne n' (hin n' hn' hnt'))
      · by_cases hnt' : n' = top / 4096
        · rw [hnt', haddr, hold n hnt] at he
          exact absurd he (hne n (hin n hn hnt))
        · rw [hold n hnt, hold n' hnt'] at he
          exact h.inj n n' (hin n hn hnt) (hin n' hn' hnt') he
    · intro n hn hn'
      rw [hold n (by omega)]
      exact h.absent n (by omega) hn'
    · intro u hu
      exact husable u (h.usable u (List.mem_cons_of_mem _ (hl'l u hu)))
    · intro u hu
      rw [h.own u hu]
      constructor
      · rintro (hm | hm | ⟨n, hn, he⟩)
        · rcases List.mem_cons.1 hm with hm | hm
          · exact Or.inr (Or.inr ⟨top / 4096, ⟨hb.1, by omega⟩, by rw [haddr, hm]⟩)
          · exact (hmap.tables u hm).imp_right Or.inl
        · exact Or.inr (Or.inl (hmap.has hm))
        · have hlt := hn.2
          exact Or.inr (Or.inr ⟨n, ⟨hn.1, by omega⟩, by rw [hold n (by omega), he]⟩)
      · rintro (hm | hm | ⟨n, hn, he⟩)
        · exact Or.inl (List.mem_cons_of_mem _ (hl'l u hm))
        · exact (hhas u hu hm).elim (fun hs => Or.inr (Or.inl hs))
            fun hm => Or.inl (List.mem_cons_of_mem _ (hul u hm))
        · by_cases hnt : n = top / 4096
          · rw [hnt, haddr] at he
            exact Or.inl (Mm.v2p_inj hv.page.2.2 hu.2.2 he ▸ List.mem_cons_self)
          · exact Or.inr (Or.inr ⟨n, hin n hn hnt, by rw [← hold n hnt, he]⟩)
  refine ⟨hpaging, fun a ha => ?_⟩
  by_cases hlow : heapStart ≤ a
  · obtain ⟨u, -, hu, -, husu, hul', hoff'⟩ := h.walk hlow ha
    rw [hpaging.heapMem_eq hlow (by omega), h.heapMem_eq hlow ha, hold _ (by omega), ← hmem]
    -- the page is neither a table nor taken from the list
    refine hagree.page ?_ husu.page.isFrame ?_ ?_
    · rintro p (hp | ⟨w, hw, hp⟩)
      · exact h.held.space.isFrame hp
      · rw [hp]
        exact (h.usable w (List.mem_cons_of_mem _ (hul w hw))).page.isFrame
    · rintro (hp | ⟨w, hw, hp⟩)
      · exact hoff' hp
      · have hwl := List.mem_cons_of_mem v (hul w hw)
        exact hul' (Mm.v2p_inj husu.page.2.2 (h.usable w hwl).page.2.2 hp ▸ hwl)
    · rw [hmem, hu]
      exact ⟨Nat.le_add_right _ _, Nat.add_lt_add_left (Nat.mod_lt _ (by decide)) _⟩
  · rw [heapMem, if_neg fun hh => hlow hh.1, heapMem, if_neg fun hh => hlow hh.1]

/-- `kalloc_page` and `mappages` in the loop of `alloc_chunk`. -/
theorem grow (h : Paging own m top s l) (hcap : capacity m top ≠ 0) :
    ∃ v m₁ m' s' l', Mm.kallocPage m = .ok (v, m₁) ∧
      Mm.mappages (Mm.p2v s.dir) top (Mm.v2p (Mm.pteAddr v)) 4096 (Mm.pteP ||| Mm.pteW) m₁ =
        .ok (0, m') ∧
      s'.dir = s.dir ∧ Paging own m' (top + 4096) s' l' ∧
      capacity m top ≤ capacity m' (top + 4096) + 1 ∧
      ∀ a, a < top → heapMem m' (top + 4096) a = heapMem m top a := by
  obtain ⟨hle, hneed⟩ := h.of_capacity rfl hcap
  have hb := h.bounds
  have hst : firstPage = 851968 := rfl
  have hen : endPage = 1047551 := rfl
  obtain ⟨v, m₁, hr⟩ := Mm.kallocPage_total m
  rcases Mm.kallocPage_cases h.held.pool hr with ⟨rfl, -⟩ | ⟨l₁, rfl, hpage, hpool, hmem, hregs⟩
  · rw [List.length_nil] at hneed
    omega
  rw [List.length_cons] at hneed
  have hheld : Mm.Held s m₁ l₁ := by
    refine ⟨?_, hpool, fun u hu => h.held.off u (List.mem_cons_of_mem _ hu)⟩
    rw [hmem]
    exact h.held.space
  have hpte : Mm.pteAddr v = v := by
    have := hpage.1
    unfold Mm.pteAddr
    omega
  have hone : (top + 4096 - 1) / 4096 = top / 4096 := by omega
  have hlt : Mm.v2p v < 4294967296 := u32_lt _
  refine ⟨v, m₁, ?_⟩
  rw [hpte]
  rcases @Mm.mappages_spec _ _ _ top (Mm.v2p v) 4096 3 hheld (by decide) (by omega) hlt
    (by decide) with ⟨s', l', m', hr', hmap⟩ | ⟨s', m', k, -, hmap, hk, ht⟩ | ⟨-, j, hj, hj', hp⟩
  · rw [hone, Nat.add_sub_cancel_left] at hmap
    obtain ⟨h', hheap⟩ := h.mapPage (by omega) hmem hregs hmap
    refine ⟨m', s', l', hr, hr', hmap.dir, h', ?_, hheap⟩
    -- one page less, and the table that it needs is there now
    have hfew := hmap.few (top / 4096 / 1024) ((top / 4096 + capacity m top + 1023) / 1024)
      fun j hj hj' => by
        rw [show j = top / 4096 by omega]
        omega
    have hmono : s'.missing ((top + 4096) / 4096 / 1024)
        (((top + 4096) / 4096 + (capacity m top - 1) + 1023) / 1024) ≤
        s'.missing (top / 4096 / 1024) ((top / 4096 + capacity m top + 1023) / 1024) :=
      Mm.Space.missing_mono fun i hi hi' _ => by omega
    have := h'.le_capacity (j := capacity m top - 1) (by omega) (by omega)
    omega
  · -- without a page for the table, the table would have been counted
    rw [hone] at hk
    have hfew := hmap.few 0 0 fun j hj hj' => by omega
    have htab : s.tab (top / 4096 / 1024) = none := by
      cases hs : s.tab (top / 4096 / 1024) with
      | none => rfl
      | some t =>
          have := hmap.tab _ t hs
          rw [show k = 0 by omega, Nat.add_zero, this] at ht
          cases ht
    have hpos := Mm.Space.missing_pos htab (Nat.le_refl _)
      (show top / 4096 / 1024 < (top / 4096 + capacity m top + 1023) / 1024 by omega)
    have hzero : s'.missing 0 0 = 0 ∧ s.missing 0 0 = 0 := ⟨rfl, rfl⟩
    rw [List.length_nil, hzero.1, hzero.2] at hfew
    omega
  · rw [hone] at hj'
    rw [hmem] at hp
    exact absurd hp (h.absent j hj (by omega))

/-- The entry of the last heap page is cleared and its page `v` given back. -/
theorem unmap {m₁ : Mm} {v n : Nat} (h : Paging own m top s l) (hn : n + 1 = top / 4096)
    (hlow : firstPage ≤ n) (hv : Mm.pteAddr (s.entry m.mem n) = Mm.v2p v) (hu : Usable m v)
    (hvl : v ∉ l) (hoff : ¬ s.Has (Mm.v2p v)) (hext : Mm.Extends s s l l m m₁)
    (hset : ∀ k, s.entry m₁.mem k = if k = n then 0 else s.entry m.mem k) :
    Paging own (Mm.freed m₁ v) (top - 4096) s (v :: l) ∧
      ∀ a, a < top - 4096 → heapMem (Mm.freed m₁ v) (top - 4096) a = heapMem m top a := by
  have hb := h.bounds
  have hframe := hu.page.isFrame
  obtain ⟨hat, hentry'⟩ := hext.held.space.agree (Mm.agreeOff_freed (m := m₁) hu.page)
    (fun p hp => hp ▸ hframe) fun p hp => hp ▸ hoff
  have hentry : ∀ k, k ≠ n → s.entry (Mm.freed m₁ v).mem k = s.entry m.mem k := by
    intro k hk
    rw [hentry', hset, if_neg hk]
  have hregs : Mm.freed m₁ v = { m with mem := (Mm.freed m₁ v).mem, freeList := v } := by
    rw [Mm.freed, hext.regs]
  have husable : ∀ u, Usable m u → Usable (Mm.freed m₁ v) u := by
    intro u hu
    rw [hregs]
    exact ⟨hu.page, hu.low, hu.high⟩
  have hin : ∀ k, InHeap (top - 4096) k ↔ InHeap top k ∧ k ≠ n := by
    intro k
    unfold InHeap
    omega
  have hinn : InHeap top n := ⟨hlow, by omega⟩
  have hpaging : Paging own (Mm.freed m₁ v) (top - 4096) s (v :: l) := by
    refine ⟨?_, ⟨hat, hext.held.pool.free hu.page hvl, ?_⟩, ?_, ?_, ?_, ?_, ?_, ?_, ?_, ?_⟩
    · rw [hregs]
      exact h.cr3
    · intro u hm
      rcases List.mem_cons.1 hm with hm | hm
      · rw [hm]
        exact hoff
      · exact h.held.off u hm
    · rw [heapStart_eq]
      omega
    · have := h.high
      omega
    · have := h.aligned
      omega
    · intro k hk
      obtain ⟨hk, hkn⟩ := (hin k).1 hk
      obtain ⟨hp, u, hue, huu, hul, huo⟩ := h.mapped k hk
      rw [hentry k hkn]
      refine ⟨hp, u, hue, husable u huu, fun hm => ?_, huo⟩
      rcases List.mem_cons.1 hm with hm | hm
      · exact hkn (h.inj k n hk hinn (by rw [hue, hv, hm]))
      · exact hul hm
    · intro k k' hk hk'
      obtain ⟨hk, hkn⟩ := (hin k).1 hk
      obtain ⟨hk', hkn'⟩ := (hin k').1 hk'
      rw [hentry k hkn, hentry k' hkn']
      exact h.inj k k' hk hk'
    · intro k hk hk'
      by_cases hkn : k = n
      · rw [hentry', hset, if_pos hkn]
        exact Mm.not_present_zero
      · rw [hentry k hkn]
        exact h.absent k (by omega) hk'
    · intro u hm
      rcases List.mem_cons.1 hm with hm | hm
      · rw [hm]
        exact husable v hu
      · exact husable u (h.usable u hm)
    · intro u hup
      rw [h.own u hup, List.mem_cons]
      constructor
      · rintro (hm | hm | ⟨k, hk, he⟩)
        · exact Or.inl (Or.inr hm)
        · exact Or.inr (Or.inl hm)
        · by_cases hkn : k = n
          · rw [hkn, hv] at he
            exact Or.inl (Or.inl (Mm.v2p_inj hup.2.2 hu.page.2.2 he.symm))
          · exact Or.inr (Or.inr ⟨k, (hin k).2 ⟨hk, hkn⟩, by rw [hentry k hkn, he]⟩)
      · rintro ((hm | hm) | hm | ⟨k, hk, he⟩)
        · exact Or.inr (Or.inr ⟨n, hinn, by rw [hv, hm]⟩)
        · exact Or.inl hm
        · exact Or.inr (Or.inl hm)
        · obtain ⟨hk, hkn⟩ := (hin k).1 hk
          exact Or.inr (Or.inr ⟨k, hk, by rw [← hentry k hkn, he]⟩)
  refine ⟨hpaging, fun a ha => ?_⟩
  by_cases hlow : heapStart ≤ a
  · obtain ⟨u, -, hue, hina, huu, hul, huo⟩ := h.walk hlow (by omega)
    have hne : a / 4096 ≠ n := by omega
    have hpage : Mm.InPage (Mm.v2p u) (Mm.pteAddr (s.entry m.mem (a / 4096)) + a % 4096) := by
      rw [hue]
      exact ⟨Nat.le_add_right _ _, Nat.add_lt_add_left (Nat.mod_lt _ (by decide)) _⟩
    rw [hpaging.heapMem_eq hlow ha, h.heapMem_eq hlow (by omega), hentry _ hne]
    -- the page is not the one that is freed, and not a table
    have hfreed := (Mm.agreeOff_freed (m := m₁) hu.page).page (fun p hp => hp ▸ hframe)
      huu.page.isFrame (fun he => hne (h.inj _ _ hina hinn (by rw [hue, hv, he]))) hpage
    obtain ⟨us, hus, -, hagree⟩ := hext.used
    have hnil : us = [] := List.append_left_eq_self.1 hus.symm
    rw [hfreed]
    refine hagree.page ?_ huu.page.isFrame ?_ hpage
    · rintro p (hp | ⟨w, hw, -⟩)
      · exact h.held.space.isFrame hp
      · rw [hnil] at hw
        cases hw
    · rintro (hp | ⟨w, hw, -⟩)
      · exact huo hp
      · rw [hnil] at hw
        cases hw
  · rw [heapMem, if_neg fun hh => hlow hh.1, heapMem, if_neg fun hh => hlow hh.1]

/-- `pgdir_walk` and `unmap_page` in the loop of `free_chunk`. The page is freed by the
kernel pointer `V2P` of its physical address, which is `P2V` of it modulo `2 ^ 32`. -/
theorem shrink (h : Paging own m top s l) (hlow : heapStart + 4096 ≤ top) :
    ∃ p m' v, Mm.pgdirWalk (Mm.p2v s.dir) (top - 4096) false m = .ok (p, m) ∧ p ≠ 0 ∧
      Mm.unmapPage (Mm.p2v s.dir) (top - 4096) m = .ok ((), m') ∧
      Paging own m' (top - 4096) s (v :: l) ∧ capacity m top + 1 ≤ capacity m' (top - 4096) ∧
      ∀ a, a < top - 4096 → heapMem m' (top - 4096) a = heapMem m top a := by
  have hb := h.bounds
  have hen : endPage = 1047551 := rfl
  have hfirst : firstPage + 1 ≤ top / 4096 := by
    unfold heapStart at hlow
    unfold firstPage
    omega
  clear hlow
  obtain ⟨n, hn⟩ : ∃ n, n + 1 = top / 4096 := ⟨top / 4096 - 1, by omega⟩
  have hva : top - 4096 = 4096 * n := by omega
  obtain ⟨hp, v, hv, hu, hvl, hoff⟩ := h.mapped n ⟨by omega, by omega⟩
  obtain ⟨t, ht⟩ := Mm.Space.tab_of_present hp
  obtain ⟨-, hframe, -⟩ := h.held.space.tab _ t ht
  obtain ⟨hne, hptr⟩ := Mm.entry_pointer (n := n) hframe
  have hw := @Mm.pgdirWalk_of_some s m n t false h.held.space (by omega) ht
  have hload : Mm.kload (u32 (Mm.p2v t + 4 * (n % 1024))) m = .ok (s.entry m.mem n, m) :=
    Act.gets_eq_ok.2 ⟨by rw [hptr, Mm.Space.entry_of_some ht], rfl⟩
  obtain ⟨m₁, hstore, hext, hset⟩ := h.held.setEntry (w := 0) ht
  have hvv : Mm.v2p (Mm.v2p v) = v := by
    have := hu.page.2.2
    unfold Mm.v2p u32
    omega
  have hfree : Mm.kfreePage v m₁ = .ok ((), Mm.freed m₁ v) := by
    refine Mm.kfreePage_eq_ok.2 ⟨⟨hu.page.1, ?_, ?_⟩, rfl⟩
    · rw [hext.regs]
      exact hu.low
    · rw [hext.regs]
      exact hu.high
  obtain ⟨h', hheap⟩ := h.unmap hn (by omega) hv hu hvl hoff hext hset
  refine ⟨_, Mm.freed m₁ v, v, by rw [hva]; exact hw, hne, ?_, h', ?_, hheap⟩
  · rw [hva, Mm.unmapPage, Act.bind_of_ok hw, if_neg hne]
    refine (Act.bind_of_ok hload).trans ?_
    rw [if_neg (not_not.2 hp), hv, hvv]
    exact (Act.bind_of_ok hstore).trans hfree
  · rw [show (top - 4096) = 4096 * n from hva] at h' ⊢
    by_cases hzero : capacity m top = 0
    · -- the page that is given back can be mapped again, its table is there
      have hnone : s.missing (4096 * n / 4096 / 1024) ((4096 * n / 4096 + 1 + 1023) / 1024) = 0 := by
        rw [show (4096 * n / 4096 + 1 + 1023) / 1024 = 4096 * n / 4096 / 1024 + 1 by omega,
          Mm.Space.missing_single, show 4096 * n / 4096 / 1024 = n / 1024 by omega, ht]
        rfl
      rw [hzero]
      refine h'.le_capacity (by omega) ?_
      rw [hnone, List.length_cons]
      omega
    · obtain ⟨hle, hneed⟩ := h.of_capacity rfl hzero
      -- the table of the page is there, so none is missing that was not missing before
      have hmono : s.missing (4096 * n / 4096 / 1024)
          ((4096 * n / 4096 + (capacity m top + 1) + 1023) / 1024) ≤
          s.missing (top / 4096 / 1024) ((top / 4096 + capacity m top + 1023) / 1024) := by
        refine Mm.Space.missing_mono fun i hi hi' hni => ?_
        have hne : i ≠ n / 1024 := by
          intro he
          rw [he, ht] at hni
          cases hni
        omega
      refine h'.le_capacity (by omega) ?_
      rw [List.length_cons]
      omega

end Paging

end Heap

end Chunix
