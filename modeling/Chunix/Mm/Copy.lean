import Chunix.Mm.Map

/-!
# New address spaces

`mapkvm` makes a directory with the mappings of the kernel, `copy_page` and
`copy_uvm` fill it with copies of pages of another address space, and `free_vm`
gives its tables back. `Layout` is what the linker script and the memory size
promise; with it the ranges that `mapkvm` maps do not meet.
-/

namespace Chunix

namespace Mm

open Machine Linked

/-- The kernel is linked above `KERNLINK`, its data start at a page, and the
memory ends above the data and below the last page of the direct map. -/
structure Layout (m : Mm) : Prop where
  aligned : m.data % 4096 = 0
  above : 2148532224 < m.data
  below : m.data < 2147483648 + m.memsz * 1024
  fits : 2147483648 + m.memsz * 1024 ≤ 4294963200

/-- The entry of the kernel's mappings for the page number `n`. -/
def kvmEntry (m : Mm) (n : Nat) : Nat :=
  if 524288 ≤ n ∧ 4096 * n < 2147483648 + m.memsz * 1024 then
    mkPte (4096 * (n - 524288)) (if 524544 ≤ n ∧ 4096 * n < m.data then 0 else pteW)
  else 0

/-- The number of page tables that the kernel's mappings need. -/
def kvmTables (m : Mm) : Nat := (2147483648 + m.memsz * 1024 - 1) / 4194304 + 1 - 512

/-- The number of pages that `mapkvm` needs. -/
def kvmPages (m : Mm) : Nat := kvmTables m + 1

/-- What the functions do that take the pages `us` from the list: no byte of
another page is written. -/
structure Spent (us l' : List Nat) (m m' : Mm) : Prop where
  pool : Pool m' l'
  agree : AgreeOff (framesOf us) m.mem m'.mem
  regs : m' = { m with mem := m'.mem, freeList := m'.freeList }

/-- A new address space, all of whose pages are among the pages `us` taken. -/
structure Fresh (s : Space) (us l' : List Nat) (m m' : Mm) : Prop extends Spent us l' m m' where
  space : s.At m'.mem
  off : ∀ v ∈ l', ¬ s.Has (v2p v)
  has : ∀ p, s.Has p → framesOf us p

theorem Fresh.held {s : Space} {us l' : List Nat} {m m' : Mm} (h : Fresh s us l' m m') :
    Held s m' l' := ⟨h.space, h.pool, h.off⟩

/-- An address space without tables. -/
def Space.empty (q : Nat) : Space := ⟨q, fun _ => none⟩

theorem Space.empty_entry (q : Nat) (mem : Memory) (n : Nat) : (Space.empty q).entry mem n = 0 :=
  rfl

theorem Space.at_empty {q : Nat} {mem : Memory} (hq : IsFrame q) :
    (Space.empty q).At (fill mem q 4096 0) where
  dir := hq
  tab := by
    intro i t hi
    cases hi
  inj := by
    intro i j t hi
    cases hi
  pde := by
    intro i t hi
    cases hi
  absent := by
    intro i hi _
    have hzero : load32 (fill mem q 4096 0) (q + 4 * i) = 0 :=
      (@load32_page (fun _ => 0) _ q i hq hi fun a ha => fill_apply_of_mem ha).trans rfl
    rw [show (Space.empty q).dir = q from rfl, hzero]
    decide

section

variable {s s' : Space} {m m₁ m' : Mm} {l l₁ l' us : List Nat} {n r v : Nat}

/-- The cleared page at the head of the list is a new address space. -/
theorem fresh_empty {q : Nat} (h : Pool m (v :: l)) (hq : v2p v = q) (hpool : Pool m₁ l)
    (hmem : m₁.mem = m.mem) (hregs : m₁ = { m with freeList := m₁.freeList }) :
    Fresh (Space.empty q) [v] l m { m₁ with mem := fill m₁.mem q 4096 0 } := by
  have hframe : IsFrame q := hq ▸ (h.page v List.mem_cons_self).isFrame
  have hrest : ¬ framesOf l q := hq ▸ not_framesOf_tail h
  have hagree : AgreeOff (fun p => p = q) m₁.mem (fill m₁.mem q 4096 0) := by
    intro a ha
    have := ha q rfl
    unfold InPage at this
    exact fill_apply_of_notMem (by omega)
  refine ⟨⟨?_, ?_, ?_⟩, Space.at_empty hframe, ?_, ?_⟩
  · refine hpool.agree rfl hagree (fun p hp => hp ▸ hframe) ?_
    exact fun u hu he => hrest ⟨u, hu, he.symm⟩
  · intro a ha
    have hne : ∀ p, p = q → ¬ InPage p a :=
      fun p hp => ha p ⟨v, List.mem_cons_self, hp.trans hq.symm⟩
    rw [← hmem]
    exact hagree a hne
  · rw [hregs]
  · rintro u hu (he | ⟨i, hi⟩)
    · exact hrest ⟨u, hu, he.symm⟩
    · cases hi
  · rintro p (he | ⟨i, hi⟩)
    · exact ⟨v, List.mem_cons_self, he.trans hq.symm⟩
    · cases hi

theorem framesOf_append {us us' : List Nat} {p : Nat} :
    framesOf (us ++ us') p ↔ framesOf us p ∨ framesOf us' p := by
  simp [framesOf, or_and_right, exists_or]

theorem Spent.layout (h : Spent us l' m m') (hm : Layout m) : Layout m' := by
  rw [h.regs]
  exact ⟨hm.aligned, hm.above, hm.below, hm.fits⟩

theorem Spent.trans {us' : List Nat} (h : Spent us l₁ m m₁) (h' : Spent us' l' m₁ m') :
    Spent (us ++ us') l' m m' where
  pool := h'.pool
  agree := h.agree.trans h'.agree (fun _ hp => framesOf_append.2 (Or.inl hp))
    fun _ hp => framesOf_append.2 (Or.inr hp)
  regs := by rw [h'.regs, h.regs]

/-- A new address space is still one when it has been extended. -/
theorem Fresh.extend (h : Fresh s us l₁ m m₁) (h' : Extends s s' l₁ l' m₁ m') :
    ∃ us', us ++ l₁ = us' ++ l' ∧ Fresh s' us' l' m m' := by
  obtain ⟨us', hl, htab, hmem⟩ := h'.used
  have hleft : ∀ p, framesOf us p → framesOf (us ++ us') p :=
    fun p hp => framesOf_append.2 (Or.inl hp)
  have hright : ∀ p, framesOf us' p → framesOf (us ++ us') p :=
    fun p hp => framesOf_append.2 (Or.inr hp)
  refine ⟨us ++ us', by rw [hl, List.append_assoc],
    ⟨h'.held.pool, ?_, ?_⟩, h'.held.space, h'.held.off, ?_⟩
  · exact h.agree.trans hmem hleft fun p hp => hp.elim (fun hp => hleft p (h.has p hp)) (hright p)
  · rw [h'.regs, h.regs]
  · rintro p (he | ⟨i, hi⟩)
    · exact hleft p (h.has p (Or.inl (he.trans h'.dir)))
    · rcases htab i p hi with hi | hu
      · exact hleft p (h.has p (Or.inr ⟨i, hi⟩))
      · exact hright p hu

/-- `mappages` in a new address space, for a range that is not mapped yet. -/
theorem Fresh.mappages {m₀ : Mm} (h : Fresh s us l m₀ m) (a b va pa sz perm : Nat) (hsz : 0 < sz)
    (ha : a ≤ va / 4194304) (hva : va + sz ≤ 4294963200) (hb : (va + sz - 1) / 4194304 < b)
    (hpa : pa < 4294967296) (hperm : perm < 4096)
    (habs : ∀ j, va / 4096 ≤ j → j ≤ (va + sz - 1) / 4096 → ¬ present (s.entry m.mem j)) :
    (∃ s' m', Mm.mappages (p2v s.dir) va pa sz perm m = .ok (-1, m') ∧
      Fresh s' (us ++ l) [] m₀ m' ∧ l.length < s.missing a b) ∨
    ∃ s' us' l' m', Mm.mappages (p2v s.dir) va pa sz perm m = .ok (0, m') ∧
      Fresh s' us' l' m₀ m' ∧ us ++ l = us' ++ l' ∧
      Mapped s s' l l' m m' (va / 4096) ((va + sz - 1) / 4096 + 1 - va / 4096) pa perm ∧
      l.length + s'.missing a b = l'.length + s.missing a b := by
  rcases mappages_spec h.held hsz hva hpa hperm with
    ⟨s', l', m', hr, hmap⟩ | ⟨s', m', k, hr, hmap, hk, hnone⟩ | ⟨-, j, hj, hj', hp⟩
  · obtain ⟨us', hus, hfresh⟩ := h.extend hmap.toExtends
    exact Or.inr ⟨s', us', l', m', hr, hfresh, hus, hmap,
      hmap.few a b fun j hj hj' => by omega⟩
  · obtain ⟨us', hus, hfresh⟩ := h.extend hmap.toExtends
    have hfew := hmap.few a b fun j hj hj' => by omega
    have hpos := Space.missing_pos hnone (show a ≤ _ by omega) (show _ < b by omega)
    rw [List.append_nil] at hus
    refine Or.inl ⟨s', m', hr, hus ▸ hfresh, ?_⟩
    rw [List.length_nil] at hfew
    omega
  · exact absurd hp (habs j hj hj')

/-- The entries of the first two ranges of `mapkvm`: the memory below one megabyte and the
text of the kernel. -/
def textEntry (m : Mm) (n : Nat) : Nat :=
  if 524288 ≤ n ∧ 4096 * n < m.data then
    mkPte (4096 * (n - 524288)) (if 524544 ≤ n then 0 else pteW)
  else 0

/-- The first two ranges of `mapkvm` in an address space that is empty so far. -/
theorem textEntry_of_mapped {s₀ s₁ s₂ : Space} {l₀ l₂ : List Nat} {m₀ m₂ : Mm}
    (ha : m.data % 4096 = 0) (hb : 2148532224 < m.data) (hlt : m.data < 4294967296)
    (h₀ : ∀ j, s₀.entry m₀.mem j = 0)
    (h₁ : Mapped s₀ s₁ l₀ l₁ m₀ m₁ 524288 256 0 pteW)
    (h₂ : Mapped s₁ s₂ l₁ l₂ m₁ m₂ 524544 (m.data / 4096 - 524544) 1048576 0) (j : Nat) :
    s₂.entry m₂.mem j = textEntry m j := by
  rw [h₂.entry j, h₁.entry j, h₀ j, textEntry]
  by_cases hj₁ : j < 524288
  · rw [if_neg (by omega), if_neg (by omega), if_neg (by omega)]
  by_cases hj₂ : j < 524544
  · rw [if_neg (by omega), if_pos (by omega), if_pos (by omega), if_neg (by omega),
      u32_eq_self (by omega), Nat.zero_add]
  by_cases hj₃ : 4096 * j < m.data
  · rw [if_pos (by omega), if_pos (by omega), if_pos (by omega), u32_eq_self (by omega),
      show 1048576 + 4096 * (j - 524544) = 4096 * (j - 524288) by omega]
  · rw [if_neg (by omega), if_neg (by omega), if_neg (by omega)]

/-- The three ranges of `mapkvm` together. -/
theorem kvmEntry_of_mapped (hm : Layout m) (h : ∀ j, s.entry m₁.mem j = textEntry m j)
    (h' : Mapped s s' l l' m₁ m' (m.data / 4096)
      ((2147483648 + m.memsz * 1024 - 1) / 4096 + 1 - m.data / 4096) (m.data - 2147483648) pteW)
    (j : Nat) : s'.entry m'.mem j = kvmEntry m j := by
  have ha := hm.aligned
  have hb := hm.above
  have hc := hm.below
  have hd := hm.fits
  rw [h'.entry j, h j, textEntry, kvmEntry]
  by_cases hj : m.data ≤ 4096 * j
  · by_cases hj' : 4096 * j < 2147483648 + m.memsz * 1024
    · rw [if_pos (by omega), if_pos (by omega), if_neg (by omega), u32_eq_self (by omega),
        show m.data - 2147483648 + 4096 * (j - m.data / 4096) = 4096 * (j - 524288) by omega]
    · rw [if_neg (by omega), if_neg (by omega), if_neg (by omega)]
  · rw [if_neg (by omega)]
    by_cases hj₁ : j < 524288
    · rw [if_neg (by omega), if_neg (by omega)]
    · have htext : (524544 ≤ j ∧ 4096 * j < m.data) = (524544 ≤ j) :=
        propext ⟨fun h => h.1, fun h => ⟨h, by omega⟩⟩
      have hin : 524288 ≤ j ∧ 4096 * j < 2147483648 + m.memsz * 1024 := by omega
      have hin' : 524288 ≤ j ∧ 4096 * j < m.data := by omega
      simp only [if_pos hin, if_pos hin', htext]

theorem Space.entry_lt (s : Space) (mem : Memory) (n : Nat) : s.entry mem n < 4294967296 := by
  unfold Space.entry
  split
  · exact load32_lt mem _
  · decide

theorem not_present_zero : ¬ present 0 := by decide

theorem Space.missing_empty (q a b : Nat) : (Space.empty q).missing a b = b - a := by
  simp [Space.missing, Space.empty]

/-- The kernel's mappings have all the tables they need. -/
theorem missing_kvm (hm : Layout m) (h : ∀ j, s.entry m'.mem j = kvmEntry m j) :
    s.missing 512 (kvmTables m + 512) = 0 := by
  have hd := hm.below
  have habove := hm.above
  rw [Space.missing, Finset.card_eq_zero, Finset.filter_eq_empty_iff]
  intro i hi hnone
  obtain ⟨hlow, hhigh⟩ := Finset.mem_Ico.1 hi
  unfold kvmTables at hhigh
  have he := h (1024 * i)
  rw [Space.entry_of_none (by rwa [Nat.mul_div_cancel_left _ (by decide)]), kvmEntry,
    if_pos (by omega)] at he
  have hp := (@mkPte_spec (4096 * (1024 * i - 524288))
    (if 524544 ≤ 1024 * i ∧ 4096 * (1024 * i) < m.data then 0 else pteW)
    (by split <;> decide)).1
  rw [← he] at hp
  exact not_present_zero hp

/-- The end of `mapkvm`: the memory from the data of the kernel on. -/
def mapMemory (m : Mm) (pgdir : Nat) : Act Mm Nat := do
  if (← mappages pgdir m.data (v2p m.data)
      (u32 (u32 (m.memsz * 1024) + 4294967296 - v2p m.data)) pteW) < 0 then
    return 0
  return pgdir

/-- `mapkvm` up to its last range. The tables are counted between the indices `a` and `b`. -/
theorem mapkvm_front {a b : Nat} (h : Pool m l) (haligned : m.data % 4096 = 0)
    (habove : 2148532224 < m.data) (hlt : m.data < 4294967296) (ha : a ≤ 512)
    (hb : (m.data - 1) / 4194304 < b) :
    (∃ m', mapkvm m = .ok (0, m') ∧ Spent l [] m m' ∧ l.length < b - a + 1) ∨
    ∃ s us l' m', mapkvm m = mapMemory m (p2v s.dir) m' ∧ Fresh s us l' m m' ∧ l = us ++ l' ∧
      (∀ v ∈ l, v ∈ l' ∨ s.Has (v2p v)) ∧ (∀ j, s.entry m'.mem j = textEntry m j) ∧
      (∀ i, i < 512 → s.tab i = none) ∧ l.length + s.missing a b = l'.length + (b - a + 1) := by
  obtain ⟨v, m₁, hr⟩ := kallocPage_total m
  rcases kallocPage_cases h hr with ⟨rfl, rfl, rfl⟩ | ⟨l₁, rfl, hv, hpool, hmem, hregs⟩
  · refine Or.inl ⟨m₁, ?_, ⟨h, fun _ _ => rfl, rfl⟩, Nat.succ_pos _⟩
    rw [mapkvm, Act.bind_of_ok hr, if_pos rfl]
    rfl
  have hv0 : v ≠ 0 := hv.2.1
  have hp2v : p2v (v2p v) = v := p2v_v2p hv.2.2
  generalize hq : v2p v = q at hp2v
  have h₀ := fresh_empty h hq hpool hmem hregs
  have hset : kmemset v 0 4096 m₁ = .ok ((), { m₁ with mem := fill m₁.mem q 4096 0 }) :=
    Act.modify_eq_ok.2 (by rw [hq])
  generalize { m₁ with mem := fill m₁.mem q 4096 0 } = m₀ at h₀ hset
  have hdata : m₀.data = m.data := by rw [h₀.regs]
  have hsz : m₀.memsz = m.memsz := by rw [h₀.regs]
  have hmiss := Space.missing_empty q a b
  have hget : (Act.get : Act Mm Mm) m₀ = .ok (m₀, m₀) := rfl
  have hdir : v = p2v (Space.empty q).dir := hp2v.symm
  rw [mapkvm, Act.bind_of_ok hr, if_neg hv0, Act.bind_of_ok hset, Act.bind_of_ok hget, hdata, hsz]
  have htext : u32 (m.data + 4294967296 - kernlink) = m.data - 2148532224 := by
    unfold u32 kernlink
    omega
  rw [htext]
  have hzero : ∀ j, (Space.empty q).entry m₀.mem j = 0 := Space.empty_entry q m₀.mem
  have habs₀ : ∀ j, ¬ present ((Space.empty q).entry m₀.mem j) := by
    intro j
    rw [hzero j]
    exact not_present_zero
  rcases h₀.mappages a b kernbase 0 extmem pteW (by decide) (by unfold kernbase; omega) (by decide)
    (by unfold kernbase extmem; omega) (by decide) (by decide) (fun j _ _ => habs₀ j) with
    ⟨s', m', hr₁, hf, hlen⟩ | ⟨s₁, us₁, l₂, m₂, hr₁, hf₁, hus₁, hmap₁, hfew₁⟩
  · rw [← hdir] at hr₁
    refine Or.inl ⟨m', ?_, hf.toSpent, ?_⟩
    · rw [Act.bind_of_ok hr₁, if_pos (by decide)]
      rfl
    · rw [List.length_cons]
      omega
  have hneg : ¬ ((0 : Int) < 0) := by decide
  have hmap₁' : Mapped (Space.empty q) s₁ l₁ l₂ m₀ m₂ 524288 256 0 pteW := hmap₁
  have hd₁ : v = p2v s₁.dir := hdir.trans (congrArg p2v hmap₁'.dir.symm)
  rw [← hdir] at hr₁
  rw [Act.bind_of_ok hr₁, if_neg hneg]
  have habs₁ : ∀ j, 524544 ≤ j → ¬ present (s₁.entry m₂.mem j) := by
    intro j hj
    rw [hmap₁'.entry j, if_neg (by omega), hzero j]
    exact not_present_zero
  rcases hf₁.mappages a b kernlink (v2p kernlink) (m.data - 2148532224) 0 (by omega)
    (by unfold kernlink; omega) (by unfold kernlink; omega) (by unfold kernlink; omega) (by decide)
    (by decide) (fun j hj _ => habs₁ j hj) with
    ⟨s', m', hr₂, hf, hlen⟩ | ⟨s₂, us₂, l₃, m₃, hr₂, hf₂, hus₂, hmap₂, hfew₂⟩
  · rw [← hd₁] at hr₂
    rw [← hus₁] at hf
    refine Or.inl ⟨m', ?_, hf.toSpent, ?_⟩
    · rw [Act.bind_of_ok hr₂, if_pos (by decide)]
      rfl
    · rw [List.length_cons]
      omega
  have hmap₂' : Mapped s₁ s₂ l₂ l₃ m₂ m₃ 524544 (m.data / 4096 - 524544) 1048576 0 := by
    have hk : (2148532224 + (m.data - 2148532224) - 1) / 4096 + 1 - 2148532224 / 4096 =
        m.data / 4096 - 524544 := by omega
    exact hk ▸ hmap₂
  have hd₂ : v = p2v s₂.dir := hd₁.trans (congrArg p2v hmap₂'.dir.symm)
  rw [← hd₁] at hr₂
  rw [Act.bind_of_ok hr₂, if_neg hneg]
  refine Or.inr ⟨s₂, us₂, l₃, m₃, ?_, hf₂, ?_, ?_,
    textEntry_of_mapped haligned habove hlt hzero hmap₁' hmap₂', ?_, ?_⟩
  · rw [← hd₂]
    rfl
  · rw [← hus₂, ← hus₁]
    rfl
  · intro u hu
    rcases List.mem_cons.1 hu with hu | hu
    · rw [hu, hq]
      exact Or.inr (hmap₂'.has (hmap₁'.has (Or.inl rfl)))
    rcases hmap₁'.tables u hu with hu | hu
    · exact hmap₂'.tables u hu
    · exact Or.inr (hmap₂'.has hu)
  · intro i hi
    rw [hmap₂'.tab_below (by omega), hmap₁'.tab_below (by omega)]
    rfl
  · rw [List.length_cons]
    omega

theorem not_present_textEntry {j : Nat} (hj : m.data ≤ 4096 * j) : ¬ present (textEntry m j) := by
  rw [textEntry, if_neg (by omega)]
  exact not_present_zero

/-- `mapkvm` runs out of pages, or returns a directory with the mappings of the
kernel. -/
theorem mapkvm_spec (h : Pool m l) (hm : Layout m) :
    (∃ m', mapkvm m = .ok (0, m') ∧ Spent l [] m m' ∧ l.length < kvmPages m) ∨
    ∃ s us l' m', mapkvm m = .ok (p2v s.dir, m') ∧ Fresh s us l' m m' ∧ l = us ++ l' ∧
      (∀ v ∈ l, v ∈ l' ∨ s.Has (v2p v)) ∧
      (∀ j, s.entry m'.mem j = kvmEntry m j) ∧ (∀ i, i < 512 → s.tab i = none) ∧
      l.length = l'.length + kvmPages m := by
  have ha := hm.aligned
  have hb := hm.above
  have hc := hm.below
  have hd := hm.fits
  have htables : (2147483648 + m.memsz * 1024 - 1) / 4194304 < kvmTables m + 512 := by
    unfold kvmTables
    omega
  have hpages : kvmTables m + 512 - 512 + 1 = kvmPages m := by
    rw [kvmPages, Nat.add_sub_cancel]
  have hfront := mapkvm_front (a := 512) (b := kvmTables m + 512) h ha hb (by omega) le_rfl (by omega)
  rw [hpages] at hfront
  rcases hfront with hout | ⟨s₂, us₂, l₃, m₃, hrun, hf₂, hus₂, htab₂, htext, huser, hlen⟩
  · exact Or.inl hout
  have e₃ : v2p m.data = m.data - 2147483648 := by
    unfold v2p u32
    omega
  have e₄ : u32 (u32 (m.memsz * 1024) + 4294967296 - v2p m.data) =
      2147483648 + m.memsz * 1024 - m.data := by
    rw [e₃]
    unfold u32
    omega
  rw [mapMemory, e₄, e₃] at hrun
  rcases hf₂.mappages 512 (kvmTables m + 512) m.data (m.data - 2147483648)
    (2147483648 + m.memsz * 1024 - m.data) pteW (by omega) (by omega) (by omega) (by omega)
    (by omega) (by decide) (fun j hj _ => by
      rw [htext j]
      exact not_present_textEntry (by omega)) with
    ⟨s', m', hr₃, hf, hfew⟩ | ⟨s₃, us₃, l₄, m₄, hr₃, hf₃, hus₃, hmap₃, hfew₃⟩
  · rw [← hus₂] at hf
    refine Or.inl ⟨m', ?_, hf.toSpent, by omega⟩
    rw [hrun, Act.bind_of_ok hr₃, if_pos (by decide)]
    rfl
  rw [show m.data + (2147483648 + m.memsz * 1024 - m.data) - 1 =
    2147483648 + m.memsz * 1024 - 1 by omega] at hmap₃
  have hkvm := kvmEntry_of_mapped hm htext hmap₃
  have hfull := missing_kvm hm hkvm
  refine Or.inr ⟨s₃, us₃, l₄, m₄, ?_, hf₃, hus₂.trans hus₃, ?_, hkvm, ?_, by omega⟩
  · rw [hrun, Act.bind_of_ok hr₃, if_neg (by decide), hmap₃.dir]
    rfl
  · intro u hu
    rcases htab₂ u hu with hu | hu
    · exact hmap₃.tables u hu
    · exact Or.inr (hmap₃.has hu)
  · intro i hi
    rw [hmap₃.tab_below (by omega)]
    exact huser i hi

/-- The first page is taken from the list and written into. -/
theorem Held.take {q : Nat} {mem₂ : Memory} (h : Held s m (v :: l)) (hq : v2p v = q)
    (hpool : Pool m₁ l) (hmem : m₁.mem = m.mem) (hregs : m₁ = { m with freeList := m₁.freeList })
    (hw : AgreeOff (fun p => p = q) m.mem mem₂) :
    Extends s s (v :: l) l m { m₁ with mem := mem₂ } ∧
      ∀ j, s.entry mem₂ j = s.entry m.mem j := by
  have hframe : IsFrame q := hq ▸ (h.pool.page v List.mem_cons_self).isFrame
  have hrest : ¬ framesOf l q := hq ▸ not_framesOf_tail h.pool
  have hoff : ¬ s.Has q := hq ▸ h.off v List.mem_cons_self
  obtain ⟨hat, hentry⟩ := h.space.agree hw (fun p hp => hp ▸ hframe) fun p hp => hp ▸ hoff
  refine ⟨⟨rfl, fun _ _ hi => hi, ⟨hat, ?_, fun u hu => h.off u (List.mem_cons_of_mem _ hu)⟩,
    ⟨[v], rfl, fun _ _ hi => Or.inl hi, fun a ha => hw a fun p hp => ha p ?_⟩, ?_⟩, hentry⟩
  · refine hpool.agree rfl (fun a ha => (hw a ha).trans (by rw [hmem])) (fun p hp => hp ▸ hframe) ?_
    exact fun u hu he => hrest ⟨u, hu, he.symm⟩
  · exact Or.inr ⟨v, List.mem_cons_self, hp.trans hq.symm⟩
  · rw [hregs]

theorem pgdirWalk_page (pgdir va : Nat) (alloc : Bool) :
    pgdirWalk pgdir va alloc = pgdirWalk pgdir (4096 * (va / 4096)) alloc := by
  have hd : pdx va = pdx (4096 * (va / 4096)) := by
    unfold pdx
    omega
  have ht : ptx va = ptx (4096 * (va / 4096)) := by
    unfold ptx
    omega
  rw [pgdirWalk, pgdirWalk, hd, ht]

/-- The read of an entry as the copying functions make it. -/
theorem Space.At.lookup {α : Type} {va t : Nat} {x : Nat → Act Mm α} {e : Stop} (h : s.At m.mem)
    (hva : va < 4294967296) (ht : s.tab (va / 4096 / 1024) = some t) :
    (do
      let pte ← pgdirWalk (p2v s.dir) va false
      if pte = 0 then
        Act.halt e
      let old ← kload pte
      x old) m = x (s.entry m.mem (va / 4096)) m := by
  obtain ⟨-, hframe, -⟩ := h.tab _ t ht
  obtain ⟨hne, hptr⟩ := entry_pointer (n := va / 4096) hframe
  have hw := @pgdirWalk_of_some s m _ t false h (by omega) ht
  rw [← pgdirWalk_page] at hw
  have hload : kload (u32 (p2v t + 4 * (va / 4096 % 1024))) m =
      .ok (s.entry m.mem (va / 4096), m) :=
    Act.gets_eq_ok.2 ⟨by rw [hptr, Space.entry_of_some ht], rfl⟩
  rw [Act.bind_of_ok hw, if_neg hne]
  exact Act.bind_of_ok hload

/-- The same without a table. -/
theorem Space.At.lookup_none {α : Type} {va : Nat} {x : Nat → Act Mm α} {e : Stop}
    (h : s.At m.mem) (hva : va < 4294967296) (ht : s.tab (va / 4096 / 1024) = none) :
    (do
      let pte ← pgdirWalk (p2v s.dir) va false
      if pte = 0 then
        Act.halt e
      let old ← kload pte
      x old) m = .error e := by
  have hw := pgdirWalk_of_none h (by omega) ht
  rw [← pgdirWalk_page] at hw
  rw [Act.bind_of_ok hw, if_pos rfl]
  rfl

theorem Space.tab_of_present (hp : present (s.entry m.mem n)) : ∃ t, s.tab (n / 1024) = some t := by
  cases ht : s.tab (n / 1024) with
  | none =>
      rw [Space.entry_of_none ht] at hp
      exact absurd hp not_present_zero
  | some t => exact ⟨t, rfl⟩

/-- A page that is copied into another one. -/
theorem agreeOff_blit (mem : Memory) (q f : Nat) :
    AgreeOff (fun p => p = q) mem (blit mem q f 4096) := by
  intro a ha
  have := ha q rfl
  unfold InPage at this
  exact blit_apply_of_notMem (by omega)

/-- The page of the entry `old` is copied and the copy is mapped at `addr`, as
`copy_page` and `copy_uvm` do it. -/
theorem Held.copyInto {α : Type} {c : Space} {old : Nat} {x z : Act Mm α} {y : Nat → Act Mm α}
    (hc : Held c m l) (addr : Nat) (haddr : addr + 4096 ≤ 4294963200) (hold : old < 4294967296) :
    let copy : Act Mm α := do
      let page ← kallocPage
      if page = 0 then x
      else do
        kmemmove page (p2v (pteAddr old)) 4096
        let r ← mappages (p2v c.dir) addr (v2p page) 4096 (pteFlags old)
        if r < 0 then y page else z
    (l = [] ∧ copy m = x m) ∨
    ∃ v l₁ m₂, l = v :: l₁ ∧ Extends c c l l₁ m m₂ ∧ (∀ j, c.entry m₂.mem j = c.entry m.mem j) ∧
      m₂.mem = blit m.mem (v2p v) (pteAddr old) 4096 ∧
      ((∃ c' l' m', copy m = z m' ∧ Mapped c c' l₁ l' m₂ m' (addr / 4096)
        ((addr + 4095) / 4096 + 1 - addr / 4096) (v2p v) (pteFlags old)) ∨
      (∃ c' m' k, copy m = y v m' ∧
        Mapped c c' l₁ [] m₂ m' (addr / 4096) k (v2p v) (pteFlags old) ∧
        addr / 4096 + k ≤ (addr + 4095) / 4096 ∧ c'.tab ((addr / 4096 + k) / 1024) = none) ∨
      (copy m = .error (.panic "mappages: re-map") ∧
        ∃ j, addr / 4096 ≤ j ∧ j ≤ (addr + 4095) / 4096 ∧ present (c.entry m.mem j))) := by
  intro copy
  have hflags : pteFlags old < 4096 := Nat.mod_lt _ (by decide)
  obtain ⟨v, m₁, hr⟩ := kallocPage_total m
  have hcopy : copy m = _ := Act.bind_of_ok hr
  rcases kallocPage_cases hc.pool hr with ⟨rfl, rfl, rfl⟩ | ⟨l₁, rfl, hv, hpool, hmem, hregs⟩
  · exact Or.inl ⟨rfl, hcopy⟩
  rw [if_neg hv.2.1] at hcopy
  have hpa : v2p (p2v (pteAddr old)) = pteAddr old := by
    refine v2p_p2v ?_
    unfold pteAddr
    omega
  generalize hq : v2p v = q at *
  have hmove : kmemmove v (p2v (pteAddr old)) 4096 m₁ =
      .ok ((), { m₁ with mem := blit m.mem q (pteAddr old) 4096 }) :=
    Act.modify_eq_ok.2 (by rw [hpa, hq, hmem])
  obtain ⟨hext, hentry⟩ := hc.take hq hpool hmem hregs
    (agreeOff_blit m.mem q (pteAddr old))
  replace hcopy := hcopy.trans (Act.bind_of_ok hmove)
  refine Or.inr ⟨v, l₁, _, rfl, hext, hentry, by rw [hq], ?_⟩
  rw [hq]
  have hqlt : q < 4294967296 := hq ▸ u32_lt _
  rcases @mappages_spec c _ l₁ addr q 4096 (pteFlags old) hext.held (by decide) haddr
    hqlt hflags with ⟨c', l', m', hr', hmap⟩ | ⟨c', m', k, hr', hmap⟩ | ⟨hr', j, hj, hj', hpj⟩
  · exact Or.inl ⟨c', l', m', hcopy.trans (Act.bind_of_ok hr'), hmap⟩
  · exact Or.inr (Or.inl ⟨c', m', k, hcopy.trans (Act.bind_of_ok hr'), hmap⟩)
  · refine Or.inr (Or.inr ⟨hcopy.trans (Act.bind_of_error hr'), j, hj, hj', ?_⟩)
    rwa [hentry] at hpj

/-- What `copy_page` does with a page that is present in the address space `s`. -/
theorem copyPage_spec {c : Space} {addr : Nat} (hc : Held c m l) (hs : s.At m.mem)
    (haddr : addr + 4096 ≤ 4294963200) (hp : present (s.entry m.mem (addr / 4096))) :
    (l = [] ∧ copyPage (p2v s.dir) (p2v c.dir) addr m = .ok (0, m)) ∨
    ∃ v l₁ m₂, l = v :: l₁ ∧ Extends c c l l₁ m m₂ ∧
      (∀ j, c.entry m₂.mem j = c.entry m.mem j) ∧
      m₂.mem = blit m.mem (v2p v) (pteAddr (s.entry m.mem (addr / 4096))) 4096 ∧
      ((∃ c' l' m', copyPage (p2v s.dir) (p2v c.dir) addr m = .ok (p2v c.dir, m') ∧
        Mapped c c' l₁ l' m₂ m' (addr / 4096) ((addr + 4095) / 4096 + 1 - addr / 4096) (v2p v)
          (pteFlags (s.entry m.mem (addr / 4096)))) ∨
      (∃ c' m' k, copyPage (p2v s.dir) (p2v c.dir) addr m = (do kfreePage v; return 0) m' ∧
        Mapped c c' l₁ [] m₂ m' (addr / 4096) k (v2p v)
          (pteFlags (s.entry m.mem (addr / 4096))) ∧
        addr / 4096 + k ≤ (addr + 4095) / 4096 ∧ c'.tab ((addr / 4096 + k) / 1024) = none) ∨
      (copyPage (p2v s.dir) (p2v c.dir) addr m = .error (.panic "mappages: re-map") ∧
        ∃ j, addr / 4096 ≤ j ∧ j ≤ (addr + 4095) / 4096 ∧ present (c.entry m.mem j))) := by
  obtain ⟨t, ht⟩ := Space.tab_of_present hp
  have hcopy : copyPage (p2v s.dir) (p2v c.dir) addr m = _ := hs.lookup (by omega) ht
  rw [if_neg (not_not.2 hp)] at hcopy
  rw [hcopy]
  exact hc.copyInto addr haddr (s.entry_lt m.mem _)

/-- One turn of the loop of `copy_uvm` that does not panic. -/
theorem copyUvmLoop_step {c : Space} {sz fuel : Nat} (hc : Held c m l) (hs : s.At m.mem)
    (hn : n < 1048575) (hsz : 4096 * n < sz)
    (h : copyUvmLoop (p2v s.dir) sz (p2v c.dir) (fuel + 1) (4096 * n) m = .ok (r, m')) :
    (¬ present (s.entry m.mem n) ∧
      copyUvmLoop (p2v s.dir) sz (p2v c.dir) fuel (4096 * (n + 1)) m = .ok (r, m')) ∨
    (∃ l₁ m₂ c' m₁, Extends c c l l₁ m m₂ ∧ (∀ v l', l = v :: l' → l₁ = l') ∧
      Extends c c' l₁ [] m₂ m₁ ∧ present (s.entry m.mem n) ∧
      freeVm (p2v c'.dir) m₁ = .ok ((), m') ∧ r = 0) ∨
    ∃ v l₁ m₂ c' l' m₁, l = v :: l₁ ∧ present (s.entry m.mem n) ∧ Extends c c l l₁ m m₂ ∧
      (∀ j, c.entry m₂.mem j = c.entry m.mem j) ∧
      m₂.mem = blit m.mem (v2p v) (pteAddr (s.entry m.mem n)) 4096 ∧
      Mapped c c' l₁ l' m₂ m₁ n 1 (v2p v) (pteFlags (s.entry m.mem n)) ∧
      copyUvmLoop (p2v s.dir) sz (p2v c.dir) fuel (4096 * (n + 1)) m₁ = .ok (r, m') := by
  have hdiv : 4096 * n / 4096 = n := by omega
  have hnext : u32 (4096 * n + 4096) = 4096 * (n + 1) := by
    rw [u32_eq_self (by omega)]
    omega
  have hlt : s.entry m.mem n < 4294967296 := s.entry_lt m.mem n
  have hflags : pteFlags (s.entry m.mem n) < 4096 := Nat.mod_lt _ (by decide)
  have hfail : ∀ m₁, (do freeVm (p2v c.dir); return 0 : Act Mm Nat) m₁ = .ok (r, m') →
      freeVm (p2v c.dir) m₁ = .ok ((), m') ∧ r = 0 := by
    intro m₁ hm₁
    obtain ⟨_, m₂, hfree, hret⟩ := Act.bind_eq_ok.1 hm₁
    obtain ⟨hr, rfl⟩ := Act.pure_eq_ok.1 hret
    exact ⟨hfree, hr.symm⟩
  rw [copyUvmLoop, if_pos hsz, hnext] at h
  cases ht : s.tab (4096 * n / 4096 / 1024) with
  | none =>
      rw [hs.lookup_none (by omega) ht] at h
      cases h
  | some t =>
      rw [hs.lookup (by omega) ht, hdiv] at h
      by_cases hp : present (s.entry m.mem n)
      · rw [if_pos hp] at h
        rcases hc.copyInto (x := do freeVm (p2v c.dir); return 0)
          (y := fun _ => do freeVm (p2v c.dir); return 0)
          (z := copyUvmLoop (p2v s.dir) sz (p2v c.dir) fuel (4096 * (n + 1)))
          (4096 * n) (by omega) hlt with
          ⟨rfl, he⟩ | ⟨v, l₁, m₂, rfl, hext, hentry, hmem, hcase⟩
        · obtain ⟨hfree, hr⟩ := hfail _ (he.symm.trans h)
          exact Or.inr (Or.inl ⟨[], m, c, m, Extends.refl hc, by simp, Extends.refl hc, hp,
            hfree, hr⟩)
        · have hk : (4096 * n + 4095) / 4096 + 1 - 4096 * n / 4096 = 1 := by omega
          rw [hk, hdiv] at hcase
          rcases hcase with ⟨c', l', m₁, he, hmap⟩ | ⟨c', m₁, k, he, hmap, -⟩ | ⟨he, -⟩
          · exact Or.inr (Or.inr ⟨v, l₁, m₂, c', l', m₁, rfl, hp, hext, hentry, hmem, hmap,
              he.symm.trans h⟩)
          · obtain ⟨hfree, hr⟩ := hfail _ (he.symm.trans h)
            rw [← hmap.dir] at hfree
            exact Or.inr (Or.inl ⟨l₁, m₂, c', m₁, hext, fun _ _ hl => (List.cons.inj hl).2,
              hmap.toExtends, hp, hfree, hr⟩)
          · cases he.symm.trans h
      · rw [if_neg hp] at h
        exact Or.inl ⟨hp, h⟩

/-- A page that is not on the list is given back. -/
theorem Pool.free (h : Pool m l) (hv : IsPage v) (hvl : v ∉ l) : Pool (freed m v) (v :: l) := by
  refine ⟨h.chain.push h.page hv hvl, ?_⟩
  intro u hu
  rcases List.mem_cons.1 hu with rfl | hu
  · exact hv
  · exact h.page u hu

theorem agreeOff_freed (hv : IsPage v) :
    AgreeOff (fun p => p = v2p v) m.mem (freed m v).mem := by
  intro a ha
  have hav := ha (v2p v) rfl
  unfold InPage at hav
  refine (Freeing.freed hv).mem a fun p hp => ?_
  subst hp
  omega

/-- What `kfree_page` checks of a page. -/
theorem isPage_of_kfreePage {f : Nat} (hf : IsFrame f)
    (h : kfreePage (p2v f) m = .ok ((), m')) : IsPage (p2v f) ∧ freed m (p2v f) = m' := by
  obtain ⟨⟨hal, -, -⟩, hm⟩ := kfreePage_eq_ok.1 h
  refine ⟨⟨hal, ?_, u32_lt _⟩, hm⟩
  have h₁ := hf.le
  have h₂ := hf.ne
  unfold p2v u32
  omega

end

end Mm

end Chunix
