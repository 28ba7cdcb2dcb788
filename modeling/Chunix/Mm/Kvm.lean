import Chunix.Heap.Basic
import Chunix.Mm.Copy

/-!
# The translation of addresses

What `mappages` and `mapkvm` mean for the addresses of a task. `mappages` maps the
pages of its range and no others. `mapkvm` computes the end of the memory in 32 bits:
it is the kernel's map as long as the memory ends below the window of the heap, and
beyond that the direct map takes pages of the window, runs over the end of the address
space, or is left out altogether.
-/

namespace Chunix

namespace Mm

open Machine Linked

/-- The entry that the two levels give for an address, zero where there is no table. -/
def pte (mem : Memory) (dir va : Nat) : Nat :=
  let pde := load32 mem (dir + 4 * pdx va)
  if present pde then load32 mem (pteAddr pde + 4 * ptx va) else 0

section

variable {s : Space} {m m' : Mm} {l : List Nat}

theorem Space.At.pte_eq {mem : Memory} {va : Nat} (h : s.At mem) (hva : va < 4294967296) :
    pte mem s.dir va = s.entry mem (va / 4096) := by
  have hdx : pdx va = va / 4096 / 1024 := by unfold pdx; omega
  have htx : ptx va = va / 4096 % 1024 := rfl
  have hlt : va / 4096 / 1024 < 1024 := by omega
  unfold pte
  rw [hdx, htx]
  cases ht : s.tab (va / 4096 / 1024) with
  | none => rw [if_neg (h.absent _ hlt ht), Space.entry_of_none ht]
  | some t =>
      obtain ⟨hp, haddr⟩ := h.pde _ t ht
      rw [if_pos hp, haddr, Space.entry_of_some ht]

/-- A `mappages` that returns zero maps the pages that its range touches, with the given flags,
and leaves the translation of every other address as it was. -/
theorem mappages_exact {va pa sz perm : Nat} (h : Held s m l) (hsz : 1 ≤ sz)
    (hva : va + sz - 1 < 0xFFFFF000) (hmod : pa % 4096 = va % 4096) (hperm : perm < 4096)
    (hpa : pa + sz ≤ 4294967296) (hr : mappages (p2v s.dir) va pa sz perm m = .ok (0, m'))
    {a : Nat} (ha : a < 4294967296) :
    if pgRoundDown va ≤ a ∧ a < pgRoundDown (va + sz - 1) + 4096 then
      walk m'.mem s.dir a = some (pgRoundDown pa + (pgRoundDown a - pgRoundDown va) + a % 4096) ∧
        pteFlags (pte m'.mem s.dir a) = perm ||| pteP
    else
      walk m'.mem s.dir a = walk m.mem s.dir a ∧ pte m'.mem s.dir a = pte m.mem s.dir a := by
  rcases @mappages_spec s m l va pa sz perm h hsz (by omega) (by omega) hperm with
    ⟨s', l', m₁, hr₁, hmap⟩ | ⟨s', m₁, k, hr₁, -⟩ | ⟨hr₁, -⟩
  · obtain ⟨-, rfl⟩ := Prod.mk.inj (Except.ok.inj (hr.symm.trans hr₁))
    have hat := hmap.held.space
    have hentry := hmap.entry (a / 4096)
    rw [← hmap.dir, hat.walk_eq ha, hat.pte_eq ha, hmap.dir, h.space.walk_eq ha, h.space.pte_eq ha]
    unfold pgRoundDown
    by_cases hin : va / 4096 * 4096 ≤ a ∧ a < (va + sz - 1) / 4096 * 4096 + 4096
    · rw [if_pos (by omega)] at hentry
      obtain ⟨hpres, haddr, hflags⟩ := @mkPte_spec (u32 (pa + 4096 * (a / 4096 - va / 4096))) perm
        hperm
      rw [if_pos hin, hentry, if_pos hpres, haddr, hflags, u32_eq_self (by omega)]
      refine ⟨congrArg some ?_, rfl⟩
      unfold pteAddr
      omega
    · rw [if_neg (by omega)] at hentry
      rw [if_neg hin, hentry]
      exact ⟨rfl, rfl⟩
  · exact absurd (hr.symm.trans hr₁) (by simp)
  · exact absurd (hr.symm.trans hr₁) (by simp)

end

/-- A memory of `memsz` kilobytes with an empty directory and two free pages. -/
def bare (memsz : Nat) : Mm where
  mem := fill (store32 (fun _ => 0) 0x102000 0x80103000) 0x101000 4096 0
  freeList := 0x80102000
  cr3 := 0x101000
  memsz := memsz
  memStart := 0x80102000
  data := 0x80101000

theorem bare_pool (memsz : Nat) : Pool (bare memsz) [0x80102000, 0x80103000] := by
  have hfollow : follow (link (bare 0).mem) 2 (ptr 0x80102000) =
      some [0x80102000, 0x80103000] := by decide +kernel
  refine ⟨isChain_of_follow hfollow, fun v hv => ?_⟩
  rcases List.mem_pair.1 hv with rfl | rfl
  · exact ⟨by decide, by decide, by decide⟩
  · exact ⟨by decide, by decide, by decide⟩

theorem bare_held (memsz : Nat) :
    Held (Space.empty 0x101000) (bare memsz) [0x80102000, 0x80103000] := by
  refine ⟨Space.at_empty ⟨by decide, by decide, by decide⟩, bare_pool memsz, ?_⟩
  rintro v hv (he | ⟨i, hi⟩)
  · rcases List.mem_pair.1 hv with rfl | rfl
    · exact absurd he (by decide)
    · exact absurd he (by decide)
  · cases hi

/-- Three pages from an address that is not aligned. -/
theorem mappages_exact_bare :
    ∃ m', mappages 0x80101000 0x5123 0x7123 8192 6 (bare 2048) = .ok (0, m') ∧
      walk m'.mem 0x101000 0x7010 = some 0x9010 ∧ walk m'.mem 0x101000 0x8000 = none := by
  have hrun : (mappages 0x80101000 0x5123 0x7123 8192 6 (bare 2048)).toOption.map Prod.fst =
      some 0 := by decide +kernel
  obtain ⟨⟨r, m'⟩, hr, rfl⟩ := exists_ok_of_toOption hrun
  have hexact := @mappages_exact _ _ m' _ 0x5123 0x7123 8192 6 (bare_held 2048) (by decide)
    (by decide) (by decide) (by decide) (by decide) hr
  have hin := @hexact 0x7010 (by decide)
  have hout := @hexact 0x8000 (by decide)
  rw [if_pos (by decide)] at hin
  rw [if_neg (by decide)] at hout
  exact ⟨m', hr, hin.1, hout.1.trans (by decide +kernel)⟩

/-- The kernel image lies in the memory, whose size is any word. -/
structure Image (m : Mm) : Prop where
  aligned : m.data % 4096 = 0
  above : 2148532224 < m.data
  data_lt : m.data < 4294967296
  memsz_lt : m.memsz < 4294967296
  below : m.data < 2147483648 + m.memsz * 1024

/-- The last address of the third range of `mapkvm`, as the code computes it. -/
def lastByte (m : Mm) : Nat := u32 (2147483648 + u32 (m.memsz * 1024) + 4294967295)

/-- The number of free pages without which `mapkvm` returns zero. When the third range ends in
the last page of the address space, the loop goes on at the address zero. -/
def kvmNeed (m : Mm) : Nat :=
  if 4294963200 ≤ lastByte m then 1025
  else max (m.data - 1) (lastByte m) / 4194304 + 1 - 512 + 1

section

variable {s s' : Space} {m m₁ m' : Mm} {l l' us : List Nat}

theorem Image.mapMemory_eq (h : Image m) (pgdir : Nat) :
    mapMemory m pgdir = (do
      if (← mappagesLoop pgdir (pgRoundDown (lastByte m)) pteW 1048577 m.data
          (m.data - 2147483648)) < 0 then
        return 0
      return pgdir) := by
  have hlast : u32 (m.data + u32 (u32 (m.memsz * 1024) + 4294967296 - v2p m.data) + 4294967295) =
      lastByte m := by
    have := h.above
    have := h.data_lt
    unfold lastByte v2p u32
    omega
  have hpa : v2p m.data = m.data - 2147483648 := by
    have := h.above
    have := h.data_lt
    unfold v2p u32
    omega
  have hva : pgRoundDown m.data = m.data := by
    have := h.aligned
    unfold pgRoundDown
    omega
  rw [mapMemory, mappages, hlast, hva, hpa]

theorem missing_eq_zero (mem : Memory) {a b : Nat}
    (h : ∀ i, a ≤ i → i < b → present (s.entry mem (1024 * i))) : s.missing a b = 0 := by
  rw [Space.missing, Finset.card_eq_zero, Finset.filter_eq_empty_iff]
  intro i hi hnone
  obtain ⟨hlow, hhigh⟩ := Finset.mem_Ico.1 hi
  have hp := h i hlow hhigh
  rw [Space.entry_of_none (by rwa [Nat.mul_div_cancel_left _ (by decide)])] at hp
  exact not_present_zero hp

theorem present_textEntry {j : Nat} (hj : 524288 ≤ j) (hlt : 4096 * j < m.data) :
    present (textEntry m j) := by
  rw [textEntry, if_pos ⟨hj, hlt⟩]
  exact (mkPte_spec (by split <;> decide)).1

theorem Mapped.present {n k pa perm j : Nat} (h : Mapped s s' l l' m m' n k pa perm)
    (hperm : perm < 4096) (hj : n ≤ j) (hlt : j < n + k) : present (s'.entry m'.mem j) := by
  rw [h.entry j, if_pos ⟨hj, hlt⟩]
  exact (mkPte_spec hperm).1

/-- The loop of `mappages` up to the last page of the address space does not stop there: it
goes on at the address zero and comes to a page that is mapped, unless the pages for
tables run out before. -/
theorem mappagesLoop_wrap {n pa perm : Nat} (h : Held s m l) (hn : 524288 < n) (hn' : n < 1048576)
    (hpa : pa < 4294967296) (hperm : perm < 4096)
    (hfree : ∀ j, n ≤ j ∨ j < 524288 → ¬ Mm.present (s.entry m.mem j))
    (hfull : ∀ j, 524288 ≤ j → j < n → Mm.present (s.entry m.mem j)) :
    (l.length < s.missing 0 1024 ∧ ∃ m',
      mappagesLoop (p2v s.dir) (4096 * 1048575) perm 1048577 (4096 * n) pa m = .ok (-1, m')) ∨
    (s.missing 0 1024 ≤ l.length ∧
      mappagesLoop (p2v s.dir) (4096 * 1048575) perm 1048577 (4096 * n) pa m =
        .error (.panic "mappages: re-map")) := by
  have hlast : ∀ j, j < 1048576 → 4096 * j ≤ 4096 * 1048575 := fun j hj => by omega
  -- The pages up to the last one.
  have hup := @mappagesLoop_steps s m l n pa perm (4096 * 1048575) (1048576 - n) (n + 1) h
    (by omega) hpa hperm (fun j hj => hlast j (by omega))
  rw [show n + 1 + (1048576 - n) = 1048577 by omega, u32_eq_self (show 4096 * n < _ by omega),
    show n + (1048576 - n) = 1048576 by omega] at hup
  rcases hup with ⟨s₁, l₁, m₁, hmap₁, hr₁⟩ | ⟨s₁, m₁, j, hr₁, hmap₁, hj, hnone⟩ |
    ⟨-, j, hj, -, hp⟩
  · have hfew₁ := hmap₁.few 0 1024 fun j _ hj => by omega
    have hzero : u32 (4096 * 1048576) = u32 (4096 * 0) := rfl
    -- The pages from the address zero on.
    have hdown := @mappagesLoop_steps s₁ m₁ l₁ 0 (u32 (pa + 4096 * (1048576 - n))) perm
      (4096 * 1048575) 524288 (n - 524288 + 1) hmap₁.held (by omega) (u32_lt _) hperm
      (fun j hj => hlast j (by omega))
    rw [show n - 524288 + 1 + 524288 = n + 1 by omega, Nat.zero_add] at hdown
    rw [hr₁, hzero]
    rcases hdown with ⟨s₂, l₂, m₂, hmap₂, hr₂⟩ | ⟨s₂, m₂, j, hr₂, hmap₂, hj, hnone⟩ |
      ⟨-, j, -, hj, hp⟩
    · have hfew₂ := hmap₂.few 0 1024 fun j _ hj => by omega
      have hkept : ∀ j, 524288 ≤ j → j < n → Mm.present (s₂.entry m₂.mem j) := by
        intro j hj hj'
        rw [hmap₂.entry j, if_neg (by omega), hmap₁.entry j, if_neg (by omega)]
        exact hfull j hj hj'
      have hnone : s₂.missing 0 1024 = 0 := by
        refine missing_eq_zero m₂.mem fun i _ hi => ?_
        by_cases hlow : 1024 * i < 524288
        · exact hmap₂.present hperm (Nat.zero_le _) (by omega)
        · by_cases hin : 1024 * i < n
          · exact hkept _ (by omega) hin
          · rw [hmap₂.entry, if_neg (by omega)]
            exact hmap₁.present hperm (by omega) (by omega)
      refine Or.inr ⟨by omega, ?_⟩
      rw [hr₂, u32_eq_self (show 4096 * 524288 < _ by omega)]
      rcases @mappagesLoop_step s₂ m₂ l₂ 524288 (u32 (u32 (pa + 4096 * (1048576 - n)) + 4096 * 524288))
        perm (4096 * 1048575) (n - 524288) hmap₂.held (by omega) (u32_lt _) hperm (by omega) with
        ⟨htab, -, -⟩ | ⟨-, hr₃⟩ | ⟨s₃, l₃, m₃, hmap₃, -⟩
      · have hp := hkept 524288 le_rfl hn
        rw [Space.entry_of_none htab] at hp
        exact absurd hp not_present_zero
      · exact hr₃
      · exact absurd (hkept 524288 le_rfl hn) (hmap₃.absent 524288 le_rfl (by omega))
    · have hfew₂ := hmap₂.few 0 1024 fun j _ hj => by omega
      have hpos := Space.missing_pos hnone (Nat.zero_le _) (show _ < 1024 by omega)
      rw [List.length_nil] at hfew₂
      exact Or.inl ⟨by omega, m₂, hr₂⟩
    · rw [hmap₁.entry j, if_neg (by omega)] at hp
      exact absurd hp (hfree j (Or.inr (by omega)))
  · have hfew₁ := hmap₁.few 0 1024 fun j _ hj => by omega
    have hpos := Space.missing_pos hnone (Nat.zero_le _) (show _ < 1024 by omega)
    rw [List.length_nil] at hfew₁
    exact Or.inl ⟨by omega, m₁, hr₁⟩
  · exact absurd hp (hfree j (Or.inl hj))

/-- The entries of `mapkvm` when the third range ends before the last page. -/
def mapEntry (m : Mm) (n : Nat) : Nat :=
  if m.data ≤ 4096 * n ∧ 4096 * n ≤ lastByte m then mkPte (4096 * (n - 524288)) pteW
  else textEntry m n

/-- What `mapkvm` does for every size of the memory. -/
theorem mapkvm_cases (h : Pool m l) (hm : Image m) :
    (l.length < kvmNeed m ∧ ∃ m', mapkvm m = .ok (0, m')) ∨
    (kvmNeed m ≤ l.length ∧ 4294963200 ≤ lastByte m ∧
      mapkvm m = .error (.panic "mappages: re-map")) ∨
    (kvmNeed m ≤ l.length ∧ lastByte m < 4294963200 ∧
      ∃ s us l' m', mapkvm m = .ok (p2v s.dir, m') ∧ Fresh s us l' m m' ∧
        ∀ j, s.entry m'.mem j = mapEntry m j) := by
  have ha := hm.aligned
  have hb := hm.above
  have hlt := hm.data_lt
  have hneg : ((-1 : Int) < 0) := by decide
  by_cases hwrap : 4294963200 ≤ lastByte m
  · have hneed : kvmNeed m = 1024 - 0 + 1 := if_pos hwrap
    rw [hneed]
    rcases mapkvm_front (b := 1024) h ha hb hlt (Nat.zero_le 512) (by omega) with
      ⟨m', hr, -, hlen⟩ | ⟨s, us, l', m₁, hrun, hf, -, -, htext, -, hlen⟩
    · exact Or.inl ⟨hlen, m', hr⟩
    have hdown : pgRoundDown (lastByte m) = 4096 * 1048575 := by
      have : lastByte m < 4294967296 := u32_lt _
      unfold pgRoundDown
      omega
    rw [hm.mapMemory_eq, hdown, show m.data = 4096 * (m.data / 4096) by omega] at hrun
    rcases @mappagesLoop_wrap s m₁ l' (m.data / 4096) (4096 * (m.data / 4096) - 2147483648) pteW
      hf.held (by omega) (by omega) (by omega) (by decide)
      (fun j hj => by
        rw [htext j, textEntry, if_neg (by omega)]
        exact not_present_zero)
      (fun j hj hj' => by
        rw [htext j]
        exact present_textEntry hj (by omega)) with ⟨hfew, m', hr⟩ | ⟨hmany, hr⟩
    · refine Or.inl ⟨by omega, m', ?_⟩
      rw [hrun, Act.bind_of_ok hr, if_pos hneg]
      rfl
    · refine Or.inr (Or.inl ⟨by omega, hwrap, ?_⟩)
      rw [hrun, Act.bind_of_error hr]
  have hneed : kvmNeed m = max (m.data - 1) (lastByte m) / 4194304 + 1 - 512 + 1 := if_neg hwrap
  rw [hneed]
  rcases mapkvm_front (b := max (m.data - 1) (lastByte m) / 4194304 + 1) h ha hb hlt le_rfl
    (by omega) with ⟨m', hr, -, hlen⟩ | ⟨s, us, l', m₁, hrun, hf, hus, -, htext, -, hlen⟩
  · exact Or.inl ⟨hlen, m', hr⟩
  rw [hm.mapMemory_eq] at hrun
  by_cases hvoid : lastByte m < m.data
  · -- The range is empty: the memory behind the text stays unmapped.
    have hnone : s.missing 512 (max (m.data - 1) (lastByte m) / 4194304 + 1) = 0 := by
      refine missing_eq_zero m₁.mem fun i hi hi' => ?_
      rw [htext]
      exact present_textEntry (by omega) (by omega)
    refine Or.inr (Or.inr ⟨by omega, by omega, s, us, l', m₁, ?_, hf, fun j => ?_⟩)
    · have hr : mappagesLoop (p2v s.dir) (pgRoundDown (lastByte m)) pteW 1048577 m.data
          (m.data - 2147483648) m₁ = .ok (0, m₁) := by
        rw [mappagesLoop, if_neg (by unfold pgRoundDown; omega)]
        rfl
      rw [hrun, Act.bind_of_ok hr, if_neg (by decide)]
      rfl
    · rw [mapEntry, if_neg (by omega), htext j]
  · have hloop : mappages (p2v s.dir) m.data (m.data - 2147483648) (lastByte m + 1 - m.data) pteW =
        mappagesLoop (p2v s.dir) (pgRoundDown (lastByte m)) pteW 1048577 m.data
          (m.data - 2147483648) := by
      have hend : u32 (m.data + (lastByte m + 1 - m.data) + 4294967295) = lastByte m := by
        unfold u32
        omega
      have hva : pgRoundDown m.data = m.data := by
        unfold pgRoundDown
        omega
      rw [mappages, hend, hva]
    rw [← hloop] at hrun
    rcases hf.mappages 512 (max (m.data - 1) (lastByte m) / 4194304 + 1) m.data
      (m.data - 2147483648) (lastByte m + 1 - m.data) pteW (by omega) (by omega) (by omega)
      (by omega) (by omega) (by decide) (fun j hj _ => by
        rw [htext j]
        exact not_present_textEntry (by omega)) with
      ⟨s', m', hr, -, hfew⟩ | ⟨s', us', l'', m', hr, hf', -, hmap, hfew⟩
    · refine Or.inl ⟨by omega, m', ?_⟩
      rw [hrun, Act.bind_of_ok hr, if_pos hneg]
      rfl
    have hentry : ∀ j, s'.entry m'.mem j = mapEntry m j := by
      intro j
      rw [hmap.entry j, htext j, mapEntry]
      by_cases hj : m.data ≤ 4096 * j ∧ 4096 * j ≤ lastByte m
      · rw [if_pos hj, if_pos (by omega), u32_eq_self (by omega),
          show m.data - 2147483648 + 4096 * (j - m.data / 4096) = 4096 * (j - 524288) by omega]
      · rw [if_neg hj, if_neg (by omega)]
    have hnone : s'.missing 512 (max (m.data - 1) (lastByte m) / 4194304 + 1) = 0 := by
      refine missing_eq_zero m'.mem fun i hi hi' => ?_
      rw [hentry, mapEntry]
      split_ifs with hin
      · exact (mkPte_spec (by decide)).1
      · exact present_textEntry (by omega) (by omega)
    refine Or.inr (Or.inr ⟨by omega, by omega, s', us', l'', m', ?_, hf', hentry⟩)
    rw [hrun, Act.bind_of_ok hr, if_neg (by decide), hmap.dir]
    rfl

/-- The directory `r` maps the memory from `KERNBASE` on, the text of the kernel without
`PTE_W`, and nothing else; the window of the heap is not mapped. -/
structure KernelMap (m m' : Mm) (r : Nat) : Prop where
  maps : ∀ n, kernbase ≤ 4096 * n → 4096 * n < kernbase + m.memsz * 1024 → n < 1048576 ∧
    pte m'.mem (v2p r) (4096 * n) = mkPte (4096 * n - kernbase)
      (if kernlink ≤ 4096 * n ∧ 4096 * n < m.data then 0 else pteW)
  others : ∀ va, va < 4294967296 → va < kernbase ∨ kernbase + m.memsz * 1024 ≤ pgRoundDown va →
    walk m'.mem (v2p r) va = none
  heap : ∀ va, Heap.heapStart ≤ va → va < Heap.heapEnd → walk m'.mem (v2p r) va = none

theorem Image.lastByte_eq (h : Image m) (hle : m.memsz * 1024 ≤ 2147483648) :
    lastByte m = 2147483648 + m.memsz * 1024 - 1 := by
  have := h.below
  have := h.above
  unfold lastByte u32
  omega

theorem Fresh.p2v_dir (h : Fresh s us l m m') : p2v s.dir ≠ 0 ∧ v2p (p2v s.dir) = s.dir := by
  have h₁ := h.space.dir.le
  have h₂ := h.space.dir.ne
  have h₃ := h.space.dir.aligned
  refine ⟨?_, v2p_p2v (by omega)⟩
  unfold p2v u32
  omega

/-- Below the window of the heap the mappings are those of the kernel. -/
theorem Fresh.kernelMap (h : Fresh s us l m m') (hm : Image m)
    (hentry : ∀ j, s.entry m'.mem j = mapEntry m j) (hle : m.memsz * 1024 ≤ 0x50000000) :
    KernelMap m m' (p2v s.dir) := by
  have ha := hm.aligned
  have hb := hm.above
  have hc := hm.below
  have hlast := hm.lastByte_eq (by omega)
  have hothers : ∀ va, va < 4294967296 →
      va < kernbase ∨ kernbase + m.memsz * 1024 ≤ pgRoundDown va → walk m'.mem s.dir va = none := by
    intro va hva hout
    unfold kernbase pgRoundDown at hout
    have hzero : mapEntry m (va / 4096) = 0 := by
      rw [mapEntry, if_neg (by omega), textEntry, if_neg (by omega)]
    rw [h.space.walk_eq hva, hentry, hzero, if_neg not_present_zero]
  rw [← h.p2v_dir.2] at hothers
  refine ⟨fun n hn hn' => ?_, hothers, fun va hva hva' => ?_⟩
  · unfold kernbase at hn hn' ⊢
    refine ⟨by omega, ?_⟩
    rw [h.p2v_dir.2, h.space.pte_eq (by omega), Nat.mul_div_cancel_left _ (by decide), hentry,
      mapEntry, textEntry, hlast, show 4096 * n - 2147483648 = 4096 * (n - 524288) by omega]
    unfold kernlink
    by_cases hdata : m.data ≤ 4096 * n
    · rw [if_pos (by omega), if_neg (by omega)]
    · have htext : (2148532224 ≤ 4096 * n ∧ 4096 * n < m.data) = (524544 ≤ n) :=
        propext ⟨fun h => by omega, fun h => ⟨by omega, by omega⟩⟩
      rw [if_neg (by omega), if_pos (by omega)]
      simp only [htext]
  · unfold Heap.heapStart at hva
    unfold Heap.heapEnd at hva'
    refine hothers va (by omega) (Or.inr ?_)
    unfold kernbase pgRoundDown
    omega

/-- `mapkvm` returns zero or the map of the kernel if and only if the memory ends below the
window of the heap, or there are too few free pages for a directory. -/
theorem mapkvm_right_iff (h : Pool m l) (hm : Image m) :
    (∃ r m', mapkvm m = .ok (r, m') ∧ (r = 0 ∨ KernelMap m m' r)) ↔
      m.memsz * 1024 ≤ 0x50000000 ∨ l.length < kvmNeed m := by
  have hb := hm.above
  have hc := hm.below
  constructor
  · rintro ⟨r, m', hr, hright⟩
    by_contra hnot
    rw [not_or] at hnot
    rcases mapkvm_cases h hm with ⟨hlen, -⟩ | ⟨-, -, hstop⟩ |
      ⟨-, -, s, us, l', m₁, hr₁, hf, hentry⟩
    · exact hnot.2 hlen
    · exact absurd (hr.symm.trans hstop) (by simp)
    obtain ⟨hdir, hm₁⟩ := Prod.mk.inj (Except.ok.inj (hr.symm.trans hr₁))
    rw [← hm₁] at hf hentry
    rcases hright with hzero | hright
    · exact hf.p2v_dir.1 (hdir.symm.trans hzero)
    rw [hdir] at hright
    by_cases hbig : m.memsz * 1024 ≤ 2147483648
    · -- The direct map reaches the first page of the window.
      have hlast := hm.lastByte_eq hbig
      have hwalk := hright.heap Heap.heapStart le_rfl (by decide)
      have hpres : Mm.present (mapEntry m (Heap.heapStart / 4096)) := by
        rw [mapEntry]
        unfold Heap.heapStart
        split_ifs with hin
        · exact (mkPte_spec (by decide)).1
        · exact present_textEntry (by omega) (by omega)
      rw [hf.p2v_dir.2, hf.space.walk_eq (by decide), hentry, if_pos hpres] at hwalk
      cases hwalk
    · -- The memory does not fit into the address space.
      have := (hright.maps 1048576 (by decide) (by unfold kernbase; omega)).1
      omega
  · intro hor
    rcases mapkvm_cases h hm with ⟨-, m', hr⟩ | ⟨hlen, hlast, -⟩ |
      ⟨hlen, -, s, us, l', m', hr, hf, hentry⟩
    · exact ⟨0, m', hr, Or.inl rfl⟩
    · have hle : m.memsz * 1024 ≤ 0x50000000 := hor.resolve_right (by omega)
      have := hm.lastByte_eq (by omega)
      omega
    · have hle : m.memsz * 1024 ≤ 0x50000000 := hor.resolve_right (by omega)
      exact ⟨_, m', hr, Or.inr (hf.kernelMap hm hentry hle)⟩

end

theorem bare_image {memsz : Nat} (h : memsz < 4294967296) (h' : 2048 ≤ memsz) :
    Image (bare memsz) :=
  ⟨show 0x80101000 % 4096 = 0 by decide, show 2148532224 < 0x80101000 by decide,
    show 0x80101000 < 4294967296 by decide, h,
    show 0x80101000 < 2147483648 + memsz * 1024 by omega⟩

/-- A machine with 32 megabytes. -/
theorem mapkvm_right_bare :
    ∃ r m', mapkvm (bare 32768) = .ok (r, m') ∧ (r = 0 ∨ KernelMap (bare 32768) m' r) :=
  (mapkvm_right_iff (bare_pool _) (bare_image (by decide) (by decide))).2 (Or.inl (by decide))

/-- On a machine with three gigabytes the memory behind the text of the kernel is not mapped. -/
theorem mapkvm_loses_memory :
    ∃ r m', mapkvm (bare 3145728) = .ok (r, m') ∧ r ≠ 0 ∧
      walk m'.mem (v2p r) 0x80101000 = none := by
  rcases mapkvm_cases (bare_pool _) (@bare_image 3145728 (by decide) (by decide)) with
    ⟨hlen, -⟩ | ⟨-, hlast, -⟩ | ⟨-, -, s, us, l', m', hr, hf, hentry⟩
  · exact absurd hlen (by decide)
  · exact absurd hlast (by decide)
  · refine ⟨_, m', hr, hf.p2v_dir.1, ?_⟩
    have hzero : mapEntry (bare 3145728) (0x80101000 / 4096) = 0 := by decide
    rw [hf.p2v_dir.2, hf.space.walk_eq (by decide), hentry, hzero, if_neg not_present_zero]

end Mm

end Chunix
