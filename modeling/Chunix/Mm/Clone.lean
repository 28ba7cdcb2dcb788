import Chunix.Mm.Uvm

/-!
# Copies of an address space

`copy_uvm` goes through the pages below `sz` and gives the new address space a copy of
every one that is present. It panics at a page that has no page table. It needs one
free page for every copy and one for every table, in the order in which it comes to
them, and gives up when there is none.
-/

namespace Chunix

namespace Mm

open Machine Linked

variable {s c c' : Space} {m m₀ m₁ m' : Mm} {l l₀ l₁ l' : List Nat} {n : Nat}

/-- The addresses that `kfree_page` takes for those of pages. -/
def InRange (m : Mm) (v : Nat) : Prop := m.memStart ≤ v ∧ v ≤ v2p (u32 (m.memsz * 1024))

theorem IsFrame.isPage {f : Nat} (hf : IsFrame f) : IsPage (p2v f) := by
  refine ⟨?_, p2v_ne_zero hf, u32_lt _⟩
  have := hf.aligned
  unfold p2v u32
  omega

theorem kfreePage_of_inRange {v : Nat} (hv : IsPage v) (hr : InRange m v) :
    kfreePage v m = .ok ((), freed m v) :=
  kfreePage_eq_ok.2 ⟨⟨hv.1, hr.1, hr.2⟩, rfl⟩

/-- The loop of `free_vm` returns. -/
theorem freeTables_total {i : Nat} (hc : c.At m.mem) (hi : n + i = 1024)
    (hr : ∀ p, c.Has p → InRange m (p2v p)) :
    ∃ m', freeTables p2v (p2v c.dir) n i m = .ok ((), m') ∧
      ∀ v, InRange m v → InRange m' v := by
  induction n generalizing i m with
  | zero => exact ⟨m, rfl, fun _ hv => hv⟩
  | succ n ih =>
      have hlt : i < 1024 := by omega
      have hload : kload (p2v c.dir + 4 * i) m = .ok (load32 m.mem (c.dir + 4 * i), m) :=
        Act.gets_eq_ok.2 ⟨by rw [hc.pde_addr hlt], rfl⟩
      rw [freeTables, Act.bind_of_ok hload]
      cases ht : c.tab i with
      | none =>
          rw [if_neg (hc.absent i hlt ht)]
          exact ih hc (by omega) hr
      | some t =>
          obtain ⟨-, hframe, hne⟩ := hc.tab i t ht
          obtain ⟨hp, haddr⟩ := hc.pde i t ht
          have hpage := hframe.isPage
          have hv : v2p (p2v t) = t := v2p_p2v (by have := hframe.le; omega)
          have hfree := kfreePage_of_inRange hpage (hr t (Or.inr ⟨i, ht⟩))
          have hagree := agreeOff_freed (m := m) hpage
          have hstart : (freed m (p2v t)).memStart = m.memStart := rfl
          have hsz : (freed m (p2v t)).memsz = m.memsz := rfl
          rw [if_pos hp, haddr, Act.bind_of_ok hfree]
          generalize freed m (p2v t) = m₁ at hagree hstart hsz
          rw [hv] at hagree
          have hat : c.At m₁.mem := hc.congr fun a ha =>
            hagree.page (fun p hp => hp ▸ hframe) hc.dir (fun he => hne he.symm) ha
          have hrange : ∀ v, InRange m v → InRange m₁ v := by
            intro v hv
            rw [InRange, hstart, hsz]
            exact hv
          obtain ⟨m', hm', hin⟩ := ih (i := i + 1) hat (by omega) fun p hp => hrange _ (hr p hp)
          exact ⟨m', hm', fun v hv => hin v (hrange v hv)⟩

/-- `free_vm` returns. -/
theorem freeVm_total (hc : c.At m.mem) (hr : ∀ p, c.Has p → InRange m (p2v p)) :
    ∃ m', freeVm (p2v c.dir) m = .ok ((), m') := by
  obtain ⟨m₁, h₁, hin⟩ := freeTables_total (n := 1024) (i := 0) hc rfl hr
  have hpage := hc.dir.isPage
  have hfree := kfreePage_of_inRange hpage (hin _ (hr c.dir (Or.inl rfl)))
  refine ⟨freed m₁ (p2v c.dir), ?_⟩
  rw [freeVm, if_neg hpage.2.1, freeVmLoop_eq]
  exact Act.bind_eq_ok.2 ⟨(), m₁, h₁, hfree⟩

theorem copyPages_pos (c : Space) (n : Nat) : 0 < copyPages c n := by
  unfold copyPages
  split <;> decide

/-- The pages that one copy has taken. -/
theorem Mapped.copied {v pa perm : Nat} (h : Mapped c c' l₁ l' m₁ m' n 1 pa perm)
    (hperm : perm < 4096) : (v :: l₁).length = l'.length + copyPages c n := by
  obtain ⟨t, ht⟩ : ∃ t, c'.tab (n / 1024) = some t := by
    refine Space.tab_of_present (m := m') ?_
    rw [h.entry, if_pos (by omega)]
    exact (mkPte_spec hperm).1
  have hfew := h.few (n / 1024) (n / 1024 + 1) fun j hj hj' => by omega
  rw [Space.missing_single, Space.missing_single, ht, if_neg (by simp)] at hfew
  rw [List.length_cons, copyPages]
  split_ifs at hfew ⊢ <;> omega

/-- A copy for which there was a page, but none for its table. -/
theorem Mapped.uncopied {v pa perm : Nat} (h : Mapped c c' l₁ [] m₁ m' n 0 pa perm)
    (hnone : c'.tab (n / 1024) = none) : (v :: l₁).length < copyPages c n := by
  have hnone' : c.tab (n / 1024) = none := by
    cases ht : c.tab (n / 1024) with
    | none => rfl
    | some t => exact absurd (h.tab _ t ht) (by rw [hnone]; simp)
  have hfew := h.few (n / 1024) (n / 1024 + 1) fun j hj hj' => by omega
  rw [Space.missing_single, Space.missing_single, if_pos hnone, if_pos hnone',
    List.length_nil] at hfew
  rw [List.length_cons, copyPages, if_pos hnone']
  omega

/-- One turn of the loop of `copy_uvm`. -/
theorem copyUvmLoop_turn {sz : Nat} (fuel : Nat) (hc : Held c m l) (hs : s.At m.mem)
    (hn : n < 1048575) (hsz : 4096 * n < sz) :
    (s.tab (n / 1024) = none ∧
      copyUvmLoop (p2v s.dir) sz (p2v c.dir) (fuel + 1) (4096 * n) m =
        .error (.panic "copy_uvm: pte doesn't exist")) ∨
    (s.tab (n / 1024) ≠ none ∧ ¬ present (s.entry m.mem n) ∧
      copyUvmLoop (p2v s.dir) sz (p2v c.dir) (fuel + 1) (4096 * n) m =
        copyUvmLoop (p2v s.dir) sz (p2v c.dir) fuel (4096 * (n + 1)) m) ∨
    (present (s.entry m.mem n) ∧ present (c.entry m.mem n)) ∨
    (present (s.entry m.mem n) ∧ l.length < copyPages c n ∧ ∃ c' m₁, Extends c c' l [] m m₁ ∧
      copyUvmLoop (p2v s.dir) sz (p2v c.dir) (fuel + 1) (4096 * n) m =
        (do freeVm (p2v c'.dir); return 0 : Act Mm Nat) m₁) ∨
    (present (s.entry m.mem n) ∧ ∃ v l₁ m₂ c' l' m₁, l = v :: l₁ ∧ Extends c c l l₁ m m₂ ∧
      (∀ j, c.entry m₂.mem j = c.entry m.mem j) ∧
      m₂.mem = blit m.mem (v2p v) (pteAddr (s.entry m.mem n)) 4096 ∧
      Mapped c c' l₁ l' m₂ m₁ n 1 (v2p v) (pteFlags (s.entry m.mem n)) ∧
      copyUvmLoop (p2v s.dir) sz (p2v c.dir) (fuel + 1) (4096 * n) m =
        copyUvmLoop (p2v s.dir) sz (p2v c'.dir) fuel (4096 * (n + 1)) m₁) := by
  have hdiv : 4096 * n / 4096 = n := by omega
  have hnext : u32 (4096 * n + 4096) = 4096 * (n + 1) := by
    rw [u32_eq_self (by omega)]
    omega
  rw [copyUvmLoop, if_pos hsz, hnext]
  cases ht : s.tab (n / 1024) with
  | none =>
      refine Or.inl ⟨rfl, ?_⟩
      rw [hs.lookup_none (by omega) (by rw [hdiv, ht])]
  | some t =>
      refine Or.inr ?_
      rw [hs.lookup (by omega) (show s.tab (4096 * n / 4096 / 1024) = some t by rw [hdiv, ht]), hdiv]
      by_cases hp : present (s.entry m.mem n)
      case neg =>
        rw [if_neg hp]
        exact Or.inl ⟨by simp, hp, rfl⟩
      refine Or.inr ?_
      rw [if_pos hp]
      rcases hc.copyInto (x := do freeVm (p2v c.dir); return 0)
        (y := fun _ => do freeVm (p2v c.dir); return 0)
        (z := copyUvmLoop (p2v s.dir) sz (p2v c.dir) fuel (4096 * (n + 1)))
        (4096 * n) (by omega) (s.entry_lt m.mem n) with
        ⟨rfl, he⟩ | ⟨v, l₁, m₂, rfl, hext, hentry, hmem, hcase⟩
      · exact Or.inr (Or.inl ⟨hp, copyPages_pos c n, c, m, Extends.refl hc, he⟩)
      have hk : (4096 * n + 4095) / 4096 + 1 - 4096 * n / 4096 = 1 := by omega
      rw [hk, hdiv] at hcase
      rcases hcase with ⟨c', l', m₁, he, hmap⟩ | ⟨c', m₁, k, he, hmap, hlast, hnone⟩ |
        ⟨-, j, hj, hj', hpj⟩
      · refine Or.inr (Or.inr ⟨hp, v, l₁, m₂, c', l', m₁, rfl, hext, hentry, hmem, hmap, ?_⟩)
        rw [hmap.dir]
        exact he
      · have hzero : k = 0 := by omega
        subst hzero
        rw [Nat.add_zero] at hnone
        refine Or.inr (Or.inl ⟨hp, hmap.uncopied hnone, c', m₁, hext.trans hmap.toExtends, ?_⟩)
        rw [hmap.dir]
        exact he
      · exact Or.inl ⟨hp, by rwa [show n = j by omega]⟩

/-- The number of pages that the copies of the pages below the page number `n` take, with
a table for the first one in each range of a table. -/
def spent (s : Space) (mem : Memory) : Nat → Nat
  | 0 => 0
  | n + 1 => spent s mem n + if present (s.entry mem n) then
      if ∀ j, j < n → j / 1024 = n / 1024 → ¬ present (s.entry mem j) then 2 else 1
    else 0

theorem spent_mono {mem : Memory} {a b : Nat} (h : a ≤ b) : spent s mem a ≤ spent s mem b := by
  induction b with
  | zero => rw [Nat.le_zero.1 h]
  | succ b ih =>
      by_cases hb : a = b + 1
      · rw [hb]
      · exact (ih (by omega)).trans (Nat.le_add_right _ _)

theorem spent_congr {mem mem' : Memory} (h : ∀ n, s.entry mem n = s.entry mem' n) (n : Nat) :
    spent s mem n = spent s mem' n := by
  induction n with
  | zero => rfl
  | succ n ih =>
      rw [spent, spent, ih]
      simp only [h]

theorem spent_succ_le (s : Space) (mem : Memory) (n : Nat) :
    spent s mem (n + 1) ≤ spent s mem n + 2 := by
  rw [spent]
  split_ifs <;> omega

/-- Pages that are not present take nothing. -/
theorem spent_of_absent {mem : Memory} {a b : Nat} (hab : a ≤ b)
    (h : ∀ j, a ≤ j → j < b → ¬ present (s.entry mem j)) : spent s mem b = spent s mem a := by
  induction b with
  | zero => rw [Nat.le_zero.1 hab]
  | succ b ih =>
      by_cases hb : a = b + 1
      · rw [hb]
      · rw [spent, if_neg (h b (by omega) (by omega)), Nat.add_zero]
        exact ih (by omega) fun j hj hj' => h j hj (by omega)

/-- Two pages take four at the most. -/
theorem spent_le_four {mem : Memory} {a b : Nat} (hab : a < b)
    (h : ∀ n, present (s.entry mem n) → n = a ∨ n = b) : spent s mem (b + 1) ≤ 4 := by
  have hlow : spent s mem a = spent s mem 0 := spent_of_absent (Nat.zero_le a) fun j _ hj hp => by
    have := h j hp
    omega
  have hmid : spent s mem b = spent s mem (a + 1) := spent_of_absent hab fun j hj hj' hp => by
    have := h j hp
    omega
  have hzero : spent s mem 0 = 0 := rfl
  have ha := spent_succ_le s mem a
  have hb := spent_succ_le s mem b
  omega

/-- The page number `j` of `c` is mapped to a copy of the page of `s`, on a page from the
list `l₀` that is no longer on the list `l`. -/
def IsCopy (s : Space) (m₀ : Mm) (l₀ : List Nat) (c : Space) (l : List Nat) (m : Mm) (j : Nat) :
    Prop :=
  ∃ v ∈ l₀, v ∉ l ∧ ¬ c.Has (v2p v) ∧
    c.entry m.mem j = mkPte (v2p v) (pteFlags (s.entry m₀.mem j)) ∧
    ∀ x, x < 4096 → m.mem (v2p v + x) = m₀.mem (pteAddr (s.entry m₀.mem j) + x)

/-- An address space while the pages of `s` are copied into it, up to the page number `n`.
In the state `m₀`, from which only the pages of `P` have changed, the list was `l₀`, and
`N` of its pages were there for the copies. -/
structure Copying (s : Space) (P : Nat → Prop) (m₀ : Mm) (l₀ : List Nat) (N : Nat) (c : Space)
    (l : List Nat) (m : Mm) (n : Nat) : Prop where
  held : Held c m l
  list : ∀ u ∈ l, u ∈ l₀
  has : ∀ p, c.Has p → framesOf l₀ p
  agree : AgreeOff P m₀.mem m.mem
  regs : m = { m₀ with mem := m.mem, freeList := m.freeList }
  tab : ∀ i, i < 512 →
    (c.tab i = none ↔ ∀ j, j < n → j / 1024 = i → ¬ present (s.entry m₀.mem j))
  copies : ∀ j, j < n → present (s.entry m₀.mem j) → IsCopy s m₀ l₀ c l m j
  others : ∀ j, j < 524288 → ¬ (j < n ∧ present (s.entry m₀.mem j)) → ¬ present (c.entry m.mem j)
  inj : ∀ i j, i < n → j < n → present (s.entry m₀.mem i) → present (s.entry m₀.mem j) →
    pteAddr (c.entry m.mem i) = pteAddr (c.entry m.mem j) → i = j
  length : l.length + spent s m₀.mem n = N

/-- What is copied: an address space whose tables and user pages are off the pages of `P`,
to which those of the list `l₀` belong. -/
structure Original (s : Space) (P : Nat → Prop) (m₀ : Mm) (l₀ : List Nat) : Prop where
  space : s.At m₀.mem
  off : ∀ p, s.Has p → ¬ P p
  frames : ∀ j, j < 524288 → present (s.entry m₀.mem j) → ¬ P (pteAddr (s.entry m₀.mem j))
  page : ∀ u ∈ l₀, IsPage u
  written : ∀ p, framesOf l₀ p → P p
  isFrame : ∀ p, P p → IsFrame p

theorem pteAddr_mod (w : Nat) : pteAddr w % 4096 = 0 := by
  unfold pteAddr
  omega

/-- A page that is not one of those that have changed. -/
theorem AgreeOff.aligned {P : Nat → Prop} {mem mem' : Memory} {q x : Nat}
    (h : AgreeOff P mem mem') (hP : ∀ p, P p → IsFrame p) (hq : q % 4096 = 0) (hnq : ¬ P q)
    (hx : x < 4096) : mem' (q + x) = mem (q + x) := by
  refine h _ fun p hp hin => hnq ?_
  have hal := (hP p hp).aligned
  unfold InPage at hin
  rwa [show q = p by omega]

section

variable {P : Nat → Prop} {N : Nat}

/-- What is copied stays as it is. -/
theorem Copying.original (h : Copying s P m₀ l₀ N c l m n) (ho : Original s P m₀ l₀) :
    s.At m.mem ∧ ∀ j, s.entry m.mem j = s.entry m₀.mem j :=
  ho.space.agree h.agree ho.isFrame fun p hp hs => ho.off p hs hp

/-- A page that is not present is passed over. -/
theorem Copying.skip (h : Copying s P m₀ l₀ N c l m n) (hp : ¬ present (s.entry m₀.mem n)) :
    Copying s P m₀ l₀ N c l m (n + 1) := by
  have hlt : ∀ j, j < n + 1 → present (s.entry m₀.mem j) → j < n := by
    intro j hj hpj
    have hne : j ≠ n := fun he => hp (he ▸ hpj)
    omega
  refine { h with tab := ?_, copies := ?_, others := ?_, inj := ?_, length := ?_ }
  · intro i hi
    rw [h.tab i hi]
    exact ⟨fun hno j hj hji hpj => hno j (hlt j hj hpj) hji hpj,
      fun hno j hj hji => hno j (by omega) hji⟩
  · exact fun j hj hpj => h.copies j (hlt j hj hpj) hpj
  · exact fun j hj hno => h.others j hj fun hjn => hno ⟨by omega, hjn.2⟩
  · exact fun i j hi hj hpi hpj => h.inj i j (hlt i hi hpi) (hlt j hj hpj) hpi hpj
  · rw [spent, if_neg hp]
    exact h.length

/-- The frame of a copy. -/
theorem pteAddr_copy {v flags : Nat} (hv : IsPage v) (hf : flags < 4096) :
    pteAddr (mkPte (v2p v) flags) = v2p v := by
  rw [(mkPte_spec hf).2.1]
  have := hv.isFrame.aligned
  unfold pteAddr
  omega

/-- The pages that the next copy takes. -/
theorem Copying.cost (h : Copying s P m₀ l₀ N c l m n) (hn : n < 524288)
    (hp : present (s.entry m₀.mem n)) :
    spent s m₀.mem (n + 1) = spent s m₀.mem n + copyPages c n := by
  rw [spent, if_pos hp]
  exact congrArg _ (if_congr (h.tab (n / 1024) (by omega)) rfl rfl).symm

/-- There are not enough pages for the next copy. -/
theorem Copying.few (h : Copying s P m₀ l₀ N c l m n) (hn : n < 524288)
    (hp : present (s.entry m₀.mem n)) (hlen : l.length < copyPages c n) :
    N < spent s m₀.mem (n + 1) := by
  have htotal := h.length
  rw [h.cost hn hp]
  omega

/-- One page is copied and mapped. -/
theorem Copying.step {v : Nat} {m₂ : Mm} (h : Copying s P m₀ l₀ N c (v :: l₁) m n)
    (ho : Original s P m₀ l₀) (hn : n < 524288) (hp : present (s.entry m₀.mem n))
    (hext : Extends c c (v :: l₁) l₁ m m₂) (hentry : ∀ j, c.entry m₂.mem j = c.entry m.mem j)
    (hmem : m₂.mem = blit m.mem (v2p v) (pteAddr (s.entry m₀.mem n)) 4096)
    (hmap : Mapped c c' l₁ l' m₂ m₁ n 1 (v2p v) (pteFlags (s.entry m₀.mem n))) :
    Copying s P m₀ l₀ N c' l' m₁ (n + 1) := by
  have hflags : pteFlags (s.entry m₀.mem n) < 4096 := Nat.mod_lt _ (by decide)
  have hv : IsPage v := ho.page v (h.list v List.mem_cons_self)
  obtain ⟨hoff, hrest⟩ := h.held.head
  have hlist : ∀ u ∈ l', u ∈ l₁ := hmap.off
  have hsub : ∀ p, c.Has p ∨ framesOf (v :: l₁) p → framesOf l₀ p := by
    rintro p (hc | ⟨u, hu, he⟩)
    · exact h.has p hc
    · exact ⟨u, h.list u hu, he⟩
  have hagree : AgreeOff (fun p => c.Has p ∨ framesOf (v :: l₁) p) m.mem m₁.mem :=
    hext.agree.trans hmap.agree (fun _ hp => hp) fun p hp =>
      hp.imp_right fun hp => framesOf_cons.2 (Or.inr hp)
  have hpa : u32 (v2p v) = v2p v := u32_eq_self (u32_lt _)
  have hnew : ∀ j, c'.entry m₁.mem j = if j = n then
      mkPte (v2p v) (pteFlags (s.entry m₀.mem n)) else c.entry m.mem j := by
    intro j
    rw [hmap.entry]
    by_cases hj : j = n
    · rw [if_pos (by omega), if_pos hj, hj, Nat.sub_self, Nat.mul_zero, Nat.add_zero, hpa]
    · rw [if_neg (by omega), if_neg hj, hentry]
  -- what holds of the page that has just been copied
  have hself : IsCopy s m₀ l₀ c' l' m₁ n := by
    refine ⟨v, h.list v List.mem_cons_self, fun hvl => hrest ⟨v, hlist v hvl, rfl⟩,
      fun hvc => (hmap.origin hvc).elim hoff hrest, by rw [hnew, if_pos rfl], fun x hx => ?_⟩
    rw [hmap.agree.page (fun p => hext.held.frame) hv.isFrame (fun hvc => hvc.elim hoff hrest)
      ⟨Nat.le_add_right _ _, Nat.add_lt_add_left hx _⟩, hmem,
      blit_apply_of_mem ⟨Nat.le_add_right _ _, Nat.add_lt_add_left hx _⟩, Nat.add_sub_cancel_left]
    exact h.agree.aligned ho.isFrame (pteAddr_mod _) (ho.frames n hn hp) hx
  -- the pages copied before
  have hold : ∀ j, j < n → present (s.entry m₀.mem j) → IsCopy s m₀ l₀ c' l' m₁ j := by
    intro j hj hpj
    obtain ⟨u, hu, hul, huc, he, hx⟩ := h.copies j hj hpj
    have hup := ho.page u hu
    have huf : ¬ framesOf (v :: l₁) (v2p u) :=
      fun hf => hul (mem_of_framesOf h.held.pool hup hf)
    refine ⟨u, hu, fun hul' => hul (List.mem_cons_of_mem _ (hlist u hul')), fun huc' => ?_, ?_,
      fun x hxlt => ?_⟩
    · exact (hmap.origin huc').elim huc fun hf => huf (framesOf_cons.2 (Or.inr hf))
    · rw [hnew, if_neg (by omega), he]
    · rw [hagree.page (fun p => h.held.frame) hup.isFrame (fun hf => hf.elim huc huf)
        ⟨Nat.le_add_right _ _, Nat.add_lt_add_left hxlt _⟩, hx x hxlt]
  have hcopies : ∀ j, j < n + 1 → present (s.entry m₀.mem j) → IsCopy s m₀ l₀ c' l' m₁ j := by
    intro j hj hpj
    by_cases hjn : j = n
    · rw [hjn]
      exact hself
    · exact hold j (by omega) hpj
  have hframe : ∀ j, j < n → present (s.entry m₀.mem j) →
      pteAddr (c'.entry m₁.mem n) ≠ pteAddr (c'.entry m₁.mem j) := by
    intro j hj hpj he
    obtain ⟨u, hu, hul, -, hue, -⟩ := h.copies j hj hpj
    have hfl : pteFlags (s.entry m₀.mem j) < 4096 := Nat.mod_lt _ (by decide)
    rw [hnew, hnew, if_pos rfl, if_neg (by omega), hue, pteAddr_copy hv hflags,
      pteAddr_copy (ho.page u hu) hfl] at he
    exact hul (v2p_inj hv.2.2 (ho.page u hu).2.2 he ▸ List.mem_cons_self)
  refine ⟨hmap.held, fun u hu => h.list u (List.mem_cons_of_mem _ (hlist u hu)), ?_, ?_, ?_, ?_,
    hcopies, ?_, ?_, ?_⟩
  · intro p hp
    exact hsub p ((hmap.origin hp).imp_right fun hf => framesOf_cons.2 (Or.inr hf))
  · exact h.agree.trans hagree (fun _ hp => hp) fun p hp => ho.written p (hsub p hp)
  · rw [hmap.regs, hext.regs, h.regs]
  · intro i hi
    by_cases hin : i = n / 1024
    · obtain ⟨t, ht⟩ : ∃ t, c'.tab (n / 1024) = some t := by
        refine Space.tab_of_present (m := m₁) ?_
        rw [hnew, if_pos rfl]
        exact (mkPte_spec hflags).1
      rw [hin, ht]
      refine iff_of_false (by simp) fun hno => ?_
      exact hno n (Nat.lt_succ_self n) rfl hp
    · have htab : c'.tab i = none ↔ c.tab i = none := by
        rcases Nat.lt_or_gt_of_ne hin with hlt | hgt
        · exact hmap.tab_below hlt
        · exact hmap.tab_above hgt.le fun j hj hj' => by rwa [show j = n by omega]
      rw [htab, h.tab i hi]
      refine ⟨fun hno j hj hji => hno j ?_ hji, fun hno j hj hji => hno j (by omega) hji⟩
      have : j ≠ n := fun he => hin (by rw [← hji, he])
      omega
  · intro j hj hno
    have hjn : j ≠ n := fun he => hno ⟨by omega, he ▸ hp⟩
    rw [hnew, if_neg hjn]
    exact h.others j hj fun hj' => hno ⟨by omega, hj'.2⟩
  · intro i j hi hj hpi hpj he
    by_cases hin : i = n
    · by_cases hjn : j = n
      · rw [hin, hjn]
      · exact absurd (hin ▸ he) (hframe j (by omega) hpj)
    · by_cases hjn : j = n
      · exact absurd (hjn ▸ he.symm) (hframe i (by omega) hpi)
      · rw [hnew, hnew, if_neg hin, if_neg hjn] at he
        exact h.inj i j (by omega) (by omega) hpi hpj he
  · have hlen := hmap.copied (v := v) hflags
    have htotal := h.length
    rw [h.cost hn hp]
    omega

/-- What `copy_uvm` comes to from the page number `n` on: it panics at a page without a
table, it gives up before it has come to one, or it copies all the pages. -/
inductive CopyOutcome (s : Space) (P : Nat → Prop) (m₀ : Mm) (l₀ : List Nat) (N sz n : Nat)
    (r : Except Stop (Nat × Mm)) : Prop
  | panics (j : Nat) (hj : n ≤ j) (hsz : 4096 * j < sz) (ht : s.tab (j / 1024) = none)
      (hN : spent s m₀.mem j ≤ N) (h : r = .error (.panic "copy_uvm: pte doesn't exist"))
  | fails (m' : Mm) (h : r = .ok (0, m')) (hagree : AgreeOff P m₀.mem m'.mem)
      (hregs : m' = { m₀ with mem := m'.mem, freeList := m'.freeList })
      (hN : ∀ j, n ≤ j → 4096 * j < sz → s.tab (j / 1024) = none → N < spent s m₀.mem j)
      (hfew : N < spent s m₀.mem 524288)
  | copies (c' : Space) (l' : List Nat) (m' : Mm) (k : Nat) (h : r = .ok (p2v c'.dir, m'))
      (hc : Copying s P m₀ l₀ N c' l' m' k) (hn : n ≤ k) (hk : sz ≤ 4096 * k)
      (hk' : k = n ∨ 4096 * (k - 1) < sz)
      (htab : ∀ j, n ≤ j → 4096 * j < sz → s.tab (j / 1024) ≠ none)

/-- The outcome with one page in front that has a table. -/
theorem CopyOutcome.cons {sz : Nat} {r : Except Stop (Nat × Mm)}
    (h : CopyOutcome s P m₀ l₀ N sz (n + 1) r) (hsz : 4096 * n < sz)
    (ht : s.tab (n / 1024) ≠ none) : CopyOutcome s P m₀ l₀ N sz n r := by
  have hnext : ∀ j, n ≤ j → s.tab (j / 1024) = none → n + 1 ≤ j := by
    intro j hj hjt
    have hne : j ≠ n := fun he => ht (he ▸ hjt)
    omega
  cases h with
  | panics j hj hjsz hjt hN h => exact .panics j (by omega) hjsz hjt hN h
  | fails m' h hagree hregs hN hfew =>
      exact .fails m' h hagree hregs (fun j hj hjsz hjt => hN j (hnext j hj hjt) hjsz hjt) hfew
  | copies c' l' m' k h hc hn hk hk' htab =>
      refine .copies c' l' m' k h hc (by omega) hk (Or.inr ?_)
        fun j hj hjsz hjt => htab j (hnext j hj hjt) hjsz hjt
      rcases hk' with rfl | hk'
      · exact hsz
      · exact hk'

/-- The failure of `copy_uvm` at a page for which there are not enough free pages. -/
theorem Copying.fails {sz : Nat} (h : Copying s P m₀ l₀ N c l m n) (ho : Original s P m₀ l₀)
    (hr : ∀ u ∈ l₀, InRange m₀ u) (hn : n < 524288) (hp : present (s.entry m₀.mem n))
    (hlen : l.length < copyPages c n) (hext : Extends c c' l [] m m₁) :
    CopyOutcome s P m₀ l₀ N sz n ((do freeVm (p2v c'.dir); return 0 : Act Mm Nat) m₁) := by
  have hsub : ∀ p, c.Has p ∨ framesOf l p → framesOf l₀ p := by
    rintro p (hc | ⟨u, hu, he⟩)
    · exact h.has p hc
    · exact ⟨u, h.list u hu, he⟩
  have hregs : m₁ = { m₀ with mem := m₁.mem, freeList := m₁.freeList } := by
    rw [hext.regs, h.regs]
  have hrange : ∀ p, c'.Has p → InRange m₁ (p2v p) := by
    intro p hp
    obtain ⟨u, hu, he⟩ := hsub p (hext.origin hp)
    rw [he, p2v_v2p (ho.page u hu).2.2, hregs]
    exact hr u hu
  obtain ⟨m', hm'⟩ := freeVm_total hext.held.space hrange
  obtain ⟨us, -, -, -, hagree, hregs'⟩ := freeVm_spec hext.held hm'
  have hfew : N < spent s m₀.mem (n + 1) := h.few hn hp hlen
  refine .fails m' (by rw [Act.bind_of_ok hm']; rfl) ?_ (by rw [hregs', hregs]) ?_
    (hfew.trans_le (spent_mono (by omega)))
  · refine (h.agree.trans hext.agree (fun _ hp => hp) fun p hp => ho.written p (hsub p hp)).trans
      hagree (fun _ hp => hp) fun p hp => ho.written p (hsub p (hext.origin hp))
  · intro j hj hjsz hjt
    have hne : j ≠ n := by
      rintro rfl
      obtain ⟨t, ht⟩ := Space.tab_of_present hp
      rw [ht] at hjt
      cases hjt
    exact hfew.trans_le (spent_mono (by omega))

/-- The loop of `copy_uvm`. -/
theorem copyUvmLoop_outcome {sz fuel : Nat} (h : Copying s P m₀ l₀ N c l m n)
    (ho : Original s P m₀ l₀) (hr : ∀ u ∈ l₀, InRange m₀ u) (hsz : sz ≤ 2147483648)
    (hn : n ≤ 524288) (hfuel : 524288 < fuel + n) :
    CopyOutcome s P m₀ l₀ N sz n (copyUvmLoop (p2v s.dir) sz (p2v c.dir) fuel (4096 * n) m) := by
  induction fuel generalizing c l m n with
  | zero => omega
  | succ fuel ih =>
      by_cases hend : sz ≤ 4096 * n
      · rw [copyUvmLoop, if_neg (by omega)]
        exact .copies c l m n rfl h le_rfl hend (Or.inl rfl) fun j hj hjsz => by omega
      obtain ⟨hs, hentry⟩ := h.original ho
      have hlt : 4096 * n < sz := by omega
      have hn : n < 524288 := by omega
      rcases copyUvmLoop_turn fuel h.held hs (by omega) hlt with
        ⟨ht, he⟩ | ⟨ht, hp, he⟩ | ⟨hp, hpc⟩ | ⟨hp, hlen, c', m₁, hext, he⟩ |
        ⟨hp, v, l₁, m₂, c', l', m₁, rfl, hext, hce, hmem, hmap, he⟩
      · exact .panics n le_rfl (by omega) ht (by have := h.length; omega) he
      · rw [hentry] at hp
        rw [he]
        exact (ih (h.skip hp) (by omega) (by omega)).cons (by omega) ht
      · rw [hentry] at hp
        exact absurd hpc (h.others n hn fun hlt => absurd hlt.1 (lt_irrefl n))
      · rw [hentry] at hp
        rw [he]
        exact h.fails ho hr hn hp hlen hext
      · rw [hentry] at hp hmem hmap
        rw [he]
        obtain ⟨t, ht⟩ := Space.tab_of_present hp
        exact (ih (h.step ho hn hp hext hce hmem hmap) (by omega) (by omega)).cons (by omega) (by simp [ht])

/-- Pages that are not present are passed over. -/
theorem Copying.skips {k : Nat} (h : Copying s P m₀ l₀ N c l m n) (hk : n ≤ k)
    (hp : ∀ j, n ≤ j → j < k → ¬ present (s.entry m₀.mem j)) : Copying s P m₀ l₀ N c l m k := by
  induction k with
  | zero => rwa [← Nat.le_zero.1 hk]
  | succ k ih =>
      by_cases hn : n = k + 1
      · rwa [← hn]
      · exact (ih (by omega) fun j hj hj' => hp j hj (by omega)).skip (hp k (by omega) (by omega))

/-- The directory that `mapkvm` makes, before anything is copied. -/
theorem Fresh.copying {us : List Nat} (h : Fresh c us l m m₁) (hl : l₀ = us ++ l)
    (ho : Original s P m₀ l₀) (hagree : AgreeOff P m₀.mem m.mem)
    (hregs : m = { m₀ with mem := m.mem, freeList := m.freeList })
    (hentry : ∀ j, c.entry m₁.mem j = kvmEntry m j) (htab : ∀ i, i < 512 → c.tab i = none)
    (hN : l.length = N) : Copying s P m₀ l₀ N c l m₁ 0 := by
  have hus : ∀ p, framesOf us p → framesOf l₀ p :=
    fun p hp => hl ▸ framesOf_append.2 (Or.inl hp)
  refine ⟨h.held, fun u hu => hl ▸ List.mem_append_right _ hu, fun p hp => hus p (h.has p hp),
    hagree.trans h.agree (fun _ hp => hp) fun p hp => ho.written p (hus p hp), ?_,
    fun i hi => ?_, by simp, ?_, by simp, hN⟩
  · rw [h.regs, hregs]
  · rw [htab i hi]
    simp
  · intro j hj _
    rw [hentry, kvmEntry, if_neg (by omega)]
    exact not_present_zero

/-- What `copy_uvm` comes to. -/
theorem copyUvm_outcome {sz : Nat} (hpool : Pool m l₀) (hm : Layout m) (ho : Original s P m₀ l₀)
    (hagree : AgreeOff P m₀.mem m.mem)
    (hregs : m = { m₀ with mem := m.mem, freeList := m.freeList })
    (hr : ∀ u ∈ l₀, InRange m₀ u) (hsz : sz ≤ 2147483648) :
    (l₀.length < kvmPages m ∧ ∃ m', copyUvm (p2v s.dir) sz m = .ok (0, m') ∧
      AgreeOff P m₀.mem m'.mem ∧ m' = { m₀ with mem := m'.mem, freeList := m'.freeList }) ∨
    ∃ N, l₀.length = N + kvmPages m ∧
      CopyOutcome s P m₀ l₀ N sz 0 (copyUvm (p2v s.dir) sz m) := by
  rcases mapkvm_spec hpool hm with ⟨m', hk, hspent, hlen⟩ |
    ⟨c, us, l, m₁, hk, hfresh, hl, -, hentry, htab, hlen⟩
  · refine Or.inl ⟨hlen, m', ?_, ?_, ?_⟩
    · rw [copyUvm, Act.bind_of_ok hk, if_pos rfl]
      rfl
    · exact hagree.trans hspent.agree (fun _ hp => hp) fun p hp => ho.written p hp
    · rw [hspent.regs, hregs]
  · refine Or.inr ⟨l.length, hlen, ?_⟩
    have hstart := hfresh.copying hl ho hagree hregs hentry htab rfl
    have hzero : 4096 * 0 = 0 := rfl
    rw [copyUvm, Act.bind_of_ok hk, if_neg (p2v_ne_zero hfresh.space.dir), ← hzero]
    exact copyUvmLoop_outcome hstart ho hr hsz (Nat.zero_le _) (by omega)

/-- What `copy_page` comes to with a page that is present and behind those copied so far. -/
theorem Copying.copyPage (h : Copying s P m₀ l₀ N c l m n) (ho : Original s P m₀ l₀)
    (hr : ∀ u ∈ l₀, InRange m₀ u) (hn : n < 524288) (hp : present (s.entry m₀.mem n)) :
    (∃ m', Mm.copyPage (p2v s.dir) (p2v c.dir) (4096 * n) m = .ok (0, m') ∧
      AgreeOff P m₀.mem m'.mem ∧ m' = { m₀ with mem := m'.mem, freeList := m'.freeList } ∧
      N < spent s m₀.mem (n + 1)) ∨
    ∃ c' l' m', Mm.copyPage (p2v s.dir) (p2v c.dir) (4096 * n) m = .ok (p2v c.dir, m') ∧
      c'.dir = c.dir ∧ Copying s P m₀ l₀ N c' l' m' (n + 1) := by
  obtain ⟨hs, hentry⟩ := h.original ho
  have hdiv : 4096 * n / 4096 = n := by omega
  have hk : (4096 * n + 4095) / 4096 + 1 - 4096 * n / 4096 = 1 := by omega
  have hspec := @copyPage_spec s m l c (4096 * n) h.held hs (by omega)
    (by rw [hdiv, hentry]; exact hp)
  rw [hk, hdiv, hentry] at hspec
  rcases hspec with ⟨rfl, he⟩ | ⟨v, l₁, m₂, rfl, hext, hce, hmem, hcase⟩
  · exact Or.inl ⟨m, he, h.agree, h.regs, h.few hn hp (copyPages_pos c n)⟩
  have hv : v ∈ l₀ := h.list v List.mem_cons_self
  rcases hcase with ⟨c', l', m₁, he, hmap⟩ | ⟨c', m₁, k, he, hmap, hlast, hnone⟩ |
    ⟨-, j, hj, hj', hpj⟩
  · exact Or.inr ⟨c', l', m₁, he, hmap.dir, h.step ho hn hp hext hce hmem hmap⟩
  · have hzero : k = 0 := by omega
    subst hzero
    rw [Nat.add_zero] at hnone
    have hall := hext.trans hmap.toExtends
    have hsub : ∀ p, c.Has p ∨ framesOf (v :: l₁) p → P p := by
      rintro p (hc | ⟨u, hu, hpu⟩)
      · exact ho.written p (h.has p hc)
      · exact ho.written p ⟨u, h.list u hu, hpu⟩
    have hregs : m₁ = { m₀ with mem := m₁.mem, freeList := m₁.freeList } := by
      rw [hall.regs, h.regs]
    have hrange : InRange m₁ v := by
      rw [hregs]
      exact hr v hv
    have hfree := kfreePage_of_inRange (ho.page v hv) hrange
    refine Or.inl ⟨freed m₁ v, ?_, ?_, ?_, h.few hn hp (hmap.uncopied hnone)⟩
    · rw [he, Act.bind_of_ok hfree]
      rfl
    · refine (h.agree.trans hall.agree (fun _ hp => hp) hsub).trans (agreeOff_freed (ho.page v hv))
        (fun _ hp => hp) fun p hp => ho.written p ⟨v, hv, hp⟩
    · rw [freed, hregs]
  · have hjn : j = n := by omega
    rw [hjn] at hpj
    exact absurd hpj (h.others n hn fun hlt => absurd hlt.1 (lt_irrefl n))

/-- A page is written that belongs neither to the copy nor to the list. -/
theorem Copying.write {q : Nat} (h : Copying s P m₀ l₀ N c l m n) (ho : Original s P m₀ l₀)
    (hq : P q) (hql : ¬ framesOf l₀ q) (hagree : AgreeOff (fun p => p = q) m.mem m'.mem)
    (hregs : m' = { m with mem := m'.mem }) : Copying s P m₀ l₀ N c l m' n := by
  have hframe : ∀ p, p = q → IsFrame p := fun p hp => hp ▸ ho.isFrame q hq
  have hqc : ¬ c.Has q := fun hc => hql (h.has q hc)
  have hqf : ¬ framesOf l q := fun ⟨u, hu, he⟩ => hql ⟨u, h.list u hu, he⟩
  have hheld : Held c m' l := h.held.agree (by rw [hregs]) hagree hframe
    fun p hp => hp ▸ ⟨hqc, hqf⟩
  obtain ⟨-, hentry⟩ := h.held.space.agree hagree hframe fun p hp => hp ▸ hqc
  refine { h with held := hheld, agree := ?_, regs := ?_, copies := ?_, others := ?_, inj := ?_ }
  · exact h.agree.trans hagree (fun _ hp => hp) fun p hp => hp ▸ hq
  · rw [hregs, h.regs]
  · intro j hj hpj
    obtain ⟨u, hu, hul, huc, he, hx⟩ := h.copies j hj hpj
    refine ⟨u, hu, hul, huc, by rw [hentry, he], fun x hxlt => ?_⟩
    rw [hagree.page hframe (ho.page u hu).isFrame (fun huq => hql ⟨u, hu, huq.symm⟩)
      ⟨Nat.le_add_right _ _, Nat.add_lt_add_left hxlt _⟩, hx x hxlt]
  · intro j hj hno
    rw [hentry]
    exact h.others j hj hno
  · intro i j hi hj hpi hpj he
    rw [hentry, hentry] at he
    exact h.inj i j hi hj hpi hpj he

end

end Mm

end Chunix
