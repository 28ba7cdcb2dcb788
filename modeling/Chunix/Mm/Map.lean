import Chunix.Mm.Space

/-!
# Building address spaces

What `pgdir_walk`, `mappages`, `mapkvm` and `region_alloc` do to an address space
and to the free list. `Held` is the state that they work on, an address space
whose pages are not on the list, and `Extends` says what all of them have in
common: tables are added, taken from the front of the list, and no byte outside
the pages of the address space and the pages taken is written.
-/

namespace Chunix

namespace Mm

open Machine Linked

/-- The pages of the list `l` are free. -/
structure Pool (m : Mm) (l : List Nat) : Prop where
  chain : FreeList m l
  page : ∀ v ∈ l, IsPage v

/-- An address space off the free list. -/
structure Held (s : Space) (m : Mm) (l : List Nat) : Prop where
  space : s.At m.mem
  pool : Pool m l
  off : ∀ v ∈ l, ¬ s.Has (v2p v)

/-- The pages of a list of kernel pointers. -/
def framesOf (l : List Nat) (p : Nat) : Prop := ∃ v ∈ l, p = v2p v

theorem p2v_v2p {v : Nat} (h : v < 4294967296) : p2v (v2p v) = v := by
  unfold p2v v2p u32
  omega

theorem v2p_p2v_add {p x : Nat} (h : p + x < 4294967296) : v2p (p2v p + x) = p + x := by
  unfold p2v v2p u32
  omega

theorem v2p_p2v {p : Nat} (h : p < 4294967296) : v2p (p2v p) = p := by
  unfold p2v v2p u32
  omega

theorem v2p_u32_p2v_add {p x : Nat} (h : p + x < 4294967296) : v2p (u32 (p2v p + x)) = p + x := by
  unfold p2v v2p u32
  omega

theorem v2p_inj {v w : Nat} (hv : v < 4294967296) (hw : w < 4294967296) (h : v2p v = v2p w) :
    v = w := by
  rw [← p2v_v2p hv, h, p2v_v2p hw]

theorem IsPage.isFrame {v : Nat} (h : IsPage v) : IsFrame (v2p v) := by
  refine ⟨?_, v2p_add_le h, ?_⟩
  · have := h.1
    unfold v2p u32
    omega
  · have := h.2
    unfold v2p u32
    omega

/-- The pages of the list are page frames. -/
theorem Pool.isFrame {m : Mm} {l : List Nat} {p : Nat} (h : Pool m l) (hp : framesOf l p) :
    IsFrame p := by
  obtain ⟨v, hv, he⟩ := hp
  rw [he]
  exact (h.page v hv).isFrame

theorem Pool.nodup {m : Mm} {l : List Nat} (h : Pool m l) : l.Nodup := IsChain.nodup h.chain

/-- A pool survives writes outside its pages. -/
theorem Pool.agree {P : Nat → Prop} {m m' : Mm} {l : List Nat} (h : Pool m l)
    (hl : m'.freeList = m.freeList) (hagree : AgreeOff P m.mem m'.mem)
    (hP : ∀ p, P p → IsFrame p) (hoff : ∀ v ∈ l, ¬ P (v2p v)) : Pool m' l := by
  refine ⟨h.chain.congr hl h.page fun v hv a ha ha' => ?_, h.page⟩
  exact hagree.page hP (h.page v hv).isFrame (hoff v hv) ⟨ha, by omega⟩

/-- What `kalloc_page` does. -/
theorem kallocPage_cases {m m' : Mm} {l : List Nat} {r : Nat} (h : Pool m l)
    (hr : kallocPage m = .ok (r, m')) :
    (l = [] ∧ r = 0 ∧ m' = m) ∨ ∃ l', l = r :: l' ∧ IsPage r ∧ Pool m' l' ∧ m'.mem = m.mem ∧
      m' = { m with freeList := m'.freeList } := by
  cases l with
  | nil => exact Or.inl ⟨rfl, h.chain.empty hr⟩
  | cons p l =>
      obtain ⟨rfl, rfl, hl⟩ := h.chain.pop hr
      exact Or.inr ⟨l, rfl, h.page _ List.mem_cons_self,
        ⟨hl, fun v hv => h.page v (List.mem_cons_of_mem _ hv)⟩, rfl, rfl⟩

theorem kallocPage_total (m : Mm) : ∃ r m', kallocPage m = .ok (r, m') :=
  ⟨_, _, kallocPage_eq_ok.2 ⟨rfl, rfl⟩⟩

/-- A page table entry with given flags. -/
def mkPte (pa perm : Nat) : Nat := pteAddr pa ||| perm ||| pteP

theorem mkPte_eq {pa perm : Nat} (hp : perm < 4096) :
    mkPte pa perm = pteAddr pa + (perm ||| 1) := by
  have hlt : perm ||| 1 < 2 ^ 12 := Nat.or_lt_two_pow (by omega) (by decide)
  have haddr : pteAddr pa = 2 ^ 12 * (pa / 4096) := by
    unfold pteAddr
    omega
  rw [mkPte, Nat.or_assoc, haddr]
  exact (Nat.two_pow_add_eq_or_of_lt hlt _).symm

theorem or_one_mod_two (n : Nat) : (n ||| 1) % 2 = 1 := by simp

theorem mkPte_spec {pa perm : Nat} (hp : perm < 4096) :
    present (mkPte pa perm) ∧ pteAddr (mkPte pa perm) = pteAddr pa ∧
      pteFlags (mkPte pa perm) = perm ||| 1 := by
  have hlt : perm ||| 1 < 2 ^ 12 := Nat.or_lt_two_pow (by omega) (by decide)
  have hodd := or_one_mod_two perm
  rw [mkPte_eq hp]
  unfold present pteAddr pteFlags
  omega

theorem mkPte_lt {pa perm : Nat} (hpa : pa < 4294967296) (hp : perm < 4096) :
    mkPte pa perm < 4294967296 := by
  have hlt : perm ||| 1 < 2 ^ 12 := Nat.or_lt_two_pow (by omega) (by decide)
  rw [mkPte_eq hp]
  unfold pteAddr
  omega

/-- What the functions that build address spaces have in common. -/
structure Extends (s s' : Space) (l l' : List Nat) (m m' : Mm) : Prop where
  dir : s'.dir = s.dir
  tab : ∀ i t, s.tab i = some t → s'.tab i = some t
  held : Held s' m' l'
  used : ∃ us, l = us ++ l' ∧ (∀ i t, s'.tab i = some t → s.tab i = some t ∨ framesOf us t) ∧
    AgreeOff (fun p => s.Has p ∨ framesOf us p) m.mem m'.mem
  regs : m' = { m with mem := m'.mem, freeList := m'.freeList }

theorem Extends.refl {s : Space} {l : List Nat} {m : Mm} (h : Held s m l) :
    Extends s s l l m m :=
  ⟨rfl, fun _ _ h => h, h, ⟨[], rfl, fun _ _ h => Or.inl h, fun _ _ => rfl⟩, rfl⟩

theorem Extends.trans {s s₁ s' : Space} {l l₁ l' : List Nat} {m m₁ m' : Mm}
    (h : Extends s s₁ l l₁ m m₁) (h' : Extends s₁ s' l₁ l' m₁ m') : Extends s s' l l' m m' := by
  obtain ⟨us, hl, htab, hmem⟩ := h.used
  obtain ⟨us', hl', htab', hmem'⟩ := h'.used
  have hleft : ∀ p, framesOf us p → framesOf (us ++ us') p :=
    fun p ⟨v, hv, hp⟩ => ⟨v, List.mem_append_left _ hv, hp⟩
  have hright : ∀ p, framesOf us' p → framesOf (us ++ us') p :=
    fun p ⟨v, hv, hp⟩ => ⟨v, List.mem_append_right _ hv, hp⟩
  refine ⟨h'.dir.trans h.dir, fun i t hi => h'.tab i t (h.tab i t hi), h'.held,
    ⟨us ++ us', by rw [hl, hl', List.append_assoc], fun i t hi => ?_, ?_⟩, ?_⟩
  · rcases htab' i t hi with hi | hu
    · exact (htab i t hi).imp_right (hleft t)
    · exact Or.inr (hright t hu)
  · refine hmem.trans hmem' (fun p hp => hp.imp_right (hleft p)) fun p hp => ?_
    rcases hp with (rfl | ⟨i, hi⟩) | hp
    · exact Or.inl (Or.inl h.dir)
    · rcases htab i p hi with hi | hu
      · exact Or.inl (Or.inr ⟨i, hi⟩)
      · exact Or.inr (hleft p hu)
    · exact Or.inr (hright p hp)
  · rw [h'.regs, h.regs]

/-- The pages that are taken are no longer on the list, and were not among those
of the address space. -/
theorem Extends.off {s s' : Space} {l l' : List Nat} {m m' : Mm} (h : Extends s s' l l' m m') :
    ∀ v ∈ l', v ∈ l := by
  obtain ⟨us, rfl, -⟩ := h.used
  exact fun v hv => List.mem_append_right _ hv

section

variable {s : Space} {m m' : Mm} {l : List Nat} {n r : Nat}

theorem pdx_mul {n : Nat} (hn : n < 1048576) : pdx (4096 * n) = n / 1024 := by
  unfold pdx
  omega

theorem ptx_mul (n : Nat) : ptx (4096 * n) = n % 1024 := by
  unfold ptx
  omega

theorem Space.At.pde_addr {i : Nat} (h : s.At m.mem) (hi : i < 1024) :
    v2p (p2v s.dir + 4 * i) = s.dir + 4 * i := by
  have := h.dir.le
  exact v2p_p2v_add (by omega)

/-- `pgdir_walk` where there is a table. -/
theorem pgdirWalk_of_some {t : Nat} {alloc : Bool} (h : s.At m.mem) (hn : n < 1048576)
    (ht : s.tab (n / 1024) = some t) :
    pgdirWalk (p2v s.dir) (4096 * n) alloc m = .ok (u32 (p2v t + 4 * (n % 1024)), m) := by
  have hlt : n / 1024 < 1024 := by omega
  obtain ⟨hp, haddr⟩ := h.pde _ t ht
  have hload : kload (p2v s.dir + 4 * (n / 1024)) m = .ok (load32 m.mem (s.dir + 4 * (n / 1024)), m) :=
    Act.gets_eq_ok.2 ⟨by rw [h.pde_addr hlt], rfl⟩
  rw [pgdirWalk, pdx_mul hn, ptx_mul, Act.bind_of_ok hload, if_pos hp, haddr]
  rfl

/-- `pgdir_walk` where there is none and none is wanted. -/
theorem pgdirWalk_of_none (h : s.At m.mem) (hn : n < 1048576) (ht : s.tab (n / 1024) = none) :
    pgdirWalk (p2v s.dir) (4096 * n) false m = .ok (0, m) := by
  have hlt : n / 1024 < 1024 := by omega
  have hload : kload (p2v s.dir + 4 * (n / 1024)) m = .ok (load32 m.mem (s.dir + 4 * (n / 1024)), m) :=
    Act.gets_eq_ok.2 ⟨by rw [h.pde_addr hlt], rfl⟩
  rw [pgdirWalk, pdx_mul hn, Act.bind_of_ok hload, if_neg (h.absent _ hlt ht), if_pos rfl]
  rfl

theorem framesOf_cons {v p : Nat} {l : List Nat} :
    framesOf (v :: l) p ↔ p = v2p v ∨ framesOf l p := by
  simp [framesOf]

theorem not_framesOf_tail {v : Nat} {l : List Nat} {m : Mm} (h : Pool m (v :: l)) :
    ¬ framesOf l (v2p v) := by
  rintro ⟨u, hu, he⟩
  have hv := h.page v List.mem_cons_self
  have hup := h.page u (List.mem_cons_of_mem _ hu)
  exact (List.nodup_cons.1 h.nodup).1 (v2p_inj hv.2.2 hup.2.2 he ▸ hu)

/-- The page `q` of the free list becomes a table of the address space. -/
theorem Held.grow {i v q w : Nat} {m₁ : Mm} (h : Held s m (v :: l)) (hq : v2p v = q)
    (hi : i < 1024) (ht : s.tab i = none) (hw : present w ∧ pteAddr w = q) (hlt : w < 4294967296)
    (hpool : Pool m₁ l) (hmem : m₁.mem = m.mem) (hregs : m₁ = { m with freeList := m₁.freeList }) :
    Extends s (s.grow i q) (v :: l) l m
        { m₁ with mem := store32 (fill m₁.mem q 4096 0) (s.dir + 4 * i) w } ∧
      ∀ k, (s.grow i q).entry (store32 (fill m₁.mem q 4096 0) (s.dir + 4 * i) w) k =
        s.entry m.mem k := by
  have hframe : IsFrame q := hq ▸ (h.pool.page v List.mem_cons_self).isFrame
  have hoff : ¬ s.Has q := hq ▸ h.off v List.mem_cons_self
  have hrest : ¬ framesOf l q := hq ▸ not_framesOf_tail h.pool
  obtain ⟨hat, hentry⟩ := h.space.grow hi ht hframe hoff hw hlt
  rw [hmem]
  have hagree : AgreeOff (fun p => p = s.dir ∨ p = q) m.mem
      (store32 (fill m.mem q 4096 0) (s.dir + 4 * i) w) := by
    intro a ha
    have hd := ha s.dir (Or.inl rfl)
    have hva := ha q (Or.inr rfl)
    have := h.space.dir.le
    unfold InPage at hd hva
    rw [store32_apply_of_lt_or_ge (by omega) (by omega), fill_apply_of_notMem (by omega)]
  have htab : ∀ j t, (s.grow i q).tab j = some t → s.tab j = some t ∨ t = q := by
    intro j t hj
    simp only [Space.grow, Function.update_apply] at hj
    split_ifs at hj
    · exact Or.inr (Option.some.inj hj).symm
    · exact Or.inl hj
  have hl : ∀ u ∈ l, ¬ s.Has (v2p u) := fun u hu => h.off u (List.mem_cons_of_mem _ hu)
  refine ⟨⟨rfl, ?_, ⟨hat, ?_, ?_⟩, ⟨[v], rfl, ?_, fun a ha => hagree a ?_⟩, ?_⟩, hentry⟩
  · intro j t hj
    have hne : j ≠ i := fun he => by
      rw [he, ht] at hj
      cases hj
    simpa [Space.grow, Function.update_of_ne hne] using hj
  · refine hpool.agree rfl (fun a ha => (hagree a ha).trans (by rw [hmem])) ?_ ?_
    · rintro p (hp | hp)
      · exact hp ▸ h.space.dir
      · exact hp ▸ hframe
    · rintro u hu (he | he)
      · exact hl u hu (Or.inl he)
      · exact hrest ⟨u, hu, he.symm⟩
  · rintro u hu (he | ⟨j, hj⟩)
    · exact hl u hu (Or.inl he)
    · rcases htab j _ hj with hj | he
      · exact hl u hu (Or.inr ⟨j, hj⟩)
      · exact hrest ⟨u, hu, he.symm⟩
  · intro j t hj
    refine (htab j t hj).imp_right fun he => ⟨v, List.mem_cons_self, ?_⟩
    rw [he, hq]
  · rintro p (hp | hp)
    · exact ha _ (Or.inl (Or.inl hp))
    · exact ha _ (Or.inr ⟨v, List.mem_cons_self, by rw [hp, hq]⟩)
  · rw [hregs]

/-- `pgdir_walk` where there is none and a page for it. -/
theorem pgdirWalk_grow {v : Nat} (h : Held s m (v :: l)) (hn : n < 1048576)
    (ht : s.tab (n / 1024) = none) :
    ∃ m', pgdirWalk (p2v s.dir) (4096 * n) true m = .ok (u32 (p2v (v2p v) + 4 * (n % 1024)), m') ∧
      Extends s (s.grow (n / 1024) (v2p v)) (v :: l) l m m' ∧
      ∀ k, (s.grow (n / 1024) (v2p v)).entry m'.mem k = s.entry m.mem k := by
  have hlt : n / 1024 < 1024 := by omega
  have hv := h.pool.page v List.mem_cons_self
  obtain ⟨r, m₁, hr⟩ := kallocPage_total m
  rcases kallocPage_cases h.pool hr with ⟨hl, -⟩ | ⟨l', hl, hpage, hpool, hmem, hregs⟩
  · simp at hl
  cases hl
  have hload : kload (p2v s.dir + 4 * (n / 1024)) m = .ok (load32 m.mem (s.dir + 4 * (n / 1024)), m) :=
    Act.gets_eq_ok.2 ⟨by rw [h.space.pde_addr hlt], rfl⟩
  have hflags : pteAddr (v2p v) ||| pteU ||| pteW ||| pteP = mkPte (v2p v) 6 := by
    rw [mkPte, Nat.or_assoc (pteAddr (v2p v))]
    rfl
  obtain ⟨hpres, haddr, -⟩ := @mkPte_spec (v2p v) 6 (by decide)
  have hframe := hv.isFrame
  have hpte : pteAddr (v2p v) = v2p v := by
    have := hframe.aligned
    unfold pteAddr
    omega
  have hw : mkPte (v2p v) 6 < 4294967296 := mkPte_lt (by have := hframe.le; omega) (by decide)
  obtain ⟨hext, hentry⟩ := h.grow rfl hlt ht ⟨hpres, haddr.trans hpte⟩ hw hpool hmem hregs
  refine ⟨_, ?_, hext, hentry⟩
  rw [pgdirWalk, pdx_mul hn, ptx_mul, Act.bind_of_ok hload, if_neg (h.space.absent _ hlt ht),
    if_neg (by decide), Act.bind_of_ok hr, if_neg hv.2.1, hflags, p2v_v2p hv.2.2]
  simp only [kmemset, kstore, Act.bind_eq_ok, Act.modify_eq_ok, Act.pure_eq_ok]
  exact ⟨(), _, rfl, (), _, by rw [h.space.pde_addr hlt], trivial, rfl⟩

/-- The pointer to an entry is not null, and leads to the entry. -/
theorem entry_pointer {t : Nat} (ht : IsFrame t) :
    u32 (p2v t + 4 * (n % 1024)) ≠ 0 ∧
      v2p (u32 (p2v t + 4 * (n % 1024))) = t + 4 * (n % 1024) := by
  have h₁ := ht.aligned
  have h₂ := ht.le
  have h₃ := ht.ne
  have hmod : n % 1024 < 1024 := Nat.mod_lt _ (by decide)
  refine ⟨?_, v2p_u32_p2v_add (by omega)⟩
  unfold p2v u32
  omega

/-- What `pgdir_walk` does when a table is wanted: without a page for it nothing,
and otherwise the address space has the table then, and the entries are the same. -/
theorem pgdirWalk_true (h : Held s m l) (hn : n < 1048576) :
    (s.tab (n / 1024) = none ∧ l = [] ∧ pgdirWalk (p2v s.dir) (4096 * n) true m = .ok (0, m)) ∨
    ∃ s' l' m' t, pgdirWalk (p2v s.dir) (4096 * n) true m =
        .ok (u32 (p2v t + 4 * (n % 1024)), m') ∧ s'.tab (n / 1024) = some t ∧
      Extends s s' l l' m m' ∧ (∀ k, s'.entry m'.mem k = s.entry m.mem k) ∧
      (∀ v ∈ l, v ∈ l' ∨ s'.Has (v2p v)) ∧
      ∀ a b, a ≤ n / 1024 → n / 1024 < b →
        l.length + s'.missing a b = l'.length + s.missing a b := by
  cases ht : s.tab (n / 1024) with
  | some t =>
      exact Or.inr ⟨s, l, m, t, pgdirWalk_of_some h.space hn ht, ht, Extends.refl h,
        fun _ => rfl, fun _ hv => Or.inl hv, fun _ _ _ _ => rfl⟩
  | none =>
      cases l with
      | nil =>
          refine Or.inl ⟨rfl, rfl, ?_⟩
          obtain ⟨r, m₁, hr⟩ := kallocPage_total m
          rcases kallocPage_cases h.pool hr with ⟨-, rfl, rfl⟩ | ⟨l', hl, -⟩
          · have hlt : n / 1024 < 1024 := by omega
            have hload : kload (p2v s.dir + 4 * (n / 1024)) m₁ =
                .ok (load32 m₁.mem (s.dir + 4 * (n / 1024)), m₁) :=
              Act.gets_eq_ok.2 ⟨by rw [h.space.pde_addr hlt], rfl⟩
            rw [pgdirWalk, pdx_mul hn, Act.bind_of_ok hload, if_neg (h.space.absent _ hlt ht),
              if_neg (by decide), Act.bind_of_ok hr, if_pos rfl]
            rfl
          · cases hl
      | cons v l =>
          obtain ⟨m', hw, hext, hentry⟩ := pgdirWalk_grow h hn ht
          have htab : (s.grow (n / 1024) (v2p v)).tab (n / 1024) = some (v2p v) := by
            simp [Space.grow]
          refine Or.inr ⟨_, l, m', v2p v, hw, htab, hext, hentry, ?_, ?_⟩
          · intro u hu
            rcases List.mem_cons.1 hu with hu | hu
            · rw [hu]
              exact Or.inr (Or.inr ⟨n / 1024, htab⟩)
            · exact Or.inl hu
          · intro a b ha hb
            have := Space.missing_grow (t := v2p v) ht ha hb
            rw [List.length_cons]
            omega

/-- The write of an entry through its pointer. -/
theorem Held.setEntry {t w : Nat} (h : Held s m l) (ht : s.tab (n / 1024) = some t) :
    ∃ m', kstore (u32 (p2v t + 4 * (n % 1024))) w m = .ok ((), m') ∧ Extends s s l l m m' ∧
      ∀ k, s.entry m'.mem k = if k = n then u32 w else s.entry m.mem k := by
  obtain ⟨-, hframe, -⟩ := h.space.tab _ t ht
  obtain ⟨hat, hentry⟩ := h.space.store (w := w) ht
  have hle := hframe.le
  have hmod : n % 1024 < 1024 := Nat.mod_lt _ (by decide)
  have hagree : AgreeOff (fun p => p = t) m.mem (store32 m.mem (t + 4 * (n % 1024)) w) := by
    intro a ha
    have := ha t rfl
    unfold InPage at this
    exact store32_apply_of_lt_or_ge (by omega) (by omega)
  refine ⟨{ m with mem := store32 m.mem (t + 4 * (n % 1024)) w }, ?_, ?_, hentry⟩
  · exact Act.modify_eq_ok.2 (by rw [(entry_pointer hframe).2])
  · refine ⟨rfl, fun _ _ hi => hi, ⟨hat, ?_, h.off⟩, ⟨[], rfl, fun _ _ hi => Or.inl hi, ?_⟩, rfl⟩
    · refine h.pool.agree rfl hagree ?_ ?_
      · rintro p rfl
        exact hframe
      · intro v hv he
        exact h.off v hv (Or.inr ⟨_, he.symm ▸ ht⟩)
    · intro a ha
      exact hagree a fun p hp => ha p (Or.inl (Or.inr ⟨_, hp.symm ▸ ht⟩))

/-- What `mappages` has done when `k` pages from the page number `n` on are mapped
to the pages from `pa` on. -/
structure Mapped (s s' : Space) (l l' : List Nat) (m m' : Mm) (n k pa perm : Nat) : Prop
    extends Extends s s' l l' m m' where
  absent : ∀ j, n ≤ j → j < n + k → ¬ present (s.entry m.mem j)
  entry : ∀ j, s'.entry m'.mem j =
    if n ≤ j ∧ j < n + k then mkPte (u32 (pa + 4096 * (j - n))) perm else s.entry m.mem j
  few : ∀ a b, (∀ j, n ≤ j → j < n + k → a ≤ j / 1024 ∧ j / 1024 < b) →
    l.length + s'.missing a b = l'.length + s.missing a b
  tables : ∀ v ∈ l, v ∈ l' ∨ s'.Has (v2p v)

theorem Extends.has {s s' : Space} {l l' : List Nat} {m m' : Mm} {p : Nat}
    (h : Extends s s' l l' m m') (hp : s.Has p) : s'.Has p := by
  rcases hp with rfl | ⟨i, hi⟩
  · exact Or.inl h.dir.symm
  · exact Or.inr ⟨i, h.tab i p hi⟩

theorem Mapped.refl {pa perm : Nat} (h : Held s m l) : Mapped s s l l m m n 0 pa perm where
  toExtends := Extends.refl h
  absent := fun j _ _ => by omega
  entry := fun j => by rw [if_neg (by omega)]
  few := fun _ _ _ => rfl
  tables := fun _ hv => Or.inl hv

/-- The tables in front of the mapped pages are as they were. -/
theorem Mapped.tab_below {s' : Space} {l' : List Nat} {k pa perm i : Nat}
    (h : Mapped s s' l l' m m' n k pa perm) (hi : i < n / 1024) :
    s'.tab i = none ↔ s.tab i = none := by
  have h₁ := h.few i ((n + k) / 1024 + 1) fun j hj hj' => by omega
  have h₂ := h.few (i + 1) ((n + k) / 1024 + 1) fun j hj hj' => by omega
  have hle : i ≤ i + 1 := Nat.le_succ i
  rw [s.missing_add hle (by omega), s'.missing_add hle (by omega), Space.missing_single,
    Space.missing_single] at h₁
  split_ifs at h₁ with h₃ h₄ h₄
  · exact iff_of_true h₃ h₄
  · omega
  · omega
  · exact iff_of_false h₃ h₄

/-- So are the tables behind them. -/
theorem Mapped.tab_above {s' : Space} {l' : List Nat} {k pa perm i : Nat}
    (h : Mapped s s' l l' m m' n k pa perm) (hle : n / 1024 ≤ i)
    (hi : ∀ j, n ≤ j → j < n + k → j / 1024 < i) : s'.tab i = none ↔ s.tab i = none := by
  have h₁ := h.few (n / 1024) (i + 1) fun j hj hj' => by have := hi j hj hj'; omega
  have h₂ := h.few (n / 1024) i fun j hj hj' => by have := hi j hj hj'; omega
  have hsucc : i ≤ i + 1 := Nat.le_succ i
  rw [s.missing_add hle hsucc, s'.missing_add hle hsucc, Space.missing_single,
    Space.missing_single] at h₁
  split_ifs at h₁ with h₃ h₄ h₄
  · exact iff_of_true h₃ h₄
  · omega
  · omega
  · exact iff_of_false h₃ h₄

/-- One more page in front. -/
theorem Mapped.cons {s₁ s' : Space} {l₁ l' : List Nat} {m₁ : Mm} {k pa perm : Nat}
    (h : Mapped s s₁ l l₁ m m₁ n 1 pa perm)
    (h' : Mapped s₁ s' l₁ l' m₁ m' (n + 1) k (u32 (pa + 4096)) perm) :
    Mapped s s' l l' m m' n (k + 1) pa perm where
  toExtends := h.toExtends.trans h'.toExtends
  absent := by
    intro j hj hj'
    by_cases hjn : j = n
    · exact h.absent j hj (by omega)
    · have := h'.absent j (by omega) (by omega)
      rwa [h.entry j, if_neg (by omega)] at this
  entry := by
    intro j
    rw [h'.entry j, h.entry j]
    by_cases hjn : j = n
    · subst hjn
      rw [if_neg (by omega), if_pos (by omega), if_pos (by omega)]
    · by_cases hr : n + 1 ≤ j ∧ j < n + 1 + k
      · have hpa : u32 (u32 (pa + 4096) + 4096 * (j - (n + 1))) = u32 (pa + 4096 * (j - n)) := by
          unfold u32
          omega
        rw [if_pos hr, if_pos (by omega), hpa]
      · rw [if_neg hr, if_neg (by omega), if_neg (by omega)]
  few := by
    intro a b hab
    have h₁ := h.few a b fun j hj hj' => hab j hj (by omega)
    have h₂ := h'.few a b fun j hj hj' => hab j (by omega) (by omega)
    omega
  tables := by
    intro v hv
    rcases h.tables v hv with hv | hv
    · exact h'.tables v hv
    · exact Or.inr (h'.has hv)

/-- One turn of the loop of `mappages`. -/
theorem mappagesLoop_step {pa perm last : Nat} (fuel : Nat) (h : Held s m l) (hn : n < 1048576)
    (hpa : pa < 4294967296) (hperm : perm < 4096) (hlast : 4096 * n ≤ last) :
    (s.tab (n / 1024) = none ∧ l = [] ∧
      mappagesLoop (p2v s.dir) last perm (fuel + 1) (4096 * n) pa m = .ok (-1, m)) ∨
    (present (s.entry m.mem n) ∧ mappagesLoop (p2v s.dir) last perm (fuel + 1) (4096 * n) pa m =
      .error (.panic "mappages: re-map")) ∨
    ∃ s' l' m', Mapped s s' l l' m m' n 1 pa perm ∧
      mappagesLoop (p2v s.dir) last perm (fuel + 1) (4096 * n) pa m =
        mappagesLoop (p2v s'.dir) last perm fuel (u32 (4096 * n + 4096)) (u32 (pa + 4096)) m' := by
  rw [mappagesLoop, if_pos hlast]
  rcases pgdirWalk_true h hn with ⟨ht, hl, hw⟩ | ⟨s₁, l₁, m₁, t, hw, ht, hext, hentry, htables, hfew⟩
  · refine Or.inl ⟨ht, hl, ?_⟩
    rw [Act.bind_of_ok hw, if_pos rfl]
    rfl
  · obtain ⟨-, hframe, -⟩ := hext.held.space.tab _ t ht
    obtain ⟨hne, hptr⟩ := entry_pointer (n := n) hframe
    have hload : kload (u32 (p2v t + 4 * (n % 1024))) m₁ = .ok (s.entry m.mem n, m₁) := by
      refine Act.gets_eq_ok.2 ⟨?_, rfl⟩
      rw [hptr, ← hentry n, Space.entry_of_some ht]
    rw [Act.bind_of_ok hw, if_neg hne, Act.bind_of_ok hload]
    by_cases hp : present (s.entry m.mem n)
    · refine Or.inr (Or.inl ⟨hp, ?_⟩)
      rw [if_pos hp]
      rfl
    · obtain ⟨m', hstore, hext', hset⟩ := hext.held.setEntry (w := mkPte pa perm) ht
      refine Or.inr (Or.inr ⟨s₁, l₁, m', ⟨hext.trans hext', ?_, ?_, ?_, htables⟩, ?_⟩)
      · intro j hj hj'
        rwa [show j = n by omega]
      · intro j
        rw [hset j, hentry j]
        by_cases hjn : j = n
        · subst hjn
          rw [if_pos rfl, if_pos (by omega), u32_eq_self (mkPte_lt hpa hperm),
            show pa + 4096 * (j - j) = pa by omega, u32_eq_self hpa]
        · rw [if_neg hjn, if_neg (by omega)]
      · intro a b hab
        obtain ⟨ha, hb⟩ := hab n le_rfl (by omega)
        exact hfew a b ha hb
      · rw [if_neg hp, hext.dir]
        have hstore' : kstore (u32 (p2v t + 4 * (n % 1024))) (pteAddr pa ||| perm ||| pteP) m₁ =
            .ok ((), m') := hstore
        exact Act.bind_of_ok hstore'

/-- The first `k` turns of the loop of `mappages`, none of which is the last: the pages are
mapped, or the loop has run out of pages for tables, or met a page that is mapped. -/
theorem mappagesLoop_steps {pa perm last k fuel : Nat} (h : Held s m l) (hnk : n + k ≤ 1048576)
    (hpa : pa < 4294967296) (hperm : perm < 4096) (hlast : ∀ j, j < n + k → 4096 * j ≤ last) :
    (∃ s' l' m', Mapped s s' l l' m m' n k pa perm ∧
      mappagesLoop (p2v s.dir) last perm (fuel + k) (u32 (4096 * n)) pa m =
        mappagesLoop (p2v s'.dir) last perm fuel (u32 (4096 * (n + k))) (u32 (pa + 4096 * k)) m') ∨
    (∃ s' m' j, mappagesLoop (p2v s.dir) last perm (fuel + k) (u32 (4096 * n)) pa m =
        .ok (-1, m') ∧ Mapped s s' l [] m m' n j pa perm ∧ j < k ∧
      s'.tab ((n + j) / 1024) = none) ∨
    (mappagesLoop (p2v s.dir) last perm (fuel + k) (u32 (4096 * n)) pa m =
      .error (.panic "mappages: re-map") ∧ ∃ j, n ≤ j ∧ j < n + k ∧ present (s.entry m.mem j)) := by
  induction k generalizing s l m n pa with
  | zero =>
      refine Or.inl ⟨s, l, m, Mapped.refl h, ?_⟩
      rw [Nat.add_zero, Nat.add_zero, Nat.mul_zero, Nat.add_zero, u32_eq_self hpa]
  | succ k ih =>
      have hva : u32 (4096 * n) = 4096 * n := u32_eq_self (by omega)
      rw [hva]
      rcases mappagesLoop_step (fuel + k) h (by omega) hpa hperm (hlast n (by omega)) with
        ⟨ht, rfl, hr⟩ | ⟨hp, hr⟩ | ⟨s₁, l₁, m₁, hmap, hr⟩
      · exact Or.inr (Or.inl ⟨s, m, 0, hr, Mapped.refl h, by omega, ht⟩)
      · exact Or.inr (Or.inr ⟨hr, n, le_rfl, by omega, hp⟩)
      have hpa' : u32 (u32 (pa + 4096) + 4096 * k) = u32 (pa + 4096 * (k + 1)) := by
        unfold u32
        omega
      rw [← Nat.add_assoc fuel, hr, show 4096 * n + 4096 = 4096 * (n + 1) by omega]
      rcases ih (n := n + 1) hmap.held (by omega) (u32_lt (pa + 4096))
        (fun j hj => hlast j (by omega)) with
        ⟨s', l', m', hmap', hr'⟩ | ⟨s', m', j, hr', hmap', hj, ht⟩ | ⟨hr', j, hj, hjk, hp⟩
      · refine Or.inl ⟨s', l', m', hmap.cons hmap', ?_⟩
        rw [hr', hpa', show n + 1 + k = n + (k + 1) by omega]
      · refine Or.inr (Or.inl ⟨s', m', j + 1, hr', hmap.cons hmap', by omega, ?_⟩)
        rwa [show n + (j + 1) = n + 1 + j by omega]
      · refine Or.inr (Or.inr ⟨hr', j, by omega, by omega, ?_⟩)
        rwa [hmap.entry j, if_neg (by omega)] at hp

/-- The loop of `mappages` over the pages from `n` up to `q`: it maps them all, runs
out of pages for tables, or meets a page that is mapped. -/
theorem mappagesLoop_spec {pa perm fuel q : Nat} (h : Held s m l) (hn : n ≤ q + 1)
    (hq : q + 1 < 1048576) (hpa : pa < 4294967296) (hperm : perm < 4096) (hfuel : q + 1 < n + fuel) :
    (∃ s' l' m', mappagesLoop (p2v s.dir) (4096 * q) perm fuel (4096 * n) pa m = .ok (0, m') ∧
      Mapped s s' l l' m m' n (q + 1 - n) pa perm) ∨
    (∃ s' m' k, mappagesLoop (p2v s.dir) (4096 * q) perm fuel (4096 * n) pa m = .ok (-1, m') ∧
      Mapped s s' l [] m m' n k pa perm ∧ n + k ≤ q ∧ s'.tab ((n + k) / 1024) = none) ∨
    (mappagesLoop (p2v s.dir) (4096 * q) perm fuel (4096 * n) pa m =
      .error (.panic "mappages: re-map") ∧ ∃ j, n ≤ j ∧ j ≤ q ∧ present (s.entry m.mem j)) := by
  obtain ⟨rest, rfl⟩ : ∃ rest, fuel = rest + 1 + (q + 1 - n) := ⟨fuel - (q + 1 - n) - 1, by omega⟩
  have hsteps := @mappagesLoop_steps s m l n pa perm (4096 * q) (q + 1 - n) (rest + 1) h (by omega)
    hpa hperm (fun j hj => by omega)
  rw [u32_eq_self (show 4096 * n < 4294967296 by omega)] at hsteps
  rcases hsteps with ⟨s', l', m', hmap, hr⟩ | ⟨s', m', k, hr, hmap, hk, ht⟩ | ⟨hr, j, hj, hjq, hp⟩
  · refine Or.inl ⟨s', l', m', ?_, hmap⟩
    rw [hr, show n + (q + 1 - n) = q + 1 by omega, u32_eq_self (by omega), mappagesLoop,
      if_neg (by omega)]
    rfl
  · exact Or.inr (Or.inl ⟨s', m', k, hr, hmap, by omega, ht⟩)
  · exact Or.inr (Or.inr ⟨hr, j, hj, by omega, hp⟩)

/-- What `mappages` does with the `sz` bytes at `va`. -/
theorem mappages_spec {va pa sz perm : Nat} (h : Held s m l) (hsz : 0 < sz)
    (hva : va + sz ≤ 4294963200) (hpa : pa < 4294967296) (hperm : perm < 4096) :
    (∃ s' l' m', mappages (p2v s.dir) va pa sz perm m = .ok (0, m') ∧
      Mapped s s' l l' m m' (va / 4096) ((va + sz - 1) / 4096 + 1 - va / 4096) pa perm) ∨
    (∃ s' m' k, mappages (p2v s.dir) va pa sz perm m = .ok (-1, m') ∧
      Mapped s s' l [] m m' (va / 4096) k pa perm ∧ va / 4096 + k ≤ (va + sz - 1) / 4096 ∧
      s'.tab ((va / 4096 + k) / 1024) = none) ∨
    (mappages (p2v s.dir) va pa sz perm m = .error (.panic "mappages: re-map") ∧
      ∃ j, va / 4096 ≤ j ∧ j ≤ (va + sz - 1) / 4096 ∧ present (s.entry m.mem j)) := by
  have hlast : pgRoundDown (u32 (va + sz + 4294967295)) = 4096 * ((va + sz - 1) / 4096) := by
    unfold pgRoundDown u32
    omega
  have hfirst : pgRoundDown va = 4096 * (va / 4096) := by
    unfold pgRoundDown
    omega
  rw [mappages, hlast, hfirst]
  exact mappagesLoop_spec h (by omega) (by omega) hpa hperm (by omega)

end

end Mm

end Chunix
