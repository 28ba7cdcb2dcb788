import Chunix.Mm.Clone

/-!
# Regions of an address space

`region_alloc` gives every page of a range that is not yet present a page from the free
list, and the range the tables it needs. It takes at most two pages for each page of the
range, and panics when the list is too short.
-/

namespace Chunix

namespace Mm

open Machine Linked

variable {c c₁ c' : Space} {m m₁ m' : Mm} {l l₁ l' : List Nat} {n k perm : Nat}

theorem kvmPages_congr (h : m'.memsz = m.memsz) : kvmPages m' = kvmPages m := by
  have htables : kvmTables m' = kvmTables m := by
    unfold kvmTables
    rw [h]
  exact congrArg (fun x => x + 1) htables

/-- The page number `j` of `c` is mapped to a page from the list `l` that is no longer on
the list `l'`. -/
def IsTaken (l : List Nat) (c : Space) (l' : List Nat) (m : Mm) (perm j : Nat) : Prop :=
  ∃ v ∈ l, v ∉ l' ∧ ¬ c.Has (v2p v) ∧ c.entry m.mem j = mkPte (v2p v) perm

/-- What `region_alloc` has done when it is through with `k` pages from the page number `n`
on. -/
structure Regioned (c c' : Space) (l l' : List Nat) (m m' : Mm) (n k perm : Nat) : Prop
    extends Extends c c' l l' m m' where
  kept : ∀ j, j < n ∨ n + k ≤ j ∨ present (c.entry m.mem j) →
    c'.entry m'.mem j = c.entry m.mem j
  taken : ∀ j, n ≤ j → j < n + k → ¬ present (c.entry m.mem j) → IsTaken l c' l' m' perm j
  inj : ∀ i j, n ≤ i → i < n + k → n ≤ j → j < n + k → ¬ present (c.entry m.mem i) →
    ¬ present (c.entry m.mem j) → pteAddr (c'.entry m'.mem i) = pteAddr (c'.entry m'.mem j) → i = j
  few : l.length ≤ l'.length + 2 * k

theorem Regioned.refl (h : Held c m l) : Regioned c c l l m m n 0 perm where
  toExtends := Extends.refl h
  kept := fun _ _ => rfl
  taken := fun j hj hj' => by omega
  inj := fun i j hi hi' => by omega
  few := Nat.le_refl _

theorem Regioned.cons (hc : Held c m l) (hperm : perm < 4096)
    (h : Regioned c c₁ l l₁ m m₁ n 1 perm) (h' : Regioned c₁ c' l₁ l' m₁ m' (n + 1) k perm) :
    Regioned c c' l l' m m' n (k + 1) perm := by
  have hfirst : ¬ present (c.entry m.mem n) → ∃ v ∈ l, v ∉ l₁ ∧ IsPage v ∧ v ∉ l' ∧
      ¬ c'.Has (v2p v) ∧ c'.entry m'.mem n = mkPte (v2p v) perm := by
    intro hp
    obtain ⟨v, hv, hv₁, hvc, he⟩ := h.taken n le_rfl (by omega) hp
    have hpage := hc.pool.page v hv
    refine ⟨v, hv, hv₁, hpage, fun hv' => hv₁ (h'.off v hv'), fun hvc' => ?_, ?_⟩
    · exact (h'.origin hvc').elim hvc fun hf => hv₁ (mem_of_framesOf h.held.pool hpage hf)
    · rw [h'.kept n (Or.inl (Nat.lt_succ_self n)), he]
  have hrest : ∀ j, n + 1 ≤ j → c₁.entry m₁.mem j = c.entry m.mem j :=
    fun j hj => h.kept j (Or.inr (Or.inl hj))
  have hlater : ∀ j, n + 1 ≤ j → j < n + 1 + k → ¬ present (c.entry m.mem j) →
      IsTaken l₁ c' l' m' perm j :=
    fun j hj hj' hp => h'.taken j hj hj' (by rwa [hrest j hj])
  have hne : ∀ j, n + 1 ≤ j → j < n + 1 + k → ¬ present (c.entry m.mem n) →
      ¬ present (c.entry m.mem j) → pteAddr (c'.entry m'.mem n) ≠ pteAddr (c'.entry m'.mem j) := by
    intro j hj hj' hp hpj he
    obtain ⟨v, -, hv₁, hpage, -, -, hve⟩ := hfirst hp
    obtain ⟨u, hu, -, -, hue⟩ := hlater j hj hj' hpj
    have hupage := h.held.pool.page u hu
    rw [hve, hue, pteAddr_copy hpage hperm, pteAddr_copy hupage hperm] at he
    exact hv₁ (v2p_inj hpage.2.2 hupage.2.2 he ▸ hu)
  refine ⟨h.toExtends.trans h'.toExtends, ?_, ?_, ?_, ?_⟩
  · intro j hj
    have hout : j < n ∨ n + 1 ≤ j ∨ present (c.entry m.mem j) :=
      hj.imp_right fun hj => hj.imp_left fun hj => by omega
    have hsame := h.kept j hout
    rw [h'.kept j, hsame]
    rw [hsame]
    rcases hj with hj | hj | hj
    · exact Or.inl (by omega)
    · exact Or.inr (Or.inl (by omega))
    · exact Or.inr (Or.inr hj)
  · intro j hj hj' hp
    by_cases hjn : j = n
    · obtain ⟨v, hv, -, -, hv', hvc, he⟩ := hfirst (hjn ▸ hp)
      exact ⟨v, hv, hv', hvc, hjn ▸ he⟩
    · obtain ⟨v, hv, hv', hvc, he⟩ := hlater j (by omega) (by omega) hp
      exact ⟨v, h.off v hv, hv', hvc, he⟩
  · intro i j hi hi' hj hj' hpi hpj he
    by_cases hin : i = n
    · by_cases hjn : j = n
      · rw [hin, hjn]
      · subst hin
        exact absurd he (hne j (by omega) (by omega) hpi hpj)
    · by_cases hjn : j = n
      · subst hjn
        exact absurd he.symm (hne i (by omega) (by omega) hpj hpi)
      · refine h'.inj i j (by omega) (by omega) (by omega) (by omega) ?_ ?_ he
        · rwa [hrest i (by omega)]
        · rwa [hrest j (by omega)]
  · have h₁ := h.few
    have h₂ := h'.few
    omega

/-- One turn of the loop of `region_alloc`. -/
theorem regionAllocLoop_turn {last : Nat} (fuel : Nat) (h : Held c m l) (hn : n < 1048575)
    (hlast : 4096 * n < last) (hperm : perm < 4096) :
    (l.length < 2 ∧ regionAllocLoop (p2v c.dir) last perm (fuel + 1) (4096 * n) m =
      .error (.panic "region_alloc failed!")) ∨
    ∃ c' l' m', Regioned c c' l l' m m' n 1 perm ∧
      regionAllocLoop (p2v c.dir) last perm (fuel + 1) (4096 * n) m =
        regionAllocLoop (p2v c'.dir) last perm fuel (4096 * (n + 1)) m' := by
  have hnext : u32 (4096 * n + 4096) = 4096 * (n + 1) := by
    rw [u32_eq_self (by omega)]
    omega
  rw [regionAllocLoop, if_pos hlast, hnext]
  rcases pgdirWalk_true h (show n < 1048576 by omega) with
    ⟨-, rfl, hw⟩ | ⟨c₁, l₁, m₁, t, hw, ht, hext, hentry, -, hfew⟩
  · refine Or.inl ⟨by decide, ?_⟩
    rw [Act.bind_of_ok hw, if_pos rfl]
    rfl
  have hshort : l.length ≤ l₁.length + 1 := by
    have := hfew (n / 1024) (n / 1024 + 1) le_rfl (by omega)
    rw [Space.missing_single, Space.missing_single] at this
    split_ifs at this <;> omega
  obtain ⟨-, hframe, -⟩ := hext.held.space.tab _ t ht
  obtain ⟨hne, hptr⟩ := entry_pointer (n := n) hframe
  have hload : kload (u32 (p2v t + 4 * (n % 1024))) m₁ = .ok (c.entry m.mem n, m₁) := by
    refine Act.gets_eq_ok.2 ⟨?_, rfl⟩
    rw [hptr, ← hentry n, Space.entry_of_some ht]
  rw [Act.bind_of_ok hw, if_neg hne]
  dsimp only
  rw [Act.bind_of_ok hload]
  by_cases hp : present (c.entry m.mem n)
  · -- the page is there, only the table may be new
    refine Or.inr ⟨c₁, l₁, m₁, ⟨hext, fun j _ => hentry j, ?_, ?_, by omega⟩, ?_⟩
    · intro j hj hj' hpj
      exact absurd hp (by rwa [show n = j by omega])
    · intro i j hi hi' hj hj' _ _ _
      omega
    · rw [if_neg (not_not.2 hp), hext.dir]
  · rw [if_pos hp]
    obtain ⟨r, m₂, hr⟩ := kallocPage_total m₁
    rw [Act.bind_of_ok hr]
    rcases kallocPage_cases hext.held.pool hr with
      ⟨rfl, rfl, rfl⟩ | ⟨l₂, rfl, hpage, hpool, hmem, hregs⟩
    · refine Or.inl ⟨by rw [List.length_nil] at hshort; omega, ?_⟩
      rw [if_pos rfl]
      rfl
    · have hoff : AgreeOff (fun p => p = v2p r) m₁.mem m₁.mem := fun _ _ => rfl
      have htake := hext.held.take rfl hpool hmem hregs hoff
      rw [← hmem] at htake
      obtain ⟨htake, -⟩ := htake
      obtain ⟨m₃, hstore, hset, hsets⟩ := htake.held.setEntry (w := mkPte (v2p r) perm) ht
      have hall := (hext.trans htake).trans hset
      have hpa : u32 (mkPte (v2p r) perm) = mkPte (v2p r) perm :=
        u32_eq_self (mkPte_lt (u32_lt _) hperm)
      have hnew : ∀ j, c₁.entry m₃.mem j = if j = n then mkPte (v2p r) perm else c.entry m.mem j := by
        intro j
        rw [hsets j, hpa, hmem, hentry j]
      refine Or.inr ⟨c₁, l₂, m₃, ⟨hall, ?_, ?_, ?_, ?_⟩, ?_⟩
      · intro j hj
        have hjn : j ≠ n := by
          rintro rfl
          rcases hj with hj | hj | hj
          · omega
          · omega
          · exact hp hj
        rw [hnew, if_neg hjn]
      · intro j hj hj' _
        have hjn : j = n := by omega
        obtain ⟨hoff, hrest⟩ := hext.held.head
        refine ⟨r, hext.off r List.mem_cons_self, fun hr => hrest ⟨r, hr, rfl⟩, hoff, ?_⟩
        rw [hnew, if_pos hjn]
      · intro i j hi hi' hj hj' _ _ _
        omega
      · rw [List.length_cons] at hshort
        omega
      · rw [if_neg hpage.2.1]
        exact (Act.bind_of_ok hstore).trans (by rw [hext.dir])

/-- The loop of `region_alloc` for `k` pages. -/
theorem regionAllocLoop_cases {fuel : Nat} (h : Held c m l) (hk : n + k < 1048576)
    (hperm : perm < 4096) (hfuel : k < fuel) :
    (l.length < 2 * k ∧ regionAllocLoop (p2v c.dir) (4096 * (n + k)) perm fuel (4096 * n) m =
      .error (.panic "region_alloc failed!")) ∨
    ∃ c' l' m', Regioned c c' l l' m m' n k perm ∧
      regionAllocLoop (p2v c.dir) (4096 * (n + k)) perm fuel (4096 * n) m = .ok ((), m') := by
  induction k generalizing c l m n fuel with
  | zero =>
      obtain ⟨fuel, rfl⟩ : ∃ f, fuel = f + 1 := ⟨fuel - 1, by omega⟩
      refine Or.inr ⟨c, l, m, Regioned.refl h, ?_⟩
      rw [regionAllocLoop, if_neg (by omega)]
      rfl
  | succ k ih =>
      obtain ⟨fuel, rfl⟩ : ∃ f, fuel = f + 1 := ⟨fuel - 1, by omega⟩
      have hn : n < 1048575 := by omega
      have hlast : 4096 * n < 4096 * (n + (k + 1)) := by omega
      rcases regionAllocLoop_turn fuel h hn hlast hperm with ⟨hlen, he⟩ | ⟨c₁, l₁, m₁, hone, he⟩
      · exact Or.inl ⟨by omega, he⟩
      · rw [he, show n + (k + 1) = n + 1 + k by omega]
        have hk' : n + 1 + k < 1048576 := by omega
        rcases @ih c₁ m₁ l₁ (n + 1) fuel hone.held hk' (by omega) with
          ⟨hlen, he'⟩ | ⟨c', l', m', hrest, he'⟩
        · have := hone.few
          exact Or.inl ⟨by omega, he'⟩
        · exact Or.inr ⟨c', l', m', hone.cons h hperm hrest, he'⟩

/-- What `region_alloc` comes to. -/
theorem regionAlloc_cases {va len : Nat} (h : Held c m l) (hperm : perm < 4096)
    (hva : va + len ≤ 4294959104) (hn : va / 4096 = n)
    (hk : (va + len + 4095) / 4096 = n + k) :
    (l.length < 2 * k ∧ regionAlloc (p2v c.dir) va len perm m =
      .error (.panic "region_alloc failed!")) ∨
    ∃ c' l' m', Regioned c c' l l' m m' n k perm ∧
      regionAlloc (p2v c.dir) va len perm m = .ok ((), m') := by
  have hlast : pgRoundUp (u32 (va + len)) = 4096 * (n + k) := by
    rw [u32_eq_self (by omega), pgRoundUp, u32_eq_self (by omega)]
    omega
  have hfirst : pgRoundDown va = 4096 * n := by
    unfold pgRoundDown
    omega
  rw [regionAlloc, hlast, hfirst]
  exact regionAllocLoop_cases h (by omega) hperm (by omega)

end Mm

end Chunix
