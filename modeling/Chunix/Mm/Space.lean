import Mathlib.Order.Interval.Finset.Nat
import Chunix.Mm.Pages

/-!
# Address spaces in memory

A directory and its page tables are pages of the physical memory. `Space` names
them, `Space.At` says that the words of the directory are those of these tables,
and `Space.entry` is the word that the two levels give for a page of the address
space. A write into a table changes one entry, and a new table none.
-/

namespace Chunix

namespace Mm

open Machine

/-- The physical address of a page that the kernel can name by a pointer. -/
structure IsFrame (p : Nat) : Prop where
  aligned : p % 4096 = 0
  le : p + 4096 ≤ 4294967296
  ne : p ≠ 2147483648

/-- The byte at `a` is one of the page at `p`. -/
def InPage (p a : Nat) : Prop := p ≤ a ∧ a < p + 4096

/-- The second memory is the first one outside the pages of `P`. -/
def AgreeOff (P : Nat → Prop) (mem mem' : Memory) : Prop :=
  ∀ a, (∀ p, P p → ¬ InPage p a) → mem' a = mem a

theorem IsFrame.eq {p q a : Nat} (hp : IsFrame p) (hq : IsFrame q) (ha : InPage p a)
    (ha' : InPage q a) : p = q := by
  have := hp.aligned
  have := hq.aligned
  unfold InPage at ha ha'
  omega

theorem AgreeOff.trans {P Q R : Nat → Prop} {mem mem₁ mem' : Memory} (h : AgreeOff P mem mem₁)
    (h' : AgreeOff Q mem₁ mem') (hP : ∀ p, P p → R p) (hQ : ∀ p, Q p → R p) :
    AgreeOff R mem mem' :=
  fun a ha => (h' a fun p hp => ha p (hQ p hp)).trans (h a fun p hp => ha p (hP p hp))

/-- What lies on another page stays. -/
theorem AgreeOff.page {P : Nat → Prop} {mem mem' : Memory} {q a : Nat} (h : AgreeOff P mem mem')
    (hP : ∀ p, P p → IsFrame p) (hq : IsFrame q) (hnq : ¬ P q) (ha : InPage q a) :
    mem' a = mem a := by
  refine h a fun p hp hpa => hnq ?_
  rwa [(hP p hp).eq hq hpa ha] at hp

theorem load32_page {mem mem' : Memory} {p i : Nat} (hp : IsFrame p) (hi : i < 1024)
    (h : ∀ a, InPage p a → mem' a = mem a) : load32 mem' (p + 4 * i) = load32 mem (p + 4 * i) := by
  have := hp.le
  exact load32_congr_range (by omega) fun x hx hx' => h x ⟨by omega, by omega⟩

/-- The pages of an address space: the directory, and the page tables by their
indices in the directory. -/
structure Space where
  dir : Nat
  tab : Nat → Option Nat

namespace Space

/-- The page is the directory or a page table. -/
def Has (s : Space) (p : Nat) : Prop := p = s.dir ∨ ∃ i, s.tab i = some p

/-- The memory holds the directory of the address space. -/
structure At (s : Space) (mem : Memory) : Prop where
  dir : IsFrame s.dir
  tab : ∀ i t, s.tab i = some t → i < 1024 ∧ IsFrame t ∧ t ≠ s.dir
  inj : ∀ i j t, s.tab i = some t → s.tab j = some t → i = j
  pde : ∀ i t, s.tab i = some t →
    present (load32 mem (s.dir + 4 * i)) ∧ pteAddr (load32 mem (s.dir + 4 * i)) = t
  absent : ∀ i, i < 1024 → s.tab i = none → ¬ present (load32 mem (s.dir + 4 * i))

/-- The entry for the page number `n`, zero where there is no table. -/
def entry (s : Space) (mem : Memory) (n : Nat) : Nat :=
  match s.tab (n / 1024) with
  | some t => load32 mem (t + 4 * (n % 1024))
  | none => 0

/-- The address space with another table. -/
def grow (s : Space) (i t : Nat) : Space := { s with tab := Function.update s.tab i (some t) }

/-- The number of tables that are missing for the indices from `a` up to `b`. -/
def missing (s : Space) (a b : Nat) : Nat :=
  ((Finset.Ico a b).filter fun i => s.tab i = none).card

theorem missing_le (s : Space) (a b : Nat) : s.missing a b ≤ b - a :=
  (Finset.card_filter_le _ _).trans (by simp)

theorem missing_grow {s : Space} {i t a b : Nat} (hn : s.tab i = none) (ha : a ≤ i) (hb : i < b) :
    (s.grow i t).missing a b + 1 = s.missing a b := by
  have herase : ((Finset.Ico a b).filter fun j => (s.grow i t).tab j = none) =
      ((Finset.Ico a b).filter fun j => s.tab j = none).erase i := by
    ext j
    rw [Finset.mem_filter, Finset.mem_erase, Finset.mem_filter]
    by_cases hj : j = i
    · subst hj
      simp [grow]
    · simp [grow, hj]
  have hmem : i ∈ (Finset.Ico a b).filter fun j => s.tab j = none := by
    simp [ha, hb, hn]
  rw [missing, herase, missing, Finset.card_erase_add_one hmem]

theorem missing_pos {s : Space} {i a b : Nat} (hn : s.tab i = none) (ha : a ≤ i) (hb : i < b) :
    0 < s.missing a b := by
  rw [← missing_grow (t := 0) hn ha hb]
  exact Nat.succ_pos _

theorem missing_mono {s : Space} {a a' b b' : Nat}
    (h : ∀ i, a ≤ i → i < b → s.tab i = none → a' ≤ i ∧ i < b') :
    s.missing a b ≤ s.missing a' b' := by
  refine Finset.card_le_card fun i hi => ?_
  obtain ⟨hi, hn⟩ := Finset.mem_filter.1 hi
  obtain ⟨ha, hb⟩ := Finset.mem_Ico.1 hi
  exact Finset.mem_filter.2 ⟨Finset.mem_Ico.2 (h i ha hb hn), hn⟩

theorem missing_add (s : Space) {a b c : Nat} (hab : a ≤ b) (hbc : b ≤ c) :
    s.missing a c = s.missing a b + s.missing b c := by
  rw [missing, ← Finset.Ico_union_Ico_eq_Ico hab hbc, Finset.filter_union,
    Finset.card_union_of_disjoint
      (Finset.disjoint_filter_filter (Finset.Ico_disjoint_Ico_consecutive a b c))]
  rfl

theorem missing_single (s : Space) (i : Nat) :
    s.missing i (i + 1) = if s.tab i = none then 1 else 0 := by
  rw [missing, Nat.Ico_succ_singleton, Finset.filter_singleton]
  split_ifs <;> rfl

variable {s : Space} {mem mem' : Memory}

theorem entry_of_some {n t : Nat} (h : s.tab (n / 1024) = some t) :
    s.entry mem n = load32 mem (t + 4 * (n % 1024)) := by
  rw [entry, h]

theorem entry_of_none {n : Nat} (h : s.tab (n / 1024) = none) : s.entry mem n = 0 := by
  rw [entry, h]

theorem At.isFrame {p : Nat} (h : s.At mem) (hp : s.Has p) : IsFrame p := by
  rcases hp with rfl | ⟨i, hi⟩
  · exact h.dir
  · exact (h.tab i p hi).2.1

/-- The directory is all that counts. -/
theorem At.congr (h : s.At mem) (hmem : ∀ a, InPage s.dir a → mem' a = mem a) : s.At mem' where
  dir := h.dir
  tab := h.tab
  inj := h.inj
  pde := by
    intro i t hi
    rw [load32_page h.dir (h.tab i t hi).1 hmem]
    exact h.pde i t hi
  absent := by
    intro i hi hn
    rw [load32_page h.dir hi hmem]
    exact h.absent i hi hn

/-- The tables are all that counts for the entries. -/
theorem At.entry_congr (h : s.At mem)
    (hmem : ∀ i t, s.tab i = some t → ∀ a, InPage t a → mem' a = mem a) (n : Nat) :
    s.entry mem' n = s.entry mem n := by
  cases ht : s.tab (n / 1024) with
  | none => rw [entry_of_none ht, entry_of_none ht]
  | some t =>
      rw [entry_of_some ht, entry_of_some ht]
      exact load32_page (h.tab _ t ht).2.1 (Nat.mod_lt _ (by decide)) (hmem _ t ht)

/-- A change outside its pages leaves an address space as it is. -/
theorem At.agree {P : Nat → Prop} (h : s.At mem) (hagree : AgreeOff P mem mem')
    (hP : ∀ p, P p → IsFrame p) (hoff : ∀ p, P p → ¬ s.Has p) :
    s.At mem' ∧ ∀ n, s.entry mem' n = s.entry mem n := by
  have hpage : ∀ q, s.Has q → ∀ a, InPage q a → mem' a = mem a :=
    fun q hq a ha => hagree.page hP (h.isFrame hq) (fun hPq => hoff q hPq hq) ha
  exact ⟨h.congr (hpage s.dir (Or.inl rfl)),
    h.entry_congr fun i t ht => hpage t (Or.inr ⟨i, ht⟩)⟩

/-- The write of an entry. -/
theorem At.store {n t w : Nat} (h : s.At mem) (ht : s.tab (n / 1024) = some t) :
    s.At (store32 mem (t + 4 * (n % 1024)) w) ∧
      ∀ k, s.entry (store32 mem (t + 4 * (n % 1024)) w) k =
        if k = n then u32 w else s.entry mem k := by
  obtain ⟨-, hframe, hne⟩ := h.tab _ t ht
  have hmod : n % 1024 < 1024 := Nat.mod_lt _ (by decide)
  have hle : t + 4096 ≤ 4294967296 := hframe.le
  have hother : ∀ q, IsFrame q → q ≠ t → ∀ a, InPage q a →
      store32 mem (t + 4 * (n % 1024)) w a = mem a := by
    intro q hq hqt a ha
    refine store32_apply_of_lt_or_ge (by omega) ?_
    by_contra hin
    exact hqt (hq.eq hframe ha ⟨by omega, by omega⟩)
  refine ⟨h.congr (hother s.dir h.dir hne.symm), fun k => ?_⟩
  by_cases hk : k = n
  · subst hk
    rw [if_pos rfl, entry_of_some ht, load32_store32_self]
  rw [if_neg hk]
  cases ht' : s.tab (k / 1024) with
  | none => rw [entry_of_none ht', entry_of_none ht']
  | some t' =>
      rw [entry_of_some ht', entry_of_some ht']
      have hmod' : k % 1024 < 1024 := Nat.mod_lt _ (by decide)
      by_cases htt : t' = t
      · subst htt
        -- the same table, at another place
        have hdiv := h.inj _ _ t' ht' ht
        exact load32_store32_of_disjoint (by omega) (by omega) (by omega)
      · have hf' := (h.tab _ t' ht').2.1
        exact load32_page hf' hmod' (hother t' hf' htt)

/-- A cleared page that is entered into the directory becomes a table, in which no
entry is present. -/
theorem At.grow {i t w : Nat} (h : s.At mem) (hi : i < 1024) (hn : s.tab i = none)
    (ht : IsFrame t) (hoff : ¬ s.Has t) (hw : present w ∧ pteAddr w = t) (hlt : w < 4294967296) :
    (s.grow i t).At (store32 (fill mem t 4096 0) (s.dir + 4 * i) w) ∧
      ∀ k, (s.grow i t).entry (store32 (fill mem t 4096 0) (s.dir + 4 * i) w) k =
        s.entry mem k := by
  have hd : s.dir + 4096 ≤ 4294967296 := h.dir.le
  have htd : t ≠ s.dir := fun he => hoff (Or.inl he)
  -- the directory keeps its other words
  have hword : ∀ j, j < 1024 → j ≠ i →
      load32 (store32 (fill mem t 4096 0) (s.dir + 4 * i) w) (s.dir + 4 * j) =
        load32 mem (s.dir + 4 * j) := by
    intro j hj hji
    rw [load32_store32_of_disjoint (by omega) (by omega) (by omega)]
    refine load32_page h.dir hj fun a ha => fill_apply_of_notMem ?_
    by_contra hin
    exact htd (ht.eq h.dir ⟨by omega, by omega⟩ ha)
  have hself : load32 (store32 (fill mem t 4096 0) (s.dir + 4 * i) w) (s.dir + 4 * i) = w := by
    rw [load32_store32_self, u32_eq_self hlt]
  -- a table is not written into, but for the new one
  have htable : ∀ q, IsFrame q → q ≠ s.dir → ∀ a, InPage q a →
      store32 (fill mem t 4096 0) (s.dir + 4 * i) w a = fill mem t 4096 0 a := by
    intro q hq hqd a ha
    refine store32_apply_of_lt_or_ge (by omega) ?_
    by_contra hin
    exact hqd (hq.eq h.dir ha ⟨by omega, by omega⟩)
  refine ⟨⟨h.dir, ?_, ?_, ?_, ?_⟩, fun k => ?_⟩
  · intro j u hj
    by_cases hji : j = i
    · subst hji
      simp only [Space.grow, Function.update_self, Option.some.injEq] at hj
      subst hj
      exact ⟨hi, ht, htd⟩
    · simp only [Space.grow, Function.update_of_ne hji] at hj
      exact h.tab j u hj
  · intro j k u hj hk
    simp only [Space.grow, Function.update_apply] at hj hk
    split_ifs at hj hk with h₁ h₂ h₂
    · exact h₁.trans h₂.symm
    · cases hj
      exact absurd (Or.inr ⟨k, hk⟩) hoff
    · cases hk
      exact absurd (Or.inr ⟨j, hj⟩) hoff
    · exact h.inj j k u hj hk
  · intro j u hj
    simp only [Space.grow]
    by_cases hji : j = i
    · subst hji
      simp only [Space.grow, Function.update_self, Option.some.injEq] at hj
      subst hj
      rw [hself]
      exact hw
    · simp only [Space.grow, Function.update_of_ne hji] at hj
      rw [hword j (h.tab j u hj).1 hji]
      exact h.pde j u hj
  · intro j hj hjn
    simp only [Space.grow] at hjn ⊢
    by_cases hji : j = i
    · subst hji
      simp at hjn
    · rw [Function.update_of_ne hji] at hjn
      rw [hword j hj hji]
      exact h.absent j hj hjn
  · by_cases hki : k / 1024 = i
    · have hnew : (s.grow i t).tab (k / 1024) = some t := by simp [Space.grow, hki]
      rw [entry_of_some hnew, entry_of_none (hki ▸ hn)]
      have hmod : k % 1024 < 1024 := Nat.mod_lt _ (by decide)
      have hzero : load32 (store32 (fill mem t 4096 0) (s.dir + 4 * i) w) (t + 4 * (k % 1024)) =
          load32 (fun _ => 0) (t + 4 * (k % 1024)) := by
        refine load32_page ht hmod fun a ha => ?_
        rw [htable t ht htd a ha, fill_apply_of_mem ha]
      rw [hzero]
      rfl
    · have hold : (s.grow i t).tab (k / 1024) = s.tab (k / 1024) := by
        simp [Space.grow, Function.update_of_ne hki]
      cases hk : s.tab (k / 1024) with
      | none => rw [entry_of_none (hold.trans hk), entry_of_none hk]
      | some u =>
          rw [entry_of_some (hold.trans hk), entry_of_some hk]
          obtain ⟨-, hu, hud⟩ := h.tab _ u hk
          refine load32_page hu (Nat.mod_lt _ (by decide)) fun a ha => ?_
          rw [htable u hu hud a ha]
          refine fill_apply_of_notMem ?_
          by_contra hin
          have := ht.eq hu ⟨by omega, by omega⟩ ha
          exact hoff (Or.inr ⟨_, this ▸ hk⟩)

/-- The translation of an address in terms of its entry. -/
theorem At.walk_eq {va : Nat} (h : s.At mem) (hva : va < 4294967296) :
    walk mem s.dir va = if present (s.entry mem (va / 4096)) then
      some (pteAddr (s.entry mem (va / 4096)) + va % 4096) else none := by
  have hdx : pdx va = va / 4096 / 1024 := by unfold pdx; omega
  have htx : ptx va = va / 4096 % 1024 := rfl
  have hlt : va / 4096 / 1024 < 1024 := by omega
  unfold walk
  rw [hdx, htx]
  cases ht : s.tab (va / 4096 / 1024) with
  | none =>
      rw [if_neg (h.absent _ hlt ht), entry_of_none ht, if_neg]
      decide
  | some t =>
      obtain ⟨hp, haddr⟩ := h.pde _ t ht
      rw [if_pos hp, haddr, entry_of_some ht]

end Space

end Mm

end Chunix
