import Chunix.Linked.Chain
import Chunix.Machine.Run
import Chunix.Mm.Basic
import Mathlib.Algebra.Group.Nat.Defs
import Mathlib.Data.Set.Insert

/-!
# The page allocator

The free pages are linked through their own first words, from `free_list` on.
`mem_init1` and `mem_init2` put the whole pages of the memory on the list, in two
ranges that meet at the line of four megabytes; later, pages are taken and given
back one by one, and whoever holds a page writes into it what they like. The list
and the held pages together are always the whole pages of the memory.
-/

namespace Chunix

namespace Mm

open Machine Linked

/-- The loop of `kfree_range` from `p` on. The addresses are those of 32 bits, so a
loop that has freed `2 ^ 20` pages never ends. -/
def kfreeRangeLoop (vaend : Nat) : Nat → Nat → Act Mm Unit
  | 0, _ => Act.halt .hang
  | n + 1, p => do
      if u32 (p + 4096) ≤ vaend then
        kfreePage p
        kfreeRangeLoop vaend n (u32 (p + 4096))

/-- `kfree_range`: the whole pages between the two addresses are freed. -/
def kfreeRange (start vaend : Nat) : Act Mm Unit :=
  kfreeRangeLoop vaend 1048577 (pgRoundUp start)

/-- `kinit`. -/
def kinit (vastart vaend : Nat) : Act Mm Unit := kfreeRange vastart vaend

/-- `mem_init1`: the memory starts at `start` and has `size` kilobytes, or as many as
`detect_mem` says when `size` is zero. The pages below four megabytes are freed. -/
def memInit1 (start size detectMem : Nat) : Act Mm Unit := do
  Act.modify fun m => { m with memStart := start }
  Act.modify fun m => { m with memsz := if size ≠ 0 then size else u32 (detectMem + 1024) }
  kinit start (p2v (4 * 1024 * 1024))

/-- `mem_init2`: the pages from four megabytes on are freed. -/
def memInit2 : Act Mm Unit := do
  let memsz ← Act.gets fun m => m.memsz
  kinit (p2v (4 * 1024 * 1024)) (p2v (u32 (memsz * 1024)))

/-- The page a pointer of the free list names, if it is not null. -/
def ptr (w : Nat) : Option Nat := if w = 0 then none else some w

/-- The link in a free page. -/
def link (mem : Memory) (p : Nat) : Option Nat := ptr (load32 mem (v2p p))

/-- The free list goes through the pages of `l`. -/
def FreeList (m : Mm) (l : List Nat) : Prop := IsChain (link m.mem) (ptr m.freeList) l

/-- The address of a page that a pointer can name. -/
def IsPage (p : Nat) : Prop := p % 4096 = 0 ∧ p ≠ 0 ∧ p < 4294967296

/-- The whole pages of an interval. -/
def Whole (lo hi p : Nat) : Prop := p % 4096 = 0 ∧ lo ≤ p ∧ p + 4096 ≤ hi

theorem ptr_eq_some {w p : Nat} : ptr w = some p ↔ w = p ∧ p ≠ 0 := by
  unfold ptr
  split_ifs with h
  · simp only [false_iff]
    rintro ⟨rfl, hp⟩
    exact hp h
  · simp only [Option.some.injEq]
    constructor
    · rintro rfl
      exact ⟨rfl, h⟩
    · exact fun hp => hp.1

theorem ptr_eq_none {w : Nat} : ptr w = none ↔ w = 0 := by
  unfold ptr
  split_ifs with h <;> simp [h]

/-- Two pages of the address space do not overlap in the physical memory. -/
theorem v2p_disjoint {p q : Nat} (hp : IsPage p) (hq : IsPage q) (hne : p ≠ q) :
    v2p p + 4096 ≤ v2p q ∨ v2p q + 4096 ≤ v2p p := by
  obtain ⟨hpa, -, hpl⟩ := hp
  obtain ⟨hqa, -, hql⟩ := hq
  unfold v2p u32
  omega

theorem v2p_add_le {p : Nat} (hp : IsPage p) : v2p p + 4096 ≤ 4294967296 := by
  obtain ⟨hpa, -, hpl⟩ := hp
  unfold v2p u32
  omega

/-- The memory after `kfree_page`. -/
def freed (m : Mm) (v : Nat) : Mm :=
  { m with mem := store32 (fill m.mem (v2p v) 4096 1) (v2p v) m.freeList, freeList := v }

theorem kfreePage_eq_ok {v : Nat} {m m' : Mm} {u : Unit} :
    kfreePage v m = .ok (u, m') ↔
      (v % 4096 = 0 ∧ m.memStart ≤ v ∧ v ≤ v2p (u32 (m.memsz * 1024))) ∧ freed m v = m' := by
  simp only [kfreePage, kmemset, kstore, Act.bind_eq_ok, Act.get_eq_ok, Act.modify_eq_ok,
    Act.ite_eq_ok, Act.halt_eq_ok]
  constructor
  · rintro ⟨_, _, ⟨rfl, rfl⟩, h⟩
    rcases h with ⟨-, _, _, hf, -⟩ | ⟨hc, _, _, rfl, _, _, rfl, rfl⟩
    · exact hf.elim
    · exact ⟨by omega, by simp only [freed]⟩
  · rintro ⟨hc, rfl⟩
    refine ⟨m, m, ⟨rfl, rfl⟩, Or.inr ⟨by omega, (), _, rfl, (), _, rfl, ?_⟩⟩
    simp only [freed]

theorem kallocPage_eq_ok {r : Nat} {m m' : Mm} :
    kallocPage m = .ok (r, m') ↔ m.freeList = r ∧
      (if r ≠ 0 then { m with freeList := load32 m.mem (v2p r) } else m) = m' := by
  simp only [kallocPage, kload, Act.bind_eq_ok, Act.gets_eq_ok, Act.ite_eq_ok, Act.modify_eq_ok,
    Act.pure_eq_ok]
  constructor
  · rintro ⟨_, _, ⟨rfl, rfl⟩, h⟩
    rcases h with ⟨hne, _, _, ⟨rfl, rfl⟩, _, _, rfl, hr, rfl⟩ | ⟨he, rfl, rfl⟩
    · subst hr
      exact ⟨rfl, by rw [if_pos hne]⟩
    · exact ⟨rfl, by rw [if_neg he]⟩
  · rintro ⟨rfl, h⟩
    refine ⟨_, _, ⟨rfl, rfl⟩, ?_⟩
    split_ifs at h with hne
    · exact Or.inl ⟨hne, _, _, ⟨rfl, rfl⟩, (), _, rfl, rfl, h⟩
    · exact Or.inr ⟨hne, rfl, h⟩

/-- The free list reads only the first words of its own pages. -/
theorem FreeList.congr {m m' : Mm} {l : List Nat} (h : FreeList m l)
    (hl : m'.freeList = m.freeList) (hp : ∀ p ∈ l, IsPage p)
    (hmem : ∀ p ∈ l, ∀ a, v2p p ≤ a → a < v2p p + 4 → m'.mem a = m.mem a) : FreeList m' l := by
  rw [FreeList, hl]
  refine IsChain.congr h fun p hpl => ?_
  have hlt := v2p_add_le (hp p hpl)
  rw [link, link, load32_congr_range (by omega) (hmem p hpl)]

theorem FreeList.freeList_lt {m : Mm} {l : List Nat} (h : FreeList m l)
    (hp : ∀ p ∈ l, IsPage p) : m.freeList < 4294967296 := by
  cases l with
  | nil =>
      rw [ptr_eq_none.1 (isChain_nil.1 h)]
      decide
  | cons p l =>
      rw [(ptr_eq_some.1 h.1).1]
      exact (hp p List.mem_cons_self).2.2

/-- A page that is not on the list becomes its first page. -/
theorem FreeList.push {m : Mm} {l : List Nat} {v : Nat} (h : FreeList m l)
    (hp : ∀ p ∈ l, IsPage p) (hv : IsPage v) (hvl : v ∉ l) : FreeList (freed m v) (v :: l) := by
  have hlt := v2p_add_le hv
  refine ⟨ptr_eq_some.2 ⟨rfl, hv.2.1⟩, ?_⟩
  have hlink : link (freed m v).mem v = ptr m.freeList := by
    simp only [link, freed, load32_store32_self]
    rw [u32_eq_self (h.freeList_lt hp)]
  have hchain : IsChain (link m.mem) (ptr m.freeList) l := h
  rw [hlink]
  refine hchain.congr fun p hpl => ?_
  have hdis := v2p_disjoint hv (hp p hpl) fun he => hvl (he ▸ hpl)
  have hlt' := v2p_add_le (hp p hpl)
  simp only [link, freed]
  refine congrArg ptr (load32_congr_range (by omega) fun x hx hx' => ?_)
  rw [store32_apply_of_lt_or_ge (by omega) (by omega), fill_apply_of_notMem (by omega)]

/-- `kalloc_page` takes the first page off the list. -/
theorem FreeList.pop {m m' : Mm} {p r : Nat} {l : List Nat} (h : FreeList m (p :: l))
    (hr : kallocPage m = .ok (r, m')) :
    r = p ∧ m' = { m with freeList := load32 m.mem (v2p p) } ∧ FreeList m' l := by
  obtain ⟨rfl, hm⟩ := kallocPage_eq_ok.1 hr
  obtain ⟨hhead, hl⟩ := h
  obtain ⟨hp, hne⟩ := ptr_eq_some.1 hhead
  rw [hp, if_pos hne] at hm
  subst hm
  exact ⟨hp, rfl, hl⟩

theorem FreeList.empty {m m' : Mm} {r : Nat} (h : FreeList m [])
    (hr : kallocPage m = .ok (r, m')) : r = 0 ∧ m' = m := by
  obtain ⟨rfl, hm⟩ := kallocPage_eq_ok.1 hr
  have h₀ := ptr_eq_none.1 (isChain_nil.1 h)
  rw [if_neg (by simp [h₀])] at hm
  exact ⟨h₀, hm.symm⟩

/-- What freeing pages leaves as it is: the bounds, and every byte outside the pages
of `P`. -/
structure Freeing (P : Nat → Prop) (m m' : Mm) : Prop where
  memStart : m'.memStart = m.memStart
  memsz : m'.memsz = m.memsz
  cr3 : m'.cr3 = m.cr3
  data : m'.data = m.data
  mem : ∀ a, (∀ p, P p → a < v2p p ∨ v2p p + 4096 ≤ a) → m'.mem a = m.mem a

theorem Freeing.freed {m : Mm} {v : Nat} (hv : IsPage v) : Freeing (fun p => p = v) m (freed m v) := by
  refine ⟨rfl, rfl, rfl, rfl, fun a ha => ?_⟩
  have hlt := v2p_add_le hv
  have hav := ha v rfl
  simp only [Mm.freed]
  rw [store32_apply_of_lt_or_ge (by omega) (by omega), fill_apply_of_notMem hav]

theorem Freeing.trans {P Q R : Nat → Prop} {m m₁ m' : Mm} (h : Freeing P m m₁)
    (h' : Freeing Q m₁ m') (hP : ∀ p, P p → R p) (hQ : ∀ p, Q p → R p) : Freeing R m m' :=
  ⟨h'.memStart.trans h.memStart, h'.memsz.trans h.memsz, h'.cr3.trans h.cr3,
    h'.data.trans h.data, fun a ha =>
      (h'.mem a fun p hp => ha p (hQ p hp)).trans (h.mem a fun p hp => ha p (hP p hp))⟩

/-- The loop of `kfree_range` puts the whole pages of its range on the list. -/
theorem kfreeRangeLoop_spec {vaend n p : Nat} {m : Mm} {l : List Nat} (h : FreeList m l)
    (hpage : ∀ q ∈ l, IsPage q) (hl : ∀ q ∈ l, ¬ Whole p vaend q) (hp : p % 4096 = 0)
    (hp₀ : p ≠ 0) (hplt : p + 4096 < 4294967296) (hend : vaend < 4294963200)
    (hstart : m.memStart ≤ p) (hle : p ≤ vaend + 4096)
    (hbound : vaend ≤ v2p (u32 (m.memsz * 1024))) (hn : vaend + 4096 < p + 4096 * n) :
    ∃ m' l', kfreeRangeLoop vaend n p m = .ok ((), m') ∧ FreeList m' l' ∧
      (∀ q, q ∈ l' ↔ q ∈ l ∨ Whole p vaend q) ∧ Freeing (Whole p vaend) m m' := by
  induction n generalizing p m l with
  | zero => omega
  | succ n ih =>
      have hu : u32 (p + 4096) = p + 4096 := u32_eq_self (by omega)
      by_cases hlast : p + 4096 ≤ vaend
      · have hpp : IsPage p := ⟨hp, hp₀, by omega⟩
        have hpl : p ∉ l := fun hm => hl p hm ⟨hp, le_rfl, hlast⟩
        have hfree : kfreePage p m = .ok ((), freed m p) :=
          kfreePage_eq_ok.2 ⟨⟨hp, hstart, by omega⟩, rfl⟩
        have hfr := Freeing.freed (m := m) hpp
        obtain ⟨m', l', hloop, hfl, hmem, hfr'⟩ := ih (p := p + 4096) (h.push hpage hpp hpl)
          (by
            intro q hq
            rcases List.mem_cons.1 hq with rfl | hq
            · exact hpp
            · exact hpage q hq)
          (by
            rintro q hq ⟨hqa, hqp, hqe⟩
            rcases List.mem_cons.1 hq with rfl | hq
            · omega
            · exact hl q hq ⟨hqa, by omega, hqe⟩)
          (by omega) (by omega) (by omega) (by rw [hfr.memStart]; omega) (by omega)
          (by rw [hfr.memsz]; exact hbound) (by omega)
        refine ⟨m', l', ?_, hfl, ?_, hfr.trans hfr' ?_ ?_⟩
        · rw [kfreeRangeLoop, hu, if_pos hlast, Act.bind_of_ok hfree]
          exact hloop
        · intro q
          rw [hmem q, List.mem_cons]
          unfold Whole
          constructor
          · rintro ((rfl | hq) | hq)
            · exact Or.inr ⟨hp, le_rfl, hlast⟩
            · exact Or.inl hq
            · exact Or.inr ⟨hq.1, by omega, hq.2.2⟩
          · rintro (hq | hq)
            · exact Or.inl (Or.inr hq)
            · by_cases hqp : q = p
              · exact Or.inl (Or.inl hqp)
              · exact Or.inr ⟨hq.1, by omega, hq.2.2⟩
        · rintro q rfl
          exact ⟨hp, le_rfl, hlast⟩
        · rintro q ⟨hqa, hqp, hqe⟩
          exact ⟨hqa, by omega, hqe⟩
      · refine ⟨m, l, ?_, h, ?_, rfl, rfl, rfl, rfl, fun _ _ => rfl⟩
        · rw [kfreeRangeLoop, hu, if_neg hlast]
          rfl
        · intro q
          refine ⟨Or.inl, fun hq => hq.resolve_right ?_⟩
          rintro ⟨-, hqp, hqe⟩
          omega

/-- `kfree_range` puts the whole pages of the interval on the list. -/
theorem kfreeRange_spec {start vaend : Nat} {m : Mm} {l : List Nat} (h : FreeList m l)
    (hpage : ∀ q ∈ l, IsPage q) (hl : ∀ q ∈ l, ¬ Whole start vaend q) (hstart : 0 < start)
    (hslt : start + 8192 ≤ 4294967296) (hle : start ≤ vaend) (hend : vaend < 4294963200)
    (hmem : m.memStart ≤ start)
    (hbound : vaend ≤ v2p (u32 (m.memsz * 1024))) :
    ∃ m' l', kfreeRange start vaend m = .ok ((), m') ∧ FreeList m' l' ∧
      (∀ q, q ∈ l' ↔ q ∈ l ∨ Whole start vaend q) ∧ Freeing (Whole start vaend) m m' := by
  have hround : pgRoundUp start = (start + 4095) / 4096 * 4096 := by
    rw [pgRoundUp, u32_eq_self (by omega)]
  have hwhole : ∀ q, Whole (pgRoundUp start) vaend q ↔ Whole start vaend q := by
    intro q
    unfold Whole
    rw [hround]
    omega
  obtain ⟨m', l', hloop, hfl, hq, hfr⟩ := kfreeRangeLoop_spec (n := 1048577) h hpage
    (fun q hq hw => hl q hq ((hwhole q).1 hw)) (by rw [hround]; omega) (by rw [hround]; omega)
    (by rw [hround]; omega) hend (by rw [hround]; omega) (by rw [hround]; omega) hbound (by omega)
  refine ⟨m', l', hloop, hfl, ?_, hfr.memStart, hfr.memsz, hfr.cr3, hfr.data, ?_⟩
  · intro q
    rw [hq q, hwhole q]
  · exact fun a ha => hfr.mem a fun p hp => ha p ((hwhole p).1 hp)

/-- The memory manager with the pages that are held by its callers. -/
structure Pages where
  m : Mm
  held : Set Nat

/-- What happens to pages. -/
inductive PageEv
  | alloc (p : Nat)
  | free (p : Nat)
  | write

/-- The steps: an allocation, which fails with the null pointer, the freeing of a
held page, and writes into held pages. -/
inductive PageStep : Pages → PageEv → Pages → Prop
  | alloc {s : Pages} {p m'} (h : kallocPage s.m = .ok (p, m')) :
      PageStep s (.alloc p) ⟨m', if p = 0 then s.held else insert p s.held⟩
  | free {s : Pages} {p m'} (hp : p ∈ s.held) (h : kfreePage p s.m = .ok ((), m')) :
      PageStep s (.free p) ⟨m', s.held \ {p}⟩
  | write {s : Pages} {mem : Memory}
      (h : ∀ a, (∀ p ∈ s.held, a < v2p p ∨ v2p p + 4096 ≤ a) → mem a = s.m.mem a) :
      PageStep s .write { s with m := { s.m with mem := mem } }

/-- The free list ends, holds no page twice and no held page, and the free and the
held pages together are the whole pages of the interval. -/
def Conserved (lo hi : Nat) (s : Pages) : Prop :=
  ∃ l, FreeList s.m l ∧ l.Nodup ∧ (∀ p ∈ l, p ∉ s.held) ∧
    ∀ p, Whole lo hi p ↔ p ∈ l ∨ p ∈ s.held

/-- The bounds of the allocator: pages of the interval are pages that `kfree_page`
takes. -/
structure Bounds (lo hi : Nat) (m : Mm) : Prop where
  pos : 0 < lo
  lt : hi < 4294963200
  memStart : m.memStart ≤ lo
  bound : hi ≤ v2p (u32 (m.memsz * 1024))

theorem Bounds.isPage {lo hi p : Nat} {m : Mm} (h : Bounds lo hi m) (hp : Whole lo hi p) :
    IsPage p := by
  have := h.pos
  have := h.lt
  exact ⟨hp.1, by have := hp.2.1; omega, by have := hp.2.2; omega⟩

/-- An allocation takes a free page, and fails exactly when there is none. -/
theorem Conserved.alloc {lo hi p : Nat} {s : Pages} {m' : Mm} (h : Conserved lo hi s)
    (hb : Bounds lo hi s.m) (ha : kallocPage s.m = .ok (p, m')) :
    Conserved lo hi ⟨m', if p = 0 then s.held else insert p s.held⟩ ∧ Bounds lo hi m' ∧
      p ∉ s.held ∧ (p = 0 ↔ ∀ q, Whole lo hi q → q ∈ s.held) ∧ (p ≠ 0 → Whole lo hi p) := by
  obtain ⟨l, hl, hnd, hfree, hall⟩ := h
  have hheld₀ : 0 ∉ s.held := fun h₀ => (hb.isPage ((hall 0).2 (Or.inr h₀))).2.1 rfl
  cases l with
  | nil =>
      obtain ⟨rfl, rfl⟩ := hl.empty ha
      refine ⟨?_, hb, hheld₀, ?_, fun hne => absurd rfl hne⟩
      · rw [if_pos rfl]
        exact ⟨[], hl, hnd, hfree, hall⟩
      · simp only [true_iff]
        intro q hq
        simpa using (hall q).1 hq
  | cons q l =>
      obtain ⟨rfl, hm, hl'⟩ := hl.pop ha
      have hw := (hall p).2 (Or.inl List.mem_cons_self)
      have hp₀ := (hb.isPage hw).2.1
      have hp := hfree p List.mem_cons_self
      obtain ⟨hpl, hnd'⟩ := List.nodup_cons.1 hnd
      refine ⟨?_, ?_, hp, ?_, fun _ => hw⟩
      · rw [if_neg hp₀]
        refine ⟨l, hl', hnd', ?_, ?_⟩
        · intro q hq
          rw [Set.mem_insert_iff, not_or]
          exact ⟨fun he => hpl (he ▸ hq), hfree q (List.mem_cons_of_mem p hq)⟩
        · intro q
          rw [hall q, List.mem_cons, Set.mem_insert_iff]
          tauto
      · rw [hm]
        exact ⟨hb.pos, hb.lt, hb.memStart, hb.bound⟩
      · exact iff_of_false hp₀ fun hq => hp (hq p hw)

/-- A held page can be freed. -/
theorem Conserved.free {lo hi p : Nat} {s : Pages} (h : Conserved lo hi s)
    (hb : Bounds lo hi s.m) (hp : p ∈ s.held) :
    kfreePage p s.m = .ok ((), freed s.m p) ∧ Bounds lo hi (freed s.m p) ∧
      Conserved lo hi ⟨freed s.m p, s.held \ {p}⟩ := by
  obtain ⟨l, hl, hnd, hfree, hall⟩ := h
  have hw := (hall p).2 (Or.inr hp)
  have hpp := hb.isPage hw
  have hpl : p ∉ l := fun hm => hfree p hm hp
  have hpage : ∀ q ∈ l, IsPage q := fun q hq => hb.isPage ((hall q).2 (Or.inl hq))
  have hfr := Freeing.freed (m := s.m) hpp
  refine ⟨kfreePage_eq_ok.2 ⟨⟨hw.1, ?_, ?_⟩, rfl⟩, ⟨hb.pos, hb.lt, ?_, ?_⟩, p :: l,
    hl.push hpage hpp hpl, List.nodup_cons.2 ⟨hpl, hnd⟩, ?_, ?_⟩
  · have := hb.memStart
    have := hw.2.1
    omega
  · have := hb.bound
    have := hw.2.2
    omega
  · rw [hfr.memStart]
    exact hb.memStart
  · rw [hfr.memsz]
    exact hb.bound
  · intro q hq
    simp only [Set.mem_sdiff, Set.mem_singleton_iff, not_and, not_not]
    intro hqh
    rcases List.mem_cons.1 hq with rfl | hq
    · rfl
    · exact absurd hqh (hfree q hq)
  · intro q
    rw [hall q, List.mem_cons, Set.mem_sdiff, Set.mem_singleton_iff]
    by_cases hqp : q = p
    · subst hqp
      simp [hp]
    · simp [hqp]

theorem conserved_step {lo hi : Nat} {s s' : Pages} {e : PageEv}
    (h : Conserved lo hi s ∧ Bounds lo hi s.m) (hs : PageStep s e s') :
    Conserved lo hi s' ∧ Bounds lo hi s'.m := by
  obtain ⟨hc, hb⟩ := h
  cases hs with
  | alloc ha =>
      obtain ⟨hc', hb', -⟩ := hc.alloc hb ha
      exact ⟨hc', hb'⟩
  | free hp hf =>
      obtain ⟨hok, hb', hc'⟩ := hc.free hb hp
      cases hok.symm.trans hf
      exact ⟨hc', hb'⟩
  | @write mem hw =>
      refine ⟨?_, ⟨hb.pos, hb.lt, hb.memStart, hb.bound⟩⟩
      obtain ⟨l, hl, hnd, hfree, hall⟩ := hc
      have hpage : ∀ q ∈ l, IsPage q := fun q hq => hb.isPage ((hall q).2 (Or.inl hq))
      refine ⟨l, hl.congr rfl hpage fun p hp a ha ha' => ?_, hnd, hfree, hall⟩
      -- A held page does not overlap a free one.
      refine hw a fun q hq => ?_
      have hqp := hb.isPage ((hall q).2 (Or.inr hq))
      have hdis := v2p_disjoint (hpage p hp) hqp fun he => hfree p hp (he ▸ hq)
      omega

theorem conserved_run {lo hi : Nat} {s s' : Pages} {es : List PageEv}
    (h : Conserved lo hi s ∧ Bounds lo hi s.m) (hr : Run PageStep s es s') :
    Conserved lo hi s' ∧ Bounds lo hi s'.m :=
  hr.invariant (I := fun s => Conserved lo hi s ∧ Bounds lo hi s.m)
    (fun _ _ _ _ h hs => conserved_step h hs) h

theorem PageStep.bounds {s s' : Pages} {e : PageEv} (h : PageStep s e s') :
    s'.m.memStart = s.m.memStart ∧ s'.m.memsz = s.m.memsz := by
  cases h with
  | alloc ha =>
      obtain ⟨-, rfl⟩ := kallocPage_eq_ok.1 ha
      split_ifs <;> exact ⟨rfl, rfl⟩
  | free _ hf =>
      obtain ⟨-, rfl⟩ := kfreePage_eq_ok.1 hf
      exact ⟨rfl, rfl⟩
  | write _ => exact ⟨rfl, rfl⟩

theorem PageStep.bounds_run {s s' : Pages} {es : List PageEv} (h : Run PageStep s es s') :
    s'.m.memStart = s.m.memStart ∧ s'.m.memsz = s.m.memsz := by
  refine h.invariant (I := fun t => t.m.memStart = s.m.memStart ∧ t.m.memsz = s.m.memsz) ?_
    ⟨rfl, rfl⟩
  intro t e t' _ ht hs
  exact ⟨hs.bounds.1.trans ht.1, hs.bounds.2.trans ht.2⟩

/-- The kilobytes that `mem_init1` goes by. -/
def sizeOf (size detectMem : Nat) : Nat := if size ≠ 0 then size else u32 (detectMem + 1024)

/-- No page crosses a line between pages. -/
theorem whole_split {lo mid hi p : Nat} (hmid : mid % 4096 = 0 ∨ lo = mid) (h : lo ≤ mid)
    (h' : mid ≤ hi) : Whole lo hi p ↔ Whole lo mid p ∨ Whole mid hi p := by
  unfold Whole
  omega

theorem p2v_fourMb : p2v (4 * 1024 * 1024) = 2151677952 := by decide

theorem p2v_of_lt {a : Nat} (h : a < 2147483648) : p2v a = a + 2147483648 :=
  u32_eq_self (by omega)

theorem v2p_of_lt {a : Nat} (h : a < 2147483648) : v2p (u32 a) = a + 2147483648 := by
  unfold v2p u32
  omega

/-- Freeing the pages behind the interval makes it longer. -/
theorem Conserved.extend {lo mid hi : Nat} {s : Pages} (h : Conserved lo mid s)
    (hmid : mid % 4096 = 0 ∨ lo = mid) (h₀ : 0 < lo) (h₁ : lo ≤ mid) (h₂ : mid ≤ hi)
    (h₃ : mid + 8192 ≤ 4294967296) (h₄ : hi < 4294963200) (hstart : s.m.memStart ≤ mid)
    (hbound : hi ≤ v2p (u32 (s.m.memsz * 1024))) :
    ∃ m', kfreeRange mid hi s.m = .ok ((), m') ∧ Conserved lo hi ⟨m', s.held⟩ ∧
      m'.memStart = s.m.memStart ∧ m'.memsz = s.m.memsz := by
  obtain ⟨l, hl, -, hheld, hall⟩ := h
  have hin : ∀ {q}, q ∈ l ∨ q ∈ s.held → q % 4096 = 0 ∧ lo ≤ q ∧ q + 4096 ≤ mid :=
    fun hq => (hall _).2 hq
  have hpage : ∀ q ∈ l, IsPage q := by
    intro q hq
    have hw := hin (Or.inl hq)
    exact ⟨hw.1, by omega, by omega⟩
  have hout : ∀ {q}, q ∈ l ∨ q ∈ s.held → ¬ Whole mid hi q := by
    rintro q hq ⟨-, hlo, -⟩
    have hw := hin hq
    omega
  obtain ⟨m', l', hk, hl', hmem, hfr⟩ := kfreeRange_spec hl hpage (fun q hq => hout (Or.inl hq))
    (by omega) h₃ h₂ h₄ hstart hbound
  refine ⟨m', hk, ⟨l', hl', hl'.nodup, ?_, ?_⟩, hfr.memStart, hfr.memsz⟩
  · intro q hq hh
    rcases (hmem q).1 hq with hq | hw
    · exact hheld q hq hh
    · exact hout (Or.inr hh) hw
  · intro q
    rw [whole_split hmid h₁ h₂, hall q, hmem q]
    exact or_right_comm

/-- `mem_init1` makes the pages below four megabytes free. -/
theorem memInit1_spec {start size detectMem : Nat} {m : Mm} (hfree : m.freeList = 0)
    (h₀ : 0 < start) (h₁ : start ≤ 2151677952)
    (hbound : 2151677952 ≤ v2p (u32 (sizeOf size detectMem * 1024))) :
    ∃ m', memInit1 start size detectMem m = .ok ((), m') ∧
      Conserved start 2151677952 ⟨m', ∅⟩ ∧
      m'.memStart = start ∧ m'.memsz = sizeOf size detectMem := by
  have hnil : Conserved start start
      ⟨{ m with memStart := start, memsz := sizeOf size detectMem }, ∅⟩ := by
    refine ⟨[], ?_, List.nodup_nil, by simp, ?_⟩
    · rw [FreeList, isChain_nil, ptr_eq_none]
      exact hfree
    · intro q
      simp only [List.not_mem_nil, Set.mem_empty_iff_false, or_self, iff_false]
      rintro ⟨-, hlo, hhi⟩
      omega
  obtain ⟨m', hk, hc, hstart, hsize⟩ := hnil.extend (Or.inr rfl) h₀ le_rfl h₁ (by omega) (by decide)
    le_rfl hbound
  refine ⟨m', ?_, hc, hstart, hsize⟩
  simp only [memInit1, kinit, p2v_fourMb]
  exact hk

/-- `mem_init2` makes the pages above four megabytes free, and leaves the others to
their holders. -/
theorem memInit2_spec {start hi : Nat} {s : Pages} (h₀ : 0 < start) (h₁ : start ≤ 2151677952)
    (h₂ : 2151677952 ≤ hi) (h₃ : hi < 4294963200) (hhi : p2v (u32 (s.m.memsz * 1024)) = hi)
    (hbound : hi ≤ v2p (u32 (s.m.memsz * 1024))) (hstart : s.m.memStart = start)
    (hc : Conserved start 2151677952 s) :
    ∃ m', memInit2 s.m = .ok ((), m') ∧ Conserved start hi ⟨m', s.held⟩ ∧
      Bounds start hi m' := by
  obtain ⟨m', hk, hc', hstart', hsize⟩ := hc.extend (Or.inl (by decide)) h₀ h₁ h₂ (by decide) h₃
    (by rw [hstart]; exact h₁) hbound
  refine ⟨m', ?_, hc', h₀, h₃, ?_, ?_⟩
  · simp only [memInit2, kinit, p2v_fourMb]
    rw [Act.bind_of_ok (Act.gets_eq_ok.2 ⟨rfl, rfl⟩), hhi]
    exact hk
  · rw [hstart', hstart]
  · rw [hsize]
    exact hbound

/-- After `mem_init1`, any use of the pages below four megabytes, `mem_init2` and any
further use of pages, the free and the held pages are the whole pages of the memory;
an allocation gives a page that is not held, or the null pointer when all pages are
held, and every held page can be freed. -/
theorem page_conservation {start size detectMem : Nat} {m₀ : Mm} (hfree : m₀.freeList = 0)
    (h₀ : 0 < start) (h₁ : start ≤ p2v (4 * 1024 * 1024))
    (h₂ : p2v (4 * 1024 * 1024) ≤ p2v (sizeOf size detectMem * 1024))
    (h₃ : sizeOf size detectMem * 1024 < 2 ^ 31 - 4096) :
    ∃ m₁, memInit1 start size detectMem m₀ = .ok ((), m₁) ∧
      ∀ es₁ s₁, Run PageStep ⟨m₁, ∅⟩ es₁ s₁ → ∃ m₂, memInit2 s₁.m = .ok ((), m₂) ∧
        ∀ es s, Run PageStep ⟨m₂, s₁.held⟩ es s →
          Conserved start (p2v (sizeOf size detectMem * 1024)) s ∧
          (∃ p m', kallocPage s.m = .ok (p, m') ∧ p ∉ s.held ∧
            (p = 0 ↔ ∀ q, Whole start (p2v (sizeOf size detectMem * 1024)) q → q ∈ s.held)) ∧
          ∀ p ∈ s.held, ∃ m', kfreePage p s.m = .ok ((), m') := by
  have hsz : sizeOf size detectMem * 1024 < 2147479552 := h₃
  have hhi := p2v_of_lt (Nat.lt_trans hsz (by decide))
  have hbound := v2p_of_lt (Nat.lt_trans hsz (by decide))
  have hu : u32 (sizeOf size detectMem * 1024) = sizeOf size detectMem * 1024 :=
    u32_eq_self (Nat.lt_trans hsz (by decide))
  have hlt : p2v (sizeOf size detectMem * 1024) < 4294963200 := by
    rw [hhi]
    exact Nat.add_lt_add_right hsz 2147483648
  rw [p2v_fourMb] at h₁ h₂
  rw [← hhi] at hbound
  obtain ⟨m₁, hm₁, hc₁, hstart, hsize⟩ := memInit1_spec (m := m₀) hfree h₀ h₁
    (by rw [hbound]; exact h₂)
  refine ⟨m₁, hm₁, fun es₁ s₁ hr₁ => ?_⟩
  have hb₁ : Bounds start 2151677952 m₁ := by
    refine ⟨h₀, by decide, le_of_eq hstart, ?_⟩
    rw [hsize, hbound]
    exact h₂
  obtain ⟨hc, -⟩ := conserved_run (s := ⟨m₁, ∅⟩) ⟨hc₁, hb₁⟩ hr₁
  obtain ⟨hstart₁, hsize₁⟩ := PageStep.bounds_run hr₁
  have hsize₂ : s₁.m.memsz = sizeOf size detectMem := hsize₁.trans hsize
  obtain ⟨m₂, hm₂, hc₂, hb₂⟩ := memInit2_spec h₀ h₁ h₂ hlt (by rw [hsize₂, hu])
    (by rw [hsize₂, hbound]) (hstart₁.trans hstart) hc
  refine ⟨m₂, hm₂, fun es s hr => ?_⟩
  obtain ⟨hcs, hbs⟩ := conserved_run (s := ⟨m₂, s₁.held⟩) ⟨hc₂, hb₂⟩ hr
  refine ⟨hcs, ?_, fun p hp => ⟨_, (hcs.free hbs hp).1⟩⟩
  obtain ⟨m', ha⟩ : ∃ m', kallocPage s.m = .ok (s.m.freeList, m') :=
    ⟨_, kallocPage_eq_ok.2 ⟨rfl, rfl⟩⟩
  obtain ⟨-, -, hnot, hnull, -⟩ := hcs.alloc hbs ha
  exact ⟨_, m', ha, hnot, hnull⟩

/-- A memory of zeros. -/
def zeroMm : Mm := ⟨fun _ => 0, 0, 0, 0, 0, 0⟩

/-- Eight megabytes, of which the first two are taken by the kernel. -/
theorem zeroMm_conservation : ∃ m₁ m₂, memInit1 0x80200000 8192 0 zeroMm = .ok ((), m₁) ∧
    memInit2 m₁ = .ok ((), m₂) ∧ Conserved 0x80200000 (p2v (8192 * 1024)) ⟨m₂, ∅⟩ := by
  obtain ⟨m₁, hm₁, h⟩ := @page_conservation 0x80200000 8192 0 zeroMm rfl
    (by decide) (by decide) (by decide) (by decide)
  obtain ⟨m₂, hm₂, h'⟩ := h [] _ (.nil _)
  exact ⟨m₁, m₂, hm₁, hm₂, (h' [] _ (.nil _)).1⟩

/-- The page at the address zero is freed first, which leaves the list empty. -/
theorem kfreeRange_zero {vaend : Nat} {m : Mm} (hstart : m.memStart = 0) (hle : 4096 ≤ vaend)
    (hend : vaend < 4294963200) (hbound : vaend ≤ v2p (u32 (m.memsz * 1024))) :
    ∃ m' l, kfreeRange 0 vaend m = .ok ((), m') ∧ FreeList m' l ∧
      (∀ q, q ∈ l ↔ Whole 4096 vaend q) ∧ m'.memsz = m.memsz ∧ m'.memStart = 0 := by
  have hfree : kfreePage 0 m = .ok ((), freed m 0) :=
    kfreePage_eq_ok.2 ⟨⟨rfl, le_of_eq hstart, Nat.zero_le _⟩, rfl⟩
  have hnil : FreeList (freed m 0) [] := ptr_eq_none.2 rfl
  obtain ⟨m', l, hk, hl, hmem, hfr⟩ := kfreeRangeLoop_spec (n := 1048576) (p := 4096) hnil (by simp)
    (by simp) (by decide) (by decide) (by decide) hend (by rw [freed, hstart]; decide)
    (Nat.le_add_right_of_le hle) hbound (by omega)
  refine ⟨m', l, ?_, hl, fun q => by simp [hmem q], hfr.memsz, hfr.memStart.trans hstart⟩
  have hround : pgRoundUp 0 = 0 := by decide
  have hnext : u32 (0 + 4096) = 4096 := by decide
  rw [kfreeRange, hround, kfreeRangeLoop, hnext, if_pos hle, Act.bind_of_ok hfree]
  exact hk

/-- A memory that starts at the address zero: the page there is never found
again. -/
theorem zero_page_lost : ∃ m₁ m₂, memInit1 0 4096 0 zeroMm = .ok ((), m₁) ∧
    memInit2 m₁ = .ok ((), m₂) ∧ ¬ Conserved 0 (p2v (4096 * 1024)) ⟨m₂, ∅⟩ := by
  have hbound : v2p (u32 (4096 * 1024)) = 2151677952 := by decide
  have hhi : p2v (u32 (4096 * 1024)) = 2151677952 := by decide
  obtain ⟨m₁, l, hk, hl, hmem, hsize, hstart⟩ := @kfreeRange_zero 2151677952
    { zeroMm with memStart := 0, memsz := 4096 } rfl (by decide)
    (by decide) (le_of_eq hbound.symm)
  have hpage : ∀ q ∈ l, IsPage q := by
    intro q hq
    have hw := (hmem q).1 hq
    unfold Whole at hw
    exact ⟨hw.1, by omega, by omega⟩
  obtain ⟨m₂, l₂, hk₂, hl₂, hmem₂, -⟩ := @kfreeRange_spec 2151677952 2151677952 m₁ l
    hl hpage (by rintro q - ⟨-, h, h'⟩; omega) (by decide) (by decide) le_rfl
    (by decide) (by rw [hstart]; decide) (by rw [hsize, hbound])
  refine ⟨m₁, m₂, ?_, ?_, ?_⟩
  · simp only [memInit1, kinit, p2v_fourMb]
    exact hk
  · simp only [memInit2, kinit, p2v_fourMb]
    rw [Act.bind_of_ok (Act.gets_eq_ok.2 ⟨hsize, rfl⟩), hhi]
    exact hk₂
  · rintro ⟨l₃, hl₃, -, -, hall⟩
    rw [hl₃.unique hl₂] at hall
    have hzero : Whole 0 (p2v (4096 * 1024)) 0 := ⟨rfl, le_rfl, by decide⟩
    rcases (hall 0).1 hzero with h | h
    · rw [hmem₂ 0, hmem 0] at h
      unfold Whole at h
      omega
    · exact h

end Mm

end Chunix
