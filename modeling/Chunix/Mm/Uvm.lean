import Chunix.Mm.Copy

/-!
# Address spaces that are given up

`free_vm` puts the directory and the page tables of an address space back on the
free list, but not the pages mapped in it. So `copy_uvm`, which calls it when it
runs out of pages, returns all that it has taken only if it had not copied a page
yet.
-/

namespace Chunix

namespace Mm

open Machine Linked

variable {s : Space} {m m₁ m' : Mm} {l l' : List Nat} {n : Nat}

/-- A page off the list is given back under the name that the kernel has for it. -/
theorem Pool.freeFrame {f : Nat} (h : Pool m l) (hf : IsFrame f) (hoff : ¬ framesOf l f)
    (hr : kfreePage (p2v f) m = .ok ((), m')) :
    ∃ v, v2p v = f ∧ IsPage v ∧ Pool m' (v :: l) ∧ AgreeOff (fun p => p = f) m.mem m'.mem ∧
      m' = { m with mem := m'.mem, freeList := m'.freeList } := by
  obtain ⟨hpage, hm⟩ := isPage_of_kfreePage hf hr
  have hv : v2p (p2v f) = f := v2p_p2v (by have := hf.le; omega)
  generalize p2v f = v at hpage hm hv
  have hagree := agreeOff_freed (m := m) hpage
  rw [hm, hv] at hagree
  have hpool := h.free hpage fun hvl => hoff ⟨v, hvl, hv.symm⟩
  rw [hm] at hpool
  refine ⟨v, hv, hpage, hpool, hagree, ?_⟩
  rw [← hm]
  rfl

theorem Pool.unique (h : Pool m l) (h' : Pool m l') : l = l' := h.chain.unique h'.chain

/-- A list behind the release of a page is the list from before with that page in front.
Only the links count, which are the first words of the pages. -/
theorem Pool.of_freed {w : Nat} (hlt : m.freeList < 4294967296) (hw : w ≠ 0)
    (hf : m'.freeList = w) (hm : ∀ a, a % 4096 < 4 → m'.mem a = (freed m w).mem a)
    (h : Pool m' l') : ∃ l, l' = w :: l ∧ Pool m l := by
  have hhead : ptr m'.freeList = some w := ptr_eq_some.2 ⟨hf, hw⟩
  cases l' with
  | nil => exact absurd (hhead.symm.trans h.chain) (by simp)
  | cons v l =>
      obtain ⟨hv, hchain⟩ := h.chain
      cases hv.symm.trans hhead
      have hwp := h.page w List.mem_cons_self
      have hpage : ∀ v ∈ l, IsPage v := fun v hv => h.page v (List.mem_cons_of_mem _ hv)
      have hload : ∀ v, IsPage v → load32 m'.mem (v2p v) = load32 (freed m w).mem (v2p v) := by
        intro v hv
        have hal := hv.isFrame.aligned
        have hle := hv.isFrame.le
        exact load32_congr_range (by omega) fun a ha ha' => hm a (by omega)
      have hstart : link m'.mem w = ptr m.freeList := by
        rw [link, hload w hwp]
        simp only [freed, load32_store32_self]
        rw [u32_eq_self hlt]
      rw [hstart] at hchain
      -- the links of the other pages are those from before
      refine ⟨l, rfl, hchain.congr fun v hv => ?_, hpage⟩
      have hne : v2p v ≠ v2p w := fun he =>
        (List.nodup_cons.1 h.nodup).1 (v2p_inj (hpage v hv).2.2 hwp.2.2 he ▸ hv)
      have hframe := (hpage v hv).isFrame
      have hsame := @load32_page m.mem (freed m w).mem (v2p v) 0 hframe (by decide)
        fun a ha => (agreeOff_freed hwp).page (fun p hp => hp ▸ hwp.isFrame) hframe hne ha
      rw [Nat.mul_zero, Nat.add_zero] at hsame
      rw [link, link, hload v (hpage v hv), hsame]

/-- The loop of `free_vm` with the kernel's names of pages as a parameter. Its
equations do not touch the arithmetic of `P2V`, which is too large to be evaluated. -/
def freeTables (name : Nat → Nat) (pgdir : Nat) : Nat → Nat → Act Mm Unit
  | 0, _ => pure ()
  | n + 1, i => do
      let pde ← kload (pgdir + 4 * i)
      if present pde then
        kfreePage (name (pteAddr pde))
      freeTables name pgdir n (i + 1)

theorem freeVmLoop_eq (pgdir : Nat) : freeVmLoop pgdir = freeTables p2v pgdir := by
  delta freeVmLoop freeTables
  delta freeVmLoop._f freeTables._f
  rfl

/-- The loop of `free_vm`: the tables from the index `i` on are put on the list. -/
theorem freeTables_spec {c : Space} {i : Nat} (hc : c.At m.mem) (hi : n + i = 1024)
    (hpool : Pool m l) (hoff : ∀ v ∈ l, v2p v ≠ c.dir ∧ ∀ j, i ≤ j → c.tab j ≠ some (v2p v))
    (h : freeTables p2v (p2v c.dir) n i m = .ok ((), m')) :
    ∃ us, Pool m' (us ++ l) ∧ (∀ v ∈ us, ∃ j, i ≤ j ∧ c.tab j = some (v2p v)) ∧
      (∀ j t, i ≤ j → c.tab j = some t → framesOf us t) ∧
      AgreeOff (fun p => ∃ j, i ≤ j ∧ c.tab j = some p) m.mem m'.mem ∧
      m' = { m with mem := m'.mem, freeList := m'.freeList } := by
  induction n generalizing i l m with
  | zero =>
      obtain ⟨-, rfl⟩ := Act.pure_eq_ok.1 h
      refine ⟨[], hpool, by simp, fun j t hj ht => ?_, fun _ _ => rfl, rfl⟩
      have := (hc.tab j t ht).1
      omega
  | succ n ih =>
      have hlt : i < 1024 := by omega
      have hload : kload (p2v c.dir + 4 * i) m = .ok (load32 m.mem (c.dir + 4 * i), m) :=
        Act.gets_eq_ok.2 ⟨by rw [hc.pde_addr hlt], rfl⟩
      rw [freeTables, Act.bind_of_ok hload] at h
      cases ht : c.tab i with
      | none =>
          rw [if_neg (hc.absent i hlt ht)] at h
          obtain ⟨us, hpool', hus, hall, hagree, hregs⟩ := ih hc (by omega) hpool
            (fun v hv => ⟨(hoff v hv).1, fun j hj => (hoff v hv).2 j (by omega)⟩) h
          refine ⟨us, hpool', fun v hv => ?_, fun j t hj hjt => ?_, ?_, hregs⟩
          · obtain ⟨j, hj, hjt⟩ := hus v hv
            exact ⟨j, by omega, hjt⟩
          · refine hall j t (Nat.lt_of_le_of_ne hj fun he => ?_) hjt
            rw [← he, ht] at hjt
            cases hjt
          · exact fun a ha => hagree a fun p ⟨j, hj, hp⟩ => ha p ⟨j, by omega, hp⟩
      | some t =>
          obtain ⟨-, hframe, hne⟩ := hc.tab i t ht
          obtain ⟨hp, haddr⟩ := hc.pde i t ht
          rw [if_pos hp, haddr] at h
          obtain ⟨_, m₁, hfree, h⟩ := Act.bind_eq_ok.1 h
          have hnot : ¬ framesOf l t := by
            rintro ⟨v, hv, he⟩
            exact (hoff v hv).2 i le_rfl (he ▸ ht)
          obtain ⟨v, hv, -, hpool₁, hagree₁, hregs₁⟩ := hpool.freeFrame hframe hnot hfree
          have hat : c.At m₁.mem := hc.congr fun a ha =>
            hagree₁.page (fun p hp => hp ▸ hframe) hc.dir (fun he => hne he.symm) ha
          have hoff₁ : ∀ u ∈ v :: l, v2p u ≠ c.dir ∧ ∀ j, i + 1 ≤ j → c.tab j ≠ some (v2p u) := by
            intro u hu
            rcases List.mem_cons.1 hu with hu | hu
            · rw [hu, hv]
              refine ⟨hne, fun j hj hjt => ?_⟩
              have := hc.inj i j t ht hjt
              omega
            · exact ⟨(hoff u hu).1, fun j hj => (hoff u hu).2 j (by omega)⟩
          obtain ⟨us, hpool', hus, hall, hagree, hregs⟩ := ih hat (by omega) hpool₁ hoff₁ h
          refine ⟨us ++ [v], by simpa using hpool', ?_, ?_, ?_, ?_⟩
          · intro u hu
            rcases List.mem_append.1 hu with hu | hu
            · obtain ⟨j, hj, hjt⟩ := hus u hu
              exact ⟨j, by omega, hjt⟩
            · rw [List.mem_singleton.1 hu, hv]
              exact ⟨i, le_rfl, ht⟩
          · intro j u hj hju
            rw [framesOf_append]
            by_cases hji : j = i
            · rw [hji, ht] at hju
              exact Or.inr ⟨v, List.mem_singleton_self v, (Option.some.inj hju).symm.trans hv.symm⟩
            · exact Or.inl (hall j u (by omega) hju)
          · refine hagree₁.trans hagree (fun p hp => ⟨i, le_rfl, hp ▸ ht⟩) ?_
            exact fun p ⟨j, hj, hjp⟩ => ⟨j, by omega, hjp⟩
          · rw [hregs, hregs₁]

theorem freeVm_eq_ok {pgdir : Nat} (h : freeVm pgdir m = .ok ((), m')) :
    ∃ m₁, freeTables p2v pgdir 1024 0 m = .ok ((), m₁) ∧ kfreePage pgdir m₁ = .ok ((), m') := by
  unfold freeVm at h
  rw [freeVmLoop_eq] at h
  rcases Act.ite_eq_ok.1 h with ⟨-, h⟩ | ⟨-, h⟩
  · obtain ⟨_, _, h, -⟩ := Act.bind_eq_ok.1 h
    cases h
  · obtain ⟨_, m₁, h₁, h⟩ := Act.bind_eq_ok.1 h
    exact ⟨m₁, h₁, h⟩

/-- `free_vm` puts the tables of an address space and its directory on the list, and
nothing else. -/
theorem freeVm_spec {c : Space} (hc : Held c m l) (h : freeVm (p2v c.dir) m = .ok ((), m')) :
    ∃ us, Pool m' (us ++ l) ∧ (∀ v ∈ us, c.Has (v2p v)) ∧ (∀ p, c.Has p → framesOf us p) ∧
      AgreeOff c.Has m.mem m'.mem ∧ m' = { m with mem := m'.mem, freeList := m'.freeList } := by
  obtain ⟨m₁, h₁, h₂⟩ := freeVm_eq_ok h
  obtain ⟨us, hpool, hus, hall, hagree, hregs⟩ := freeTables_spec hc.space rfl hc.pool
    (fun v hv => ⟨fun he => hc.off v hv (Or.inl he), fun j _ hj => hc.off v hv (Or.inr ⟨j, hj⟩)⟩) h₁
  have hnot : ¬ framesOf (us ++ l) c.dir := by
    rintro ⟨v, hv, he⟩
    rcases List.mem_append.1 hv with hv | hv
    · obtain ⟨j, -, hj⟩ := hus v hv
      exact (hc.space.tab j _ hj).2.2 he.symm
    · exact hc.off v hv (Or.inl he.symm)
  obtain ⟨d, hd, -, hpool', hagree', hregs'⟩ := hpool.freeFrame hc.space.dir hnot h₂
  refine ⟨d :: us, hpool', fun v hv => ?_, fun p hp => ?_, ?_, ?_⟩
  · rcases List.mem_cons.1 hv with hv | hv
    · rw [hv]
      exact Or.inl hd
    · obtain ⟨j, -, hj⟩ := hus v hv
      exact Or.inr ⟨j, hj⟩
  · rw [framesOf_cons]
    rcases hp with hp | ⟨j, hj⟩
    · exact Or.inl (hp.trans hd.symm)
    · exact Or.inr (hall j p (Nat.zero_le _) hj)
  · exact hagree.trans hagree' (fun p ⟨j, _, hj⟩ => Or.inr ⟨j, hj⟩) fun p hp => Or.inl hp
  · rw [hregs', hregs]

/-- The pages of the address space `s` are neither free nor pages of `c`. -/
structure Apart (s c : Space) (l : List Nat) : Prop where
  space : ∀ p, s.Has p → ¬ c.Has p
  list : ∀ p, s.Has p → ¬ framesOf l p

section

variable {c c' : Space}

/-- A page of the address space has been one before or has been taken from the list. -/
theorem Extends.origin {p : Nat} (h : Extends c c' l l' m m') (hp : c'.Has p) :
    c.Has p ∨ framesOf l p := by
  obtain ⟨us, rfl, htab, -⟩ := h.used
  rcases hp with hp | ⟨i, hi⟩
  · exact Or.inl (Or.inl (hp.trans h.dir))
  · rcases htab i p hi with hi | hu
    · exact Or.inl (Or.inr ⟨i, hi⟩)
    · exact Or.inr (framesOf_append.2 (Or.inl hu))

theorem Extends.framesOf {p : Nat} (h : Extends c c' l l' m m') (hp : Mm.framesOf l' p) :
    Mm.framesOf l p := by
  obtain ⟨u, hu, he⟩ := hp
  exact ⟨u, h.off u hu, he⟩

theorem Extends.agree (h : Extends c c' l l' m m') :
    AgreeOff (fun p => c.Has p ∨ Mm.framesOf l p) m.mem m'.mem := by
  obtain ⟨us, rfl, -, hagree⟩ := h.used
  refine fun a ha => hagree a fun p hp => ha p ?_
  exact hp.imp_right fun hu => framesOf_append.2 (Or.inl hu)

/-- The address space `c` has become `c'`, with tables from the list `l`. -/
structure Grown (c c' : Space) (l l' : List Nat) (m m' : Mm) : Prop where
  dir : c'.dir = c.dir
  held : Held c' m' l'
  list : ∀ u ∈ l', u ∈ l
  origin : ∀ p, c'.Has p → c.Has p ∨ framesOf l p
  agree : AgreeOff (fun p => c.Has p ∨ framesOf l p) m.mem m'.mem
  regs : m' = { m with mem := m'.mem, freeList := m'.freeList }

theorem Extends.grown (h : Extends c c' l l' m m') : Grown c c' l l' m m' :=
  ⟨h.dir, h.held, h.off, fun _ => h.origin, h.agree, h.regs⟩

theorem Grown.apart (h : Grown c c' l l' m m') (ha : Apart s c l) : Apart s c' l' where
  space := fun p hp hp' => (h.origin p hp').elim (ha.space p hp) (ha.list p hp)
  list := fun p hp ⟨u, hu, he⟩ => ha.list p hp ⟨u, h.list u hu, he⟩

theorem Held.frame {p : Nat} (h : Held c m l) (hp : c.Has p ∨ framesOf l p) : IsFrame p := by
  rcases hp with hp | hp
  · exact h.space.isFrame hp
  · exact h.pool.isFrame hp

/-- A change outside its pages and those of the list leaves an address space held. -/
theorem Held.agree {P : Nat → Prop} (h : Held c m l) (hl : m'.freeList = m.freeList)
    (hagree : AgreeOff P m.mem m'.mem) (hP : ∀ p, P p → IsFrame p)
    (hoff : ∀ p, P p → ¬ c.Has p ∧ ¬ framesOf l p) : Held c m' l where
  space := (h.space.agree hagree hP fun p hp => (hoff p hp).1).1
  pool := h.pool.agree hl hagree hP fun v hv hp => (hoff _ hp).2 ⟨v, hv, rfl⟩
  off := h.off

/-- The other address space is as it was. -/
theorem Grown.other (h : Grown c c' l l' m m') (hc : Held c m l) (hs : s.At m.mem)
    (ha : Apart s c l) : s.At m'.mem ∧ ∀ j, s.entry m'.mem j = s.entry m.mem j := by
  refine hs.agree h.agree (fun p => hc.frame) fun p hp hp' => ?_
  exact hp.elim (ha.space p hp') (ha.list p hp')

theorem p2v_ne_zero {p : Nat} (hp : IsFrame p) : p2v p ≠ 0 := by
  have h₁ := hp.le
  have h₂ := hp.ne
  unfold p2v u32
  omega

/-- What a failed `copy_uvm` leaves from the address space `c` on, with the list `l`. -/
structure GivenUp (c : Space) (l l' : List Nat) (m m' : Mm) : Prop where
  pool : Pool m' l'
  origin : ∀ u ∈ l', c.Has (v2p u) ∨ framesOf l (v2p u)
  all : l = [] → ∀ p, c.Has p → framesOf l' p
  lost : ∀ v ∈ l.head?, v ∉ l'
  agree : AgreeOff (fun p => c.Has p ∨ framesOf l p) m.mem m'.mem
  regs : m' = { m with mem := m'.mem, freeList := m'.freeList }

/-- A page at the head of the list that is neither in the rest of the list nor in the
address space. -/
theorem Held.head {v : Nat} (h : Held c m (v :: l)) :
    ¬ c.Has (v2p v) ∧ ¬ framesOf l (v2p v) :=
  ⟨h.off v List.mem_cons_self, not_framesOf_tail h.pool⟩

/-- The copies made so far are lost when `free_vm` is called. -/
theorem GivenUp.of_free {l₁ : List Nat} {m₂ : Mm} (hc : Held c m l) (h : Extends c c l l₁ m m₂)
    (hl : ∀ v l', l = v :: l' → l₁ = l') (h' : Extends c c' l₁ [] m₂ m₁)
    (hfree : freeVm (p2v c'.dir) m₁ = .ok ((), m')) : ∃ l', GivenUp c l l' m m' := by
  obtain ⟨us, hpool, hus, hall, hagree, hregs⟩ := freeVm_spec h'.held hfree
  rw [List.append_nil] at hpool
  have horigin : ∀ p, c'.Has p → c.Has p ∨ framesOf l p :=
    fun p hp => (h'.origin hp).imp_right h.framesOf
  refine ⟨us, hpool, fun u hu => horigin _ (hus u hu), fun _ p hp => hall p (h'.has hp), ?_, ?_, ?_⟩
  · intro v hv hvus
    obtain ⟨l', rfl⟩ := List.head?_eq_some_iff.1 hv
    obtain ⟨hnot, hrest⟩ := hc.head
    rcases h'.origin (hus v hvus) with hv | hv
    · exact hnot hv
    · rw [hl v l' rfl] at hv
      exact hrest hv
  · refine (h.agree.trans h'.agree (fun _ hp => hp) fun p hp => hp.imp_right h.framesOf).trans
      hagree (fun _ hp => hp) fun p hp => horigin p hp
  · rw [hregs, h'.regs, h.regs]

/-- One page has been copied before the rest failed. -/
theorem GivenUp.of_copied {v : Nat} {l₁ l₂ : List Nat} {m₂ : Mm} (hc : Held c m (v :: l₁))
    (h : Extends c c (v :: l₁) l₁ m m₂) (h' : Extends c c' l₁ l₂ m₂ m₁)
    (hg : GivenUp c' l₂ l' m₁ m') : GivenUp c (v :: l₁) l' m m' := by
  have horigin : ∀ p, c'.Has p ∨ framesOf l₂ p → c.Has p ∨ framesOf l₁ p :=
    fun p hp => hp.elim h'.origin fun hp => Or.inr (h'.framesOf hp)
  have hcons : ∀ p, c.Has p ∨ framesOf l₁ p → c.Has p ∨ framesOf (v :: l₁) p :=
    fun p hp => hp.imp_right fun hp => framesOf_cons.2 (Or.inr hp)
  refine ⟨hg.pool, fun u hu => hcons _ (horigin _ (hg.origin u hu)), by simp, ?_, ?_, ?_⟩
  · intro u hu hul
    cases hu
    obtain ⟨hnot, hrest⟩ := hc.head
    exact (horigin _ (hg.origin v hul)).elim hnot hrest
  · exact (h.agree.trans h'.agree (fun _ hp => hp) fun p hp => hcons p hp).trans hg.agree
      (fun _ hp => hp) fun p hp => hcons p (horigin p hp)
  · rw [hg.regs, h'.regs, h.regs]

/-- The loop of `copy_uvm` from the page number `n` on. It can fail only at a page
that is present, and with an empty list it fails at the first one. -/
theorem copyUvmLoop_cases {sz fuel r : Nat} (hc : Held c m l) (hs : s.At m.mem)
    (ha : Apart s c l) (hsz : sz ≤ 4294963200)
    (h : copyUvmLoop (p2v s.dir) sz (p2v c.dir) fuel (4096 * n) m = .ok (r, m')) :
    (r = 0 ∧ (∃ l', GivenUp c l l' m m') ∧
      ∃ j, n ≤ j ∧ 4096 * j < sz ∧ present (s.entry m.mem j)) ∨
    ∃ c' l', r = p2v c'.dir ∧ Extends c c' l l' m m' ∧
      (l = [] → ∀ j, n ≤ j → 4096 * j < sz → ¬ present (s.entry m.mem j)) := by
  induction fuel generalizing c l m n with
  | zero => cases h
  | succ fuel ih =>
      by_cases hend : sz ≤ 4096 * n
      · rw [copyUvmLoop, if_neg (by omega)] at h
        obtain ⟨hr, rfl⟩ := Act.pure_eq_ok.1 h
        exact Or.inr ⟨c, l, hr.symm, Extends.refl hc, fun _ j hj hj' => by omega⟩
      rcases copyUvmLoop_step hc hs (by omega) (by omega) h with
        ⟨hp, h⟩ | ⟨l₁, m₂, c', m₁, hext, hl, hext', hp, hfree, hr⟩ |
        ⟨v, l₁, m₂, c', l₂, m₁, rfl, hp, hext, hentry, -, hmap, h⟩
      · rcases ih hc hs ha h with ⟨hr, hg, j, hj, hj'⟩ | ⟨c', l', hr, hext, hnone⟩
        · exact Or.inl ⟨hr, hg, j, by omega, hj'⟩
        · refine Or.inr ⟨c', l', hr, hext, fun hl j hj hjsz => ?_⟩
          by_cases hjn : j = n
          · rwa [hjn]
          · exact hnone hl j (by omega) hjsz
      · exact Or.inl ⟨hr, GivenUp.of_free hc hext hl hext' hfree, n, le_rfl, by omega, hp⟩
      · obtain ⟨hs₂, -⟩ := hext.grown.other hc hs ha
        have ha₂ := hext.grown.apart ha
        obtain ⟨hs₁, -⟩ := hmap.grown.other hext.held hs₂ ha₂
        rw [← hmap.dir] at h
        rcases ih hmap.held hs₁ (hmap.grown.apart ha₂) h with ⟨hr, ⟨l', hg⟩, -⟩ | ⟨c'', l', hr, hext', -⟩
        · exact Or.inl ⟨hr, ⟨l', hg.of_copied hc hext hmap.toExtends⟩, n, le_rfl, by omega, hp⟩
        · exact Or.inr ⟨c'', l', hr, (hext.trans hmap.toExtends).trans hext', by simp⟩

theorem mem_of_framesOf {v : Nat} (h : Pool m l) (hv : IsPage v) (hl : framesOf l (v2p v)) :
    v ∈ l := by
  obtain ⟨u, hu, he⟩ := hl
  rwa [v2p_inj hv.2.2 (h.page u hu).2.2 he]

/-- A page below `sz` is present, so that `copy_uvm` has something to copy. -/
def Copies (s : Space) (m : Mm) (sz : Nat) : Prop :=
  ∃ j, 4096 * j < sz ∧ present (s.entry m.mem j)

/-- What `copy_uvm` does to the free list. A failed call has given everything back if
there was no page at all, or just enough for `mapkvm` and a page to copy. -/
theorem copyUvm_cases {sz r : Nat} (h : Pool m l) (hm : Layout m) (hs : s.At m.mem)
    (hoff : ∀ p, s.Has p → ¬ framesOf l p) (hsz : sz ≤ 4294963200)
    (hr : copyUvm (p2v s.dir) sz m = .ok (r, m')) :
    (r = 0 ∧ ∃ l', Pool m' l' ∧ (∀ u ∈ l', u ∈ l) ∧
      ((∀ u ∈ l, u ∈ l') ↔ l = [] ∨ l.length = kvmPages m ∧ Copies s m sz)) ∨
    ∃ c l' d, r = p2v c.dir ∧ Held c m' l' ∧ Apart s c l' ∧ s.At m'.mem ∧ (∀ u ∈ l', u ∈ l) ∧
      (∀ p, c.Has p → framesOf l p) ∧ d ∈ l ∧ v2p d = c.dir ∧
      ¬ (l.length = kvmPages m ∧ Copies s m sz) := by
  have hpos : 0 < kvmPages m := Nat.succ_pos _
  rcases mapkvm_spec h hm with ⟨m₁, hk, hspent, hlen⟩ |
    ⟨c, us, l₁, m₁, hk, hfresh, rfl, hall, -, -, hlen⟩
  · rw [copyUvm, Act.bind_of_ok hk, if_pos rfl] at hr
    obtain ⟨hzero, rfl⟩ := Act.pure_eq_ok.1 hr
    refine Or.inl ⟨hzero.symm, [], hspent.pool, by simp, ?_⟩
    constructor
    · intro hnil
      exact Or.inl (List.eq_nil_iff_forall_not_mem.2 fun u hu => by simpa using hnil u hu)
    · rintro (rfl | ⟨hl, -⟩)
      · simp
      · omega
  rw [copyUvm, Act.bind_of_ok hk, if_neg (p2v_ne_zero hfresh.space.dir)] at hr
  have hleft : ∀ p, framesOf us p → framesOf (us ++ l₁) p :=
    fun p hp => framesOf_append.2 (Or.inl hp)
  have hright : ∀ p, framesOf l₁ p → framesOf (us ++ l₁) p :=
    fun p hp => framesOf_append.2 (Or.inr hp)
  have ha : Apart s c l₁ := ⟨fun p hp hc => hoff p hp (hleft p (hfresh.has p hc)),
    fun p hp hl => hoff p hp (hright p hl)⟩
  have hframes : ∀ p, framesOf us p → IsFrame p := fun p hp => h.isFrame (hleft p hp)
  obtain ⟨hs₁, hentry⟩ := hs.agree hfresh.agree hframes fun p hp hsp => hoff p hsp (hleft p hp)
  have hcopies : Copies s m sz ↔ Copies s m₁ sz := by
    simp only [Copies, hentry]
  have hzero : 4096 * 0 = 0 := rfl
  rw [← hzero] at hr
  rcases copyUvmLoop_cases hfresh.held hs₁ ha hsz hr with
    ⟨hr, ⟨l', hg⟩, j, -, hj, hp⟩ | ⟨c', l', hr, hext, hnone⟩
  · refine Or.inl ⟨hr, l', hg.pool, fun u hu => ?_, ?_⟩
    · refine mem_of_framesOf h (hg.pool.page u hu) ?_
      exact (hg.origin u hu).elim (fun hu => hleft _ (hfresh.has _ hu)) (hright _)
    constructor
    · intro hsub
      cases l₁ with
      | nil => exact Or.inr ⟨by simpa using hlen, hcopies.2 ⟨j, hj, hp⟩⟩
      | cons v l₁ => exact absurd (hsub v (by simp)) (hg.lost v rfl)
    · intro hcond u hu
      have hl₁ : l₁ = [] := by
        rcases hcond with hnil | ⟨hl, -⟩
        · exact (List.append_eq_nil_iff.1 hnil).2
        · exact List.eq_nil_of_length_eq_zero (by omega)
      rcases hall u hu with hu' | hu'
      · rw [hl₁] at hu'
        cases hu'
      · exact mem_of_framesOf hg.pool (h.page u hu) (hg.all hl₁ _ hu')
  · obtain ⟨d, hd, hdir⟩ := hfresh.has c.dir (Or.inl rfl)
    refine Or.inr ⟨c', l', d, hr, hext.held, hext.grown.apart ha, (hext.grown.other hfresh.held hs₁ ha).1,
      fun u hu => List.mem_append_right _ (hext.off u hu), fun p hp => ?_,
      List.mem_append_left _ hd, hdir.symm.trans hext.dir.symm, ?_⟩
    · exact (hext.origin hp).elim (fun hp => hleft p (hfresh.has p hp)) (hright p)
    · rintro ⟨hl, j, hj, hp⟩
      rw [← hentry] at hp
      exact hnone (List.eq_nil_of_length_eq_zero (by omega)) j (Nat.zero_le _) hj hp

/-- A `copy_page` that returns has found the page. -/
theorem copyPage_present {addr r : Nat} (hs : s.At m.mem) (haddr : addr < 4294967296)
    (h : copyPage (p2v s.dir) (p2v c.dir) addr m = .ok (r, m')) :
    present (s.entry m.mem (addr / 4096)) := by
  rw [copyPage] at h
  cases ht : s.tab (addr / 4096 / 1024) with
  | none =>
      rw [hs.lookup_none haddr ht] at h
      cases h
  | some t =>
      rw [hs.lookup haddr ht] at h
      by_contra hp
      rw [if_pos hp] at h
      cases h

/-- What a failed `copy_page` leaves on the free list: nothing, or the page that was to
become the copy. -/
theorem copyPage_zero {addr : Nat} (hc : Held c m l) (hs : s.At m.mem)
    (haddr : addr + 4096 ≤ 4294963200)
    (h : copyPage (p2v s.dir) (p2v c.dir) addr m = .ok (0, m')) :
    ∃ l', Pool m' l' ∧ ∀ u ∈ l', u ∈ l := by
  have hp := copyPage_present hs (by omega) h
  rcases copyPage_spec hc hs haddr hp with ⟨rfl, he⟩ | ⟨v, l₁, m₂, rfl, hext, -, -, hcase⟩
  · obtain ⟨-, rfl⟩ := Prod.mk.inj (Except.ok.inj (he.symm.trans h))
    exact ⟨[], hc.pool, by simp⟩
  rcases hcase with ⟨c', l', m₁, he, -⟩ | ⟨c', m₁, j, he, hmap, -⟩ | ⟨he, -⟩
  · have hzero := (Prod.mk.inj (Except.ok.inj (he.symm.trans h))).1
    exact absurd hzero (p2v_ne_zero hc.space.dir)
  · obtain ⟨_, _, hfree, hret⟩ := Act.bind_eq_ok.1 (he.symm.trans h)
    obtain ⟨-, rfl⟩ := Act.pure_eq_ok.1 hret
    obtain ⟨-, rfl⟩ := kfreePage_eq_ok.1 hfree
    refine ⟨[v], hmap.held.pool.free (hc.pool.page v List.mem_cons_self) (by simp), ?_⟩
    exact fun u hu => List.mem_singleton.1 hu ▸ List.mem_cons_self
  · cases he.symm.trans h

/-- The number of pages that `copy_page` takes for the page number `n`. -/
def copyPages (c : Space) (n : Nat) : Nat := if c.tab (n / 1024) = none then 2 else 1

/-- A page that is copied into the address space `c`: there is none, or it has the
contents of the page of `s`. -/
theorem copyPage_one {addr r n : Nat} (hc : Held c m l) (hs : s.At m.mem)
    (hn : addr = 4096 * n) (haddr : addr + 4096 ≤ 4294963200)
    (h : copyPage (p2v s.dir) (p2v c.dir) addr m = .ok (r, m')) :
    ∃ c' l', Grown c c' l l' m m' ∧
      ((l.length < copyPages c n ∧ ∀ j, c'.entry m'.mem j = c.entry m.mem j) ∨
      (copyPages c n ≤ l.length ∧ ∃ v ∈ l, ¬ c'.Has (v2p v) ∧ v ∉ l' ∧
        (∀ x, x < 4096 → m'.mem (v2p v + x) = m.mem (pteAddr (s.entry m.mem n) + x)) ∧
        ∀ j, c'.entry m'.mem j = if j = n then mkPte (v2p v) (pteFlags (s.entry m.mem n))
          else c.entry m.mem j)) := by
  have hp := copyPage_present hs (by omega) h
  have hdiv : addr / 4096 = n := by omega
  have hk : (addr + 4095) / 4096 + 1 - addr / 4096 = 1 := by omega
  have hspec := copyPage_spec hc hs haddr hp
  rw [hk, hdiv] at hspec
  rcases hspec with ⟨rfl, he⟩ | ⟨v, l₁, m₂, rfl, hext, hentry, hmem, hcase⟩
  · obtain ⟨-, rfl⟩ := Prod.mk.inj (Except.ok.inj (he.symm.trans h))
    refine ⟨c, [], (Extends.refl hc).grown, Or.inl ⟨?_, fun _ => rfl⟩⟩
    unfold copyPages
    split_ifs <;> exact Nat.succ_pos _
  obtain ⟨hoff, hrest⟩ := hc.head
  rcases hcase with ⟨c', l', m₁, he, hmap⟩ | ⟨c', m₁, k, he, hmap, hlast, hnone⟩ | ⟨he, -⟩
  · obtain ⟨-, rfl⟩ := Prod.mk.inj (Except.ok.inj (he.symm.trans h))
    have hgrown := (hext.trans hmap.toExtends).grown
    have hoff' : ¬ c'.Has (v2p v) := fun hv => (hmap.origin hv).elim hoff hrest
    have hpa : u32 (v2p v) = v2p v := u32_eq_self (u32_lt _)
    have hentry' : ∀ j, c'.entry m₁.mem j = if j = n then
        mkPte (v2p v) (pteFlags (s.entry m.mem n)) else c.entry m.mem j := by
      intro j
      rw [hmap.entry]
      by_cases hj : j = n
      · rw [if_pos (by omega), if_pos hj, hj, Nat.sub_self, Nat.mul_zero, Nat.add_zero, hpa]
      · rw [if_neg (by omega), if_neg hj, hentry]
    have htab : ∃ t, c'.tab (n / 1024) = some t := by
      refine Space.tab_of_present (m := m₁) ?_
      rw [hentry', if_pos rfl]
      exact (mkPte_spec (Nat.mod_lt _ (by decide))).1
    refine ⟨c', l', hgrown, Or.inr ⟨?_, v, List.mem_cons_self, hoff', ?_, ?_, hentry'⟩⟩
    · obtain ⟨t, ht⟩ := htab
      have hfew := hmap.few (n / 1024) (n / 1024 + 1) (by omega)
      rw [Space.missing_single, Space.missing_single, ht, if_neg (by simp)] at hfew
      unfold copyPages
      rw [List.length_cons]
      split_ifs at hfew ⊢ <;> omega
    · exact fun hv => hrest ⟨v, hmap.off v hv, rfl⟩
    · intro x hx
      rw [hmap.agree.page (fun p => hext.held.frame)
        (hc.pool.page v List.mem_cons_self).isFrame (fun hv => hv.elim hoff hrest)
        ⟨Nat.le_add_right _ _, Nat.add_lt_add_left hx _⟩, hmem,
        blit_apply_of_mem ⟨Nat.le_add_right _ _, Nat.add_lt_add_left hx _⟩,
        Nat.add_sub_cancel_left]
  · obtain ⟨_, _, hfree, hret⟩ := Act.bind_eq_ok.1 (he.symm.trans h)
    obtain ⟨-, rfl⟩ := Act.pure_eq_ok.1 hret
    obtain ⟨-, rfl⟩ := kfreePage_eq_ok.1 hfree
    have hzero : k = 0 := by omega
    subst hzero
    have hv : IsPage v := hc.pool.page v List.mem_cons_self
    have hoff' : ¬ c'.Has (v2p v) := fun hv => (hmap.origin hv).elim hoff hrest
    have hfreed := agreeOff_freed (m := m₁) hv
    obtain ⟨hat, hentry'⟩ := hmap.held.space.agree hfreed (fun p hp => hp ▸ hv.isFrame)
      fun p hp => hp ▸ hoff'
    have hgrown := (hext.trans hmap.toExtends).grown
    refine ⟨c', [v], ⟨hmap.dir, ⟨hat, hmap.held.pool.free hv (by simp), ?_⟩, ?_, hgrown.origin,
      ?_, ?_⟩, Or.inl ⟨?_, fun j => ?_⟩⟩
    · intro u hu
      rwa [List.mem_singleton.1 hu]
    · exact fun u hu => List.mem_singleton.1 hu ▸ List.mem_cons_self
    · exact hgrown.agree.trans hfreed (fun _ hp => hp)
        fun p hp => Or.inr ⟨v, List.mem_cons_self, hp⟩
    · rw [freed, hgrown.regs]
    · -- a table was missing, and the only page of the list was taken for the copy
      rw [Nat.add_zero] at hnone
      have hnone' : c.tab (n / 1024) = none := by
        cases ht : c.tab (n / 1024) with
        | none => rfl
        | some t => exact absurd (hmap.tab _ t ht) (by rw [hnone]; simp)
      have hfew := hmap.few (n / 1024) (n / 1024 + 1) (by omega)
      rw [Space.missing_single, Space.missing_single, if_pos hnone, if_pos hnone'] at hfew
      rw [copyPages, if_pos hnone', List.length_cons]
      simp only [List.length_nil] at hfew
      omega
    · rw [hentry', hmap.entry, if_neg (by omega), hentry]
  · cases he.symm.trans h

end

end Mm

end Chunix
