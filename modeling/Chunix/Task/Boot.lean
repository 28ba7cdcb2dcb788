import Chunix.Mm.Region
import Chunix.Task.Clone

/-!
# The first task

A `task_create` that has the pages it needs gives the new task an address space. For a
binary without segments the only user page is that of the stack, and the task can call
`fork`.
-/

namespace Chunix

namespace Task

open Machine Kernel

variable {k k' k₁ : Kernel} {c t : Slot} {s d : Mm.Space} {l l' : List Nat} {v : Nat}

/-- The action returns, and writes into the page `v` only. -/
def Inside (v : Nat) (x : Act Mm Unit) : Prop :=
  ∀ m, ∃ m', x m = .ok ((), m') ∧ Mm.AgreeOff (fun p => p = Mm.v2p v) m.mem m'.mem ∧
    m' = { m with mem := m'.mem }

theorem inside_kstore {x : Nat} (hv : Mm.IsPage v) (hx : x + 4 ≤ 4096) (w : Nat) :
    Inside v (Mm.kstore (v + x) w) :=
  fun _ => ⟨_, rfl, agreeOff_kstore (u := ()) hv hx rfl⟩

theorem inside_kmemset {x n : Nat} (hv : Mm.IsPage v) (hx : x + n ≤ 4096) (hn : 0 < n) :
    Inside v (Mm.kmemset (v + x) 0 n) :=
  fun _ => ⟨_, rfl, agreeOff_kmemset (u := ()) hv hx hn rfl⟩

theorem Inside.bind {x : Act Mm Unit} {y : Unit → Act Mm Unit} (hx : Inside v x)
    (hy : Inside v (y ())) : Inside v (x >>= y) := by
  intro m
  obtain ⟨m₁, hm₁, ha₁, hr₁⟩ := hx m
  obtain ⟨m₂, hm₂, ha₂, hr₂⟩ := hy m₁
  refine ⟨m₂, by rw [Act.bind_of_ok hm₁, hm₂], ha₁.trans ha₂ (fun _ hp => hp) fun _ hp => hp, ?_⟩
  rw [hr₂, hr₁]

/-- The trap frame lies in the page of the kernel stack. -/
theorem inside_initTf (hv : Mm.IsPage v) : Inside v (initTf (v + 4016)) := by
  unfold initTf
  simp only [Nat.add_assoc]
  refine (inside_kmemset hv (by decide) (by decide)).bind ?_
  refine (inside_kstore hv (by decide) _).bind ?_
  refine (inside_kstore hv (by decide) _).bind ?_
  refine (inside_kstore hv (by decide) _).bind ?_
  refine (inside_kstore hv (by decide) _).bind ?_
  refine (inside_kstore hv (by decide) _).bind ?_
  refine (inside_kstore hv (by decide) _).bind ?_
  refine (inside_kstore hv (by decide) _).bind ?_
  exact inside_kstore hv (by decide) _

/-- A write into a page that is neither one of the address space nor on the list. -/
theorem Inside.held {x : Act Mm Unit} {m m' : Mm} (h : Inside v x) (hv : Mm.IsPage v)
    (hm : x m = .ok ((), m')) (hs : Mm.Held s m l) (hvs : ¬ s.Has (Mm.v2p v))
    (hvl : ¬ Mm.framesOf l (Mm.v2p v)) :
    Mm.Held s m' l ∧ (∀ n, s.entry m'.mem n = s.entry m.mem n) ∧ m' = { m with mem := m'.mem } := by
  obtain ⟨m₁, hm₁, hagree, hregs⟩ := h m
  cases hm.symm.trans hm₁
  have hframe : ∀ p, p = Mm.v2p v → Mm.IsFrame p := fun p hp => hp ▸ hv.isFrame
  exact ⟨hs.agree (by rw [hregs]) hagree hframe fun p hp => hp ▸ ⟨hvs, hvl⟩,
    (hs.space.agree hagree hframe fun p hp => hp ▸ hvs).2, hregs⟩

/-- CR3 has no part in what an address space is. -/
theorem held_lcr3 {m : Mm} {val : Nat} (h : Mm.Held s m l) : Mm.Held s { m with cr3 := val } l := by
  have hagree : Mm.AgreeOff (fun _ => False) m.mem m.mem := fun _ _ => rfl
  exact h.agree rfl hagree (fun _ hp => hp.elim) fun _ hp => hp.elim

/-- `load_icode` for a binary without segments. -/
theorem loadIcode_bare {tf pgdir binary : Nat} {img : Memory} {m m₁ m₂ : Mm}
    (hmagic : (Elf.header img binary).magic = Elf.magic) (hph : (Elf.header img binary).phnum = 0)
    (hm₁ : Mm.kstore (tf + 60) (Elf.header img binary).entry m = .ok ((), m₁))
    (hm₂ : Mm.regionAlloc pgdir (Mm.ustacktop - 4096) 4096 (Mm.pteW ||| Mm.pteU) m₁ =
      .ok ((), m₂)) : loadIcode tf pgdir img binary m = .ok (0, m₂) := by
  rw [loadIcode, if_neg (not_not.2 hmagic)]
  dsimp only
  rw [hph]
  exact Act.bind_eq_ok.2 ⟨0, m, rfl, Act.bind_eq_ok.2 ⟨(), m₁, hm₁, Act.bind_eq_ok.2
    ⟨(), m₂, hm₂, rfl⟩⟩⟩

/-- A `task_create` that has its directory. -/
theorem taskCreate_run {pgdir binary range : Nat} {img : Memory} {m m₁ m₂ : Mm}
    (hr : taskAlloc k = .ok (some t, k₁)) (hm : Mm.mapkvm k₁.mm = .ok (pgdir, m)) (hp : pgdir ≠ 0)
    (hm₁ : initTf (k₁.tasks t).tf m = .ok ((), m₁))
    (hm₂ : loadIcode (k₁.tasks t).tf pgdir img binary { m₁ with cr3 := Mm.p2v pgdir } =
      .ok (range, m₂)) :
    ∃ k', taskCreate img binary k = .ok (some t, k') ∧
      k'.mm = { m₂ with cr3 := Mm.p2v k₁.kpgdir } ∧ (k'.tasks t).pgdir = pgdir ∧
      (k'.tasks t).sz = range ∧ k'.state t = .runnable ∧ k'.rootp = some t := by
  rw [taskCreate, Act.bind_of_ok hr]
  dsimp only
  rw [Act.bind_of_ok (onMm_eq_ok.2 ⟨m, hm, rfl⟩), Act.bind_of_ok (updTask_eq_ok (u := ()).2 rfl),
    if_neg hp]
  generalize hk₂ : Kernel.setTask _ t _ = k₂
  have hmm : k₂.mm = m := hk₂ ▸ rfl
  have hkp : k₂.kpgdir = k₁.kpgdir := hk₂ ▸ rfl
  have htf : (k₂.tasks t).tf = (k₁.tasks t).tf := by
    rw [← hk₂]
    simp
  have hdir : (k₂.tasks t).pgdir = pgdir := by
    rw [← hk₂]
    simp
  have hlcr3 : ∀ val (m : Mm), Mm.lcr3 val m = .ok ((), { m with cr3 := val }) := fun _ _ => rfl
  rw [← htf, ← hmm] at hm₁
  rw [← htf] at hm₂
  rw [Act.bind_of_ok (Act.get_eq_ok.2 ⟨rfl, rfl⟩), Act.bind_of_ok (onMm_eq_ok.2 ⟨m₁, hm₁, rfl⟩),
    Act.bind_of_ok (onMm_eq_ok.2 ⟨_, hlcr3 _ _, rfl⟩),
    Act.bind_of_ok (onMm_eq_ok.2 ⟨m₂, hm₂, rfl⟩),
    Act.bind_of_ok (onMm_eq_ok.2 ⟨_, hlcr3 _ _, rfl⟩), hkp]
  refine ⟨_, rfl, rfl, ?_, ?_, ?_, rfl⟩
  · simpa using hdir
  · simp
  · simp [Kernel.state]

/-- The frames of the kernel's mappings are different. -/
theorem kvmEntry_inj {m : Mm} (hm : Mm.Layout m) {i j : Nat} (hi : Mm.present (Mm.kvmEntry m i))
    (hj : Mm.present (Mm.kvmEntry m j))
    (he : Mm.pteAddr (Mm.kvmEntry m i) = Mm.pteAddr (Mm.kvmEntry m j)) : i = j := by
  have hfits := hm.fits
  have haddr : ∀ n, Mm.present (Mm.kvmEntry m n) →
      524288 ≤ n ∧ Mm.pteAddr (Mm.kvmEntry m n) = 4096 * (n - 524288) := by
    intro n hn
    unfold Mm.kvmEntry at hn ⊢
    split_ifs at hn ⊢ with h₁ h₂
    · rw [(Mm.mkPte_spec (by decide)).2.1, Mm.pteAddr]
      omega
    · rw [(Mm.mkPte_spec (by decide)).2.1, Mm.pteAddr]
      omega
    · exact absurd hn Mm.not_present_zero
  have h₁ := haddr i hi
  have h₂ := haddr j hj
  omega

/-- The first task made from a binary without segments. -/
theorem taskCreate_bare {img : Memory} {binary : Nat} (h : Pages k l)
    (hrange : ∀ v ∈ l, Mm.InRange k.mm v) (hu : firstUnused k = some t)
    (hlen : 3 + Mm.kvmPages k.mm ≤ l.length)
    (hmagic : (Elf.header img binary).magic = Elf.magic)
    (hph : (Elf.header img binary).phnum = 0) :
    ∃ k' s l', taskCreate img binary k = .ok (some t, k') ∧
      (∀ i, Imaged { k' with inittask := i, current := some t } t s l') ∧
      (k'.tasks t).sz = 0 ∧ Mm.kvmPages k'.mm = Mm.kvmPages k.mm ∧
      (∀ n, n < 524288 → Mm.present (s.entry k'.mm.mem n) → n = 524287) ∧
      l.length ≤ l'.length + 3 + Mm.kvmPages k.mm := by
  obtain ⟨r, k₁, hr⟩ := taskAlloc_total k
  rcases taskAlloc_pool h.pool hr with ⟨-, -, hnone | hnil⟩ |
    ⟨t', v, l₁, rfl, hut, rfl, hpool, hstack, htf, hregs, hagree⟩
  · rw [hu] at hnone
    cases hnone
  · rw [hnil, List.length_nil] at hlen
    omega
  cases hut.symm.trans hu
  have hv : Mm.IsPage v := h.pool.page v List.mem_cons_self
  have hvl : ¬ Mm.framesOf l₁ (Mm.v2p v) := Mm.not_framesOf_tail h.pool
  have hlayout : Mm.Layout k₁.mm := by
    rw [hregs]
    exact ⟨h.layout.aligned, h.layout.above, h.layout.below, h.layout.fits⟩
  have hpages : Mm.kvmPages k₁.mm = Mm.kvmPages k.mm := by
    rw [hregs]
    rfl
  rw [List.length_cons] at hlen
  -- the directory
  rcases Mm.mapkvm_spec hpool hlayout with ⟨_, -, -, hshort⟩ |
    ⟨c, us, l₂, m, hm, hfresh, hl, -, hentry, htab, hlength⟩
  · omega
  have hsub : ∀ u ∈ l₂, u ∈ l₁ := fun u hu => hl ▸ List.mem_append_right _ hu
  have hvc : ¬ c.Has (Mm.v2p v) := fun hc =>
    hvl (hl ▸ Mm.framesOf_append.2 (Or.inl (hfresh.has _ hc)))
  have hvl₂ : ¬ Mm.framesOf l₂ (Mm.v2p v) := fun ⟨u, hu, he⟩ => hvl ⟨u, hsub u hu, he⟩
  -- the trap frame
  obtain ⟨m₁, hm₁, -⟩ := inside_initTf hv m
  obtain ⟨hheld₁, hentry₁, hregs₁⟩ := (inside_initTf hv).held hv hm₁ hfresh.held hvc hvl₂
  have hheld₂ : Mm.Held c { m₁ with cr3 := Mm.p2v (Mm.p2v c.dir) } l₂ := held_lcr3 hheld₁
  obtain ⟨m₂, hm₂, -⟩ := inside_kstore (x := 4076) hv (by decide) (Elf.header img binary).entry
    { m₁ with cr3 := Mm.p2v (Mm.p2v c.dir) }
  obtain ⟨hheld₃, hentry₃, hregs₂⟩ := (inside_kstore (x := 4076) hv (by decide)
    (Elf.header img binary).entry).held hv hm₂ hheld₂ hvc hvl₂
  -- the page of the stack
  have hperm : Mm.pteW ||| Mm.pteU < 4096 := by decide
  have hregion := @Mm.regionAlloc_cases c m₂ l₂ 524287 1 (Mm.pteW ||| Mm.pteU) 2147479552 4096
    hheld₃ hperm (by omega) (by omega) (by omega)
  rw [show 2147479552 = Mm.ustacktop - 4096 by decide] at hregion
  rcases hregion with ⟨hshort, -⟩ | ⟨s, l₃, m₃, hregion, hm₃⟩
  · omega
  have hload : loadIcode (k₁.tasks t).tf (Mm.p2v c.dir) img binary
      { m₁ with cr3 := Mm.p2v (Mm.p2v c.dir) } = .ok (0, m₃) := by
    rw [htf]
    exact loadIcode_bare hmagic hph hm₂ hm₃
  rw [← htf] at hm₁
  obtain ⟨k', hk', hmm, hpg, hsz, hstate, hroot⟩ :=
    taskCreate_run hr hm (Mm.p2v_ne_zero hfresh.space.dir) hm₁ hload
  have hsub₃ : ∀ u ∈ l₃, u ∈ v :: l₁ :=
    fun u hu => List.mem_cons_of_mem _ (hsub u (hregion.off u hu))
  have hsame : k'.mm.memsz = k.mm.memsz ∧ k'.mm.memStart = k.mm.memStart ∧
      k'.mm.data = k.mm.data := by
    rw [hmm, hregion.regs, hregs₂, hregs₁, hfresh.regs, hregs]
    exact ⟨rfl, rfl, rfl⟩
  have hmem : k'.mm.mem = m₃.mem := by rw [hmm]
  -- the entries: those of the kernel, and the page of the stack
  have hkvm : ∀ n, c.entry m₂.mem n = Mm.kvmEntry k₁.mm n :=
    fun n => (hentry₃ n).trans ((hentry₁ n).trans (hentry n))
  have huser : ∀ n, n < 524288 → Mm.kvmEntry k₁.mm n = 0 := fun n hn => by
    rw [Mm.kvmEntry, if_neg (by omega)]
  have hothers : ∀ n, n ≠ 524287 → s.entry k'.mm.mem n = Mm.kvmEntry k₁.mm n := by
    intro n hn
    rw [hmem, hregion.kept n (by omega), hkvm]
  obtain ⟨u, hul, hul₃, hus, hue⟩ := hregion.taken 524287 le_rfl (by omega) (by
    rw [hkvm, huser _ (by decide)]
    exact Mm.not_present_zero)
  rw [← hmem] at hue
  have hupage : Mm.IsPage u := hpool.page u (hsub u hul)
  have huaddr : Mm.pteAddr (s.entry k'.mm.mem 524287) = Mm.v2p u := by
    rw [hue, Mm.pteAddr_copy hupage hperm]
  have honly : ∀ n, n < 524288 → Mm.present (s.entry k'.mm.mem n) → n = 524287 := by
    intro n hn hp
    by_contra hne
    rw [hothers n hne, huser n hn] at hp
    exact Mm.not_present_zero hp
  have hheld : Mm.Held s k'.mm l₃ := by
    rw [hmm]
    exact held_lcr3 hregion.held
  have hlayout' : Mm.Layout k'.mm := by
    obtain ⟨hmemsz, -, hdata⟩ := hsame
    exact ⟨hdata ▸ h.layout.aligned, hdata ▸ h.layout.above, by
      rw [hdata, hmemsz]; exact h.layout.below, hmemsz ▸ h.layout.fits⟩
  have hin : ∀ u ∈ l₃, Mm.InRange k'.mm u := by
    intro u hu
    rw [Mm.InRange, hsame.1, hsame.2.1]
    exact hrange u (hsub₃ u hu)
  have hzero : ∀ x, ((({ k' with inittask := x, current := some t } : Kernel).tasks t).sz) = 0 :=
    fun _ => hsz
  refine ⟨k', s, l₃, hk', fun i => ?_, hsz, ?_, honly, ?_⟩
  · refine ⟨⟨⟨hlayout', hsame.2.1 ▸ h.start, hheld.pool⟩, rfl, ?_, hheld.space, ?_, ?_, ?_⟩, hin, ?_,
      ?_, ?_, ?_, ?_, ?_, ?_⟩
    · show k'.state t ≠ .unused
      rw [hstate]
      simp
    · exact hpg.trans (by rw [hregion.dir])
    · rintro p hp ⟨w, hw, he⟩
      exact hheld.off w hw (he ▸ hp)
    · rw [hzero]
      exact Nat.zero_le _
    · rw [hzero]
      exact Nat.zero_le _
    · show Mm.present (s.entry k'.mm.mem 524287)
      rw [hue]
      exact (Mm.mkPte_spec hperm).1
    · intro n hn hp
      have := honly n (by omega) hp
      omega
    · intro n hn hp
      cases honly n hn hp
      exact huaddr ▸ hupage.isFrame
    · rintro n hn hp ⟨w, hw, he⟩
      cases honly n hn hp
      have hwpage := hheld.pool.page w hw
      exact hul₃ (Mm.v2p_inj hupage.2.2 hwpage.2.2 (huaddr.symm.trans he) ▸ hw)
    · intro n hn hp
      cases honly n hn hp
      exact huaddr ▸ hus
    · intro a b hab ha hb he
      by_cases ha' : a = 524287
      · rw [ha', honly b (by omega) hb]
      · by_cases hb' : b = 524287
        · rw [hb', honly a (by omega) ha]
        · have hea := hothers a ha'
          have heb := hothers b hb'
          exact kvmEntry_inj hlayout (hea ▸ ha) (heb ▸ hb) (hea ▸ heb ▸ he)
  · exact Mm.kvmPages_congr hsame.1
  · have := hregion.few
    rw [List.length_cons]
    omega

end Task

end Chunix
