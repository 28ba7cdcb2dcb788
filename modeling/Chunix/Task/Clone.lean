import Chunix.Mm.Clone
import Chunix.Mm.View
import Chunix.Task.Atomic

/-!
# What a child gets

`fork` copies the pages below `sz` with `copy_uvm` and the page of the stack with
`copy_page`. Everything it writes lies in pages that were free, so the caller keeps its
memory and no other address space shares a page with the child. `copy_uvm` panics at a
part of the caller's memory that has no page table, unless the pages run out before it
gets there. Without a slot or a page for the kernel stack `fork` goes on with the null
pointer and writes into the caller's first page.
-/

namespace Chunix

namespace Task

open Machine Kernel

variable {k k' k₁ : Kernel} {c t : Slot} {s d : Mm.Space} {l l' : List Nat}

/-- The task `c` that is about to call `fork` has an image: segments below `sz`, with any
holes between them, and the page of the stack. -/
structure Imaged (k : Kernel) (c : Slot) (s : Mm.Space) (l : List Nat) : Prop
    extends Parent k c s l where
  range : ∀ v ∈ l, Mm.InRange k.mm v
  top : (k.tasks c).sz ≤ Mm.ustacktop - 4096
  stack : Mm.present (s.entry k.mm.mem 524287)
  below : ∀ n, n < 524287 → Mm.present (s.entry k.mm.mem n) → 4096 * n < (k.tasks c).sz
  isFrame : ∀ n, n < 524288 → Mm.present (s.entry k.mm.mem n) →
    Mm.IsFrame (Mm.pteAddr (s.entry k.mm.mem n))
  free : ∀ n, n < 524288 → Mm.present (s.entry k.mm.mem n) →
    ¬ Mm.framesOf l (Mm.pteAddr (s.entry k.mm.mem n))
  apart : ∀ n, n < 524288 → Mm.present (s.entry k.mm.mem n) →
    ¬ s.Has (Mm.pteAddr (s.entry k.mm.mem n))
  inj : ∀ i j, i / 1024 = j / 1024 → Mm.present (s.entry k.mm.mem i) →
    Mm.present (s.entry k.mm.mem j) →
    Mm.pteAddr (s.entry k.mm.mem i) = Mm.pteAddr (s.entry k.mm.mem j) → i = j

/-- A page that may be on the free list while `s` is in use. -/
structure Spare (s : Mm.Space) (m : Mm) (v : Nat) : Prop where
  page : Mm.IsPage v
  range : Mm.InRange m v
  off : ¬ s.Has (Mm.v2p v)
  free : ∀ n, n < 524288 → Mm.present (s.entry m.mem n) →
    Mm.pteAddr (s.entry m.mem n) ≠ Mm.v2p v

theorem Imaged.spare {v : Nat} (h : Imaged k c s l) (hv : v ∈ l) : Spare s k.mm v :=
  ⟨h.pool.page v hv, h.range v hv, fun hs => h.off _ hs ⟨v, hv, rfl⟩,
    fun n hn hp he => h.free n hn hp ⟨v, hv, he⟩⟩

/-- The image outlives writes to other pages and changes of the free list. -/
theorem Imaged.agree {P : Nat → Prop} (h : Imaged k c s l) (hcur : k'.current = some c)
    (hused : k'.state c ≠ .unused) (hpgdir : (k'.tasks c).pgdir = (k.tasks c).pgdir)
    (hsz : (k'.tasks c).sz = (k.tasks c).sz)
    (hregs : k'.mm.memsz = k.mm.memsz ∧ k'.mm.memStart = k.mm.memStart ∧ k'.mm.data = k.mm.data)
    (hagree : Mm.AgreeOff P k.mm.mem k'.mm.mem)
    (hP : ∀ p, P p → ∃ v, Spare s k.mm v ∧ p = Mm.v2p v) (hpool : Mm.Pool k'.mm l')
    (hl : ∀ v ∈ l', Spare s k.mm v) : Imaged k' c s l' := by
  have hframe : ∀ p, P p → Mm.IsFrame p := by
    intro p hp
    obtain ⟨v, hv, he⟩ := hP p hp
    rw [he]
    exact hv.page.isFrame
  have hoff : ∀ p, P p → ¬ s.Has p := by
    intro p hp
    obtain ⟨v, hv, he⟩ := hP p hp
    rw [he]
    exact hv.off
  obtain ⟨hmemsz, hstart, hdata⟩ := hregs
  obtain ⟨hs, hentry⟩ := h.space.agree hagree hframe hoff
  have hlayout : Mm.Layout k'.mm := by
    refine ⟨?_, ?_, ?_, ?_⟩
    · rw [hdata]
      exact h.layout.aligned
    · rw [hdata]
      exact h.layout.above
    · rw [hdata, hmemsz]
      exact h.layout.below
    · rw [hmemsz]
      exact h.layout.fits
  have hrange : ∀ v, Mm.InRange k.mm v → Mm.InRange k'.mm v := by
    intro v hv
    rw [Mm.InRange, hstart, hmemsz]
    exact hv
  refine ⟨⟨⟨hlayout, hstart ▸ h.start, hpool⟩, hcur, hused, hs, hpgdir.trans h.pgdir, ?_,
    hsz ▸ h.sz⟩, fun v hv => hrange v (hl v hv).range, hsz ▸ h.top, ?_, ?_, ?_, ?_, ?_, ?_⟩
  · rintro p hp ⟨v, hv, he⟩
    exact (hl v hv).off (he ▸ hp)
  · rw [hentry]
    exact h.stack
  · intro n hn hp
    rw [hentry] at hp
    rw [hsz]
    exact h.below n hn hp
  · intro n hn hp
    rw [hentry] at hp ⊢
    exact h.isFrame n hn hp
  · rintro n hn hp ⟨v, hv, he⟩
    rw [hentry] at hp he
    exact (hl v hv).free n hn hp he
  · intro n hn hp
    rw [hentry] at hp ⊢
    exact h.apart n hn hp
  · intro i j hij hi hj he
    rw [hentry] at hi hj
    rw [hentry, hentry] at he
    exact h.inj i j hij hi hj he

/-- The task `c` keeps its page tables and the contents of its pages. -/
structure Intact (c : Slot) (s : Mm.Space) (k k' : Kernel) : Prop where
  pgdir : (k'.tasks c).pgdir = (k.tasks c).pgdir
  space : s.At k'.mm.mem
  entry : ∀ n, s.entry k'.mm.mem n = s.entry k.mm.mem n
  bytes : ∀ n x, n < 524288 → x < 4096 → Mm.present (s.entry k.mm.mem n) →
    k'.mm.mem (Mm.pteAddr (s.entry k.mm.mem n) + x) = k.mm.mem (Mm.pteAddr (s.entry k.mm.mem n) + x)

/-- An address space none of whose tables and user pages is on the list `l`. -/
structure Clear (o : Mm.Space) (m : Mm) (l : List Nat) : Prop where
  space : o.At m.mem
  off : ∀ p, o.Has p → ¬ Mm.framesOf l p
  free : ∀ n, n < 524288 → Mm.present (o.entry m.mem n) →
    ¬ Mm.framesOf l (Mm.pteAddr (o.entry m.mem n))

/-- The address space `d` has the user pages of `s`, with the same flags and contents, and
no address space that was there before has one of its pages. -/
structure Duplicate (s : Mm.Space) (l : List Nat) (k k' : Kernel) (d : Mm.Space) : Prop where
  space : d.At k'.mm.mem
  present : ∀ n, n < 524288 →
    (Mm.present (d.entry k'.mm.mem n) ↔ Mm.present (s.entry k.mm.mem n))
  flags : ∀ n, n < 524288 → Mm.present (s.entry k.mm.mem n) →
    Mm.pteFlags (d.entry k'.mm.mem n) = Mm.pteFlags (s.entry k.mm.mem n)
  bytes : ∀ n x, n < 524288 → x < 4096 → Mm.present (s.entry k.mm.mem n) →
    k'.mm.mem (Mm.pteAddr (d.entry k'.mm.mem n) + x) = k.mm.mem (Mm.pteAddr (s.entry k.mm.mem n) + x)
  inj : ∀ i j, i < 524288 → j < 524288 → Mm.present (d.entry k'.mm.mem i) →
    Mm.present (d.entry k'.mm.mem j) →
    Mm.pteAddr (d.entry k'.mm.mem i) = Mm.pteAddr (d.entry k'.mm.mem j) → i = j
  alone : ∀ o, Clear o k.mm l → ∀ i j, i < 524288 → j < 524288 →
    Mm.present (o.entry k'.mm.mem i) → Mm.present (d.entry k'.mm.mem j) →
    Mm.pteAddr (o.entry k'.mm.mem i) ≠ Mm.pteAddr (d.entry k'.mm.mem j)

/-- `fork` returns, the caller keeps its memory, and a child gets a copy of it. -/
def ForkCopies (k : Kernel) (c : Slot) (s : Mm.Space) (l : List Nat) : Prop :=
  ∃ r k', fork k = .ok (r, k') ∧ Intact c s k k' ∧
    (r ≠ -1 → ∃ t d, r = (k'.tasks t).pid ∧ k'.rootp = some t ∧
      (k'.tasks t).pgdir = Mm.p2v d.dir ∧ Duplicate s l k k' d)

/-- `task_alloc` returns. -/
theorem taskAlloc_total (k : Kernel) : ∃ r k', taskAlloc k = .ok (r, k') := by
  rw [taskAlloc, Act.bind_of_ok (Act.get_eq_ok.2 ⟨rfl, rfl⟩)]
  cases hu : firstUnused k with
  | none => exact ⟨none, k, rfl⟩
  | some t =>
      obtain ⟨v, m, hm⟩ := Mm.kallocPage_total k.mm
      dsimp only
      rw [Act.bind_of_ok (onMm_eq_ok.2 ⟨m, hm, rfl⟩), Act.bind_of_ok (updTask_eq_ok (u := ()).2 rfl)]
      by_cases hv : v = 0
      · rw [if_pos hv]
        exact ⟨none, _, rfl⟩
      · rw [if_neg hv]
        exact ⟨some t, _, rfl⟩

/-- The failure path of `fork` with a slot returns. -/
theorem forkFail_some_total {v : Nat} (hk : (k.tasks t).kstack = v) (hv : Mm.IsPage v)
    (hr : Mm.InRange k.mm v) : ∃ k', forkFail (some t) k = .ok (-1, k') ∧ k'.mm = Mm.freed k.mm v := by
  refine ⟨({ k with mm := Mm.freed k.mm v } : Kernel).setTask t
    fun tp => { tp with kstack := 0, state := .unused }, ?_, rfl⟩
  rw [forkFail]
  exact Act.bind_eq_ok.2 ⟨v, k, Act.gets_eq_ok.2 ⟨hk, rfl⟩, Act.bind_eq_ok.2
    ⟨(), _, onMm_eq_ok.2 ⟨_, Mm.kfreePage_of_inRange hv hr, rfl⟩, rfl⟩⟩

section

variable {m m₁ m₂ : Mm} {pgdir : Nat}

/-- A panic of `copy_uvm` is one of `fork`. -/
theorem fork_error {e : Stop} (hr : taskAlloc k = .ok (some t, k₁)) (hc : k₁.current = some c)
    (hm : Mm.copyUvm (k₁.tasks c).pgdir (k₁.tasks c).sz k₁.mm = .error e) : fork k = .error e := by
  rw [fork, Act.bind_of_ok hr]
  dsimp only
  rw [Act.bind_of_ok (getCurrent_eq_ok.2 ⟨hc, rfl⟩), Act.bind_of_ok (Act.gets_eq_ok.2 ⟨rfl, rfl⟩)]
  refine Act.bind_of_error ?_
  rw [onMm, Act.zoom, hm]

/-- `fork` when `copy_uvm` gives up. -/
theorem fork_uncopied (hr : taskAlloc k = .ok (some t, k₁)) (hc : k₁.current = some c)
    (hm : Mm.copyUvm (k₁.tasks c).pgdir (k₁.tasks c).sz k₁.mm = .ok (0, m)) :
    ∃ k₂, fork k = forkFail (some t) k₂ ∧ k₂.mm = m ∧
      (k₂.tasks t).kstack = (k₁.tasks t).kstack := by
  refine ⟨({ k₁ with mm := m } : Kernel).setTask t fun tp => { tp with pgdir := 0 }, ?_, rfl,
    by simp⟩
  rw [fork, Act.bind_of_ok hr]
  dsimp only
  rw [Act.bind_of_ok (getCurrent_eq_ok.2 ⟨hc, rfl⟩), Act.bind_of_ok (Act.gets_eq_ok.2 ⟨rfl, rfl⟩),
    Act.bind_of_ok (onMm_eq_ok.2 ⟨m, hm, rfl⟩), Act.bind_of_ok (updTask_eq_ok (u := ()).2 rfl),
    if_pos rfl]

/-- `fork` when `copy_uvm` has made a directory, up to the result of `copy_page`. -/
theorem fork_copied {r : Nat} (hr : taskAlloc k = .ok (some t, k₁)) (hc : k₁.current = some c)
    (hm : Mm.copyUvm (k₁.tasks c).pgdir (k₁.tasks c).sz k₁.mm = .ok (pgdir, m)) (hp : pgdir ≠ 0)
    (hm₁ : Mm.kmemmove (k₁.tasks t).tf (k₁.tasks c).tf stackFrameSize m = .ok ((), m₁))
    (hm₂ : Mm.copyPage (k₁.tasks c).pgdir pgdir (Mm.ustacktop - 4096) m₁ = .ok (r, m₂)) :
    (r = 0 → ∃ k₂, fork k = forkFail (some t) k₂ ∧ k₂.mm = m₂ ∧
      (k₂.tasks t).kstack = (k₁.tasks t).kstack) ∧
    (r ≠ 0 → ∃ k' m₃, fork k = .ok (((k'.tasks t).pid : Int), k') ∧
      Mm.kstore ((k₁.tasks t).tf + 44) 0 m₂ = .ok ((), m₃) ∧ k'.mm = m₃ ∧ k'.rootp = some t ∧
      (k'.tasks t).pgdir = pgdir ∧ (k'.tasks t).kstack = (k₁.tasks t).kstack) := by
  have hrun : ∃ k₂ : Kernel, k₂.mm = m₂ ∧ (k₂.tasks t).kstack = (k₁.tasks t).kstack ∧
      (k₂.tasks t).pgdir = pgdir ∧
      fork k = (if r = 0 then forkFail (some t) else do
        onMm (Mm.kstore ((k₁.tasks t).tf + 44) 0)
        let pid ← Act.gets fun k => (k.tasks t).pid
        let rootp ← Act.gets fun k => k.rootp
        updTask t fun tp => { tp with state := .runnable, next := rootp }
        Act.modify fun k => { k with rootp := some t }
        return (pid : Int) : Act Kernel Int) k₂ := by
    rw [fork, Act.bind_of_ok hr]
    dsimp only
    rw [Act.bind_of_ok (getCurrent_eq_ok.2 ⟨hc, rfl⟩), Act.bind_of_ok (Act.gets_eq_ok.2 ⟨rfl, rfl⟩),
      Act.bind_of_ok (onMm_eq_ok.2 ⟨m, hm, rfl⟩), Act.bind_of_ok (updTask_eq_ok (u := ()).2 rfl),
      if_neg hp, Act.bind_of_ok (updTask_eq_ok (u := ()).2 rfl)]
    generalize hk₂ : Kernel.setTask (Kernel.setTask _ t _) t _ = k₂
    have hmm : k₂.mm = m := hk₂ ▸ rfl
    have htf : (k₂.tasks t).tf = (k₁.tasks t).tf := by
      rw [← hk₂]
      simp
    have hstack : (k₂.tasks t).kstack = (k₁.tasks t).kstack := by
      rw [← hk₂]
      simp
    have hdir : (k₂.tasks t).pgdir = pgdir := by
      rw [← hk₂]
      simp
    rw [← hmm] at hm₁
    rw [Act.bind_of_ok (Act.gets_eq_ok.2 ⟨rfl, rfl⟩), htf,
      Act.bind_of_ok (onMm_eq_ok.2 ⟨m₁, hm₁, rfl⟩), Act.bind_of_ok (onMm_eq_ok.2 ⟨m₂, hm₂, rfl⟩)]
    exact ⟨{ k₂ with mm := m₂ }, rfl, hstack, hdir, rfl⟩
  obtain ⟨k₂, rfl, hstack, hdir, he⟩ := hrun
  refine ⟨fun h0 => ⟨k₂, ?_, rfl, hstack⟩, fun h0 => ?_⟩
  · rw [he, if_pos h0]
  · rw [he, if_neg h0]
    exact ⟨{ ({ k₂ with mm := _ } : Kernel).setTask t
      fun tp => { tp with state := .runnable, next := k₂.rootp } with rootp := some t }, _, by
        simp; rfl, rfl, rfl, rfl, by simpa using hdir, by simpa using hstack⟩

end

/-- The caller keeps its memory when only free pages are written. -/
theorem Imaged.intact (h : Imaged k c s l) (hagree : Mm.AgreeOff (Mm.framesOf l) k.mm.mem k'.mm.mem)
    {r : Int} (hf : fork k = .ok (r, k')) : Intact c s k k' := by
  have hframe : ∀ p, Mm.framesOf l p → Mm.IsFrame p := fun p => h.pool.isFrame
  obtain ⟨hs, hentry⟩ := h.space.agree hagree hframe fun p hp hsp => h.off p hsp hp
  refine ⟨?_, hs, hentry, fun n x hn hx hp => ?_⟩
  · rcases fork_cases hf with ⟨-, hsame⟩ | ⟨-, t, hforked⟩
    · rw [hsame.used c h.used]
    · rw [hforked.tasks c fun he => h.used (he ▸ firstUnused_state hforked.slot)]
  · exact hagree.aligned hframe (Mm.pteAddr_mod _) (h.free n hn hp) hx

theorem or_one_of_odd {n : Nat} (h : n % 2 = 1) : n ||| 1 = n := by
  refine Nat.eq_of_testBit_eq fun i => ?_
  rw [Nat.testBit_or]
  cases i with
  | zero => simp [Nat.testBit_zero, h]
  | succ i => simp [Nat.testBit_succ]

/-- The address space into which all the pages of the caller have been copied. -/
theorem Imaged.duplicate {N : Nat} (h : Imaged k c s l)
    (hsub : ∀ v ∈ l', v ∈ l) {l₁ : List Nat}
    (hc : Mm.Copying s (Mm.framesOf l) k.mm l' N d l₁ k'.mm 524288) : Duplicate s l k k' d := by
  have hframe : ∀ p, Mm.framesOf l p → Mm.IsFrame p := fun p => h.pool.isFrame
  have hflags : ∀ n, Mm.pteFlags (s.entry k.mm.mem n) < 4096 := fun n => Nat.mod_lt _ (by decide)
  have hpresent : ∀ n, n < 524288 →
      (Mm.present (d.entry k'.mm.mem n) ↔ Mm.present (s.entry k.mm.mem n)) := by
    intro n hn
    constructor
    · intro hp
      by_contra hno
      exact hc.others n hn (fun hlt => hno hlt.2) hp
    · intro hp
      obtain ⟨v, -, -, -, he, -⟩ := hc.copies n hn hp
      rw [he]
      exact (Mm.mkPte_spec (hflags n)).1
  have hcopy : ∀ n, n < 524288 → Mm.present (s.entry k.mm.mem n) →
      ∃ v ∈ l, Mm.pteAddr (d.entry k'.mm.mem n) = Mm.v2p v ∧
        Mm.pteFlags (d.entry k'.mm.mem n) = Mm.pteFlags (s.entry k.mm.mem n) ∧
        ∀ x, x < 4096 →
          k'.mm.mem (Mm.v2p v + x) = k.mm.mem (Mm.pteAddr (s.entry k.mm.mem n) + x) := by
    intro n hn hp
    obtain ⟨v, hv, -, -, he, hx⟩ := hc.copies n hn hp
    have hodd : Mm.pteFlags (s.entry k.mm.mem n) % 2 = 1 := by
      unfold Mm.present at hp
      unfold Mm.pteFlags
      omega
    rw [he]
    refine ⟨v, hsub v hv, Mm.pteAddr_copy (h.pool.page v (hsub v hv)) (hflags n), ?_, hx⟩
    rw [(Mm.mkPte_spec (hflags n)).2.2, or_one_of_odd hodd]
  refine ⟨hc.held.space, hpresent, ?_, ?_, ?_, ?_⟩
  · intro n hn hp
    obtain ⟨v, -, -, hfl, -⟩ := hcopy n hn hp
    exact hfl
  · intro n x hn hx hp
    obtain ⟨v, -, ha, -, hb⟩ := hcopy n hn hp
    rw [ha, hb x hx]
  · intro i j hi hj hpi hpj he
    exact hc.inj i j hi hj ((hpresent i hi).1 hpi) ((hpresent j hj).1 hpj) he
  · intro o ho i j hi hj hpi hpj he
    obtain ⟨-, hentry⟩ := ho.space.agree hc.agree hframe fun p hp hop => ho.off p hop hp
    obtain ⟨v, hv, ha, -⟩ := hcopy j hj ((hpresent j hj).1 hpj)
    rw [hentry] at hpi he
    exact ho.free i hi hpi ⟨v, hv, he.trans ha⟩

/-- What `fork` comes to when there is a slot and a page for the kernel stack: it panics
at a hole, it fails because there are not enough pages, or it makes a child. -/
inductive ForkOutcome (k : Kernel) (c : Slot) (s : Mm.Space) (l : List Nat) : Prop
  | panics (j : Nat) (hj : 4096 * j < (k.tasks c).sz) (ht : s.tab (j / 1024) = none)
      (hlen : 1 + Mm.kvmPages k.mm + Mm.spent s k.mm.mem j ≤ l.length)
      (hf : fork k = .error (.panic "copy_uvm: pte doesn't exist"))
  | fails (k' : Kernel) (hf : fork k = .ok (-1, k'))
      (hagree : Mm.AgreeOff (Mm.framesOf l) k.mm.mem k'.mm.mem)
      (hfew : l.length < 1 + Mm.kvmPages k.mm + Mm.spent s k.mm.mem 524288)
      (hholes : ∀ j, 4096 * j < (k.tasks c).sz → s.tab (j / 1024) = none →
        l.length < 1 + Mm.kvmPages k.mm + Mm.spent s k.mm.mem j)
  | copies (t : Slot) (d : Mm.Space) (v N : Nat) (l₁ l' : List Nat) (k' : Kernel)
      (hf : fork k = .ok (((k'.tasks t).pid : Int), k')) (hl : l = v :: l₁)
      (hlen : l₁.length = N + Mm.kvmPages k.mm)
      (hc : Mm.Copying s (Mm.framesOf l) k.mm l₁ N d l' k'.mm 524288)
      (hroot : k'.rootp = some t) (hpgdir : (k'.tasks t).pgdir = Mm.p2v d.dir)
      (hstack : (k'.tasks t).kstack = v)
      (hholes : ∀ j, 4096 * j < (k.tasks c).sz → s.tab (j / 1024) ≠ none)

theorem Imaged.fork_outcome (h : Imaged k c s l) (hu : firstUnused k ≠ none) (hl : l ≠ []) :
    ForkOutcome k c s l := by
  obtain ⟨r, k₁, hr⟩ := taskAlloc_total k
  rcases taskAlloc_pool h.pool hr with ⟨-, -, hnone⟩ |
    ⟨t, v, l₁, rfl, hut, rfl, hpool, hstack, htf, hregs, hagree⟩
  · exact (hnone.elim hu hl).elim
  rcases taskAlloc_cases hr with ⟨hr, -⟩ | ⟨t', ht, -, hsame, -, -⟩
  · cases hr
  cases ht
  have hct : c ≠ t := fun he => h.used (he ▸ firstUnused_state hut)
  have hv : Mm.IsPage v := h.pool.page v List.mem_cons_self
  have hvl : ¬ Mm.framesOf l₁ (Mm.v2p v) := Mm.not_framesOf_tail h.pool
  have hvP : Mm.framesOf (v :: l₁) (Mm.v2p v) := ⟨v, List.mem_cons_self, rfl⟩
  have hsub : ∀ u ∈ l₁, u ∈ v :: l₁ := fun u hu => List.mem_cons_of_mem _ hu
  have ho : Mm.Original s (Mm.framesOf (v :: l₁)) k.mm l₁ := by
    exact ⟨h.space, h.off, h.free, fun u hu => h.pool.page u (hsub u hu),
      fun p hp => Mm.framesOf_cons.2 (Or.inr hp), fun p => h.pool.isFrame⟩
  have hrange : ∀ u ∈ l₁, Mm.InRange k.mm u := fun u hu => h.range u (hsub u hu)
  have hlayout : Mm.Layout k₁.mm := by
    rw [hregs]
    exact ⟨h.layout.aligned, h.layout.above, h.layout.below, h.layout.fits⟩
  have hpages : Mm.kvmPages k₁.mm = Mm.kvmPages k.mm := by
    rw [hregs]
    rfl
  have hagree₁ : Mm.AgreeOff (Mm.framesOf (v :: l₁)) k.mm.mem k₁.mm.mem :=
    fun a ha => hagree a fun p hp => ha p (hp ▸ hvP)
  have hsz : (k.tasks c).sz ≤ 2147483648 := h.sz
  have hcur : k₁.current = some c := hsame.current.trans h.current
  have hdir : (k₁.tasks c).pgdir = Mm.p2v s.dir := by rw [hsame.tasks c hct, h.pgdir]
  have hsz₁ : (k₁.tasks c).sz = (k.tasks c).sz := by rw [hsame.tasks c hct]
  -- the failure path gives the kernel stack back
  have hfail : ∀ k₂ : Kernel, fork k = forkFail (some t) k₂ →
      (k₂.tasks t).kstack = (k₁.tasks t).kstack →
      Mm.AgreeOff (Mm.framesOf (v :: l₁)) k.mm.mem k₂.mm.mem →
      k₂.mm = { k.mm with mem := k₂.mm.mem, freeList := k₂.mm.freeList } →
      ∃ k', fork k = .ok (-1, k') ∧
        Mm.AgreeOff (Mm.framesOf (v :: l₁)) k.mm.mem k'.mm.mem := by
    intro k₂ hf hk₂ ha₂ hr₂
    have hin : Mm.InRange k₂.mm v := by
      rw [hr₂]
      exact h.range v List.mem_cons_self
    obtain ⟨k', hk', hmm⟩ := forkFail_some_total (hk₂.trans hstack) hv hin
    rw [← hf] at hk'
    refine ⟨k', hk', ?_⟩
    rw [hmm]
    exact ha₂.trans (Mm.agreeOff_freed hv) (fun _ hp => hp) fun p hp => hp ▸ hvP
  rcases Mm.copyUvm_outcome hpool hlayout ho hagree₁ hregs hrange hsz with
    ⟨hlen, m', hm', ha', hr'⟩ | ⟨N, hN, houtcome⟩
  · rw [← hdir, ← hsz₁] at hm'
    obtain ⟨k₂, hf, rfl, hk₂⟩ := fork_uncopied hr hcur hm'
    obtain ⟨k', hk', hkeep⟩ := hfail k₂ hf hk₂ ha' hr'
    have hshort : ∀ x, (v :: l₁).length < 1 + Mm.kvmPages k.mm + x := by
      intro x
      rw [List.length_cons]
      omega
    exact .fails k' hk' hkeep (hshort _) fun j _ _ => hshort _
  rw [← hdir, ← hsz₁] at houtcome
  rw [hpages] at hN
  have hlen : (v :: l₁).length = N + Mm.kvmPages k.mm + 1 := by
    rw [List.length_cons, hN]
  cases houtcome with
  | panics j _ hj hjt hjN he =>
      exact .panics j (hsz₁ ▸ hj) hjt (by omega) (fork_error hr hcur he)
  | fails m' hm' ha' hr' hjN hfew =>
      obtain ⟨k₂, hf, rfl, hk₂⟩ := fork_uncopied hr hcur hm'
      obtain ⟨k', hk', hkeep⟩ := hfail k₂ hf hk₂ ha' hr'
      refine .fails k' hk' hkeep (by omega) fun j hj hjt => ?_
      have := hjN j (Nat.zero_le j) (hsz₁ ▸ hj) hjt
      omega
  | copies d₁ l₂ m' n hm' hc _ hn hn' htab =>
      have hholes : ∀ j, 4096 * j < (k.tasks c).sz → s.tab (j / 1024) ≠ none :=
        fun j hj => htab j (Nat.zero_le j) (hsz₁ ▸ hj)
      rw [hsz₁] at hn hn'
      have htop : (k.tasks c).sz ≤ 4096 * 524287 := h.top
      have hskip := hc.skips (k := 524287) (by omega) fun j hj hj' hp => by
        have := h.below j hj' hp
        omega
      obtain ⟨m₁, hm₁⟩ : ∃ m₁, Mm.kmemmove (k₁.tasks t).tf (k₁.tasks c).tf stackFrameSize m' =
        .ok ((), m₁) := ⟨_, rfl⟩
      have hmove := hm₁
      rw [htf] at hmove
      obtain ⟨hmoved, hregs₁⟩ := agreeOff_kmemmove hv (by decide) (by decide) hmove
      have hcopying := hskip.write ho hvP hvl hmoved hregs₁
      have hne : Mm.p2v d₁.dir ≠ 0 := Mm.p2v_ne_zero hc.held.space.dir
      have haddr : Mm.ustacktop - 4096 = 4096 * 524287 := by decide
      rcases hcopying.copyPage ho hrange (by decide) h.stack with
        ⟨m₂, hm₂, ha₂, hr₂, hfew⟩ | ⟨d, l₃, m₂, hm₂, hd, hdone⟩
      · rw [← haddr, ← hdir] at hm₂
        obtain ⟨k₂, hf, rfl, hk₂⟩ := (fork_copied hr hcur hm' hne hm₁ hm₂).1 rfl
        obtain ⟨k', hk', hkeep⟩ := hfail k₂ hf hk₂ ha₂ hr₂
        have hfew : N < Mm.spent s k.mm.mem 524288 := hfew
        exact .fails k' hk' hkeep (by omega) fun j hj hjt => absurd hjt (hholes j hj)
      · rw [← haddr, ← hdir] at hm₂
        obtain ⟨k', m₃, hf, hstore, rfl, hroot, hpg, hks⟩ :=
          (fork_copied hr hcur hm' hne hm₁ hm₂).2 hne
        rw [htf, Nat.add_assoc] at hstore
        obtain ⟨hstored, hregs₃⟩ := agreeOff_kstore hv (by decide) hstore
        exact .copies t d v N l₁ l₃ k' hf rfl hN (hdone.write ho hvP hvl hstored hregs₃) hroot
          (by rw [hpg, hd]) (hks.trans hstack) hholes

/-- With enough pages `fork` makes a child, and the caller could call it again. -/
theorem Imaged.forks (h : Imaged k c s l) (hu : firstUnused k = some t)
    (hholes : ∀ j, 4096 * j < (k.tasks c).sz → s.tab (j / 1024) ≠ none)
    (hlen : 1 + Mm.kvmPages k.mm + Mm.spent s k.mm.mem 524288 ≤ l.length) :
    ∃ k' v l', fork k = .ok (((k'.tasks t).pid : Int), k') ∧ (k'.tasks t).kstack = v ∧
      Spare s k'.mm v ∧ v ∉ l' ∧ Imaged k' c s l' ∧ Mm.kvmPages k'.mm = Mm.kvmPages k.mm ∧
      (∀ n, s.entry k'.mm.mem n = s.entry k.mm.mem n) ∧
      l'.length + (1 + Mm.kvmPages k.mm + Mm.spent s k.mm.mem 524288) = l.length := by
  have hne : l ≠ [] := by
    rintro rfl
    rw [List.length_nil] at hlen
    omega
  cases h.fork_outcome (by rw [hu]; simp) hne with
  | panics j hj hjt => exact absurd hjt (hholes j hj)
  | fails _ _ _ hfew => omega
  | copies t' d v N l₁ l' k' hf hl hN hc hroot _ hstack _ =>
      obtain ⟨-, u, hforked⟩ := (fork_cases hf).resolve_left fun hn => by
        have := hn.1
        omega
      cases hforked.rootp.symm.trans hroot
      cases hforked.slot.symm.trans hu
      have hct : c ≠ t := fun he => h.used (he ▸ firstUnused_state hu)
      have htask := hforked.tasks c hct
      have hframe : ∀ p, Mm.framesOf l p → Mm.IsFrame p := fun p => h.pool.isFrame
      have hentry := (h.space.agree hc.agree hframe fun p hp hs => h.off p hs hp).2
      have hsub : ∀ u ∈ l', u ∈ l := fun u hu => hl ▸ List.mem_cons_of_mem _ (hc.list u hu)
      have hv : v ∈ l := hl ▸ List.mem_cons_self
      have himaged : Imaged k' c s l' := by
        refine h.agree (hforked.current.trans h.current) ?_ (by rw [htask]) (by rw [htask])
          ⟨by rw [hc.regs], by rw [hc.regs], by rw [hc.regs]⟩ hc.agree ?_ hc.held.pool
          fun u hu => h.spare (hsub u hu)
        · rw [Kernel.state, htask]
          exact h.used
        · rintro p ⟨u, hu, he⟩
          exact ⟨u, h.spare hu, he⟩
      have hspare := h.spare hv
      refine ⟨k', v, l', hf, hstack, ⟨hspare.page, ?_, hspare.off, fun n hn hp => ?_⟩, ?_, himaged,
        by rw [hc.regs]; rfl, hentry, ?_⟩
      · rw [hc.regs]
        exact hspare.range
      · rw [hentry] at hp ⊢
        exact hspare.free n hn hp
      · intro hvl
        have hnodup := h.pool.nodup
        rw [hl] at hnodup
        exact (List.nodup_cons.1 hnodup).1 (hc.list v hvl)
      · have hlength := hc.length
        rw [hl, List.length_cons]
        omega

/-- The first page of the caller. -/
theorem Imaged.sees (h : Imaged k c s l) (hcr3 : k.mm.cr3 = s.dir) (hp : Mm.present (s.entry k.mm.mem 0)) :
    Mm.Sees s (fun n => n = 0) k.mm := by
  refine ⟨hcr3, h.space, ?_, ?_, ?_, fun n m hn hm _ => hn.trans hm.symm⟩
  · rintro n rfl
    exact hp
  · rintro n rfl
    exact h.isFrame 0 (by decide) hp
  · rintro n rfl
    exact h.apart 0 (by decide) hp

/-- The words behind the first one of a page that is freed. -/
theorem load32_freed {m : Mm} {mem : Memory} {w i : Nat} (hw : Mm.IsPage w) (hi : 0 < i)
    (hlt : 4 * i + 4 ≤ 40)
    (hmem : ∀ a, a % 4096 < 40 → mem a = (Mm.freed m w).mem a) :
    load32 mem (Mm.v2p w + 4 * i) = 0x01010101 := by
  have hle := Mm.v2p_add_le hw
  have hal := hw.isFrame.aligned
  have hbyte : ∀ x, x < 4 → mem (u32 (Mm.v2p w + 4 * i + x)) = 1 := by
    intro x hx
    rw [u32_eq_self (by omega), hmem _ (by omega)]
    simp only [Mm.freed]
    rw [store32_apply_of_lt_or_ge (by omega) (by omega), fill_apply_of_mem (by omega)]
  have h0 := hbyte 0 (by decide)
  rw [Nat.add_zero] at h0
  rw [load32, h0, hbyte 1 (by decide), hbyte 2 (by decide), hbyte 3 (by decide)]
  rfl

/-- No table of the caller can be filled with bytes 1. -/
theorem Imaged.not_filled {q : Nat} (h : Imaged k c s l) (hi : Intact c s k k') (hq : s.Has q)
    (h₁ : load32 k'.mm.mem (q + 4 * 1) = 0x01010101)
    (h₂ : load32 k'.mm.mem (q + 4 * 2) = 0x01010101) : False := by
  have hodd : Mm.present 0x01010101 := by decide
  rcases hq with rfl | ⟨i, ht⟩
  · -- the directory: two tables in the same page
    cases ht₁ : s.tab 1 with
    | none => exact hi.space.absent 1 (by decide) ht₁ (by rw [h₁]; exact hodd)
    | some t₁ =>
        cases ht₂ : s.tab 2 with
        | none => exact hi.space.absent 2 (by decide) ht₂ (by rw [h₂]; exact hodd)
        | some t₂ =>
            have ha₁ := (hi.space.pde 1 t₁ ht₁).2
            have ha₂ := (hi.space.pde 2 t₂ ht₂).2
            rw [h₁] at ha₁
            rw [h₂] at ha₂
            rw [← ha₁] at ht₁
            rw [← ha₂] at ht₂
            exact absurd (hi.space.inj 1 2 _ ht₁ ht₂) (by decide)
  · -- a table: two pages in the same frame
    have hentry : ∀ x, x < 1024 →
        s.entry k.mm.mem (1024 * i + x) = load32 k'.mm.mem (q + 4 * x) := by
      intro x hx
      rw [← hi.entry, Mm.Space.entry_of_some (show s.tab ((1024 * i + x) / 1024) = some q by
        rw [show (1024 * i + x) / 1024 = i by omega, ht]),
        show (1024 * i + x) % 1024 = x by omega]
    have he₁ := hentry 1 (by decide)
    have he₂ := hentry 2 (by decide)
    rw [h₁] at he₁
    rw [h₂] at he₂
    have := h.inj (1024 * i + 1) (1024 * i + 2) (by omega) (by rw [he₁]; exact hodd)
      (by rw [he₂]; exact hodd) (by rw [he₁, he₂])
    omega

/-- The failure path of `fork` without a slot changes the memory of the caller. -/
theorem Imaged.not_intact {n : Int} (h : Imaged k c s l) (hcr3 : k.mm.cr3 = s.dir) (hmm : k₁.mm = k.mm)
    (hf : forkFail none k₁ = .ok (n, k')) : ¬ Intact c s k k' := by
  intro hi
  simp only [forkFail, Act.bind_eq_ok, onMm_eq_ok, Act.pure_eq_ok] at hf
  obtain ⟨w, _, ⟨m, hload, rfl⟩, _, _, ⟨m₁, hfree, rfl⟩, _, _, ⟨m₂, hs₁, rfl⟩, _, _,
    ⟨m₃, hs₂, rfl⟩, -, rfl⟩ := hf
  rw [hmm] at hload
  cases Mm.readOnly_vload32 _ _ _ _ hload
  obtain ⟨⟨hw, hlow, hhigh⟩, hm₁⟩ := Mm.kfreePage_eq_ok.1 hfree
  have hm₁ : Mm.freed k.mm w = m₁ := hm₁
  have hlow : k.mm.memStart ≤ w := hlow
  have hstart := h.start
  have hpage : Mm.IsPage w := ⟨hw, by omega, lt_of_le_of_lt hhigh (u32_lt _)⟩
  have hoff : ∀ a, a % 4096 < 40 → m₃.mem a = (Mm.freed k.mm w).mem a := by
    intro a ha
    rw [(vstore32_offset (by decide) hs₂).2 a (by omega),
      (vstore32_offset (by decide) hs₁).2 a (by omega), hm₁]
  by_cases hq : s.Has (Mm.v2p w)
  · exact h.not_filled hi hq (load32_freed hpage (by decide) (by decide) hoff)
      (load32_freed hpage (by decide) (by decide) hoff)
  · -- the first page is there, and the word at 56 becomes zero
    have hU : ∀ va, va < 4096 → va / 4096 = 0 := fun va hva => by omega
    have hp : Mm.present (s.entry k.mm.mem 0) := by
      by_contra hno
      simp only [Mm.vload32, Act.bind_eq_ok] at hload
      obtain ⟨_, _, hb, -⟩ := hload
      rw [Mm.vload8, Act.bind_of_ok (Act.get_eq_ok.2 ⟨rfl, rfl⟩), Mm.translate, hcr3,
        h.space.walk_eq (by decide), if_neg (by rwa [show u32 56 / 4096 = 0 by decide])] at hb
      cases hb
    have hsees := h.sees hcr3 hp
    have hword := ((Mm.gives_vload32 (U := fun n => n = 0) (by decide)
      fun i hi => hU _ (by omega)).of_eq_ok hsees rfl hload).2.1
    have hagree : Mm.AgreeOff (fun p => p = Mm.v2p w) k.mm.mem m₁.mem :=
      hm₁ ▸ Mm.agreeOff_freed hpage
    have hsame : m₁.cr3 = k.mm.cr3 := hm₁ ▸ rfl
    obtain ⟨hsees₁, -⟩ := hsees.agree hsame hagree (fun p hp => hp ▸ hpage.isFrame)
      fun p hp => hp ▸ hq
    obtain ⟨hsees₂, hview₂⟩ := (Mm.total_vstore32_zero (U := fun n => n = 0) (by decide)
      fun i hi => hU _ (by omega)).of_eq_ok hsees₁ rfl hs₁
    obtain ⟨-, hview₃⟩ := (Mm.total_vstore32_zero (U := fun n => n = 0) (by decide)
      fun i hi => hU _ (by omega)).of_eq_ok hsees₂ rfl hs₂
    have hzero : ∀ a, 56 ≤ a → a < 60 → (Mm.seen s fun n => n = 0).view k.mm a = 0 := by
      intro a ha ha'
      have hin : a / 4096 = 0 := hU a (by omega)
      have hkept : (Mm.seen s fun n => n = 0).view m₃ a =
          (Mm.seen s fun n => n = 0).view k.mm a := by
        rw [Mm.seen_view hin, Mm.seen_view hin, Mm.Space.addr, Mm.Space.addr, Mm.Space.frame,
          Mm.Space.frame, hin, hi.entry]
        exact hi.bytes 0 _ (by decide) (Nat.mod_lt _ (by decide)) hp
      rw [← hkept, hview₃, if_neg (by omega), hview₂, if_pos ⟨ha, by omega⟩]
    rw [hzero 56 (by decide) (by decide), hzero (56 + 1) (by decide) (by decide),
      hzero (56 + 2) (by decide) (by decide), hzero (56 + 3) (by decide) (by decide)] at hword
    exact hpage.2.1 hword

/-- `fork` copies the memory of a task with an image exactly when there is a slot, a page
for the kernel stack, and no part below `sz` without a page table to which `copy_uvm`
gets before the pages run out. -/
theorem fork_copies_iff (h : Imaged k c s l) (hcr3 : k.mm.cr3 = s.dir) :
    ForkCopies k c s l ↔ firstUnused k ≠ none ∧ l ≠ [] ∧
      ∀ j, 4096 * j < (k.tasks c).sz → s.tab (j / 1024) = none →
        l.length < 1 + Mm.kvmPages k.mm + Mm.spent s k.mm.mem j := by
  by_cases hsome : firstUnused k ≠ none ∧ l ≠ []
  · cases h.fork_outcome hsome.1 hsome.2 with
    | panics j hj hjt hlen he =>
        refine iff_of_false ?_ fun hall => absurd (hall.2.2 j hj hjt) (by omega)
        rintro ⟨r, k', hf, -⟩
        rw [he] at hf
        cases hf
    | fails k' hf hagree _ hholes =>
        exact iff_of_true ⟨-1, k', hf, h.intact hagree hf, fun hne => absurd rfl hne⟩
          ⟨hsome.1, hsome.2, hholes⟩
    | copies t d v N l₁ l' k' hf hl _ hc hroot hpgdir _ hholes =>
        refine iff_of_true ⟨_, k', hf, h.intact hc.agree hf, fun _ => ⟨t, d, rfl, hroot, hpgdir, ?_⟩⟩
          ⟨hsome.1, hsome.2, fun j hj hjt => absurd hjt (hholes j hj)⟩
        refine h.duplicate (fun u hu => ?_) hc
        rw [hl]
        exact List.mem_cons_of_mem _ hu
  · refine iff_of_false ?_ fun hall => hsome ⟨hall.1, hall.2.1⟩
    rintro ⟨r, k', hf, hi, -⟩
    obtain ⟨o, k₁, hr, hf⟩ := Act.bind_eq_ok.1 hf
    rcases taskAlloc_pool h.pool hr with ⟨rfl, hmm, -⟩ | ⟨t, v, l', rfl, hu, rfl, -⟩
    · exact h.not_intact hcr3 hmm hf hi
    · exact hsome ⟨by rw [hu]; simp, by simp⟩

/-- The address space of a program of one page whose table is at the index `i` of the
directory, and of its stack. -/
def smallSpace (i : Nat) : Mm.Space where
  dir := 0x150000
  tab j := if j = i then some 0x151000 else if j = 511 then some 0x153000 else none

/-- Eight free pages. -/
def eightPages : List Nat := (List.range 8).map fun j => 0x80160000 + 4096 * j

/-- The memory in which the first `n` of the eight pages are linked to the next one. -/
def links : Nat → Memory
  | 0 => fun _ => 0
  | n + 1 => store32 (links n) (0x160000 + 4096 * n) (0x80161000 + 4096 * n)

theorem load32_links {n a : Nat} (hn : n ≤ 8) (ha : a + 4 ≤ 0x160000) : load32 (links n) a = 0 := by
  induction n with
  | zero => rfl
  | succ n ih =>
      rw [links, load32_store32_of_disjoint (by omega) (by omega) (by omega)]
      exact ih (by omega)

/-- A kernel with one task that runs a program of one page, linked at `4194304 * i`. -/
def smallKernel (i : Nat) : Kernel where
  mm := {
    mem := store32 (store32 (store32 (store32 (links 7) (0x150000 + 4 * i) 0x151007)
      (0x150000 + 4 * 511) 0x153007) 0x151000 0x152007) (0x153000 + 4 * 1023) 0x154007
    freeList := 0x80160000
    cr3 := 0x150000
    memsz := 2048
    memStart := 0x80140000
    data := 0x80120000 }
  tasks := fun t => if t = 0 then { Task.zero with
      state := .running, pid := 1, pgdir := 0x80150000, sz := 4194304 * i + 4096,
      kstack := 0x80155000, tf := 0x80155000 + 4016 }
    else Task.zero
  rootp := some 0
  current := some 0
  inittask := some 0
  nextpid := 2
  kpgdir := 0x80150000
  esp0 := 0
  trapRet := 0
  doNothing := 0

theorem load32_store32_aligned {mem : Memory} {a b w : Nat} (ha : a % 4 = 0) (hb : b % 4 = 0)
    (ha' : a < 4294967296) (hb' : b < 4294967296) (hw : w < 4294967296) :
    load32 (store32 mem a w) b = if b = a then w else load32 mem b := by
  by_cases h : b = a
  · rw [if_pos h, h, load32_store32_self, u32_eq_self hw]
  · rw [if_neg h, load32_store32_of_disjoint (by omega) (by omega) (by omega)]

/-- What the directory and the two tables hold. -/
theorem smallKernel_words {i b : Nat} (hi : i < 511) (hb : b % 4 = 0) (hlt : b < 0x160000) :
    load32 (smallKernel i).mm.mem b =
      if b = 0x153000 + 4 * 1023 then 0x154007 else if b = 0x151000 then 0x152007
      else if b = 0x150000 + 4 * 511 then 0x153007 else if b = 0x150000 + 4 * i then 0x151007
      else 0 := by
  simp only [smallKernel]
  rw [load32_store32_aligned (by decide) hb (by decide) (by omega) (by decide),
    load32_store32_aligned (by decide) hb (by decide) (by omega) (by decide),
    load32_store32_aligned (by decide) hb (by decide) (by omega) (by decide),
    load32_store32_aligned (by omega) hb (by omega) (by omega) (by decide),
    load32_links (by decide) (by omega)]

theorem smallKernel_at {i : Nat} (hi : i < 511) : (smallSpace i).At (smallKernel i).mm.mem := by
  have htab : ∀ j t, (smallSpace i).tab j = some t →
      (j = i ∧ t = 0x151000) ∨ (j = 511 ∧ t = 0x153000) := by
    intro j t ht
    simp only [smallSpace] at ht
    split_ifs at ht with h₁ h₂
    · exact Or.inl ⟨h₁, (Option.some.inj ht).symm⟩
    · exact Or.inr ⟨h₂, (Option.some.inj ht).symm⟩
  have hd : (smallSpace i).dir = 0x150000 := rfl
  have hdir : ∀ j, j < 1024 → load32 (smallKernel i).mm.mem (0x150000 + 4 * j) =
      if j = 511 then 0x153007 else if j = i then 0x151007 else 0 := by
    intro j hj
    rw [smallKernel_words hi (by omega) (by omega), if_neg (by omega), if_neg (by omega)]
    split_ifs <;> first | rfl | omega
  refine ⟨hd ▸ ⟨by decide, by decide, by decide⟩, ?_, ?_, ?_, ?_⟩
  · intro j t ht
    rw [hd]
    rcases htab j t ht with ⟨rfl, rfl⟩ | ⟨rfl, rfl⟩
    · exact ⟨by omega, ⟨by decide, by decide, by decide⟩, by decide⟩
    · exact ⟨by decide, ⟨by decide, by decide, by decide⟩, by decide⟩
  · intro j j' t ht ht'
    rcases htab j t ht with ⟨rfl, rfl⟩ | ⟨rfl, rfl⟩
    · rcases htab j' _ ht' with ⟨rfl, -⟩ | ⟨-, h⟩
      · rfl
      · cases h
    · rcases htab j' _ ht' with ⟨-, h⟩ | ⟨rfl, -⟩
      · cases h
      · rfl
  · intro j t ht
    rw [hd]
    rcases htab j t ht with ⟨rfl, rfl⟩ | ⟨rfl, rfl⟩
    · rw [hdir j (by omega), if_neg (by omega), if_pos rfl]
      decide
    · rw [hdir 511 (by decide), if_pos rfl]
      decide
  · intro j hj hnone
    have h₁ : j ≠ i := by
      rintro rfl
      simp [smallSpace] at hnone
    have h₂ : j ≠ 511 := by
      rintro rfl
      simp [smallSpace, show 511 ≠ i by omega] at hnone
    rw [hd, hdir j hj, if_neg h₂, if_neg h₁]
    decide

/-- The two pages of the program and their frames. -/
theorem smallKernel_entry {i : Nat} (hi : i < 511) (n : Nat) :
    (smallSpace i).entry (smallKernel i).mm.mem n =
      if n = 1024 * i then 0x152007 else if n = 524287 then 0x154007 else 0 := by
  by_cases h₁ : n / 1024 = i
  · rw [Mm.Space.entry_of_some (t := 0x151000) (by simp [smallSpace, h₁]),
      smallKernel_words hi (by omega) (by omega), if_neg (by omega)]
    split_ifs <;> first | rfl | omega
  · by_cases h₂ : n / 1024 = 511
    · rw [Mm.Space.entry_of_some (t := 0x153000) (by simp [smallSpace, h₂, show 511 ≠ i by omega]),
        smallKernel_words hi (by omega) (by omega)]
      split_ifs <;> first | rfl | omega
    · rw [Mm.Space.entry_of_none (by simp [smallSpace, h₁, h₂]), if_neg (by omega),
        if_neg (by omega)]

theorem smallKernel_follow : ∀ i, i < 2 →
    Linked.follow (Mm.link (smallKernel i).mm.mem) 8 (Mm.ptr 0x80160000) = some eightPages := by
  decide +kernel

theorem smallSpace_has {i p : Nat} (h : (smallSpace i).Has p) :
    p = 0x150000 ∨ p = 0x151000 ∨ p = 0x153000 := by
  rcases h with hp | ⟨j, hj⟩
  · exact Or.inl hp
  · simp only [smallSpace] at hj
    split_ifs at hj
    · exact Or.inr (Or.inl (Option.some.inj hj).symm)
    · exact Or.inr (Or.inr (Option.some.inj hj).symm)

theorem smallKernel_present {i n : Nat} (hi : i < 511)
    (h : Mm.present ((smallSpace i).entry (smallKernel i).mm.mem n)) :
    (n = 1024 * i ∧ Mm.pteAddr ((smallSpace i).entry (smallKernel i).mm.mem n) = 0x152000) ∨
    (n = 524287 ∧ Mm.pteAddr ((smallSpace i).entry (smallKernel i).mm.mem n) = 0x154000) := by
  rw [smallKernel_entry hi] at h ⊢
  split_ifs at h ⊢ with h₁ h₂
  · exact Or.inl ⟨h₁, rfl⟩
  · exact Or.inr ⟨h₂, rfl⟩
  · exact absurd h Mm.not_present_zero

theorem smallKernel_imaged {i : Nat} (hi : i < 2) :
    Imaged (smallKernel i) 0 (smallSpace i) eightPages := by
  have hmem : ∀ v ∈ eightPages, v % 4096 = 0 ∧ 0x80160000 ≤ v ∧ v < 0x80168000 := by decide
  have hfree : ∀ p, p < 0x160000 → ¬ Mm.framesOf eightPages p := by
    rintro p hp ⟨v, hv, he⟩
    obtain ⟨-, hlo, hhi⟩ := hmem v hv
    unfold Mm.v2p u32 at he
    omega
  have hhas : ∀ p, (smallSpace i).Has p → p = 0x150000 ∨ p = 0x151000 ∨ p = 0x153000 :=
    fun p => smallSpace_has
  have hentry := fun n => smallKernel_present (i := i) (n := n) (by omega)
  have hsz : ((smallKernel i).tasks 0).sz = 4194304 * i + 4096 := rfl
  refine ⟨⟨⟨⟨show 0x80120000 % 4096 = 0 by decide, show 2148532224 < 0x80120000 by decide,
    show 0x80120000 < 2147483648 + 2048 * 1024 by decide,
    show 2147483648 + 2048 * 1024 ≤ 4294963200 by decide⟩, show 0 < 0x80140000 by decide,
    Linked.isChain_of_follow (smallKernel_follow i hi), ?_⟩, rfl,
    by simp [Kernel.state, smallKernel], smallKernel_at (by omega),
    show 0x80150000 = Mm.p2v 0x150000 by decide, ?_, ?_⟩, ?_, ?_, ?_, ?_, ?_, ?_, ?_, ?_⟩
  · intro v hv
    obtain ⟨h₁, h₂, h₃⟩ := hmem v hv
    exact ⟨h₁, by omega, by omega⟩
  · intro p hp
    refine hfree p ?_
    rcases hhas p hp with he | he | he <;> omega
  · rw [hsz, Mm.kernbase]
    omega
  · intro v hv
    obtain ⟨-, hlo, hhi⟩ := hmem v hv
    refine ⟨le_trans (show 0x80140000 ≤ 0x80160000 by decide) hlo, le_trans hhi.le ?_⟩
    exact show 0x80168000 ≤ Mm.v2p (u32 (2048 * 1024)) by decide
  · rw [hsz, show Mm.ustacktop - 4096 = 2147479552 by decide]
    omega
  · rw [smallKernel_entry (by omega), if_neg (by omega), if_pos rfl]
    decide
  · intro n hn hp
    rw [hsz]
    rcases hentry n hp with ⟨rfl, -⟩ | ⟨rfl, -⟩ <;> omega
  · intro n _ hp
    rcases hentry n hp with ⟨-, he⟩ | ⟨-, he⟩
    · exact he ▸ ⟨by decide, by decide, by decide⟩
    · exact he ▸ ⟨by decide, by decide, by decide⟩
  · intro n _ hp
    rcases hentry n hp with ⟨-, he⟩ | ⟨-, he⟩
    · exact he ▸ hfree _ (by decide)
    · exact he ▸ hfree _ (by decide)
  · intro n _ hp hs
    have := hhas _ hs
    rcases hentry n hp with ⟨-, he⟩ | ⟨-, he⟩ <;> omega
  · intro a b _ ha hb he
    rcases hentry a ha with ⟨rfl, ha'⟩ | ⟨rfl, ha'⟩ <;>
      rcases hentry b hb with ⟨rfl, hb'⟩ | ⟨rfl, hb'⟩ <;> omega

/-- A program linked at 0 is copied. -/
theorem smallKernel_copied : ForkCopies (smallKernel 0) 0 (smallSpace 0) eightPages := by
  refine (fork_copies_iff (smallKernel_imaged (by decide)) rfl).2 ⟨by decide +kernel, by decide, ?_⟩
  intro j hj ht
  have hj' : 4096 * j < 4194304 * 0 + 4096 := hj
  obtain rfl : j = 0 := by omega
  simp [smallSpace] at ht

/-- A program linked at `0x400000` has no table for the addresses below, and `fork`
panics. -/
theorem smallKernel_panics :
    Imaged (smallKernel 1) 0 (smallSpace 1) eightPages ∧
      fork (smallKernel 1) = .error (.panic "copy_uvm: pte doesn't exist") ∧
      ¬ ForkCopies (smallKernel 1) 0 (smallSpace 1) eightPages := by
  have h := smallKernel_imaged (i := 1) (by decide)
  have hsz : 4096 * 0 < ((smallKernel 1).tasks 0).sz := show 4096 * 0 < 4194304 * 1 + 4096 by decide
  have hnone : (smallSpace 1).tab (0 / 1024) = none := by simp [smallSpace]
  cases h.fork_outcome (by decide +kernel) (by decide) with
  | panics _ _ _ _ he =>
      refine ⟨h, he, ?_⟩
      rintro ⟨r, k', hf, -⟩
      rw [he] at hf
      cases hf
  | fails _ _ _ _ hholes => exact absurd (hholes 0 hsz hnone) (by decide)
  | copies _ _ _ _ _ _ _ _ _ _ _ _ _ _ hholes => exact absurd hnone (hholes 0 hsz)

end Task

end Chunix
