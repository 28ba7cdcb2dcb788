import Chunix.Exec.Running

/-!
# The end of `exec`

`build` is `finish` up to the point where the caller gives up its directory. From there on
nothing can fail: the tables of the caller are pages that `free_vm` takes, and the pages of
the new program stay as they are.
-/

namespace Chunix

namespace Exec

open Machine Kernel

/-- `finish` while the directory of the caller is in use. -/
def build (cur pgdir : Nat) (argv : List Nat) : Act Mm (Option (Nat × List (List UInt8))) := do
  Mm.regionAlloc cur (Mm.ustacktop - 4096) 4096 (Mm.pteW ||| Mm.pteU)
  match ← setupStack cur argv with
  | none => return none
  | some r =>
      let _ ← Mm.copyPage cur pgdir (Mm.ustacktop - 4096)
      let _ ← Mm.copyPage cur pgdir Heap.heapStart
      return some r

section

variable {k k' : Kernel} {c : Slot} {m m' : Mm} {o : Outcome} {x : Stage} {argv : List Nat}
  {cur pgdir entry range esp : Nat} {strings : List (List UInt8)}

theorem build_eq_ok (h : build cur pgdir argv m = .ok (some (esp, strings), m')) :
    ∃ m₁ m₂ m₃ r₁ r₂,
      Mm.regionAlloc cur (Mm.ustacktop - 4096) 4096 (Mm.pteW ||| Mm.pteU) m = .ok ((), m₁) ∧
      setupStack cur argv m₁ = .ok (some (esp, strings), m₂) ∧
      Mm.copyPage cur pgdir (Mm.ustacktop - 4096) m₂ = .ok (r₁, m₃) ∧
      Mm.copyPage cur pgdir Heap.heapStart m₃ = .ok (r₂, m') := by
  obtain ⟨_, m₁, h₁, h⟩ := Act.bind_eq_ok.1 h
  obtain ⟨r, m₂, h₂, h⟩ := Act.bind_eq_ok.1 h
  cases r with
  | none => cases (Act.pure_eq_ok.1 h).1
  | some r =>
      obtain ⟨r₁, m₃, h₃, h⟩ := Act.bind_eq_ok.1 h
      obtain ⟨r₂, m₄, h₄, h⟩ := Act.bind_eq_ok.1 h
      obtain ⟨hr, rfl⟩ := Act.pure_eq_ok.1 h
      exact ⟨m₁, m₂, m₃, r₁, r₂, h₁, Option.some.inj hr ▸ h₂, h₃, h₄⟩

/-- What `exec` returns and what it has done when the caller could give up its directory. -/
theorem finish_of_build (hc : k.current = some c)
    (h : build (k.tasks c).pgdir pgdir argv k.mm = .ok (some (esp, strings), m))
    (hfree : Mm.freeVm (k.tasks c).pgdir m = .ok ((), m')) :
    ∃ k', finish pgdir entry range argv k = .ok (⟨0, strings⟩, k') := by
  obtain ⟨m₁, m₂, m₃, r₁, r₂, h₁, h₂, h₃, h₄⟩ := build_eq_ok h
  rw [finish, Act.bind_of_ok (getCurrent_eq_ok.2 ⟨hc, rfl⟩),
    Act.bind_of_ok (Act.gets_eq_ok.2 ⟨rfl, rfl⟩)]
  rw [Act.bind_of_ok (onMm_eq_ok.2 ⟨m₁, h₁, rfl⟩), Act.bind_of_ok (onMm_eq_ok.2 ⟨m₂, h₂, rfl⟩)]
  dsimp only
  rw [Act.bind_of_ok (onMm_eq_ok.2 ⟨m₃, h₃, rfl⟩), Act.bind_of_ok (onMm_eq_ok.2 ⟨m, h₄, rfl⟩),
    Act.bind_of_ok (updTask_eq_ok (u := ()).2 rfl), Act.bind_of_ok (onMm_eq_ok.2 ⟨m', hfree, rfl⟩)]
  exact ⟨_, rfl⟩

/-- The stage when the arguments are on the stack. -/
theorem Stage.setupStack (x : Stage) (hU : x.U 524287)
    (hrun : setupStack (Mm.p2v x.s.dir) argv x.m = .ok (some (esp, strings), m'))
    (hfit : Fits strings) : ∃ y : Stage, y.m = m' ∧ Later x y ∧
      ∀ j, y.d.entry y.m.mem j = x.d.entry x.m.mem j := by
  obtain ⟨t, ht⟩ := Mm.Space.tab_of_present (x.loading.present _ hU)
  obtain ⟨hframe, hoff⟩ := x.loading.frame _ hU
  obtain ⟨-, -, -, hagree, hregs⟩ := setupStack_spec x.loading.caller.space ht rfl hframe hoff.1
    hrun hfit
  obtain ⟨h, hlater, hd⟩ := x.write m' (fun p hp => ⟨_, hU, hp⟩) hagree hregs
  exact ⟨x.put m' h, rfl, hlater, hd⟩

theorem Stage.build (x : Stage)
    (hrun : build (Mm.p2v x.s.dir) (Mm.p2v x.d.dir) argv x.m = .ok (some (esp, strings), m'))
    (hfit : Fits strings) : ∃ y : Stage, y.m = m' ∧ Later x y ∧
      ∀ j, j ≠ 524287 → j ≠ 851968 → y.d.entry y.m.mem j = x.d.entry x.m.mem j := by
  obtain ⟨m₁, m₂, m₃, r₁, r₂, h₁, h₂, h₃, h₄⟩ := build_eq_ok hrun
  -- the stack is allocated like a segment of one page
  obtain ⟨x₁, rfl, hlater₁, -, -, -, hd₁, -, hU⟩ := x.regionAlloc
    (p := ⟨0, 0, Mm.ustacktop - 4096, 0, 4096⟩) (by decide) (by decide) h₁
  rw [← hlater₁.caller] at h₂ h₃ h₄
  rw [← hlater₁.program] at h₃ h₄
  have hstack : x₁.U (2147479552 / 4096) := hU 2147479552 (by decide) (by decide)
  obtain ⟨x₂, rfl, hlater₂, hd₂⟩ := x₁.setupStack hstack h₂ hfit
  rw [← hlater₂.caller, ← hlater₂.program] at h₃ h₄
  obtain ⟨x₃, rfl, hlater₃, -, -, -, hd₃, -⟩ := x₂.copyPage (by decide) h₃
  rw [← hlater₃.caller, ← hlater₃.program] at h₄
  obtain ⟨y, rfl, hlater₄, -, -, -, hd₄, -⟩ := x₃.copyPage (by decide) h₄
  refine ⟨y, rfl, ((hlater₁.trans hlater₂).trans hlater₃).trans hlater₄, fun j hj hj' => ?_⟩
  have hstackPage : (Mm.ustacktop - 4096) / 4096 = 524287 ∧
      (Mm.ustacktop - 4096 + 4095) / 4096 = 524287 := by decide
  have hheapPage : Heap.heapStart / 4096 = 851968 ∧ (Heap.heapStart + 4095) / 4096 = 851968 := by
    decide
  rw [hd₄ j (by omega), hd₃ j (by omega), hd₂, hd₁]

/-- `exec` returns zero once the arguments are on the stack. -/
theorem Running.returns {own : Nat → Prop} (entry range : Nat) (h : Running own k c x)
    (hrun : build (Mm.p2v x.s.dir) (Mm.p2v x.d.dir) argv k.mm = .ok (some (esp, strings), m))
    (hfit : Fits strings) :
    ∃ k', finish (Mm.p2v x.d.dir) entry range argv k = .ok (⟨0, strings⟩, k') := by
  rw [h.mm] at hrun
  obtain ⟨y, rfl, hlater, -⟩ := x.build hrun hfit
  have hrange : ∀ p, y.s.Has p → Mm.InRange y.m (Mm.p2v p) := (h.later hlater).tables
  obtain ⟨m', hfree⟩ := Mm.freeVm_total y.loading.caller.space hrange
  rw [hlater.caller] at hfree
  rw [← h.paged.pgdir] at hrun hfree
  rw [← h.mm] at hrun
  exact finish_of_build h.paged.current hrun hfree

/-- The trap frame of the task `c` is in the page frame `q`, which is not a page of the new
program and not free. -/
structure Trapped (k : Kernel) (c : Slot) (x : Stage) (q : Nat) : Prop where
  trap : ∃ i, (k.tasks c).tf = Mm.p2v q + i ∧ i + 76 ≤ 4096
  isFrame : Mm.IsFrame q
  program : ¬ x.Program q
  list : ¬ Mm.framesOf x.l q

/-- The new program has what has been built for it. -/
theorem Running.takeOver {own : Nat → Prop} {q : Nat} (h : Running own k c x)
    (htrap : Trapped k c x q)
    (hrun : finish (Mm.p2v x.d.dir) entry range argv k = .ok (o, k')) (hret : o.ret = 0)
    (hfit : Fits o.strings) :
    ∃ y : Stage, Later x y ∧ k'.mm.cr3 = y.d.dir ∧ y.d.At k'.mm.mem ∧
      (∀ j, y.d.entry k'.mm.mem j = y.d.entry y.m.mem j) ∧
      (∀ j, j ≠ 524287 → j ≠ 851968 → y.d.entry y.m.mem j = x.d.entry x.m.mem j) ∧
      ∀ p a, Mm.IsFrame p → ¬ y.s.Has p → p ≠ q → Mm.InPage p a → k'.mm.mem a = y.m.mem a := by
  obtain ⟨m₁, m₂, m₃, m₄, m₅, esp, r₁, r₂, h₁, h₂, h₃, h₄, h₅, hk'⟩ :=
    finish_eq_ok h.paged.current hrun hret
  have hbuild : build (k.tasks c).pgdir (Mm.p2v x.d.dir) argv k.mm =
      .ok (some (esp, o.strings), m₄) := by
    rw [build, Act.bind_of_ok h₁, Act.bind_of_ok h₂]
    dsimp only
    rw [Act.bind_of_ok h₃, Act.bind_of_ok h₄]
    rfl
  rw [h.paged.pgdir, h.mm] at hbuild
  rw [h.paged.pgdir] at h₅
  obtain ⟨y, rfl, hlater, hsame⟩ := x.build hbuild hfit
  rw [← hlater.caller] at h₅
  obtain ⟨us, -, -, -, hagree, -⟩ := Mm.freeVm_spec y.loading.caller h₅
  obtain ⟨i, htf, hi⟩ := htrap.trap
  have hq := htrap.isFrame.le
  have hplace : ∀ j, i + j + 4 ≤ 4096 → Mm.v2p ((k.tasks c).tf + j) = q + (i + j) := by
    intro j hj
    rw [htf, Nat.add_assoc, Mm.v2p_p2v_add (by omega)]
  rw [hplace 60 (by omega), hplace 72 (by omega)] at hk'
  have hmem : k'.mm.mem = store32 (store32 m₅.mem (q + (i + 60)) entry) (q + (i + 72)) esp := by
    rw [hk']
  have hwrite : Mm.AgreeOff (fun p => p = q) m₅.mem k'.mm.mem := by
    intro a ha
    have hin := ha q rfl
    unfold Mm.InPage at hin
    rw [hmem, store32_apply_of_lt_or_ge (by omega) (by omega),
      store32_apply_of_lt_or_ge (by omega) (by omega)]
  have hall : Mm.AgreeOff (fun p => y.s.Has p ∨ p = q) y.m.mem k'.mm.mem :=
    hagree.trans hwrite (fun p hp => Or.inl hp) fun p hp => Or.inr hp
  have hP : ∀ p, y.s.Has p ∨ p = q → Mm.IsFrame p := by
    rintro p (hp | rfl)
    · exact y.loading.caller.space.isFrame hp
    · exact htrap.isFrame
  have hqd : ¬ y.d.Has q := fun hp => (hlater.fresh q (Or.inl hp)).elim htrap.program htrap.list
  obtain ⟨hat, hentry⟩ := y.loading.program.space.agree hall hP fun p hp hd =>
    hp.elim (fun hs => y.loading.apart.space p hs hd) fun he => hqd (he ▸ hd)
  refine ⟨y, hlater, ?_, hat, hentry, hsame, ?_⟩
  · rw [hk', hlater.program]
    have := x.loading.program.space.dir.le
    show Mm.p2v (Mm.p2v x.d.dir) = x.d.dir
    unfold Mm.p2v u32
    omega
  · intro p a hp hs hne ha
    exact hall.page hP hp (fun hor => hor.elim hs hne) ha

end

end Exec

end Chunix
