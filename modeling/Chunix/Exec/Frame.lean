import Chunix.Exec.Stack
import Chunix.Task.Atomic

/-!
# The frame of the new program

When `exec` returns zero, the program starts on a copy of the stack page. The page is
there if two pages are free when the arguments have been put on the stack, or one if
the new directory has a table for the stack already. Otherwise `copy_page` returns
zero, `exec` goes on, and the program has no stack.
-/

namespace Chunix

namespace Mm

open Machine

section

variable {s : Space} {m m' : Mm} {l : List Nat} {n : Nat}

/-- `region_alloc` leaves a page that is present as it is. -/
theorem regionAlloc_present (perm : Nat) (hs : s.At m.mem) (hn : n < 1048575)
    (hp : present (s.entry m.mem n)) :
    regionAlloc (p2v s.dir) (4096 * n) 4096 perm m = .ok ((), m) := by
  obtain ⟨t, ht⟩ := Space.tab_of_present hp
  obtain ⟨-, hframe, -⟩ := hs.tab _ t ht
  obtain ⟨hne, hptr⟩ := entry_pointer (n := n) hframe
  have hload : kload (u32 (p2v t + 4 * (n % 1024))) m = .ok (s.entry m.mem n, m) :=
    Act.gets_eq_ok.2 ⟨by rw [hptr, Space.entry_of_some ht], rfl⟩
  have hlast : pgRoundUp (u32 (4096 * n + 4096)) = 4096 * n + 4096 := by
    unfold pgRoundUp u32
    omega
  have hfirst : pgRoundDown (4096 * n) = 4096 * n := by
    unfold pgRoundDown
    omega
  have hnext : u32 (4096 * n + 4096) = 4096 * n + 4096 := u32_eq_self (by omega)
  have hloop : ∀ fuel, regionAllocLoop (p2v s.dir) (4096 * n + 4096) perm (fuel + 2) (4096 * n) m =
      .ok ((), m) := by
    intro fuel
    rw [regionAllocLoop, if_pos (by omega), Act.bind_of_ok (pgdirWalk_of_some hs (by omega) ht),
      if_neg hne]
    refine (Act.bind_of_ok hload).trans ?_
    rw [if_neg (not_not.2 hp), hnext, regionAllocLoop, if_neg (by omega)]
    rfl
  rw [regionAlloc, hlast, hfirst]
  exact hloop 1048575

end

end Mm

namespace Exec

open Machine Kernel

/-- The frame that `_start` hands to `libmain`, as the program finds it at `esp`: the
strings are `argv`. -/
structure Decodes (m : Mm) (esp : Nat) (strings : List (List UInt8)) (ptrs : List Nat) : Prop where
  aligned : esp % 4 = 0
  lower : Mm.ustacktop - 4096 ≤ esp
  upper : esp < Mm.ustacktop
  argc : Mm.vload32 esp m = .ok (strings.length, m)
  argv : Mm.vload32 (esp + 4) m = .ok (esp + 8, m)
  length : ptrs.length = strings.length
  vector : ∀ i p, ptrs[i]? = some p → Mm.vload32 (esp + 8 + 4 * i) m = .ok (p, m) ∧ p % 4 = 0
  null : Mm.vload32 (esp + 8 + 4 * strings.length) m = .ok (0, m)
  copy : ∀ q ∈ ptrs.zip strings, ∀ j, j < q.2.length →
    Mm.vload8 (q.1 + j) m = .ok (q.2.getD j 0, m)
  apart : (ptrs.zip strings).Pairwise fun q q' => q'.1 + q'.2.length ≤ q.1 ∨ q.1 + q.2.length ≤ q'.1
  above : ∀ q ∈ ptrs.zip strings, q.1 + q.2.length ≤ esp ∨ esp + 8 + 4 * (strings.length + 1) ≤ q.1

/-- The address spaces of the caller and of the new program when the arguments are put
on the stack: the page of the stack is the page frame `f`, which is used for nothing
else. -/
structure Staged (m : Mm) (s d : Mm.Space) (l : List Nat) (f : Nat) : Prop where
  caller : Mm.Held s m l
  program : Mm.Held d m l
  apart : Mm.Apart s d l
  present : Mm.present (s.entry m.mem 524287)
  frame : Mm.pteAddr (s.entry m.mem 524287) = f
  clear : ¬ Mm.present (d.entry m.mem 524287)
  isFrame : Mm.IsFrame f
  off : ¬ s.Has f ∧ ¬ d.Has f ∧ ¬ Mm.framesOf l f

section

variable {m m' m₁ m₂ m₃ : Mm} {s d : Mm.Space} {l : List Nat} {f : Nat}

/-- The arguments are written to the page of the stack only. -/
theorem Staged.write (h : Staged m s d l f) (hagree : Mm.AgreeOff (fun p => p = f) m.mem m'.mem)
    (hl : m'.freeList = m.freeList) : Staged m' s d l f := by
  have hframe : ∀ p, p = f → Mm.IsFrame p := fun p hp => hp ▸ h.isFrame
  obtain ⟨hs, hd, hf⟩ := h.off
  have hentry := (h.caller.space.agree hagree hframe fun p hp => hp ▸ hs).2
  have hentry' := (h.program.space.agree hagree hframe fun p hp => hp ▸ hd).2
  exact ⟨h.caller.agree hl hagree hframe fun p hp => hp ▸ ⟨hs, hf⟩,
    h.program.agree hl hagree hframe fun p hp => hp ▸ ⟨hd, hf⟩, h.apart,
    by rw [hentry]; exact h.present, by rw [hentry]; exact h.frame,
    by rw [hentry']; exact h.clear, h.isFrame, h.off⟩

/-- The page of the stack is copied, a page of the heap as well, and the address space of
the caller is given back. -/
theorem Staged.takeOver {r₁ r₂ : Nat} (h : Staged m s d l f)
    (h₁ : Mm.copyPage (Mm.p2v s.dir) (Mm.p2v d.dir) (Mm.ustacktop - 4096) m = .ok (r₁, m₁))
    (h₂ : Mm.copyPage (Mm.p2v s.dir) (Mm.p2v d.dir) Heap.heapStart m₁ = .ok (r₂, m₂))
    (h₃ : Mm.freeVm (Mm.p2v s.dir) m₂ = .ok ((), m₃)) :
    ∃ d' : Mm.Space, d'.dir = d.dir ∧ d'.At m₃.mem ∧ (∀ p, d'.Has p → d.Has p ∨ Mm.framesOf l p) ∧
      ((l.length < Mm.copyPages d 524287 ∧ ¬ Mm.present (d'.entry m₃.mem 524287)) ∨
      (Mm.copyPages d 524287 ≤ l.length ∧ ∃ v ∈ l, ¬ d'.Has (Mm.v2p v) ∧
        Mm.present (d'.entry m₃.mem 524287) ∧
        Mm.pteAddr (d'.entry m₃.mem 524287) = Mm.v2p v ∧
        ∀ x, x < 4096 → m₃.mem (Mm.v2p v + x) = m.mem (f + x))) := by
  obtain ⟨d₁, l₁, hg₁, hcase⟩ := Mm.copyPage_one h.program h.caller.space
    (n := 524287) (by decide) (by decide) h₁
  obtain ⟨hs₁, -⟩ := hg₁.other h.program h.caller.space h.apart
  have ha₁ := hg₁.apart h.apart
  rw [← hg₁.dir] at h₂
  obtain ⟨d₂, l₂, hg₂, hcase₂⟩ := Mm.copyPage_one hg₁.held hs₁ (n := 851968) (by decide)
    (by decide) h₂
  obtain ⟨hs₂, -⟩ := hg₂.other hg₁.held hs₁ ha₁
  have ha₂ := hg₂.apart ha₁
  have hheld₂ : Mm.Held s m₂ l₂ :=
    ⟨hs₂, hg₂.held.pool, fun v hv hv' => ha₂.list _ hv' ⟨v, hv, rfl⟩⟩
  obtain ⟨us, -, -, -, hagree, -⟩ := Mm.freeVm_spec hheld₂ h₃
  obtain ⟨hd₃, hentry₃⟩ := hg₂.held.space.agree hagree (fun p => hs₂.isFrame)
    fun p hp hp' => ha₂.space p hp hp'
  have hentry₂ : d₂.entry m₂.mem 524287 = d₁.entry m₁.mem 524287 := by
    rcases hcase₂ with ⟨-, he⟩ | ⟨-, v, -, -, -, -, he⟩
    · exact he _
    · rw [he, if_neg (by decide)]
  have horigin : ∀ p, d₂.Has p → d.Has p ∨ Mm.framesOf l p := by
    intro p hp
    rcases hg₂.origin p hp with hp | ⟨u, hu, he⟩
    · exact hg₁.origin p hp
    · exact Or.inr ⟨u, hg₁.list u hu, he⟩
  refine ⟨d₂, hg₂.dir.trans hg₁.dir, hd₃, horigin, ?_⟩
  rw [hentry₃, hentry₂]
  rcases hcase with ⟨hlt, he⟩ | ⟨hle, v, hv, hoff, hrest, hcopy, he⟩
  · exact Or.inl ⟨hlt, by rw [he]; exact h.clear⟩
  have hpage := h.program.pool.page v hv
  have hrest' : ¬ Mm.framesOf l₁ (Mm.v2p v) :=
    fun hf => hrest (Mm.mem_of_framesOf hg₁.held.pool hpage hf)
  have hnot : ¬ (d₁.Has (Mm.v2p v) ∨ Mm.framesOf l₁ (Mm.v2p v)) := fun hor => hor.elim hoff hrest'
  obtain ⟨hpres, haddr, -⟩ := @Mm.mkPte_spec (Mm.v2p v)
    (Mm.pteFlags (s.entry m.mem 524287)) (Nat.mod_lt _ (by decide))
  have hin : ∀ x, x < 4096 → Mm.InPage (Mm.v2p v) (Mm.v2p v + x) :=
    fun x hx => ⟨Nat.le_add_right _ _, Nat.add_lt_add_left hx _⟩
  refine Or.inr ⟨hle, v, hv, fun hp => hnot (hg₂.origin _ hp), ?_, ?_, fun x hx => ?_⟩
  · rw [he, if_pos rfl]
    exact hpres
  · rw [he, if_pos rfl, haddr]
    have := hpage.isFrame.aligned
    unfold Mm.pteAddr
    omega
  · rw [hagree.page (fun p => hs₂.isFrame) hpage.isFrame
      (fun hp => h.apart.list _ hp ⟨v, hv, rfl⟩) (hin x hx),
      hg₂.agree.page (fun p => hg₁.held.frame) hpage.isFrame hnot (hin x hx), hcopy x hx, h.frame]

/-- A copy of the page is an image as well. -/
theorem Image.copy {esp v : Nat} {mem mem' : Memory} {strings : List (List UInt8)}
    (h : Image f mem esp strings) (hf : Mm.IsFrame f) (hv : Mm.IsFrame v) (hal : esp % 4 = 0)
    (hfit : esp % 4096 + 4 * (strings.length + 3) + argBytes strings = 4096)
    (hmem : ∀ x, x < 4096 → mem' (v + x) = mem (f + x)) : Image v mem' esp strings where
  words := by
    intro i w hi
    have hlt : i < strings.length + 3 := lt_of_ustack hi
    have hfle := hf.le
    have hvle := hv.le
    have hbyte : ∀ j, j < 4 →
        mem' (u32 (v + esp % 4096 + 4 * i + j)) = mem (u32 (f + esp % 4096 + 4 * i + j)) := by
      intro j hj
      rw [u32_eq_self (by omega), u32_eq_self (by omega), Nat.add_assoc v, Nat.add_assoc v,
        hmem _ (by omega), Nat.add_assoc f, Nat.add_assoc f]
    rw [← h.words i w hi, load32, load32, hbyte 1 (by decide), hbyte 2 (by decide),
      hbyte 3 (by decide)]
    exact congrArg (fun b : UInt8 => b.toNat + _ + _ + _) (hbyte 0 (by decide))
  bytes := by
    intro q hq j hj
    obtain ⟨hq₁, hq₂, -⟩ := places_bounds (by omega) (by decide) hq
    rw [← h.bytes q hq j hj, Nat.add_assoc, hmem _ (by omega), Nat.add_assoc]

/-- The image in the page that is mapped at the top of the stack. -/
theorem Image.decodes {v : Nat} {strings : List (List UInt8)}
    (h : Image v m.mem (espOf strings) strings) (hd : d.At m.mem) (hcr3 : m.cr3 = d.dir)
    (hfit : Fits strings) (hp : Mm.present (d.entry m.mem 524287))
    (hv : Mm.pteAddr (d.entry m.mem 524287) = v) :
    Decodes m (espOf strings) strings (places 2147483648 strings) := by
  unfold Fits at hfit
  have hmod : argBytes strings % 4 = 0 := argBytes_mod strings
  have hesp : espOf strings + 4 * (strings.length + 3) + argBytes strings = 2147483648 ∧
      2147479552 ≤ espOf strings ∧ espOf strings % 4 = 0 := by
    unfold espOf
    omega
  have hlen := length_places 2147483648 strings
  have hwalk : ∀ va, 2147479552 ≤ va → va < 2147483648 →
      Mm.walk m.mem m.cr3 va = some (v + va % 4096) := by
    intro va h₁ h₂
    rw [hcr3, hd.walk_eq (by omega), show va / 4096 = 524287 by omega, if_pos hp, hv]
  have hword : ∀ i w, (strings.length :: (espOf strings + 8) ::
      places 2147483648 strings ++ [0])[i]? = some w →
      Mm.vload32 (espOf strings + 4 * i) m = .ok (w, m) := by
    intro i w hi
    have hlt : i < strings.length + 3 := lt_of_ustack hi
    rw [Mm.vload32_of_walk (by omega) (by omega) (hwalk _ (by omega) (by omega)),
      show (espOf strings + 4 * i) % 4096 = espOf strings % 4096 + 4 * i by omega, ← Nat.add_assoc,
      h.words i w hi]
  have hbounds : ∀ q ∈ (places 2147483648 strings).zip strings,
      2147483648 - argBytes strings ≤ q.1 ∧ q.1 + q.2.length ≤ 2147483648 ∧ q.1 % 4 = 0 :=
    fun q hq => places_bounds (by omega) (by decide) hq
  refine ⟨hesp.2.2, hesp.2.1, ?_, hword 0 _ rfl, hword 1 _ rfl, hlen, ?_, ?_, ?_, ?_, ?_⟩
  · show espOf strings < 2147483648
    omega
  · intro i p hi
    have hilt : i < (places 2147483648 strings).length := (List.getElem?_eq_some_iff.1 hi).1
    have hget : (strings.length :: (espOf strings + 8) ::
        places 2147483648 strings ++ [0])[i + 2]? = some p := by
      simp [List.getElem?_append_left hilt, hi]
    rw [Nat.add_assoc, show 8 + 4 * i = 4 * (i + 2) by omega]
    refine ⟨hword _ p hget, ?_⟩
    have hq : (p, strings.get ⟨i, by omega⟩) ∈ (places 2147483648 strings).zip strings :=
      List.mem_of_getElem? (i := i) (by simp [List.getElem?_zip_eq_some, hi])
    exact (hbounds _ hq).2.2
  · rw [Nat.add_assoc, show 8 + 4 * strings.length = 4 * (strings.length + 2) by omega]
    refine hword _ 0 ?_
    rw [show strings.length + 2 = (places 2147483648 strings).length + 2 by rw [hlen]]
    simp
  · intro q hq j hj
    obtain ⟨hq₁, hq₂, -⟩ := hbounds q hq
    have hw : Mm.walk m.mem m.cr3 (u32 (q.1 + j)) = some (v + (q.1 + j) % 4096) := by
      rw [u32_eq_self (by omega)]
      exact hwalk _ (by omega) (by omega)
    rw [Mm.vload8_of_walk hw,
      show (q.1 + j) % 4096 = q.1 % 4096 + j by omega, ← Nat.add_assoc, h.bytes q hq j hj]
  · exact (places_pairwise (by omega) (by decide)).imp Or.inl
  · intro q hq
    have := (hbounds q hq).1
    exact Or.inr (by omega)

/-- A new program needs the page of its stack. -/
theorem Decodes.present {esp : Nat} {strings : List (List UInt8)} {ptrs : List Nat}
    (h : Decodes m esp strings ptrs) (hd : d.At m.mem) (hcr3 : m.cr3 = d.dir) :
    Mm.present (d.entry m.mem 524287) := by
  have hlow : 2147479552 ≤ esp := h.lower
  have hup : esp < 2147483648 := h.upper
  obtain ⟨b, m₁, hb, -⟩ := Act.bind_eq_ok.1 h.argc
  by_contra hp
  have hw : Mm.walk m.mem m.cr3 (u32 esp) = none := by
    rw [u32_eq_self (by omega), hcr3, hd.walk_eq (by omega), show esp / 4096 = 524287 by omega,
      if_neg hp]
  rw [Mm.vload8, Act.bind_of_ok (Act.get_eq_ok.2 ⟨rfl, rfl⟩), Mm.translate, hw] at hb
  cases hb

end

/-- The kernel when the task `c` puts its arguments on the stack: its trap frame is in
the page frame `q`. -/
structure Ready (k : Kernel) (c : Slot) (s d : Mm.Space) (l : List Nat) (f q : Nat) : Prop
    extends Staged k.mm s d l f where
  current : k.current = some c
  pgdir : (k.tasks c).pgdir = Mm.p2v s.dir
  trap : ∃ x, (k.tasks c).tf = Mm.p2v q + x ∧ x + 76 ≤ 4096
  stack : Mm.IsFrame q ∧ ¬ d.Has q ∧ ¬ Mm.framesOf l q

section

variable {k k' : Kernel} {c : Slot} {s d : Mm.Space} {l : List Nat} {f q : Nat} {o : Outcome}

theorem fail_ret {pgdir : Nat} {m m' : Mm} (h : fail pgdir m = .ok (o, m')) : o.ret = -1 := by
  have hpure : ∀ {m₁ : Mm}, (pure ⟨-1, []⟩ : Act Mm Outcome) m₁ = .ok (o, m') → o.ret = -1 := by
    intro m₁ h
    rw [← (Act.pure_eq_ok.1 h).1]
  rcases Act.ite_eq_ok.1 h with ⟨-, h⟩ | ⟨-, h⟩
  · obtain ⟨_, m₁, -, h⟩ := Act.bind_eq_ok.1 h
    exact hpure h
  · exact hpure h

/-- What `exec` does from the allocation of the stack on when it returns zero. -/
theorem finish_eq_ok {pgdir entry range : Nat} {argv : List Nat} (hc : k.current = some c)
    (h : finish pgdir entry range argv k = .ok (o, k')) (hret : o.ret = 0) :
    ∃ m₁ m₂ m₃ m₄ m₅ esp r₁ r₂,
      Mm.regionAlloc (k.tasks c).pgdir (Mm.ustacktop - 4096) 4096 (Mm.pteW ||| Mm.pteU) k.mm =
        .ok ((), m₁) ∧
      setupStack (k.tasks c).pgdir argv m₁ = .ok (some (esp, o.strings), m₂) ∧
      Mm.copyPage (k.tasks c).pgdir pgdir (Mm.ustacktop - 4096) m₂ = .ok (r₁, m₃) ∧
      Mm.copyPage (k.tasks c).pgdir pgdir Heap.heapStart m₃ = .ok (r₂, m₄) ∧
      Mm.freeVm (k.tasks c).pgdir m₄ = .ok ((), m₅) ∧
      k'.mm = { m₅ with
        mem := store32 (store32 m₅.mem (Mm.v2p ((k.tasks c).tf + 60)) entry)
          (Mm.v2p ((k.tasks c).tf + 72)) esp
        cr3 := Mm.p2v pgdir } := by
  rw [finish, Act.bind_of_ok (getCurrent_eq_ok.2 ⟨hc, rfl⟩),
    Act.bind_of_ok (Act.gets_eq_ok.2 ⟨rfl, rfl⟩)] at h
  simp only [Act.bind_eq_ok, onMm_eq_ok] at h
  obtain ⟨_, _, ⟨m₁, h₁, rfl⟩, r, _, ⟨m₂, h₂, rfl⟩, h⟩ := h
  cases r with
  | none =>
      obtain ⟨m₃, h, -⟩ := onMm_eq_ok.1 h
      rw [fail_ret h] at hret
      exact absurd hret (by decide)
  | some r =>
      simp only [Act.bind_eq_ok, onMm_eq_ok, updTask_eq_ok, Act.pure_eq_ok] at h
      obtain ⟨r₁, _, ⟨m₃, h₃, rfl⟩, r₂, _, ⟨m₄, h₄, rfl⟩, _, _, rfl, _, _, ⟨m₅, h₅, rfl⟩,
        _, _, ⟨m₆, h₆, rfl⟩, _, _, ⟨m₇, h₇, rfl⟩, _, _, rfl, _, _, ⟨m₈, h₈, rfl⟩, rfl, rfl⟩ := h
      have h₆' := Act.modify_eq_ok.1 h₆
      have h₇' := Act.modify_eq_ok.1 h₇
      have h₈' := Act.modify_eq_ok.1 h₈
      refine ⟨m₁, m₂, m₃, m₄, m₅, r.1, r₁, r₂, h₁, h₂, h₃, h₄, h₅, ?_⟩
      rw [← h₈', ← h₇', ← h₆']
      rfl

/-- The program that `exec` starts finds its arguments if and only if there are pages for
its stack. -/
theorem exec_frame_decodes_iff {entry range : Nat} {argv : List Nat} (h : Ready k c s d l f q)
    (hrun : finish (Mm.p2v d.dir) entry range argv k = .ok (o, k')) (hret : o.ret = 0)
    (hfit : Fits o.strings) :
    o.strings.length = argv.length ∧
      ((∃ ptrs, Decodes k'.mm (load32 k'.mm.mem (Mm.v2p ((k.tasks c).tf + 72))) o.strings ptrs) ↔
        Mm.copyPages d 524287 ≤ l.length) := by
  obtain ⟨m₁, m₂, m₃, m₄, m₅, esp, r₁, r₂, h₁, h₂, h₃, h₄, h₅, hk'⟩ := finish_eq_ok h.current hrun hret
  obtain ⟨x, htf, hx⟩ := h.trap
  obtain ⟨hq, hqd, hql⟩ := h.stack
  rw [h.pgdir] at h₁ h₂ h₃ h₄ h₅
  have halloc := Mm.regionAlloc_present (Mm.pteW ||| Mm.pteU) h.caller.space
    (by decide) h.present
  obtain ⟨-, rfl⟩ := Prod.mk.inj (Except.ok.inj (halloc.symm.trans h₁))
  obtain ⟨t, ht⟩ := Mm.Space.tab_of_present h.present
  obtain ⟨rfl, hlen, himage, hagree, hregs⟩ := setupStack_spec h.caller.space ht h.frame h.isFrame
    h.off.1 h₂ hfit
  have hstaged := h.toStaged.write hagree (by rw [hregs])
  obtain ⟨d', hdir, hd', horigin, hcase⟩ := hstaged.takeOver h₃ h₄ h₅
  have hqle := hq.le
  have htrap : ∀ y, x + y + 4 ≤ 4096 → Mm.v2p ((k.tasks c).tf + y) = q + (x + y) := by
    intro y hy
    rw [htf, Nat.add_assoc, Mm.v2p_p2v_add (by omega)]
  rw [htrap 60 (by omega), htrap 72 (by omega)] at hk'
  rw [htrap 72 (by omega)]
  have hmem : k'.mm.mem = store32 (store32 m₅.mem (q + (x + 60)) entry) (q + (x + 72))
      (espOf o.strings) := by rw [hk']
  have hcr3 : k'.mm.cr3 = d'.dir := by
    rw [hk', hdir]
    have := h.program.space.dir.le
    show Mm.p2v (Mm.p2v d.dir) = d.dir
    unfold Mm.p2v u32
    omega
  have hesp : load32 k'.mm.mem (q + (x + 72)) = espOf o.strings := by
    rw [hmem, load32_store32_self]
    refine u32_eq_self ?_
    unfold espOf
    omega
  have hwrite : Mm.AgreeOff (fun p => p = q) m₅.mem k'.mm.mem := by
    intro a ha
    have hin := ha q rfl
    unfold Mm.InPage at hin
    rw [hmem, store32_apply_of_lt_or_ge (by omega) (by omega),
      store32_apply_of_lt_or_ge (by omega) (by omega)]
  have hqd' : ¬ d'.Has q := fun hp => (horigin q hp).elim hqd hql
  obtain ⟨hat, hentry⟩ := hd'.agree hwrite (fun p hp => hp ▸ hq) fun p hp => hp ▸ hqd'
  rw [hesp]
  refine ⟨hlen, ⟨fun ⟨ptrs, hdec⟩ => ?_, fun hroom => ?_⟩⟩
  · rcases hcase with ⟨-, habs⟩ | ⟨hle, -⟩
    · exact absurd (hentry _ ▸ hdec.present hat hcr3) habs
    · exact hle
  · rcases hcase with ⟨hlt, -⟩ | ⟨-, v, hv, hoff, hp, haddr, hcopy⟩
    · omega
    have hvframe := (h.program.pool.page v hv).isFrame
    refine ⟨_, Image.decodes (himage.copy h.isFrame hvframe ?_ ?_ fun y hy => ?_) hat hcr3 hfit
      (by rw [hentry]; exact hp) (by rw [hentry]; exact haddr)⟩
    · have := argBytes_mod o.strings
      unfold espOf
      omega
    · have := argBytes_mod o.strings
      unfold Fits at hfit
      unfold espOf
      omega
    · rw [← hcopy y hy]
      exact hwrite.page (fun p hp => hp ▸ hq) hvframe (fun he => hql ⟨v, hv, he.symm⟩)
        ⟨Nat.le_add_right _ _, Nat.add_lt_add_left hy _⟩

end

/-- The address space of a task with a page for its stack and one for its heap. -/
def callerSpace : Mm.Space where
  dir := 0x101000
  tab := fun i => if i = 511 then some 0x102000 else if i = 832 then some 0x103000 else none

/-- The memory with its tables and with the string `a` at the bottom of the stack page. -/
def stagedMem : Memory :=
  store32 (store32 (store32 (store32 (store32 (store32 (fun _ => 0) 0x1017FC 0x102007)
    0x101D00 0x103007) 0x102FFC 0x104007) 0x103000 0x105007) 0x104000 97) 0x108000 0x80109000

/-- A task in this memory, the directory of a new program at `0x80106000` and the free
pages `0x80108000` and `0x80109000`, of which the list holds those from `free` on. -/
def stagedKernel (free : Nat) : Kernel where
  mm := {
    mem := stagedMem
    freeList := free
    cr3 := 0x101000
    memsz := 2048
    memStart := 0x80101000
    data := 0x80101000 }
  tasks := fun t => if t = 0 then
      { Task.zero with state := .running, pgdir := 0x80101000, tf := 0x80107000 }
    else Task.zero
  rootp := some 0
  current := some 0
  inittask := some 0
  nextpid := 2
  kpgdir := 0x80101000
  esp0 := 0
  trapRet := 0
  doNothing := 0

theorem stagedMem_zero {a : Nat} (ha : a + 4 ≤ 4294967296)
    (h : ∀ b ∈ [0x1017FC, 0x101D00, 0x102FFC, 0x103000, 0x104000, 0x108000], b + 4 ≤ a ∨ a + 4 ≤ b) :
    load32 stagedMem a = 0 := by
  simp only [List.forall_mem_cons, List.not_mem_nil, false_implies, implies_true, and_true] at h
  obtain ⟨h₁, h₂, h₃, h₄, h₅, h₆⟩ := h
  rw [stagedMem, load32_store32_of_disjoint (by decide) ha h₆,
    load32_store32_of_disjoint (by decide) ha h₅, load32_store32_of_disjoint (by decide) ha h₄,
    load32_store32_of_disjoint (by decide) ha h₃, load32_store32_of_disjoint (by decide) ha h₂,
    load32_store32_of_disjoint (by decide) ha h₁]
  rfl

theorem callerSpace_at : callerSpace.At stagedMem where
  dir := ⟨by decide, by decide, by decide⟩
  tab := by
    intro i t hi
    simp only [callerSpace] at hi
    split_ifs at hi with h₁ h₂
    · cases hi
      exact ⟨by omega, ⟨by decide, by decide, by decide⟩, by decide⟩
    · cases hi
      exact ⟨by omega, ⟨by decide, by decide, by decide⟩, by decide⟩
  inj := by
    intro i j t hi hj
    simp only [callerSpace] at hi hj
    split_ifs at hi hj <;> simp only [Option.some.injEq] at hi hj <;> omega
  pde := by
    intro i t hi
    simp only [callerSpace] at hi
    split_ifs at hi with h₁ h₂
    · cases hi
      subst h₁
      decide +kernel
    · cases hi
      subst h₂
      decide +kernel
  absent := by
    intro i hi hn
    simp only [callerSpace] at hn ⊢
    split_ifs at hn with h₁ h₂
    rw [stagedMem_zero (by omega) (by simp; omega)]
    decide

theorem programSpace_at : (Mm.Space.empty 0x106000).At stagedMem where
  dir := ⟨by decide, by decide, by decide⟩
  tab := by
    intro i t hi
    cases hi
  inj := by
    intro i j t hi
    cases hi
  pde := by
    intro i t hi
    cases hi
  absent := by
    intro i hi _
    simp only [Mm.Space.empty]
    rw [stagedMem_zero (by omega) (by simp; omega)]
    decide

theorem callerSpace_has {p : Nat} (h : callerSpace.Has p) :
    p = 0x101000 ∨ p = 0x102000 ∨ p = 0x103000 := by
  rcases h with h | ⟨i, hi⟩
  · exact Or.inl h
  · simp only [callerSpace] at hi
    split_ifs at hi
    · exact Or.inr (Or.inl (Option.some.inj hi).symm)
    · exact Or.inr (Or.inr (Option.some.inj hi).symm)

theorem stagedKernel_ready {free n : Nat} {l : List Nat}
    (hl : Linked.follow (Mm.link stagedMem) n (Mm.ptr free) = some l)
    (hp : ∀ v ∈ l, v = 0x80108000 ∨ v = 0x80109000) :
    Ready (stagedKernel free) 0 callerSpace (.empty 0x106000) l 0x104000 0x107000 := by
  have hframes : ∀ p, Mm.framesOf l p → p = 0x108000 ∨ p = 0x109000 := by
    rintro p ⟨v, hv, he⟩
    rcases hp v hv with rfl | rfl
    · exact Or.inl (he.trans (by decide))
    · exact Or.inr (he.trans (by decide))
  have hprogram : ∀ p, (Mm.Space.empty 0x106000).Has p → p = 0x106000 := by
    rintro p (hp | ⟨i, hi⟩)
    · exact hp
    · cases hi
  have hpool : Mm.Pool (stagedKernel free).mm l := by
    refine ⟨Linked.isChain_of_follow hl, fun v hv => ?_⟩
    rcases hp v hv with rfl | rfl
    · exact ⟨by decide, by decide, by decide⟩
    · exact ⟨by decide, by decide, by decide⟩
  have hlist : ∀ p, callerSpace.Has p → ¬ Mm.framesOf l p := by
    intro p hp hf
    have h₁ := callerSpace_has hp
    have h₂ := hframes p hf
    omega
  exact {
    caller := ⟨callerSpace_at, hpool, fun v hv hs => hlist _ hs ⟨v, hv, rfl⟩⟩
    program := ⟨programSpace_at, hpool, fun v hv hs => by
      have h₁ := hprogram _ hs
      have h₂ := hframes _ ⟨v, hv, rfl⟩
      omega⟩
    apart := ⟨fun p hs hd => by
      have h₁ := callerSpace_has hs
      have h₂ := hprogram p hd
      omega, hlist⟩
    present := show Mm.present (callerSpace.entry stagedMem 524287) by decide +kernel
    frame := show Mm.pteAddr (callerSpace.entry stagedMem 524287) = _ by decide +kernel
    clear := by
      rw [Mm.Space.empty_entry]
      decide
    isFrame := ⟨by decide, by decide, by decide⟩
    off := ⟨fun hs => by
      have := callerSpace_has hs
      omega, fun hd => by
      have := hprogram _ hd
      omega, fun hf => by
      have := hframes _ hf
      omega⟩
    current := rfl
    pgdir := rfl
    trap := ⟨0, rfl, by decide⟩
    stack := ⟨⟨by decide, by decide, by decide⟩, fun hd => by
      have := hprogram _ hd
      omega, fun hf => by
      have := hframes _ hf
      omega⟩ }

/-- With two free pages the program finds its argument. -/
theorem stagedKernel_decodes :
    ∃ o k' ptrs, finish 0x80106000 0x1000 0x2000 [0x7FFFF000] (stagedKernel 0x80108000) =
      .ok (o, k') ∧ o.ret = 0 ∧ o.strings = [[97, 0]] ∧
      Decodes k'.mm (load32 k'.mm.mem 0x107048) o.strings ptrs := by
  have hrun : (finish 0x80106000 0x1000 0x2000 [0x7FFFF000] (stagedKernel 0x80108000)).toOption.map
      (fun r => (r.1.ret, r.1.strings)) = some (0, [[97, 0]]) := by decide +kernel
  have hfollow : Linked.follow (Mm.link stagedMem) 2 (Mm.ptr 0x80108000) =
      some [0x80108000, 0x80109000] := by decide +kernel
  obtain ⟨⟨o, k'⟩, hk', he⟩ := exists_ok_of_toOption hrun
  obtain ⟨hret, hstrings⟩ := Prod.mk.inj he
  have hfit : Fits o.strings := by
    rw [show o.strings = [[97, 0]] from hstrings]
    unfold Fits
    decide
  obtain ⟨-, hiff⟩ := exec_frame_decodes_iff (stagedKernel_ready hfollow (by simp)) hk' hret hfit
  obtain ⟨ptrs, hdec⟩ := hiff.2 (by decide)
  exact ⟨o, k', ptrs, hk', hret, hstrings, hdec⟩

/-- With an empty list `exec` returns zero and the program has no stack. -/
theorem stagedKernel_no_stack :
    ∃ o k', finish 0x80106000 0x1000 0x2000 [0x7FFFF000] (stagedKernel 0) = .ok (o, k') ∧
      o.ret = 0 ∧ Fits o.strings ∧
      ¬ ∃ ptrs, Decodes k'.mm (load32 k'.mm.mem 0x107048) o.strings ptrs := by
  have hrun : (finish 0x80106000 0x1000 0x2000 [0x7FFFF000] (stagedKernel 0)).toOption.map
      (fun r => (r.1.ret, r.1.strings, (Mm.vload32 (load32 r.2.mm.mem 0x107048) r.2.mm).toOption.map
        Prod.fst)) = some (0, [[97, 0]], none) := by decide +kernel
  obtain ⟨⟨o, k'⟩, hk', he⟩ := exists_ok_of_toOption hrun
  obtain ⟨hret, hrest⟩ := Prod.mk.inj he
  obtain ⟨hstrings, hload⟩ := Prod.mk.inj hrest
  refine ⟨o, k', hk', hret, ?_, fun ⟨ptrs, hdec⟩ => ?_⟩
  · rw [show o.strings = [[97, 0]] from hstrings]
    unfold Fits
    decide
  · rw [hdec.argc] at hload
    cases hload

end Exec

end Chunix
