import Chunix.Exec.Arguments
import Chunix.Exec.Atomic
import Chunix.Exec.Takeover

/-!
# From the program headers to the new program

`place` is `exec` from the loop over the program headers on. The block of the file is
given back before the arguments are put on the stack.
-/

namespace Chunix

namespace Exec

open Machine Kernel

/-- `exec` when the file is in the block `fp`. -/
def place (cur pgdir fp : Nat) (hdr : Elf.Header) (argv : List Nat) : Act Kernel Outcome := do
  let ph := u32 (fp + hdr.phoff)
  let eph := u32 (ph + hdr.phnum * Elf.progHeaderSize)
  let range ← onMm (loadLoop cur pgdir fp eph hdr.phnum ph 0)
  Heap.kfree Heap.taskWindow fp
  finish pgdir hdr.entry range argv

/-- An `exec` that returns zero ends with `place`. -/
theorem exec_place {loc : Locals} {path : Nat} {argv : List Nat} {w w' : Syscall.World} {o : Outcome}
    (h : exec loc path argv w = .ok (o, w')) (hret : o.ret = 0) :
    ∃ c k pgdir fp hdr, k.current = some c ∧
      place (k.tasks c).pgdir pgdir fp hdr argv k = .ok (o, w'.kernel) := by
  have hfail : ∀ {pgdir : Nat} {w₁ : Syscall.World},
      Syscall.onMm (fail pgdir) w₁ = .ok (o, w') → False := by
    intro pgdir w₁ hf
    rw [(fail_cases hf).1] at hret
    exact absurd hret (by decide)
  obtain ⟨r, w₁, -, ⟨-, h⟩ | ⟨-, pgdir, w₂, -, ⟨-, h⟩ | ⟨-, h⟩⟩⟩ := exec_cases h
  · exact (hfail h).elim
  · exact (hfail h).elim
  rw [load] at h
  obtain ⟨state, w₃, -, h⟩ := Act.bind_eq_ok.1 h
  obtain ⟨fp, w₄, -, h⟩ := Act.bind_eq_ok.1 h
  rcases Act.ite_eq_ok.1 h with ⟨-, h⟩ | ⟨-, h⟩
  · obtain ⟨_, _, h, -⟩ := Act.bind_eq_ok.1 h
    exact (Act.halt_eq_ok.1 h).elim
  obtain ⟨_, w₅, -, h⟩ := Act.bind_eq_ok.1 h
  obtain ⟨t, w₆, ht, h⟩ := Act.bind_eq_ok.1 h
  obtain ⟨range, w₇, hloop, h⟩ := Act.bind_eq_ok.1 h
  obtain ⟨_, w₈, hfree, h⟩ := Act.bind_eq_ok.1 h
  obtain ⟨m, hloop', rfl⟩ := Act.zoom_eq_ok.1 hloop
  obtain ⟨k₁, hfree', rfl⟩ := Act.zoom_eq_ok.1 hfree
  obtain ⟨k₂, h', rfl⟩ := Act.zoom_eq_ok.1 h
  obtain ⟨c, w₉, hc, ht⟩ := Act.bind_eq_ok.1 ht
  obtain ⟨rfl, rfl⟩ := Act.gets_eq_ok.1 ht
  obtain ⟨w₀, _, hw, hc⟩ := Act.bind_eq_ok.1 hc
  obtain ⟨rfl, rfl⟩ := Act.get_eq_ok.1 hw
  cases hcur : w₅.kernel.current with
  | none =>
      rw [hcur] at hc
      exact (Act.halt_eq_ok.1 hc).elim
  | some t =>
      rw [hcur] at hc
      obtain ⟨rfl, rfl⟩ := Act.pure_eq_ok.1 hc
      refine ⟨t, w₅.kernel, pgdir, fp, Elf.header r.2 0, hcur, ?_⟩
      rw [place, Act.bind_of_ok (onMm_eq_ok.2 ⟨m, hloop', rfl⟩), Act.bind_of_ok hfree']
      exact h'

/-- The task `c` at the stage `x` has the file in the block `fp` of its heap. -/
structure HasFile (own : Nat → Prop) (k : Kernel) (c : Slot) (x : Stage) (fp size : Nat) : Prop
    extends Running own k c x where
  block : ∃ live cs, Heap.Inv (Heap.paged own) ⟨k, live⟩ cs ∧ ⟨fp, size⟩ ∈ live

/-- The headers and the segments lie in the file, and the segments in the memory of the
user. -/
structure WellFormed (v : Memory) (fp size : Nat) (hdr : Elf.Header) : Prop where
  headers : hdr.phoff + 32 * hdr.phnum ≤ size
  segments : ∀ p ∈ Elf.segments v hdr.phnum (fp + hdr.phoff), p.Sound size

section

variable {own : Nat → Prop} {k k' k₁ : Kernel} {c : Slot} {x : Stage} {fp size : Nat}
  {hdr : Elf.Header}

theorem HasFile.buffer (h : HasFile own k c x fp size) : Buffer x fp size := by
  obtain ⟨live, cs, hinv, hb⟩ := h.block
  have hv : (Heap.paged own).view k = Heap.taskView k := rfl
  obtain ⟨hlow, hhigh⟩ := (hinv.backed _ hb).bounds hinv.holds
  rw [hv, h.paged.view_eq] at hhigh
  simp only at hlow hhigh
  have hbounds := h.paging.bounds
  have htop := h.paging.high
  have hen : Heap.heapEnd = 4290768896 := rfl
  have hst : Heap.heapStart = 3489660928 := rfl
  have hfirst : Heap.firstPage = 851968 := rfl
  refine ⟨by omega, by omega, fun a ha ha' => h.heap _ ⟨by omega, by omega⟩⟩

/-- The stage when the segments have been loaded and the file has been given back. -/
structure Loaded (fp : Nat) (ps : List Elf.ProgHeader) (x z : Stage) : Prop where
  caller : z.s.dir = x.s.dir
  program : z.d.dir = x.d.dir
  user : ∀ n, n < 524288 → x.U n → z.U n
  entry : ∀ n, n < 524288 → x.U n → z.s.entry z.m.mem n = x.s.entry x.m.mem n
  view : ∀ a, a < 2147483648 → x.U (a / 4096) → z.view a = Elf.placeAll fp ps x.view a
  image : Elf.cost ps ≤ x.l.length → ∀ p ∈ ps, ∀ a, p.va ≤ a → a < p.va + p.memsize →
    a / 4096 = p.va / 4096 → z.C (a / 4096) ∧ z.image a = p.place fp x.view a
  copied : Elf.cost ps ≤ x.l.length → ∀ p ∈ ps, z.C (p.va / 4096)
  outside : ∀ j, (∀ p ∈ ps, j < p.va / 4096 ∨ (p.va + 4095) / 4096 < j) →
    z.d.entry z.m.mem j = x.d.entry x.m.mem j
  fresh : ∀ q, z.Program q → x.Program q ∨ Mm.framesOf x.l q
  list : ∀ q, Mm.framesOf z.l q →
    Mm.framesOf x.l q ∨ x.s.Has q ∨ ∃ n, x.U n ∧ x.s.frame x.m.mem n = q

theorem placeAll_of_ge {v : Memory} {ps : List Elf.ProgHeader} (hps : ∀ p ∈ ps, p.Sound size)
    {a : Nat} (ha : 2147483648 ≤ a) : Elf.placeAll fp ps v a = v a := by
  induction ps generalizing v with
  | nil => rfl
  | cons p ps ih =>
      obtain ⟨hp, hps⟩ := List.forall_mem_cons.1 hps
      exact (ih hps).trans (Elf.ProgHeader.place_of_ge hp ha)

theorem HasFile.loaded {range : Nat} (h : HasFile own k c x fp size)
    (hfile : WellFormed x.view fp size hdr)
    (hloop : onMm (loadLoop (k.tasks c).pgdir (Mm.p2v x.d.dir) fp
      (u32 (u32 (fp + hdr.phoff) + hdr.phnum * Elf.progHeaderSize)) hdr.phnum
      (u32 (fp + hdr.phoff)) 0) k = .ok (range, k₁))
    (hfree : Heap.kfree Heap.taskWindow fp k₁ = .ok ((), k')) :
    ∃ own' z, Running own' k' c z ∧
      Loaded fp (Elf.segments x.view hdr.phnum (fp + hdr.phoff)) x z ∧
      k'.tasks c = { k.tasks c with
        heapStart := (k'.tasks c).heapStart, heapTop := (k'.tasks c).heapTop } := by
  have hb := h.buffer
  have hlow := hb.low
  have hhigh := hb.high
  have hin := hfile.headers
  obtain ⟨m₁, hrun, rfl⟩ := onMm_eq_ok.1 hloop
  rw [show hdr.phnum * Elf.progHeaderSize = 32 * hdr.phnum from Nat.mul_comm _ _,
    u32_eq_self (show fp + hdr.phoff < 4294967296 by omega), u32_eq_self (by omega),
    h.paged.pgdir, h.mm] at hrun
  obtain ⟨y, rfl, hloads, -⟩ := x.loadLoop hb (by omega) (by omega) hfile.segments hrun
  obtain ⟨live, cs, hinv, hblock⟩ := h.block
  have hfix : ∀ a, 2147483648 ≤ a → x.U (a / 4096) → y.view a = x.view a := by
    intro a ha hU
    rw [hloads.view hb hfile.segments hU, placeAll_of_ge hfile.segments ha]
  have hy := h.toRunning.later hloads.later
  have hinv' := h.toRunning.inv_later hloads.later hinv hfix
  obtain ⟨⟨cs', hinv₂⟩, hlocal⟩ := hinv'.kfree_local hblock hfree
  obtain ⟨c', s', l', hpaged⟩ := hinv₂.ok
  have hcurrent : k'.current = some c := by
    rw [hlocal.kernel]
    exact h.paged.current
  cases hcurrent.symm.trans hpaged.current
  obtain ⟨z, hz, rfl, hd, rfl, hC, hU, hentry, hprogram, hview, himage⟩ :=
    hy.heap_step hlocal hpaged
  refine ⟨_, z, hz, ⟨?_, ?_, ?_, ?_, ?_, ?_, ?_, ?_, ?_, ?_⟩, hlocal.task c⟩
  · rw [← z.loading.cr3, ← hz.mm, hlocal.mm.regs]
    exact y.loading.cr3.trans hloads.later.caller
  · rw [hd]
    exact hloads.later.program
  · intro n hn hx
    exact (hU n hn).2 (hloads.later.user n hx)
  · intro n hn hx
    rw [hentry n hn, hloads.later.entry n (Or.inr hx)]
  · intro a ha hx
    rw [hview a ha (hloads.later.user _ hx), hloads.view hb hfile.segments hx]
  · intro hcost p hp a ha ha' hpage
    obtain ⟨hy', himg⟩ := hloads.image hb hfile.segments hcost hp ha ha' hpage
    rw [hC]
    exact ⟨hy', (himage a hy').trans himg⟩
  · intro hcost p hp
    rw [hC]
    exact hloads.copied hcost p hp
  · intro j hj
    rw [hprogram, hloads.outside hj]
  · intro q hq
    rw [hd] at hprogram
    exact hloads.later.fresh q (Stage.program_congr hd hC hprogram hq)
  · rintro q ⟨v, hv, he⟩
    have hpage := hpaged.paging.held.pool.page v hv
    rcases (hpaged.paging.own v hpage).2 (Or.inl hv) with hl | hs | ⟨n, hn, hf⟩
    · exact Or.inl ⟨v, hloads.later.list v hl, he⟩
    · rw [← he] at hs
      exact (hloads.later.origin _ hs).elim (fun h => Or.inr (Or.inl h)) Or.inl
    · have hU := h.heap n hn
      refine Or.inr (Or.inr ⟨n, hU, ?_⟩)
      rw [← frame_congr (hloads.later.entry n (Or.inr hU)), he]
      exact hf

/-- `place` while the directory of the caller is in use. -/
def rehearse (cur pgdir fp : Nat) (hdr : Elf.Header) (argv : List Nat) :
    Act Kernel (Option (Nat × List (List UInt8))) := do
  let ph := u32 (fp + hdr.phoff)
  let eph := u32 (ph + hdr.phnum * Elf.progHeaderSize)
  let _ ← onMm (loadLoop cur pgdir fp eph hdr.phnum ph 0)
  Heap.kfree Heap.taskWindow fp
  onMm (build cur pgdir argv)

/-- `exec` returns zero when it has come so far. -/
theorem HasFile.returns {argv : List Nat} {esp : Nat} {strings : List (List UInt8)}
    (h : HasFile own k c x fp size) (hfile : WellFormed x.view fp size hdr)
    (hrun : rehearse (k.tasks c).pgdir (Mm.p2v x.d.dir) fp hdr argv k =
      .ok (some (esp, strings), k₁)) (hfit : Fits strings) :
    ∃ k', place (k.tasks c).pgdir (Mm.p2v x.d.dir) fp hdr argv k = .ok (⟨0, strings⟩, k') := by
  obtain ⟨range, k₂, hloop, hrun⟩ := Act.bind_eq_ok.1 hrun
  obtain ⟨_, k₃, hfree, hrun⟩ := Act.bind_eq_ok.1 hrun
  obtain ⟨m, hbuild, -⟩ := onMm_eq_ok.1 hrun
  obtain ⟨own', z, hz, hloaded, -⟩ := h.loaded hfile hloop hfree
  rw [h.paged.pgdir, ← hloaded.caller, ← hloaded.program] at hbuild
  obtain ⟨k', hk'⟩ := hz.returns hdr.entry range hbuild hfit
  refine ⟨k', ?_⟩
  rw [place, Act.bind_of_ok hloop, Act.bind_of_ok hfree, ← hloaded.program]
  exact hk'

/-- The pointer of an argument denotes its string. -/
structure Denotes (m : Mm) (a : Nat × List UInt8) : Prop where
  user : a.1 + a.2.length < 2147483648
  chars : Syscall.chars 4294967296 a.1 m = .ok (a.2, m)

/-- A byte of the user that can be read is on a page of the caller. -/
theorem Stage.page_of_vload8 {a : Nat} {b : UInt8} (x : Stage) (ha : a < 2147483648)
    (h : Mm.vload8 a x.m = .ok (b, x.m)) : x.U (a / 4096) := by
  refine x.loading.user _ (by omega) ?_
  by_contra hp
  have hw : Mm.walk x.m.mem x.m.cr3 (u32 a) = none := by
    rw [u32_eq_self (by omega), x.loading.cr3, x.loading.caller.space.walk_eq (by omega), if_neg hp]
  rw [Mm.vload8, Act.bind_of_ok (Act.get_eq_ok.2 ⟨rfl, rfl⟩), Mm.translate, hw] at h
  cases h

theorem Denotes.inUser {a : Nat × List UInt8} (h : Denotes x.m a) : InUser x a := by
  obtain ⟨hbytes, hend⟩ := chars_bytes h.chars
  refine ⟨h.user, fun j hj => ?_⟩
  have huser := h.user
  rcases Nat.lt_or_eq_of_le hj with hj | rfl
  · obtain ⟨b, -, hb⟩ := hbytes j hj
    exact x.page_of_vload8 (by omega) hb
  · exact x.page_of_vload8 (by omega) hend

/-- The arguments are the strings that `argv` denotes if these can still be copied when the
segments have been loaded. -/
theorem exec_passes_iff {args : List (Nat × List UInt8)} {o : Outcome}
    (h : HasFile own k c x fp size) (hfile : WellFormed x.view fp size hdr)
    (hstack : x.U 524287) (hlow : x.s.frame x.m.mem 524287 < 2147483648)
    (hargs : ∀ a ∈ args, Denotes k.mm a) (hfit : Fits (terminated args))
    (hrun : place (k.tasks c).pgdir (Mm.p2v x.d.dir) fp hdr (args.map Prod.fst) k = .ok (o, k'))
    (hret : o.ret = 0) :
    o.strings = terminated args ↔
      Kept (Elf.placeAll fp (Elf.segments x.view hdr.phnum (fp + hdr.phoff)) x.view) Mm.ustacktop
        args := by
  rw [h.mm] at hargs
  rw [place] at hrun
  obtain ⟨range, k₁, hloop, hrun⟩ := Act.bind_eq_ok.1 hrun
  obtain ⟨_, k₂, hfree, hrun⟩ := Act.bind_eq_ok.1 hrun
  obtain ⟨own', z, hz, hloaded, -⟩ := h.loaded hfile hloop hfree
  have hU := hloaded.user _ (by decide) hstack
  obtain ⟨m₁, m₂, -, -, -, esp, -, -, h₁, h₂, -⟩ := finish_eq_ok hz.paged.current hrun hret
  rw [hz.paged.pgdir, hz.mm] at h₁
  rw [hz.paged.pgdir] at h₂
  have halloc := Mm.regionAlloc_present (Mm.pteW ||| Mm.pteU) z.loading.caller.space (by decide)
    (z.loading.present _ hU)
  obtain ⟨-, rfl⟩ := Prod.mk.inj (Except.ok.inj (halloc.symm.trans h₁))
  rw [setupStack] at h₂
  obtain ⟨r, m₃, hpush, h₂⟩ := Act.bind_eq_ok.1 h₂
  cases r with
  | none => cases (Act.pure_eq_ok.1 h₂).1
  | some a =>
      obtain ⟨r, m₄, -, h₂⟩ := Act.bind_eq_ok.1 h₂
      rcases Act.ite_eq_ok.1 h₂ with ⟨-, h₂⟩ | ⟨-, h₂⟩
      · cases (Act.pure_eq_ok.1 h₂).1
      obtain ⟨hres, -⟩ := Act.pure_eq_ok.1 h₂
      obtain ⟨-, hstrings⟩ := Prod.mk.inj (Option.some.inj hres)
      rw [← hstrings]
      have huser : ∀ a ∈ args, InUser x a := fun a ha => (hargs a ha).inUser
      have huser' : ∀ a ∈ args, InUser z a := fun a ha => ⟨(huser a ha).user, fun j hj =>
        hloaded.user _ (by have := (huser a ha).user; omega) ((huser a ha).pages j hj)⟩
      have hlow' : z.s.frame z.m.mem 524287 < 2147483648 := by
        rw [frame_congr (hloaded.entry _ (by decide) hstack)]
        exact hlow
      have htop : Mm.ustacktop = 2147483648 := rfl
      unfold Fits at hfit
      refine (z.pushArgs_iff hU hlow' (by omega) (by omega) huser' (by omega) hpush).trans
        (kept_congr fun a ha j hj => ?_)
      have hlt := (huser a ha).user
      exact hloaded.view _ (by omega) ((huser a ha).pages j hj)

end

/-- The words in the memory of the task of `callerSpace`: its tables, the string `a` at the
bottom of the stack page, the chunk of a file with the program header `p` and four more
bytes, and the links of nine free pages. -/
def fileWords (p : Elf.ProgHeader) : List (Nat × Nat) :=
  [(0x1017FC, 0x102007), (0x101D00, 0x103007), (0x102FFC, 0x104007), (0x103000, 0x105007),
    (0x104000, 97), (0x105004, 0xD0000010), (0x105008, 32), (0x105010, 0xD0000000),
    (0x105018, 96), (0x10501C, p.type), (0x105020, p.offset), (0x105024, p.va),
    (0x10502C, p.filesize), (0x105030, p.memsize), (0x10503C, 0x44434241),
    (0x108000, 0x80109000), (0x109000, 0x8010A000), (0x10A000, 0x8010B000),
    (0x10B000, 0x8010C000), (0x10C000, 0x8010D000), (0x10D000, 0x8010E000),
    (0x10E000, 0x8010F000), (0x10F000, 0x80110000)]

/-- The free pages. -/
def freePages : List Nat :=
  [0x80108000, 0x80109000, 0x8010A000, 0x8010B000, 0x8010C000, 0x8010D000, 0x8010E000,
    0x8010F000, 0x80110000]

/-- The kernel when the task has the file in its heap and a directory for the new program
has been made. -/
def fileKernel (p : Elf.ProgHeader) : Kernel := { stagedKernel 0x80108000 with
  mm := { (stagedKernel 0x80108000).mm with mem := words (fileWords p) }
  tasks := fun t => if t = 0 then
      { Task.zero with
        state := .running, pgdir := 0x80101000, tf := 0x80107000, heapStart := 0xD0000000,
        heapTop := 0xD0001000 }
    else Task.zero }

theorem fileWords_addr (p : Elf.ProgHeader) : (fileWords p).map Prod.fst =
    [0x1017FC, 0x101D00, 0x102FFC, 0x103000, 0x104000, 0x105004, 0x105008, 0x105010, 0x105018,
      0x10501C, 0x105020, 0x105024, 0x10502C, 0x105030, 0x10503C, 0x108000, 0x109000, 0x10A000,
      0x10B000, 0x10C000, 0x10D000, 0x10E000, 0x10F000] := rfl

theorem fileWords_load {p : Elf.ProgHeader} {a w : Nat} (h : (a, w) ∈ fileWords p) :
    load32 (words (fileWords p)) a = u32 w :=
  load32_words (by rw [fileWords_addr]; decide) (by rw [fileWords_addr]; decide) h

theorem fileWords_zero {p : Elf.ProgHeader} {a : Nat} (ha : a + 4 ≤ 4294967296)
    (h : ∀ b ∈ (fileWords p).map Prod.fst, a + 4 ≤ b ∨ b + 4 ≤ a) :
    load32 (words (fileWords p)) a = 0 :=
  load32_words_zero ha (by rw [fileWords_addr]; decide) h

theorem file_entry (p : Elf.ProgHeader) (n : Nat) :
    callerSpace.entry (words (fileWords p)) n =
      if n = 524287 then 0x104007 else if n = 851968 then 0x105007 else 0 := by
  by_cases h₁ : n = 524287
  · subst h₁
    exact fileWords_load (a := 0x102FFC) (w := 0x104007) (by simp [fileWords])
  by_cases h₂ : n = 851968
  · subst h₂
    exact fileWords_load (a := 0x103000) (w := 0x105007) (by simp [fileWords])
  rw [if_neg h₁, if_neg h₂, Mm.Space.entry, callerSpace]
  by_cases h₃ : n / 1024 = 511
  · simp only [h₃, if_true]
    exact fileWords_zero (by omega) (by rw [fileWords_addr]; simp; omega)
  by_cases h₄ : n / 1024 = 832
  · simp only [h₄, if_true, show (832 : Nat) ≠ 511 by decide, if_false]
    exact fileWords_zero (by omega) (by rw [fileWords_addr]; simp; omega)
  · simp only [h₃, h₄, if_false]

theorem file_present {p : Elf.ProgHeader} {n : Nat}
    (h : Mm.present (callerSpace.entry (words (fileWords p)) n)) : n = 524287 ∨ n = 851968 := by
  rw [file_entry] at h
  split_ifs at h with h₁ h₂
  · exact Or.inl h₁
  · exact Or.inr h₂
  · exact absurd h (by decide)

theorem file_stack (p : Elf.ProgHeader) :
    callerSpace.entry (words (fileWords p)) 524287 = 0x104007 := file_entry p _

theorem file_heap (p : Elf.ProgHeader) :
    callerSpace.entry (words (fileWords p)) 851968 = 0x105007 := file_entry p _

theorem freePages_spec : ∀ v ∈ freePages, v % 4096 = 0 ∧ 0x80108000 ≤ v ∧ v ≤ 0x80110000 := by
  decide

theorem freePages_frame {q : Nat} (h : Mm.framesOf freePages q) : 0x108000 ≤ q ∧ q ≤ 0x110000 := by
  obtain ⟨v, hv, he⟩ := h
  have := freePages_spec v hv
  unfold Mm.v2p u32 at he
  omega

theorem emptySpace_has {q r : Nat} (h : (Mm.Space.empty q).Has r) : r = q := by
  rcases h with h | ⟨i, hi⟩
  · exact h
  · cases hi

theorem file_pool (p : Elf.ProgHeader) : Mm.Pool (fileKernel p).mm freePages := by
  have hlink : ∀ v w, (Mm.v2p v, w) ∈ fileWords p → w < 4294967296 → w ≠ 0 →
      Mm.link (words (fileWords p)) v = some w := by
    intro v w h hw hne
    rw [Mm.link, fileWords_load h, u32_eq_self hw, Mm.ptr, if_neg hne]
  refine ⟨⟨rfl, ?_, ?_, ?_, ?_, ?_, ?_, ?_, ?_, ?_⟩, fun v hv => ?_⟩
  iterate 8 exact hlink _ _ (by simp [fileWords, Mm.v2p, u32]) (by decide) (by decide)
  · change Mm.link (words (fileWords p)) _ = none
    rw [Mm.link, fileWords_zero (by decide) (by rw [fileWords_addr]; decide)]
    rfl
  · have := freePages_spec v hv
    exact ⟨by omega, by omega, by omega⟩

theorem file_caller (p : Elf.ProgHeader) : callerSpace.At (words (fileWords p)) where
  dir := callerSpace_at.dir
  tab := callerSpace_at.tab
  inj := callerSpace_at.inj
  pde := by
    intro i t hi
    simp only [callerSpace] at hi
    split_ifs at hi with h₁ h₂
    · cases hi
      subst h₁
      have h := fileWords_load (p := p) (a := 0x1017FC) (w := 0x102007) (by simp [fileWords])
      exact h.symm ▸ by decide
    · cases hi
      subst h₂
      have h := fileWords_load (p := p) (a := 0x101D00) (w := 0x103007) (by simp [fileWords])
      exact h.symm ▸ by decide
  absent := by
    intro i hi hn
    simp only [callerSpace] at hn ⊢
    split_ifs at hn with h₁ h₂
    rw [fileWords_zero (by omega) (by rw [fileWords_addr]; simp; omega)]
    decide

theorem file_program (p : Elf.ProgHeader) : (Mm.Space.empty 0x106000).At (words (fileWords p)) where
  dir := programSpace_at.dir
  tab := programSpace_at.tab
  inj := programSpace_at.inj
  pde := by
    intro i t hi
    cases hi
  absent := by
    intro i hi _
    simp only [Mm.Space.empty]
    rw [fileWords_zero (by omega) (by rw [fileWords_addr]; simp; omega)]
    decide

theorem file_frame {p : Elf.ProgHeader} {n : Nat} (h : n = 524287 ∨ n = 851968) :
    callerSpace.frame (words (fileWords p)) n = if n = 524287 then 0x104000 else 0x105000 := by
  rw [Mm.Space.frame, file_entry]
  rcases h with rfl | rfl <;> rfl

theorem file_loading (p : Elf.ProgHeader) : Loading (fileKernel p).mm callerSpace (.empty 0x106000)
    freePages (fun n => n = 524287 ∨ n = 851968) (fun _ => False) where
  cr3 := rfl
  caller := ⟨file_caller p, file_pool p, fun v hv hs => by
    have h₁ := callerSpace_has hs
    have h₂ := freePages_frame ⟨v, hv, rfl⟩
    omega⟩
  program := ⟨file_program p, file_pool p, fun v hv hs => by
    have h₁ := emptySpace_has hs
    have h₂ := freePages_frame ⟨v, hv, rfl⟩
    omega⟩
  apart := ⟨fun q hs hd => by
    have h₁ := callerSpace_has hs
    have h₂ := emptySpace_has hd
    omega, fun q hs hf => by
    have h₁ := callerSpace_has hs
    have h₂ := freePages_frame hf
    omega⟩
  user := fun n _ h => file_present h
  present := by
    intro n hn
    change Mm.present (callerSpace.entry (words (fileWords p)) n)
    rw [file_entry]
    rcases hn with rfl | rfl <;> decide
  frame := by
    intro n hn
    change Mm.IsFrame (callerSpace.frame (words (fileWords p)) n) ∧
      Mm.Off _ _ _ (callerSpace.frame (words (fileWords p)) n)
    have hf : ∀ q, q = 0x104000 ∨ q = 0x105000 →
        Mm.IsFrame q ∧ Mm.Off callerSpace (.empty 0x106000) freePages q := by
      intro q hq
      refine ⟨⟨by omega, by omega, by omega⟩, fun hs => ?_, fun hd => ?_, fun hl => ?_⟩
      · have := callerSpace_has hs
        omega
      · have := emptySpace_has hd
        omega
      · have := freePages_frame hl
        omega
    rw [file_frame hn]
    split_ifs
    · exact hf _ (Or.inl rfl)
    · exact hf _ (Or.inr rfl)
  inj := by
    intro n k hn hk he
    change callerSpace.frame (words (fileWords p)) n = callerSpace.frame (words (fileWords p)) k at he
    rw [file_frame hn, file_frame hk] at he
    split_ifs at he <;> omega
  copied := fun _ h => h.elim
  own := fun _ _ _ h => h.elim

/-- The stage of that kernel. -/
def fileStage (p : Elf.ProgHeader) : Stage where
  m := (fileKernel p).mm
  s := callerSpace
  d := .empty 0x106000
  l := freePages
  U := fun n => n = 524287 ∨ n = 851968
  C := fun _ => False
  loading := file_loading p

theorem file_usable (p : Elf.ProgHeader) {v : Nat} (hv : v % 4096 = 0) (hlow : 0x80101000 ≤ v)
    (hhigh : v ≤ 0x80110000) : Heap.Usable (fileKernel p).mm v := by
  refine ⟨⟨hv, by omega, by omega⟩, hlow, hhigh.trans ?_⟩
  change 0x80110000 ≤ Mm.v2p (u32 (2048 * 1024))
  decide

theorem file_inHeap {n : Nat} (h : Heap.InHeap 0xD0001000 n) : n = 851968 := by
  unfold Heap.InHeap Heap.firstPage at h
  omega

theorem file_paging (p : Elf.ProgHeader) :
    Heap.Paging (owned (fileStage p) 0xD0001000) (fileKernel p).mm 0xD0001000 callerSpace freePages where
  cr3 := rfl
  held := (file_loading p).caller
  low := by decide
  high := by decide
  aligned := by decide
  mapped := by
    intro n hn
    cases file_inHeap hn
    change Mm.present (callerSpace.entry (words (fileWords p)) 851968) ∧
      ∃ v, Mm.pteAddr (callerSpace.entry (words (fileWords p)) 851968) = Mm.v2p v ∧ _
    rw [file_heap]
    refine ⟨by decide, 0x80105000, by decide, file_usable p (by decide) (by decide) (by decide),
      by decide, fun hs => ?_⟩
    have h₁ := callerSpace_has hs
    unfold Mm.v2p u32 at h₁
    omega
  inj := by
    intro n k hn hk _
    rw [file_inHeap hn, file_inHeap hk]
  absent := by
    intro n hn hn' hp
    have := file_present hp
    unfold Heap.endPage at hn'
    omega
  usable := by
    intro v hv
    have := freePages_spec v hv
    exact file_usable p (by omega) (by omega) (by omega)
  own := fun v _ => Iff.rfl

theorem file_running (p : Elf.ProgHeader) :
    Running (owned (fileStage p) 0xD0001000) (fileKernel p) 0 (fileStage p) where
  mm := rfl
  paged := ⟨rfl, show 0x80101000 = Mm.p2v 0x101000 by decide, file_paging p⟩
  heap := fun n hn => Or.inr (file_inHeap hn)
  bound := by
    intro n hn
    change n < 524288 ∨ Heap.InHeap 0xD0001000 n
    change n = 524287 ∨ n = 851968 at hn
    unfold Heap.InHeap Heap.firstPage
    omega
  tables := by
    intro q hq
    have h := callerSpace_has hq
    have hv := file_usable p (v := 0x80000000 + q) (by omega) (by omega) (by omega)
    refine usable_inRange hv ?_
    unfold Mm.v2p u32
    omega

theorem file_heapMem (p : Elf.ProgHeader) {a : Nat} (ha : 0xD0000000 ≤ a) (ha' : a < 0xD0001000) :
    Heap.heapMem (fileKernel p).mm 0xD0001000 a = words (fileWords p) (0x105000 + a % 4096) := by
  rw [(file_paging p).heapMem_eq ha ha', show a / 4096 = 851968 by omega]
  change words (fileWords p) (Mm.pteAddr (callerSpace.entry (words (fileWords p)) 851968) + _) = _
  rw [file_heap]
  rfl

theorem file_heapWord (p : Elf.ProgHeader) {i w : Nat} (hi : i + 4 ≤ 4096)
    (h : load32 (words (fileWords p)) (0x105000 + i) = w) :
    load32 (Heap.heapMem (fileKernel p).mm 0xD0001000) (0xD0000000 + i) = w := by
  rw [← h]
  refine load32_shift (by omega) (by omega) fun j hj => ?_
  rw [file_heapMem p (by omega) (by omega)]
  congr 1
  omega

theorem file_hasFile (p : Elf.ProgHeader) :
    HasFile (owned (fileStage p) 0xD0001000) (fileKernel p) 0 (fileStage p) 0xD000001C 36 := by
  have hword : ∀ i w, i + 4 ≤ 4096 → w < 4294967296 → (0x105000 + i, w) ∈ fileWords p →
      load32 (Heap.heapMem (fileKernel p).mm 0xD0001000) (0xD0000000 + i) = w :=
    fun i w hi hw h => file_heapWord p hi ((fileWords_load h).trans (u32_eq_self hw))
  have hzero : ∀ i, i + 4 ≤ 4096 →
      (∀ b ∈ (fileWords p).map Prod.fst, 0x105000 + i + 4 ≤ b ∨ b + 4 ≤ 0x105000 + i) →
      load32 (Heap.heapMem (fileKernel p).mm 0xD0001000) (0xD0000000 + i) = 0 :=
    fun i hi h => file_heapWord p hi (fileWords_zero (by omega) h)
  have hseg : Heap.Seg (Heap.heapMem (fileKernel p).mm 0xD0001000) 0 0 0xD0000000
      [⟨16, false⟩, ⟨48, false⟩] := by
    refine ⟨⟨?_, ?_, ?_⟩, ⟨?_, ?_, ?_⟩, trivial⟩
    · exact hzero 0 (by decide) (by rw [fileWords_addr]; decide)
    · exact hword 4 0xD0000010 (by decide) (by decide) (by simp [fileWords])
    · exact hword 8 32 (by decide) (by decide) (by simp [fileWords])
    · exact hword 16 0xD0000000 (by decide) (by decide) (by simp [fileWords])
    · exact hzero 20 (by decide) (by rw [fileWords_addr]; decide)
    · exact hword 24 96 (by decide) (by decide) (by simp [fileWords])
  refine ⟨file_running p, [⟨0xD000001C, 36⟩], [⟨16, false⟩, ⟨48, false⟩],
    ⟨⟨_, _, _, (file_running p).paged⟩, ⟨?_, hseg, ?_, ?_, ?_, ?_⟩, ?_, by simp⟩, by simp⟩
  · rfl
  · simp [Heap.Sized, Heap.headerSize]
  · simp [Heap.Tidy]
  · change 0xD0001000 = _
    decide
  · decide
  · intro b hb
    cases List.mem_singleton.1 hb
    exact ⟨(0xD0000010, 48), by simp [Heap.usedAt, Heap.heapStart], by decide, by decide⟩

/-- A segment of six bytes, the last two of which are not in the file. -/
def sixBytes (va : Nat) : Elf.ProgHeader := ⟨1, 32, va, 4, 6⟩

/-- The ELF header of the file. -/
def oneSegment : Elf.Header := ⟨Elf.magic, 0x1000, 0, 1⟩

theorem file_view (p : Elf.ProgHeader) {a : Nat} (h : a / 4096 = 851968) :
    (fileStage p).view a = words (fileWords p) (0x105000 + a % 4096) := by
  change words (fileWords p) (callerSpace.frame (words (fileWords p)) (a / 4096) + a % 4096) = _
  rw [h, file_frame (Or.inr rfl)]
  rfl

theorem file_word (p : Elf.ProgHeader) {i w : Nat} (hi : i + 4 ≤ 4096) (hw : w < 4294967296)
    (h : (0x105000 + i, w) ∈ fileWords p) : load32 (fileStage p).view (0xD0000000 + i) = w := by
  rw [← u32_eq_self hw, ← fileWords_load h]
  refine load32_shift (by omega) (by omega) fun j hj => ?_
  rw [file_view p (by omega)]
  congr 1
  omega

theorem sixBytes_segments {va : Nat} (hva : va < 4294967296) :
    Elf.segments (fileStage (sixBytes va)).view oneSegment.phnum (0xD000001C + oneSegment.phoff) =
      [sixBytes va] := by
  have hp : Elf.progHeader (fileStage (sixBytes va)).view 0xD000001C = sixBytes va := by
    have hword := @file_word (sixBytes va)
    unfold Elf.progHeader
    rw [show (0xD000001C : Nat) = 0xD0000000 + 28 from rfl,
      hword (i := 28) (w := 1) (by decide) (by decide) (by simp [fileWords, sixBytes]),
      hword (i := 32) (w := 32) (by decide) (by decide) (by simp [fileWords, sixBytes]),
      hword (i := 36) (w := va) (by decide) hva (by simp [fileWords, sixBytes]),
      hword (i := 44) (w := 4) (by decide) (by decide) (by simp [fileWords, sixBytes]),
      hword (i := 48) (w := 6) (by decide) (by decide) (by simp [fileWords, sixBytes])]
    rfl
  change Elf.segments (fileStage (sixBytes va)).view 1 0xD000001C = _
  rw [Elf.segments, hp, if_pos (show (sixBytes va).type = Elf.progLoad from rfl), Elf.segments]

theorem sixBytes_wellFormed {va : Nat} (hva : va + 6 ≤ 2147483648) :
    WellFormed (fileStage (sixBytes va)).view 0xD000001C 36 oneSegment := by
  refine ⟨by decide, fun p hp => ?_⟩
  rw [sixBytes_segments (by omega)] at hp
  cases List.mem_singleton.1 hp
  exact ⟨show 32 + 4 ≤ 36 by decide, show 4 ≤ 6 by decide, hva⟩

theorem denotes_of_chars {m : Mm} {a : Nat} {cs : List UInt8} (ha : a + cs.length < 2147483648)
    (h : (Syscall.chars 4294967296 a m).toOption.map Prod.fst = some cs) : Denotes m (a, cs) := by
  obtain ⟨⟨cs', m'⟩, hrun, he⟩ := exists_ok_of_toOption h
  cases Syscall.readOnly_chars _ _ _ _ _ hrun
  exact ⟨ha, he ▸ hrun⟩

theorem sixBytes_returns (argv : List Nat) {strings : List (List UInt8)}
    (hrun : (rehearse 0x80101000 0x80106000 0xD000001C oneSegment argv
      (fileKernel (sixBytes 0x1000))).toOption.map (fun r => r.1.map Prod.snd) =
        some (some strings)) (hfit : Fits strings) :
    ∃ k', place 0x80101000 0x80106000 0xD000001C oneSegment argv (fileKernel (sixBytes 0x1000)) =
      .ok (⟨0, strings⟩, k') := by
  obtain ⟨⟨r, k₁⟩, hk₁, he⟩ := exists_ok_of_toOption hrun
  obtain ⟨⟨esp, strings⟩, rfl, rfl⟩ := Option.map_eq_some_iff.1 he
  exact (file_hasFile (sixBytes 0x1000)).returns (sixBytes_wellFormed (by decide)) hk₁ hfit

theorem sixBytes_string : Denotes (fileKernel (sixBytes 0x1000)).mm (0x7FFFF000, [97]) :=
  denotes_of_chars (by decide) (by decide +kernel)

/-- The string at the bottom of the stack page is passed on. -/
theorem fileKernel_passes :
    ∃ o k', place 0x80101000 0x80106000 0xD000001C oneSegment [0x7FFFF000]
      (fileKernel (sixBytes 0x1000)) = .ok (o, k') ∧ o.ret = 0 ∧ o.strings = [[97, 0]] ∧
      Kept (Elf.placeAll 0xD000001C [sixBytes 0x1000] (fileStage (sixBytes 0x1000)).view) Mm.ustacktop
        [(0x7FFFF000, [97])] := by
  have hfit : Fits (terminated [(0x7FFFF000, [97])]) := by
    unfold Fits
    decide
  obtain ⟨k', hk'⟩ := sixBytes_returns [0x7FFFF000] (by decide +kernel) hfit
  have hiff := exec_passes_iff (file_hasFile (sixBytes 0x1000)) (sixBytes_wellFormed (by decide))
    (Or.inl rfl)
    (show callerSpace.frame (words (fileWords (sixBytes 0x1000))) 524287 < 2147483648 by
      rw [file_frame (Or.inl rfl)]; decide)
    (fun a ha => List.mem_singleton.1 ha ▸ sixBytes_string) hfit hk' rfl
  rw [sixBytes_segments (by decide)] at hiff
  exact ⟨_, k', hk', rfl, rfl, hiff.1 rfl⟩

/-- The copy of the first string is written over the second one, which is empty. -/
theorem fileKernel_overwrites :
    ∃ o k', place 0x80101000 0x80106000 0xD000001C oneSegment [0x7FFFF000, 0x7FFFFFFC]
      (fileKernel (sixBytes 0x1000)) = .ok (o, k') ∧ o.ret = 0 ∧
      Denotes (fileKernel (sixBytes 0x1000)).mm (0x7FFFF000, [97]) ∧
      Denotes (fileKernel (sixBytes 0x1000)).mm (0x7FFFFFFC, []) ∧ o.strings = [[97, 0], [97, 0]] ∧
      o.strings ≠ terminated [(0x7FFFF000, [97]), (0x7FFFFFFC, [])] := by
  have hfit : Fits [[97, 0], [97, 0]] := by
    unfold Fits
    decide
  obtain ⟨k', hk'⟩ := sixBytes_returns [0x7FFFF000, 0x7FFFFFFC] (by decide +kernel) hfit
  exact ⟨_, k', hk', rfl, sixBytes_string, denotes_of_chars (by decide) (by decide +kernel), rfl,
    by decide⟩

end Exec

end Chunix
