import Chunix.Exec.Stage

/-!
# Loading a program

The loop of `exec` over the program headers. `ProgHeader.place` is what a segment does to
the memory of the caller, and the page that it begins in is copied for the new program.
-/

namespace Chunix

namespace Elf

open Machine

/-- The memory with a segment of the file at `fp`. -/
def ProgHeader.place (p : ProgHeader) (fp : Nat) (v : Memory) : Memory := fun a =>
  if p.va ≤ a ∧ a < p.va + p.filesize then v (fp + p.offset + (a - p.va))
  else if p.va + p.filesize ≤ a ∧ a < p.va + p.memsize then 0 else v a

/-- The number of pages of a segment. -/
def ProgHeader.pages (p : ProgHeader) : Nat := (p.va + p.memsize + 4095) / 4096 - p.va / 4096

/-- The segment lies in the first `size` bytes of the file and in the memory of the user. -/
structure ProgHeader.Sound (p : ProgHeader) (size : Nat) : Prop where
  file : p.offset + p.filesize ≤ size
  le : p.filesize ≤ p.memsize
  user : p.va + p.memsize ≤ 2147483648

theorem ProgHeader.place_of_ge {p : ProgHeader} {size fp a : Nat} {v : Memory}
    (h : p.Sound size) (ha : 2147483648 ≤ a) : p.place fp v a = v a := by
  have := h.le
  have := h.user
  rw [ProgHeader.place, if_neg (by omega), if_neg (by omega)]

theorem progHeader_congr {v w : Memory} {a : Nat} (ha : a + 32 ≤ 4294967296)
    (h : ∀ x, a ≤ x → x < a + 32 → w x = v x) : progHeader w a = progHeader v a := by
  have hword : ∀ b, a ≤ b → b + 4 ≤ a + 32 → load32 w b = load32 v b :=
    fun b hb hb' => load32_congr_range (by omega) fun x hx hx' => h x (by omega) (by omega)
  unfold progHeader
  rw [hword a (by omega) (by omega), hword (a + 4) (by omega) (by omega),
    hword (a + 8) (by omega) (by omega), hword (a + 16) (by omega) (by omega),
    hword (a + 20) (by omega) (by omega)]

/-- The program headers from the address `ph` on whose segments are loaded. -/
def segments (v : Memory) : Nat → Nat → List ProgHeader
  | 0, _ => []
  | n + 1, ph =>
      if (progHeader v ph).type = progLoad then
        progHeader v ph :: segments v n (ph + progHeaderSize)
      else segments v n (ph + progHeaderSize)

/-- The memory with all segments of the file at `fp`. -/
def placeAll (fp : Nat) (ps : List ProgHeader) (v : Memory) : Memory :=
  ps.foldl (fun v p => p.place fp v) v

/-- The number of free pages that are enough for the segments. -/
def cost (ps : List ProgHeader) : Nat := (ps.map fun p => 2 * p.pages + 3).sum

/-- The end of the highest segment, as `exec` computes it. -/
def range (ps : List ProgHeader) (r : Nat) : Nat :=
  ps.foldl (fun r p => max r (u32 (p.va + p.memsize))) r

section

variable {v w : Memory} {fp size ph n a : Nat} {p : ProgHeader} {ps : List ProgHeader}

theorem segments_congr (hph : ph + 32 * n ≤ 4294967296)
    (h : ∀ x, ph ≤ x → x < ph + 32 * n → w x = v x) : segments w n ph = segments v n ph := by
  induction n generalizing ph with
  | zero => rfl
  | succ n ih =>
      have hhead : progHeader w ph = progHeader v ph :=
        progHeader_congr (by omega) fun x hx hx' => h x hx (by omega)
      have hrest : segments w n (ph + progHeaderSize) = segments v n (ph + progHeaderSize) := by
        have hsize : progHeaderSize = 32 := rfl
        exact ih (by omega) fun x hx hx' => h x (by omega) (by omega)
      rw [segments, segments, hhead, hrest]

/-- Only the file and the byte itself count. -/
theorem ProgHeader.place_congr (hp : p.Sound size)
    (hfile : ∀ x, fp ≤ x → x < fp + size → w x = v x) (ha : w a = v a) :
    p.place fp w a = p.place fp v a := by
  have hin := hp.file
  unfold ProgHeader.place
  by_cases h : p.va ≤ a ∧ a < p.va + p.filesize
  · rw [if_pos h, if_pos h, hfile _ (by omega) (by omega)]
  · rw [if_neg h, if_neg h, ha]

theorem placeAll_congr (hps : ∀ p ∈ ps, p.Sound size)
    (hfile : ∀ x, fp ≤ x → x < fp + size → w x = v x) (ha : w a = v a) :
    placeAll fp ps w a = placeAll fp ps v a := by
  induction ps generalizing v w with
  | nil => exact ha
  | cons p ps ih =>
      obtain ⟨hp, hps⟩ := List.forall_mem_cons.1 hps
      exact ih hps (fun x hx hx' => ProgHeader.place_congr hp hfile (hfile x hx hx'))
        (ProgHeader.place_congr hp hfile ha)

end

end Elf

namespace Exec

open Machine Kernel

/-- The file at `fp` lies in pages of the caller in the kernel part. -/
structure Buffer (x : Stage) (fp size : Nat) : Prop where
  low : 2147483648 ≤ fp
  high : fp + size < 4294967296
  pages : ∀ a, fp ≤ a → a < fp + size → x.U (a / 4096)

section

variable {x y : Stage} {m' : Mm} {fp size a : Nat}

theorem Buffer.later (h : Buffer x fp size) (hlater : Later x y) : Buffer y fp size :=
  ⟨h.low, h.high, fun a ha ha' => hlater.user _ (h.pages a ha ha')⟩

theorem Stage.seen_view (x : Stage) (ha : x.U (a / 4096)) : x.writing.view x.m a = x.view a :=
  Mm.seen_view ha

theorem Stage.vload8 (x : Stage) (ha : a < 4294967296) (hU : x.U (a / 4096)) :
    Mm.vload8 a x.m = .ok (x.view a, x.m) :=
  Mm.vload8_of_walk (x.loading.sees.walk ha hU)

/-- A word of the file. -/
theorem Buffer.vload32 (h : Buffer x fp size) (ha : fp ≤ a) (ha' : a + 4 ≤ fp + size) :
    Mm.vload32 a x.m = .ok (load32 x.view a, x.m) := by
  have hhigh := h.high
  have hbyte : ∀ b, fp ≤ b → b < fp + size → Mm.vload8 b x.m = .ok (x.view b, x.m) :=
    fun b hb hb' => x.vload8 (by omega) (h.pages b hb hb')
  rw [Mm.vload32, Act.bind_of_ok (hbyte a ha (by omega)),
    Act.bind_of_ok (hbyte (a + 1) (by omega) (by omega)),
    Act.bind_of_ok (hbyte (a + 2) (by omega) (by omega)),
    Act.bind_of_ok (hbyte (a + 3) (by omega) (by omega)), load32,
    u32_eq_self (by omega), u32_eq_self (by omega), u32_eq_self (by omega), u32_eq_self (by omega)]
  rfl

/-- The stage when space for a segment has been allocated. -/
theorem Stage.regionAlloc {p : Elf.ProgHeader} {perm : Nat} (x : Stage)
    (hp : p.va + p.memsize ≤ 2147483648) (hperm : perm < 4096)
    (hrun : Mm.regionAlloc (Mm.p2v x.s.dir) p.va p.memsize perm x.m = .ok ((), m')) :
    ∃ y : Stage, y.m = m' ∧ Later x y ∧ y.d = x.d ∧ y.C = x.C ∧
      x.l.length ≤ y.l.length + 2 * p.pages ∧
      (∀ j, y.d.entry y.m.mem j = x.d.entry x.m.mem j) ∧
      (∀ a, x.U (a / 4096) → y.view a = x.view a) ∧
      ∀ a, p.va ≤ a → a < p.va + p.memsize → y.U (a / 4096) := by
  have hk : (p.va + p.memsize + 4095) / 4096 = p.va / 4096 + p.pages := by
    unfold Elf.ProgHeader.pages
    omega
  obtain ⟨s', l', hdir, hload, hlen, hlist, horigin, hentry, hd, hview, himage, hregs⟩ :=
    x.loading.regionAlloc hp hperm rfl hk hrun
  refine ⟨⟨m', s', x.d, l', _, x.C, hload⟩, rfl, ⟨hdir, rfl, fun _ hj => Or.inl hj, ?_,
    fun _ hj => hj, hlist, horigin, fun _ hp => Or.inl
      (Stage.program_congr (y := ⟨m', s', x.d, l', _, x.C, hload⟩) rfl rfl hd hp), hentry,
    fun j _ => hd j, himage, hregs⟩, rfl, rfl, hlen, hd, hview, ?_⟩
  · rintro j (hj | hj)
    · exact Or.inr hj
    · exact Or.inl (by omega)
  · intro a ha ha'
    exact Or.inr ⟨by omega, by omega⟩

/-- The stage when the bytes of a segment have been moved. -/
theorem Stage.memmove {dst src n : Nat} (x : Stage) (hdst : dst + n ≤ 2147483648)
    (hsrc : 2147483648 ≤ src) (hend : src + n ≤ 4294967296)
    (hread : ∀ a, src ≤ a → a < src + n → x.U (a / 4096))
    (hwrite : ∀ a, dst ≤ a → a < dst + n → x.U (a / 4096))
    (hrun : memmove dst src n x.m = .ok ((), m')) :
    ∃ y : Stage, y.m = m' ∧ Later x y ∧ y.l = x.l ∧ y.U = x.U ∧
      (∀ j, y.d.entry y.m.mem j = x.d.entry x.m.mem j) ∧ ∀ a, x.U (a / 4096) → y.view a =
        if dst ≤ a ∧ a < dst + n then x.view (src + (a - dst)) else x.view a := by
  rw [Exec.memmove, if_neg (by omega)] at hrun
  obtain ⟨⟨h, hlater, hd⟩, -, hview⟩ := (gives_moveUp (x := x) (i := 0) (by omega) (by omega)
    (fun j _ hj => hread _ (by omega) (by omega)) fun j _ hj =>
      hwrite _ (by omega) (by omega)).of_eq_ok x.writing_ok rfl hrun
  refine ⟨x.put m' h, rfl, hlater, rfl, rfl, hd, fun a ha => ?_⟩
  rw [← (x.put m' h).seen_view ha]
  refine (congrFun hview a).trans ?_
  rw [Nat.add_zero, Nat.zero_add]
  by_cases hin : dst ≤ a ∧ a < dst + n
  · rw [if_pos hin, if_pos hin, x.seen_view (hread _ (by omega) (by omega))]
  · rw [if_neg hin, if_neg hin, x.seen_view ha]

/-- The stage when the rest of a segment has been cleared. -/
theorem Stage.vmemset {va n : Nat} {c : UInt8} (x : Stage) (hva : va + n ≤ 4294967296)
    (hwrite : ∀ a, va ≤ a → a < va + n → x.U (a / 4096))
    (hrun : Mm.vmemset va c n x.m = .ok ((), m')) :
    ∃ y : Stage, y.m = m' ∧ Later x y ∧ y.l = x.l ∧ y.U = x.U ∧
      (∀ j, y.d.entry y.m.mem j = x.d.entry x.m.mem j) ∧ ∀ a, x.U (a / 4096) → y.view a =
        if va ≤ a ∧ a < va + n then c else x.view a := by
  obtain ⟨⟨h, hlater, hd⟩, -, hview⟩ := (gives_vwrite (x := x) (i := 0) (by omega)
    fun j _ hj => hwrite _ (by omega) (by omega)).of_eq_ok x.writing_ok rfl hrun
  refine ⟨x.put m' h, rfl, hlater, rfl, rfl, hd, fun a ha => ?_⟩
  rw [← (x.put m' h).seen_view ha, ← x.seen_view ha]
  refine (congrFun hview a).trans ?_
  rw [Nat.add_zero, Nat.zero_add]

/-- The stage when a page has been copied. -/
theorem Stage.copyPage {va r : Nat} (x : Stage) (hva : va + 4096 ≤ 4294963200)
    (hrun : Mm.copyPage (Mm.p2v x.s.dir) (Mm.p2v x.d.dir) va x.m = .ok (r, m')) :
    ∃ y : Stage, y.m = m' ∧ Later x y ∧ y.s = x.s ∧ y.U = x.U ∧ x.l.length ≤ y.l.length + 3 ∧
      (∀ j, j < va / 4096 ∨ (va + 4095) / 4096 < j →
        y.d.entry y.m.mem j = x.d.entry x.m.mem j) ∧
      (∀ a, x.U (a / 4096) → y.view a = x.view a) ∧
      (3 ≤ x.l.length → y.C (va / 4096) ∧ ∀ a, a / 4096 = va / 4096 → y.image a = x.view a) := by
  obtain ⟨d', l', C', hdir, hload, hC, hlen, hlist, horigin, hnew, hd, hs, hview, himage, hcopy,
    hregs⟩ := x.loading.copyPage hva rfl hrun
  refine ⟨⟨m', x.s, d', l', x.U, C', hload⟩, rfl, ⟨rfl, hdir, fun _ hj => hj, fun _ hj => Or.inr hj, hC,
    hlist, fun _ hp => Or.inl hp, ?_, fun j _ => hs j, fun j hj => hd j (Or.inr (Or.inr hj)), himage,
    hregs⟩, rfl, rfl, hlen, fun j hj => hd j (hj.imp_right Or.inl), hview, hcopy⟩
  rintro p (hp | ⟨n, hn, rfl⟩)
  · exact (horigin p hp).imp_left Or.inl
  · rcases hnew n hn with hn | hf
    · have hentry := hd n (Or.inr (Or.inr (x.loading.copied n hn).1))
      exact Or.inl (Or.inr ⟨n, hn, (frame_congr hentry).symm⟩)
    · exact Or.inr hf

end

/-- One segment has been loaded. -/
structure Segment (p : Elf.ProgHeader) (fp : Nat) (x y : Stage) : Prop extends Later x y where
  few : x.l.length ≤ y.l.length + 2 * p.pages + 3
  outside : ∀ j, j < p.va / 4096 ∨ (p.va + 4095) / 4096 < j →
    y.d.entry y.m.mem j = x.d.entry x.m.mem j
  pages : ∀ a, p.va ≤ a → a < p.va + p.memsize → y.U (a / 4096)
  view : ∀ a, x.U (a / 4096) ∨ p.va ≤ a ∧ a < p.va + p.memsize → y.view a = p.place fp x.view a
  copy : 2 * p.pages + 3 ≤ x.l.length →
    y.C (p.va / 4096) ∧ ∀ a, a / 4096 = p.va / 4096 → y.U (a / 4096) → y.image a = y.view a

section

variable {x y : Stage} {m' : Mm} {fp size a : Nat}

/-- A header is the same as long as the file is. -/
theorem Buffer.progHeader (h : Buffer x fp size) {ph : Nat} (hph : fp ≤ ph)
    (hph' : ph + 32 ≤ fp + size) (hview : ∀ a, fp ≤ a → a < fp + size → y.view a = x.view a) :
    Elf.progHeader y.view ph = Elf.progHeader x.view ph := by
  have := h.high
  exact Elf.progHeader_congr (by omega) fun a ha ha' => hview a (by omega) (by omega)

/-- The fields of a header as they are read. -/
theorem Buffer.fields (h : Buffer x fp size) {ph : Nat} {p : Elf.ProgHeader} (hph : fp ≤ ph)
    (hph' : ph + 32 ≤ fp + size) (hp : Elf.progHeader x.view ph = p) :
    Mm.vload32 ph x.m = .ok (p.type, x.m) ∧ Mm.vload32 (ph + 4) x.m = .ok (p.offset, x.m) ∧
      Mm.vload32 (ph + 8) x.m = .ok (p.va, x.m) ∧ Mm.vload32 (ph + 16) x.m = .ok (p.filesize, x.m) ∧
      Mm.vload32 (ph + 20) x.m = .ok (p.memsize, x.m) := by
  subst hp
  exact ⟨h.vload32 hph (by omega), h.vload32 (by omega) (by omega), h.vload32 (by omega) (by omega),
    h.vload32 (by omega) (by omega), h.vload32 (by omega) (by omega)⟩

theorem Stage.loadSegment {ph : Nat} {p : Elf.ProgHeader} (x : Stage) (hb : Buffer x fp size)
    (hph : fp ≤ ph) (hph' : ph + 32 ≤ fp + size) (hp : Elf.progHeader x.view ph = p)
    (hs : p.Sound size)
    (hrun : loadSegment (Mm.p2v x.s.dir) (Mm.p2v x.d.dir) fp ph x.m = .ok ((), m')) :
    ∃ y : Stage, y.m = m' ∧ Segment p fp x y := by
  have hlow := hb.low
  have hhigh := hb.high
  have hfile := hs.file
  have hle := hs.le
  have huser := hs.user
  rw [Exec.loadSegment] at hrun
  obtain ⟨-, hoff, hva, hfs, hms⟩ := hb.fields hph hph' hp
  rw [Act.bind_of_ok hva, Act.bind_of_ok hms] at hrun
  obtain ⟨_, m₁, halloc, hrun⟩ := Act.bind_eq_ok.1 hrun
  obtain ⟨x₁, rfl, hlater₁, -, -, hlen₁, hd₁, hview₁, hU₁⟩ := x.regionAlloc huser (by decide) halloc
  have hfile₁ : ∀ a, fp ≤ a → a < fp + size → x₁.view a = x.view a :=
    fun a ha ha' => hview₁ a (hb.pages a ha ha')
  -- the bytes of the file
  have hb₁ := hb.later hlater₁
  obtain ⟨-, hoff, hva, hfs, -⟩ := hb₁.fields hph hph' ((hb.progHeader hph hph' hfile₁).trans hp)
  rw [Act.bind_of_ok hva, Act.bind_of_ok hoff, Act.bind_of_ok hfs, u32_eq_self (by omega)] at hrun
  obtain ⟨_, m₂, hmove, hrun⟩ := Act.bind_eq_ok.1 hrun
  obtain ⟨x₂, rfl, hlater₂, hl₂, hU₂, hd₂, hview₂⟩ := x₁.memmove (by omega) (by omega) (by omega)
    (fun a ha ha' => hb₁.pages a (by omega) (by omega)) (fun a ha ha' => hU₁ a ha (by omega)) hmove
  have hfile₂ : ∀ a, fp ≤ a → a < fp + size → x₂.view a = x.view a := by
    intro a ha ha'
    rw [hview₂ a (hb₁.pages a ha ha'), if_neg (by omega), hfile₁ a ha ha']
  -- the zeros behind them
  have hb₂ := hb₁.later hlater₂
  obtain ⟨-, -, hva, hfs, hms⟩ := hb₂.fields hph hph' ((hb.progHeader hph hph' hfile₂).trans hp)
  have hrest : u32 (p.memsize + 4294967296 - p.filesize) = p.memsize - p.filesize := by
    unfold u32
    omega
  rw [Act.bind_of_ok hva, Act.bind_of_ok hfs, Act.bind_of_ok hms, Act.bind_of_ok hfs, hrest,
    u32_eq_self (by omega)] at hrun
  obtain ⟨_, m₃, hset, hrun⟩ := Act.bind_eq_ok.1 hrun
  obtain ⟨x₃, rfl, hlater₃, hl₃, hU₃, hd₃, hview₃⟩ := x₂.vmemset (by omega)
    (fun a ha ha' => hlater₂.user _ (hU₁ a (by omega) (by omega))) hset
  rw [hU₂] at hview₃ hU₃
  have hfile₃ : ∀ a, fp ≤ a → a < fp + size → x₃.view a = x.view a := by
    intro a ha ha'
    rw [hview₃ a (hb₁.pages a ha ha'), if_neg (by omega), hfile₂ a ha ha']
  -- and the copy of its first page
  have hb₃ := hb₂.later hlater₃
  obtain ⟨-, -, hva, -, -⟩ := hb₃.fields hph hph' ((hb.progHeader hph hph' hfile₃).trans hp)
  rw [Act.bind_of_ok hva] at hrun
  obtain ⟨r, m₄, hcopy, hrun⟩ := Act.bind_eq_ok.1 hrun
  obtain ⟨-, rfl⟩ := Act.pure_eq_ok.1 hrun
  have hlater := (hlater₁.trans hlater₂).trans hlater₃
  rw [← hlater.caller, ← hlater.program] at hcopy
  obtain ⟨y, rfl, hlater₄, -, hU₄, hlen₄, hd₄, hview₄, hcopied⟩ := x₃.copyPage (by omega) hcopy
  rw [hU₃] at hview₄ hU₄
  rw [hl₃, hl₂] at hlen₄ hcopied
  have hU : ∀ a, x.U (a / 4096) ∨ p.va ≤ a ∧ a < p.va + p.memsize → x₁.U (a / 4096) :=
    fun a ha => ha.elim (hlater₁.user _) fun ha => hU₁ a ha.1 ha.2
  refine ⟨y, rfl, ⟨hlater.trans hlater₄, by omega, ?_, ?_, ?_, ?_⟩⟩
  · intro j hj
    rw [hd₄ j hj, hd₃, hd₂, hd₁]
  · intro a ha ha'
    rw [hU₄]
    exact hU₁ a ha ha'
  · intro a ha
    rw [hview₄ a (hU a ha), hview₃ a (hU a ha), hview₂ a (hU a ha), Elf.ProgHeader.place]
    by_cases h₁ : p.va ≤ a ∧ a < p.va + p.filesize
    · rw [if_neg (by omega), if_pos h₁, if_pos h₁, hfile₁ _ (by omega) (by omega)]
    · by_cases h₂ : p.va + p.filesize ≤ a ∧ a < p.va + p.memsize
      · rw [if_pos (by omega), if_neg h₁, if_pos h₂]
      · rw [if_neg (by omega), if_neg h₁, if_neg h₁, if_neg h₂,
          hview₁ a (ha.resolve_right (by omega))]
  · intro hlong
    obtain ⟨hC, himage⟩ := hcopied (by omega)
    refine ⟨hC, fun a ha hUa => ?_⟩
    rw [hU₄] at hUa
    rw [himage a ha, hview₄ a hUa]

end

/-- The segments have been loaded one after the other. -/
inductive Loads (fp : Nat) : List Elf.ProgHeader → Stage → Stage → Prop
  | nil (x : Stage) : Loads fp [] x x
  | cons {x y z : Stage} {p : Elf.ProgHeader} {ps : List Elf.ProgHeader} (h : Segment p fp x y)
      (h' : Loads fp ps y z) : Loads fp (p :: ps) x z

section

variable {x y : Stage} {m' : Mm} {fp size : Nat} {ps : List Elf.ProgHeader}

theorem Loads.later (h : Loads fp ps x y) : Later x y := by
  induction h with
  | nil x => exact Later.refl x
  | cons h _ ih => exact h.toLater.trans ih

/-- The file is not changed by a segment. -/
theorem Segment.file {p : Elf.ProgHeader} (h : Segment p fp x y) (hb : Buffer x fp size)
    (hp : p.Sound size) {a : Nat} (ha : fp ≤ a) (ha' : a < fp + size) : y.view a = x.view a := by
  rw [h.view a (Or.inl (hb.pages a ha ha')), Elf.ProgHeader.place_of_ge hp (hb.low.trans ha)]

/-- What the pages of the caller hold when all segments have been loaded. -/
theorem Loads.view (h : Loads fp ps x y) (hb : Buffer x fp size) (hps : ∀ p ∈ ps, p.Sound size)
    {a : Nat} (ha : x.U (a / 4096)) : y.view a = Elf.placeAll fp ps x.view a := by
  induction h with
  | nil x => rfl
  | cons h _ ih =>
      obtain ⟨hp, hps⟩ := List.forall_mem_cons.1 hps
      rw [ih (hb.later h.toLater) hps (h.user _ ha)]
      refine Elf.placeAll_congr hps (fun b hb₁ hb₂ => ?_) (h.view a (Or.inl ha))
      exact h.view b (Or.inl (hb.pages b hb₁ hb₂))

theorem Loads.few (h : Loads fp ps x y) : x.l.length ≤ y.l.length + Elf.cost ps := by
  induction h with
  | nil x => exact Nat.le_refl _
  | cons h _ ih =>
      have := h.few
      rw [Elf.cost, List.map_cons, List.sum_cons]
      unfold Elf.cost at ih
      omega

/-- The new program has the first page of every segment, when there are enough pages. -/
theorem Loads.image (h : Loads fp ps x y) (hb : Buffer x fp size) (hps : ∀ p ∈ ps, p.Sound size)
    (hlong : Elf.cost ps ≤ x.l.length) {p : Elf.ProgHeader} (hp : p ∈ ps) {a : Nat}
    (ha : p.va ≤ a) (ha' : a < p.va + p.memsize) (hpage : a / 4096 = p.va / 4096) :
    y.C (a / 4096) ∧ y.image a = p.place fp x.view a := by
  induction h with
  | nil x => cases hp
  | @cons x y z q ps h h' ih =>
      obtain ⟨hq, hps⟩ := List.forall_mem_cons.1 hps
      rw [Elf.cost, List.map_cons, List.sum_cons] at hlong
      have hfew := h.few
      rcases List.mem_cons.1 hp with rfl | hp
      · obtain ⟨hC, himage⟩ := h.copy (by omega)
        rw [← hpage] at hC
        rw [h'.later.image a hC, himage a hpage (h.pages a ha ha'), h.view a (Or.inr ⟨ha, ha'⟩)]
        exact ⟨h'.later.copies _ hC, rfl⟩
      · obtain ⟨hC, himage⟩ := ih (hb.later h.toLater) hps (by unfold Elf.cost; omega) hp
        refine ⟨hC, himage.trans ?_⟩
        have hin := (hps p hp).file
        unfold Elf.ProgHeader.place
        by_cases h₁ : p.va ≤ a ∧ a < p.va + p.filesize
        · rw [if_pos h₁, if_pos h₁, h.file hb hq (by omega) (by omega)]
        · rw [if_neg h₁, if_neg h₁, if_pos (by omega), if_pos (by omega)]

theorem Loads.copied (h : Loads fp ps x y) (hlong : Elf.cost ps ≤ x.l.length) :
    ∀ p ∈ ps, y.C (p.va / 4096) := by
  induction h with
  | nil x => exact fun p hp => absurd hp List.not_mem_nil
  | cons h h' ih =>
      rw [Elf.cost, List.map_cons, List.sum_cons] at hlong
      have hfew := h.few
      exact List.forall_mem_cons.2 ⟨h'.later.copies _ (h.copy (by omega)).1,
        ih (by unfold Elf.cost; omega)⟩

/-- The new program has no other pages than the copies. -/
theorem Loads.outside (h : Loads fp ps x y) {j : Nat}
    (hj : ∀ p ∈ ps, j < p.va / 4096 ∨ (p.va + 4095) / 4096 < j) :
    y.d.entry y.m.mem j = x.d.entry x.m.mem j := by
  induction h with
  | nil x => rfl
  | cons h h' ih =>
      obtain ⟨hp, hps⟩ := List.forall_mem_cons.1 hj
      rw [ih hps, h.outside j hp]

/-- The loop over the program headers. -/
theorem Stage.loadLoop {n ph r r' : Nat} (x : Stage) (hb : Buffer x fp size) (hph : fp ≤ ph)
    (hph' : ph + 32 * n ≤ fp + size) (hps : ∀ p ∈ Elf.segments x.view n ph, p.Sound size)
    (hrun : loadLoop (Mm.p2v x.s.dir) (Mm.p2v x.d.dir) fp (ph + 32 * n) n ph r x.m = .ok (r', m')) :
    ∃ y : Stage, y.m = m' ∧ Loads fp (Elf.segments x.view n ph) x y ∧
      r' = Elf.range (Elf.segments x.view n ph) r := by
  induction n generalizing x ph r with
  | zero =>
      obtain ⟨rfl, rfl⟩ := Act.pure_eq_ok.1 hrun
      exact ⟨x, rfl, Loads.nil x, rfl⟩
  | succ n ih =>
      have hsize : Elf.progHeaderSize = 32 := rfl
      have hlow := hb.low
      have hhigh := hb.high
      rw [Exec.loadLoop, if_pos (by omega)] at hrun
      obtain ⟨htype, -, hva, -, hms⟩ := hb.fields hph (by omega) rfl
      rw [Act.bind_of_ok htype] at hrun
      rw [Elf.segments] at hps ⊢
      rw [show ph + 32 * (n + 1) = ph + Elf.progHeaderSize + 32 * n by omega] at hrun
      by_cases hload : (Elf.progHeader x.view ph).type = Elf.progLoad
      · rw [if_pos hload] at hrun hps ⊢
        obtain ⟨hp, hps⟩ := List.forall_mem_cons.1 hps
        obtain ⟨_, m₁, hseg, hrun⟩ := Act.bind_eq_ok.1 hrun
        obtain ⟨y, rfl, hy⟩ := x.loadSegment hb hph (by omega) rfl hp hseg
        have hfile : ∀ a, fp ≤ a → a < fp + size → y.view a = x.view a :=
          fun a ha ha' => hy.file hb hp ha ha'
        have hsegs : Elf.segments y.view n (ph + Elf.progHeaderSize) =
            Elf.segments x.view n (ph + Elf.progHeaderSize) :=
          Elf.segments_congr (by omega) fun a ha ha' => hfile a (by omega) (by omega)
        obtain ⟨-, -, hva, -, hms⟩ := (hb.later hy.toLater).fields hph (by omega)
          (hb.progHeader hph (by omega) hfile)
        rw [Act.bind_of_ok hva, Act.bind_of_ok hms, ← hy.caller, ← hy.program] at hrun
        obtain ⟨z, rfl, hz, hr⟩ := ih y (hb.later hy.toLater) (by omega) (by omega)
          (by rwa [hsegs]) hrun
        rw [hsegs] at hz hr
        exact ⟨z, rfl, Loads.cons hy hz, hr⟩
      · rw [if_neg hload] at hrun hps ⊢
        exact ih x hb (by omega) (by omega) hps hrun

end

end Exec

end Chunix
