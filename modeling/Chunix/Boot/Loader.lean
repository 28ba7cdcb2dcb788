import Chunix.Machine.Act
import Chunix.Machine.Bytes
import Chunix.Mm.User

/-!
# The boot loader

`bootmain` reads the first eight sectors of the kernel file, which starts at sector 1 of the disk,
to a fixed place in memory and takes the headers from there. Each segment is read in whole sectors,
so that bytes in front of it and behind it are overwritten too, and the part of it that is not in
the file is cleared. The headers are read again from memory for each segment, and the entry point
after all of them.
-/

namespace Chunix

namespace Boot

open Machine

/-- The constant `SECTSIZE`. -/
def sectSize : Nat := 512

/-- The address `ELFHDR`. -/
def elfHdr : Nat := 0x10000

/-- The `n` bytes of `f` written at `dst` and the addresses behind it, in 32 bits. -/
def put (m : Memory) (dst n : Nat) (f : Memory) : Memory := fun x =>
  if u32 (x + (4294967296 - dst)) < n ∧ x < 4294967296 then f (u32 (x + (4294967296 - dst))) else m x

/-- The sector that the registers of the disk controller select. The last one has the highest four
bits, and the bits that choose the disk and the mode. -/
def lba (offset : Nat) : Nat :=
  offset % 256 + (offset >>> 8) % 256 * 256 + (offset >>> 16) % 256 * 65536 +
    ((offset >>> 24) ||| 0xE0) % 16 * 16777216

/-- `readsect`. The disk is a sequence of bytes, and the loader waits until it is ready. -/
def readsect (d : Memory) (dst offset : Nat) : Act Memory Unit :=
  Act.modify fun m => put m dst sectSize fun i => d (sectSize * lba offset + i)

/-- The loop of `readseg`. -/
def readsegLoop (d : Memory) (endVa : Nat) : Nat → Nat → Nat → Act Memory Unit
  | 0, va, _ => if va < endVa then Act.halt .hang else return ()
  | n + 1, va, offset =>
      if va < endVa then do
        readsect d va offset
        readsegLoop d endVa n (u32 (va + sectSize)) (u32 (offset + 1))
      else return ()

/-- `readseg`. After `2 ^ 23` sectors the address is the first one again, so the loop does not
end. -/
def readseg (d : Memory) (va count offset : Nat) : Act Memory Unit :=
  readsegLoop d (u32 (va + count)) 8388608 (u32 (va + (4294967296 - offset % sectSize)))
    (offset / sectSize + 1)

/-- The fields of `struct proghdr` that the loader reads. -/
structure Proghdr where
  offset : Nat
  pa : Nat
  filesize : Nat
  memsize : Nat
deriving DecidableEq, Repr

def proghdr (m : Memory) (a : Nat) : Proghdr where
  offset := load32 m (a + 4)
  pa := load32 m (a + 12)
  filesize := load32 m (a + 16)
  memsize := load32 m (a + 20)

/-- The part of a segment at `pa` that is not in the file is cleared with `stosb`. -/
def clearRest (pa : Nat) (p : Proghdr) : Act Memory Unit :=
  if p.filesize < p.memsize then
    Act.modify fun m => put m (u32 (pa + p.filesize)) (p.memsize - p.filesize) fun _ => 0
  else return ()

/-- The loop of `bootmain` over the program headers, with their number as fuel. -/
def loadLoop (d : Memory) (eph : Nat) : Nat → Nat → Act Memory Unit
  | 0, _ => return ()
  | n + 1, ph =>
      if ph < eph then do
        let p ← Act.gets fun m => proghdr m ph
        readseg d p.pa p.filesize p.offset
        let q ← Act.gets fun m => proghdr m ph
        clearRest p.pa q
        loadLoop d eph n (u32 (ph + Elf.progHeaderSize))
      else return ()

/-- `bootmain`: the address that it calls. Without an ELF file it does nothing for ever. -/
def bootmain (d : Memory) : Act Memory Nat := do
  readseg d elfHdr (sectSize * 8) 0
  let h ← Act.gets fun m => Elf.header m elfHdr
  if h.magic ≠ Elf.magic then
    Act.halt .hang
  let ph := u32 (elfHdr + h.phoff)
  loadLoop d (u32 (ph + h.phnum * Elf.progHeaderSize)) h.phnum ph
  Act.gets fun m => (Elf.header m elfHdr).entry

/-- The kernel file on the disk. -/
def file (d : Memory) : Memory := fun i => d (sectSize + i)

/-- The program headers of a file. -/
def proghdrs (f : Memory) : Nat → Nat → List Proghdr
  | 0, _ => []
  | n + 1, a => proghdr f a :: proghdrs f n (a + Elf.progHeaderSize)

/-- The address that the first sector of a segment is read to. -/
def Proghdr.start (p : Proghdr) : Nat := p.pa - p.offset % sectSize

/-- The number of bytes that are read for a segment. -/
def Proghdr.length (p : Proghdr) : Nat :=
  sectSize * ((p.filesize + p.offset % sectSize + 511) / sectSize)

/-- The byte at `x` is overwritten when the segment is loaded. -/
def Proghdr.Touches (p : Proghdr) (x : Nat) : Prop :=
  (p.start ≤ x ∧ x < p.start + p.length) ∨ (p.pa + p.filesize ≤ x ∧ x < p.pa + p.memsize)

/-- The byte at `x` is one of the segment. -/
def Proghdr.Holds (p : Proghdr) (x : Nat) : Prop :=
  p.pa ≤ x ∧ (x < p.pa + p.filesize ∨ x < p.pa + p.memsize)

/-- The segment and the sectors it is read from fit the address space and do not get at the
headers. -/
structure Proghdr.Fits (p : Proghdr) : Prop where
  low : p.offset % sectSize ≤ p.pa
  file : p.pa + p.filesize + sectSize ≤ 4294967296
  mem : p.pa + p.memsize ≤ 4294967296
  clear : ∀ x, p.Touches x → x < elfHdr ∨ elfHdr + 4096 ≤ x

/-- The memory after a segment of the file `f` has been loaded. -/
def Proghdr.load (p : Proghdr) (f m : Memory) : Memory :=
  paste (paste m p.start p.length fun i => f (p.offset - p.offset % sectSize + i))
    (p.pa + p.filesize) (p.memsize - p.filesize) fun _ => 0

section

variable {d f m : Memory} {p : Proghdr}

theorem put_eq_paste {dst n : Nat} (h : dst + n ≤ 4294967296) : put m dst n f = paste m dst n f := by
  funext x
  unfold put paste u32
  by_cases hx : dst ≤ x ∧ x < dst + n
  · rw [if_pos hx, if_pos (by omega), show (x + (4294967296 - dst)) % 4294967296 = x - dst by omega]
  · rw [if_neg hx, if_neg (by omega)]

theorem lba_eq {offset : Nat} (h : offset < 268435456) : lba offset = offset := by
  have hor : ((offset >>> 24) ||| 0xE0) % 16 = (offset >>> 24) % 16 := by
    rw [show (16 : Nat) = 2 ^ 4 from rfl, Nat.or_mod_two_pow]
    simp
  rw [lba, hor]
  simp only [Nat.shiftRight_eq_div_pow]
  omega

/-- A stretch of bytes that is written in two parts. -/
theorem paste_paste {a b n : Nat} :
    paste (paste m a b f) (a + b) n (fun i => f (b + i)) = paste m a (b + n) f := by
  funext x
  by_cases hx : a + b ≤ x ∧ x < a + b + n
  · rw [paste_apply_of_mem hx, paste_apply_of_mem (by omega)]
    exact congrArg f (by omega)
  · rw [paste_apply_of_notMem (by omega)]
    by_cases hx' : a ≤ x ∧ x < a + b
    · rw [paste_apply_of_mem hx', paste_apply_of_mem (by omega)]
    · rw [paste_apply_of_notMem (by omega), paste_apply_of_notMem (by omega)]

theorem paste_zero {a : Nat} : paste m a 0 f = m := by
  funext x
  exact paste_apply_of_notMem (by omega)

/-- The loop of `readseg` reads whole sectors until it is behind the end. -/
theorem readsegLoop_eq {e n va sec : Nat} (hsec : sec + n < 268435456)
    (he : e + sectSize ≤ 4294967296) (hn : e ≤ va + sectSize * n) :
    readsegLoop d e n va sec m = .ok ((), paste m va (sectSize * ((e - va + 511) / sectSize))
      fun i => d (sectSize * sec + i)) := by
  unfold sectSize at *
  induction n generalizing va sec m with
  | zero =>
      rw [readsegLoop, if_neg (by omega), show (e - va + 511) / 512 = 0 by omega, paste_zero]
      rfl
  | succ n ih =>
      rw [readsegLoop]
      by_cases hva : va < e
      · have hread : readsect d va sec m = .ok ((), paste m va 512 fun i => d (512 * sec + i)) := by
          rw [readsect, lba_eq (by omega), sectSize, ← put_eq_paste (by omega)]
          rfl
        have hcount : 512 * ((e - va + 511) / 512) = 512 + 512 * ((e - (va + 512) + 511) / 512) := by
          omega
        rw [if_pos hva, Act.bind_of_ok hread, u32_eq_self (show va + sectSize < 4294967296 by
          unfold sectSize; omega), u32_eq_self (by omega), sectSize, ih (by omega) (by omega), hcount,
          ← paste_paste]
        simp only [Nat.mul_add, Nat.mul_one, Nat.add_assoc]
      · rw [if_neg hva, show (e - va + 511) / 512 = 0 by omega, paste_zero]
        rfl

/-- What `readseg` reads. -/
theorem readseg_eq {va count offset : Nat} (hoff : offset < 4294967296)
    (hva : offset % sectSize ≤ va) (hend : va + count + sectSize ≤ 4294967296) :
    readseg d va count offset m = .ok ((), paste m (va - offset % sectSize)
      (sectSize * ((count + offset % sectSize + 511) / sectSize))
      fun i => file d (offset - offset % sectSize + i)) := by
  have hstart : u32 (va + (4294967296 - offset % sectSize)) = va - offset % sectSize := by
    unfold u32 sectSize at *
    omega
  rw [readseg, hstart, u32_eq_self (by unfold sectSize at *; omega), readsegLoop_eq (by
    unfold sectSize; omega) (by omega) (by unfold sectSize; omega),
    show va + count - (va - offset % sectSize) = count + offset % sectSize by omega]
  congr 4
  funext i
  unfold file
  exact congrArg d (by unfold sectSize; omega)

theorem Proghdr.load_of_not_touches {x : Nat} (h : ¬ p.Touches x) : p.load f m x = m x := by
  unfold Proghdr.Touches at h
  rw [Proghdr.load, paste_apply_of_notMem (by omega), paste_apply_of_notMem (by omega)]

/-- The bytes of the file. -/
theorem Proghdr.load_file {x : Nat} (h : p.Fits) (hx : x < p.filesize) :
    p.load f m (p.pa + x) = f (p.offset + x) := by
  have hlow := h.low
  have hmod := Nat.mod_le p.offset sectSize
  rw [Proghdr.load, paste_apply_of_notMem (by omega), paste_apply_of_mem]
  · exact congrArg f (by unfold Proghdr.start; omega)
  · unfold Proghdr.start Proghdr.length sectSize at *
    omega

/-- The bytes that are not in the file. -/
theorem Proghdr.load_zero {x : Nat} (hx : p.filesize ≤ x) (hx' : x < p.memsize) :
    p.load f m (p.pa + x) = 0 :=
  paste_apply_of_mem (by omega)

/-- The program headers in memory are those of the file. -/
theorem proghdr_eq {off : Nat} (h : ∀ i, i < 4096 → m (elfHdr + i) = f i) (hoff : off + 32 ≤ 4096) :
    proghdr m (elfHdr + off) = proghdr f off := by
  have hword : ∀ j, j + 4 ≤ 32 → load32 m (elfHdr + off + j) = load32 f (off + j) := by
    intro j hj
    refine load32_shift (by unfold elfHdr; omega) (by omega) fun i hi => ?_
    rw [← h (off + j + i) (by omega)]
    exact congrArg m (by omega)
  simp only [proghdr, hword _ (show 4 + 4 ≤ 32 by decide), hword _ (show 12 + 4 ≤ 32 by decide),
    hword _ (show 16 + 4 ≤ 32 by decide), hword _ (show 20 + 4 ≤ 32 by decide)]

/-- The headers outlive the load of a segment. -/
theorem Proghdr.Fits.headers (hp : p.Fits) (h : ∀ i, i < 4096 → m (elfHdr + i) = f i) {i : Nat}
    (hi : i < 4096) : p.load f m (elfHdr + i) = f i := by
  rw [Proghdr.load_of_not_touches, h i hi]
  intro ht
  have := hp.clear _ ht
  omega

/-- The loop over the program headers loads the segments one after the other. -/
theorem loadLoop_eq {n off : Nat} (hm : ∀ i, i < 4096 → m (elfHdr + i) = file d i)
    (hoff : off + 32 * n ≤ 4096) (hfits : ∀ p ∈ proghdrs (file d) n off, p.Fits) :
    loadLoop d (elfHdr + (off + 32 * n)) n (elfHdr + off) m =
      .ok ((), (proghdrs (file d) n off).foldl (fun m p => p.load (file d) m) m) := by
  induction n generalizing off m with
  | zero => rfl
  | succ n ih =>
      obtain ⟨p, hp⟩ : ∃ p, p = proghdr (file d) off := ⟨_, rfl⟩
      have hfit : p.Fits := hfits p (by rw [hp]; exact List.mem_cons_self)
      have hoffset : p.offset < 4294967296 := by
        rw [hp]
        exact load32_lt _ _
      have hread := readseg_eq (d := d) (m := m) hoffset hfit.low hfit.file
      obtain ⟨m₁, hm₁⟩ : ∃ m₁, m₁ = paste m p.start p.length
        fun i => file d (p.offset - p.offset % sectSize + i) := ⟨_, rfl⟩
      have hhead₁ : ∀ i, i < 4096 → m₁ (elfHdr + i) = file d i := by
        intro i hi
        have hclear := fun ht => hfit.clear (elfHdr + i) (Or.inl ht)
        rw [hm₁, paste_apply_of_notMem (by omega), hm i hi]
      -- What is cleared may be empty.
      have hzero : clearRest p.pa p m₁ = .ok ((), p.load (file d) m) := by
        have hbound := hfit.file
        have hbound' := hfit.mem
        unfold clearRest
        by_cases hlt : p.filesize < p.memsize
        · rw [if_pos hlt, u32_eq_self (by unfold sectSize at hbound; omega), Proghdr.load, ← hm₁,
            ← put_eq_paste (by omega)]
          rfl
        · rw [if_neg hlt, Proghdr.load, ← hm₁, Nat.sub_eq_zero_of_le (by omega), paste_zero]
          rfl
      have hnext : u32 (elfHdr + off + Elf.progHeaderSize) = elfHdr + (off + 32) := by
        unfold elfHdr Elf.progHeaderSize u32
        omega
      have hhead' : ∀ i, i < 4096 → p.load (file d) m (elfHdr + i) = file d i :=
        fun i hi => hfit.headers hm hi
      have hrest := ih hhead' (show off + 32 + 32 * n ≤ 4096 by omega)
        fun q hq => hfits q (List.mem_cons_of_mem _ hq)
      rw [loadLoop, if_pos (by omega), Act.bind_of_ok (Act.gets_eq_ok.2 ⟨rfl, rfl⟩),
        proghdr_eq hm (by omega), ← hp, Act.bind_of_ok hread]
      rw [show paste m (p.pa - p.offset % sectSize)
        (sectSize * ((p.filesize + p.offset % sectSize + 511) / sectSize))
        (fun i => file d (p.offset - p.offset % sectSize + i)) = m₁ from hm₁.symm,
        Act.bind_of_ok (Act.gets_eq_ok.2 ⟨rfl, rfl⟩), proghdr_eq hhead₁ (by omega), ← hp,
        Act.bind_of_ok hzero, hnext, show off + 32 * (n + 1) = off + 32 + 32 * n by omega, hrest,
        proghdrs, List.foldl_cons, ← hp]
      rfl

/-- Bytes that no segment touches. -/
theorem foldl_load_of_not_touches {ps : List Proghdr} {x : Nat} (h : ∀ p ∈ ps, ¬ p.Touches x) :
    ps.foldl (fun m p => p.load f m) m x = m x := by
  induction ps generalizing m with
  | nil => rfl
  | cons p ps ih =>
      rw [List.foldl_cons, ih fun q hq => h q (List.mem_cons_of_mem _ hq),
        Proghdr.load_of_not_touches (h p List.mem_cons_self)]

/-- A segment that no later one touches. -/
theorem foldl_load_of_mem {ps : List Proghdr} (hp : p ∈ ps)
    (h : ps.Pairwise fun p q => ∀ x, q.Touches x → ¬ p.Holds x) :
    ∃ m₁, ∀ x, p.Holds x → ps.foldl (fun m p => p.load f m) m x = p.load f m₁ x := by
  obtain ⟨l₁, l₂, rfl⟩ := List.append_of_mem hp
  refine ⟨l₁.foldl (fun m p => p.load f m) m, fun x hx => ?_⟩
  have hlater := (List.pairwise_cons.1 (List.pairwise_append.1 h).2.1).1
  rw [List.foldl_append, List.foldl_cons]
  exact foldl_load_of_not_touches fun q hq ht => hlater q hq x ht hx

/-- The loader puts the kernel where its file says, and calls its entry point: when all headers are
in the first eight sectors and no segment is read over the headers or over an earlier segment,
every segment is in memory, the part that is not in the file is zero, and nothing but the sectors
that were read and what was cleared has changed. -/
theorem bootmain_image (m : Memory) {h : Elf.Header} (hh : Elf.header (file d) 0 = h)
    (hmagic : h.magic = Elf.magic) (hph : h.phoff + 32 * h.phnum ≤ 4096)
    (hfits : ∀ p ∈ proghdrs (file d) h.phnum h.phoff, p.Fits)
    (hapart : (proghdrs (file d) h.phnum h.phoff).Pairwise fun p q =>
      ∀ x, q.Touches x → ¬ p.Holds x) :
    ∃ m', bootmain d m = .ok (h.entry, m') ∧
      (∀ p ∈ proghdrs (file d) h.phnum h.phoff,
        (∀ x, x < p.filesize → m' (p.pa + x) = file d (p.offset + x)) ∧
        ∀ x, p.filesize ≤ x → x < p.memsize → m' (p.pa + x) = 0) ∧
      ∀ x, x < elfHdr ∨ elfHdr + 4096 ≤ x →
        (∀ p ∈ proghdrs (file d) h.phnum h.phoff, ¬ p.Touches x) → m' x = m x := by
  obtain ⟨m₁, hm₁⟩ : ∃ m₁, m₁ = paste m elfHdr 4096 (file d) := ⟨_, rfl⟩
  have hread : readseg d elfHdr (sectSize * 8) 0 m = .ok ((), m₁) := by
    rw [readseg_eq (by decide) (by decide) (by decide), hm₁]
    simp [sectSize]
  have hhead : ∀ i, i < 4096 → m₁ (elfHdr + i) = file d i := by
    intro i hi
    rw [hm₁]
    exact paste_apply_add hi
  have header : ∀ m' : Memory, (∀ i, i < 4096 → m' (elfHdr + i) = file d i) →
      Elf.header m' elfHdr = h := by
    intro m' hm'
    have hword : ∀ j, j + 4 ≤ 4096 → load32 m' (elfHdr + j) = load32 (file d) (0 + j) := by
      intro j hj
      refine load32_shift (by unfold elfHdr; omega) (by omega) fun i hi => ?_
      rw [Nat.add_assoc, hm' (j + i) (by omega), Nat.zero_add]
    rw [← hh]
    simp only [Elf.header]
    have h₀ := hword 0 (by decide)
    rw [Nat.add_zero] at h₀
    rw [h₀, hword 24 (by decide), hword 28 (by decide), hword 44 (by decide)]
  obtain ⟨ps, hps⟩ : ∃ ps, ps = proghdrs (file d) h.phnum h.phoff := ⟨_, rfl⟩
  rw [← hps] at hfits hapart ⊢
  obtain ⟨m₂, hm₂⟩ : ∃ m₂, m₂ = ps.foldl (fun m p => p.load (file d) m) m₁ := ⟨_, rfl⟩
  have hloop := loadLoop_eq hhead hph (hps ▸ hfits)
  rw [← hps, ← hm₂] at hloop
  have hhead₂ : ∀ i, i < 4096 → m₂ (elfHdr + i) = file d i := by
    intro i hi
    rw [hm₂, foldl_load_of_not_touches, hhead i hi]
    intro p hp ht
    have := (hfits p hp).clear _ ht
    omega
  refine ⟨m₂, ?_, fun p hp => ?_, fun x hx hno => ?_⟩
  · rw [bootmain, Act.bind_of_ok hread, Act.bind_of_ok (Act.gets_eq_ok.2 ⟨rfl, rfl⟩), header m₁ hhead,
      if_neg (not_not.2 hmagic)]
    have hph₁ : u32 (elfHdr + h.phoff) = elfHdr + h.phoff :=
      u32_eq_self (by unfold elfHdr; omega)
    have hph₂ : u32 (elfHdr + h.phoff + h.phnum * Elf.progHeaderSize) =
        elfHdr + (h.phoff + 32 * h.phnum) := by
      unfold elfHdr Elf.progHeaderSize u32
      omega
    dsimp only
    rw [hph₁, hph₂]
    refine (Act.bind_of_ok hloop).trans ?_
    exact Act.gets_eq_ok.2 ⟨by rw [header m₂ hhead₂], rfl⟩
  · obtain ⟨m₀, hm₀⟩ := foldl_load_of_mem (f := file d) (m := m₁) hp hapart
    rw [hm₂]
    refine ⟨fun x hx => ?_, fun x hx hx' => ?_⟩
    · rw [hm₀ _ ⟨by omega, Or.inl (by omega)⟩]
      exact Proghdr.load_file (hfits p hp) hx
    · rw [hm₀ _ ⟨by omega, Or.inr (by omega)⟩]
      exact Proghdr.load_zero hx hx'
  · rw [hm₂, foldl_load_of_not_touches hno, hm₁]
    exact paste_apply_of_notMem hx

end

/-- A disk with a kernel of two segments of four bytes, the second one with twelve bytes more in
memory. -/
def smallDisk : Memory :=
  words [(512, 0x464C457F), (536, 0x10000C), (540, 52), (556, 2),
    (568, 0x1000), (576, 0x100000), (580, 4), (584, 4),
    (600, 0x1200), (608, 0x101000), (612, 4), (616, 16),
    (512 + 0x1000, 0x11223344), (512 + 0x1200, 0x55667788)]

/-- The kernel of the small disk is loaded. -/
theorem smallDisk_boots : ∃ m', bootmain smallDisk (fun _ => 0xFF) = .ok (0x10000C, m') ∧
    m' 0x100000 = 0x44 ∧ m' 0x101000 = 0x88 ∧ m' 0x101004 = 0 ∧ m' 0x7C00 = 0xFF := by
  have hps : proghdrs (file smallDisk) 2 52 =
      [⟨0x1000, 0x100000, 4, 4⟩, ⟨0x1200, 0x101000, 4, 16⟩] := by decide +kernel
  have hfits : ∀ p ∈ proghdrs (file smallDisk) 2 52, p.Fits := by
    rw [hps]
    intro p hp
    simp only [List.mem_cons, List.not_mem_nil, or_false] at hp
    rcases hp with rfl | rfl
    · refine ⟨by decide, by decide, by decide, ?_⟩
      simp [Proghdr.Touches, Proghdr.start, Proghdr.length, sectSize, elfHdr]
      omega
    · refine ⟨by decide, by decide, by decide, ?_⟩
      simp [Proghdr.Touches, Proghdr.start, Proghdr.length, sectSize, elfHdr]
      omega
  have hapart : (proghdrs (file smallDisk) 2 52).Pairwise fun p q =>
      ∀ x, q.Touches x → ¬ p.Holds x := by
    rw [hps]
    simp [Proghdr.Touches, Proghdr.Holds, Proghdr.start, Proghdr.length, sectSize]
    omega
  obtain ⟨m', hm', hsegs, hother⟩ := bootmain_image (d := smallDisk) (fun _ => 0xFF)
    (h := ⟨0x464C457F, 0x10000C, 52, 2⟩) (by decide +kernel) rfl (by decide) hfits hapart
  have h₁ := hsegs ⟨0x1000, 0x100000, 4, 4⟩ (by rw [hps]; simp)
  have h₂ := hsegs ⟨0x1200, 0x101000, 4, 16⟩ (by rw [hps]; simp)
  refine ⟨m', hm', (h₁.1 0 (by decide)).trans (by decide +kernel),
    (h₂.1 0 (by decide)).trans (by decide +kernel), h₂.2 4 (by decide) (by decide),
    hother 0x7C00 (by decide) ?_⟩
  rw [hps]
  simp [Proghdr.Touches, Proghdr.start, Proghdr.length, sectSize]

end Boot

end Chunix
