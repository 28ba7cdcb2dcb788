import Chunix.Fs.Sequential
import Chunix.Trap.Boundary

/-!
# The arguments of sfs_read

`sfs_read` refuses a descriptor from 16 on. It takes the pointer of every other one
as it is, also where `sfs_open` has set none, and a negative number of bytes is a
large one when it is compared with the rest of the file. What a call may store is
decided by the descriptor being open and the sign of the number, unless the first
block cannot be read or the file is at its end.
-/

namespace Chunix

namespace Syscall

open Machine Act Fs Sfs

/-- What the descriptor leads to if `sfs_open` has set it. -/
def World.opened (w : World) (c : Slot) (fd : Int) : Option Desc :=
  if h : 0 ≤ fd ∧ fd < 16 then do
    let i ← w.files.ofile c ⟨fd.toNat, toNat_lt_ofile h⟩
    let ip ← (w.files.fdtable i).inode
    let idx := (w.files.ibuf ip).sindex
    return ⟨len idx, blkStart idx, (w.files.fdtable i).pos⟩
  else none

/-- The block `nb` of the data area can be read. -/
def World.Readable (w : World) (nb : Nat) : Prop :=
  ∃ x c, readDataBlock w.files.super nb w.files.cache = .ok (x, c)

/-- The addresses of the first `n` bytes of the buffer. -/
def inBuffer (buf : Nat) (n : Int) (va : Nat) : Prop := ∃ i, i < n.toNat ∧ va = u32 (buf + i)

/-- The call either returns `-1`, stores nothing and leaves the file positions, or is
one for an open descriptor and stores in the first `n` bytes of the buffer only. -/
def Validated (w : World) (c : Slot) (fd : Int) (buf : Nat) (n : Int) : Prop :=
  (∃ w', sfsRead Mm.vstore8 fd buf n w = .ok (-1, w') ∧ w'.files.fdtable = w.files.fdtable ∧
    Within (fun _ => False) (fun put => sfsRead put fd buf n) w) ∨
  ((w.opened c fd).isSome ∧ Within (inBuffer buf n) (fun put => sfsRead put fd buf n) w)

section

variable {w w' : World} {c : Slot} {fd n : Int} {buf : Nat} {d : Desc}

theorem desc_of_opened (h : w.opened c fd = some d) : w.desc c fd = some d := by
  unfold World.opened at h
  split at h
  case isFalse => cases h
  case isTrue hfd =>
    simp only [Option.bind_eq_bind, Option.bind_eq_some_iff, Option.pure_def,
      Option.some.injEq] at h
    obtain ⟨i, hi, ip, hip, rfl⟩ := h
    simp only [World.desc, dif_pos hfd, hi, hip]

/-- The position and the length are values of the C types. -/
theorem opened_bounds (hpos : ∀ i, (w.files.fdtable i).pos < 4294967296)
    (h : w.opened c fd = some d) : d.pos < 4294967296 ∧ d.len < 18446744073709551616 := by
  unfold World.opened at h
  split at h
  case isFalse => cases h
  case isTrue hfd =>
    simp only [Option.bind_eq_bind, Option.bind_eq_some_iff, Option.pure_def,
      Option.some.injEq] at h
    obtain ⟨i, -, ip, -, rfl⟩ := h
    exact ⟨hpos i, getLe_lt _ 26 8⟩

theorem lt_of_opened (h : w.opened c fd = some d) : ¬ 16 ≤ fd := by
  unfold World.opened at h
  split at h
  case isFalse => cases h
  case isTrue hfd => omega

/-- A number that is not negative bounds what is copied. -/
theorem left_le (hn : 0 ≤ n) (hn' : n < 2147483648) : d.left n ≤ n.toNat := by
  unfold Desc.left word64 u32
  have h₁ : (n % 18446744073709551616).toNat = n.toNat := by omega
  rw [h₁]
  generalize (d.len + 18446744073709551616 - d.pos) % 18446744073709551616 = r
  have h₂ : min n.toNat r ≤ n.toNat := Nat.min_le_left _ _
  omega

/-- For a negative number nothing is copied at the end of the file only. -/
theorem left_eq_zero_iff (hd : d.pos < 4294967296 ∧ d.len < 18446744073709551616)
    (hn : -2147483648 ≤ n) (hneg : n < 0) : d.left n = 0 ↔ d.pos = u32 d.len := by
  obtain ⟨len, start, pos⟩ := d
  unfold Desc.left word64 u32
  dsimp only at hd ⊢
  omega

theorem sfsRead_of_lt (put : Nat → UInt8 → Act Mm Unit) (hc : w.kernel.current = some c)
    (hfd : ¬ 16 ≤ fd) :
    sfsRead put fd buf n w = readDesc put c fd buf n (w.desc c fd) w := by
  rw [sfsRead, if_neg hfd, bind_of_ok (getCurrent_of_eq hc),
    bind_of_ok (gets_eq_ok.2 ⟨rfl, rfl⟩)]

/-- Where nothing is copied, the call returns zero. -/
theorem readDesc_of_left_eq_zero {put : Nat → UInt8 → Act Mm Unit} {r : Int}
    (hleft : d.left n = 0) (h : readDesc put c fd buf n (some d) w = .ok (r, w')) : r = 0 := by
  have hmin : min 0 (512 - ((d.pos % 512 : Nat) : Int)) = 0 := by omega
  rw [readDesc] at h
  dsimp only at h
  rw [hleft, show int32 0 = 0 from rfl, hmin] at h
  obtain ⟨_, _, -, h⟩ := bind_eq_ok.1 h
  obtain ⟨_, _, -, h⟩ := bind_eq_ok.1 h
  obtain ⟨_, _, -, h⟩ := bind_eq_ok.1 h
  obtain ⟨_, _, -, h⟩ := bind_eq_ok.1 h
  rw [readLoop, if_neg (by decide)] at h
  exact (pure_eq_ok.1 h).1.symm

/-- A call for a descriptor below 16 that returns and stores nothing returns zero. -/
theorem ne_neg_one_of_within {r : Int} (hc : w.kernel.current = some c) (hfd : ¬ 16 ≤ fd)
    (hr : sfsRead Mm.vstore8 fd buf n w = .ok (r, w'))
    (h : Within (fun _ => False) (fun put => sfsRead put fd buf n) w) : r = 0 := by
  have hg := (h (guard fun _ => False) fun va b hU => hU.elim).trans hr
  dsimp only at hg
  rw [sfsRead_of_lt _ hc hfd] at hg
  cases hd : w.desc c fd with
  | none =>
      rw [hd, readDesc] at hg
      exact (halt_eq_ok.1 hg).elim
  | some d =>
      rw [hd] at hg
      have hleft : d.left n = 0 := by
        by_contra hne
        exact mem_of_readDesc hg 0 (Nat.pos_of_ne_zero hne)
      exact readDesc_of_left_eq_zero hleft hg

theorem copy_halt {va k i : Nat} {f : Nat → UInt8} {e : Stop} (hk : 0 < k) :
    copy (fun _ _ => Act.halt e) va f k i w = .error e := by
  obtain ⟨k, rfl⟩ := Nat.exists_eq_succ_of_ne_zero hk.ne'
  rfl

/-- Once the first block is read, the first store decides. -/
theorem readDesc_halt {e : Stop} (hleft : d.left n ≠ 0)
    (hread : w.Readable (d.blkStart + d.pos / 512)) :
    readDesc (fun _ _ => Act.halt e) c fd buf n (some d) w = .error e := by
  obtain ⟨x, cache, hx⟩ := hread
  have hlt : d.left n < 4294967296 := u32_lt _
  have hblock : onFiles (onCache (readDataBlock w.files.super (d.blkStart + d.pos / 512))) w =
      .ok (x, { w with files := { w.files with cache := cache } }) :=
    zoom_eq_ok.2 ⟨_, zoom_eq_ok.2 ⟨cache, hx, rfl⟩, rfl⟩
  have hword : 0 < word (min (int32 (d.left n)) (512 - ((d.pos % 512 : Nat) : Int))) := by
    have hpos : d.pos % 512 < 512 := Nat.mod_lt _ (by decide)
    generalize d.pos % 512 = r at hpos ⊢
    generalize d.left n = k at hleft hlt ⊢
    unfold int32 word
    split <;> omega
  rw [readDesc]
  dsimp only
  rw [bind_of_ok (gets_eq_ok.2 ⟨rfl, rfl⟩), bind_of_ok hblock, bind_of_error (copy_halt hword)]

/-- Where the first block cannot be read, the call stops there. -/
theorem readDesc_of_not_readable {put : Nat → UInt8 → Act Mm Unit}
    (h : ¬ w.Readable (d.blkStart + d.pos / 512)) :
    readDesc put c fd buf n (some d) w = readDesc Mm.vstore8 c fd buf n (some d) w := by
  rw [readDesc, readDesc]
  dsimp only
  rw [bind_of_ok (gets_eq_ok.2 ⟨rfl, rfl⟩), bind_of_ok (gets_eq_ok.2 ⟨rfl, rfl⟩)]
  refine bind_congr_of_ok fun x w₁ hx => absurd ?_ h
  obtain ⟨f, hf, -⟩ := zoom_eq_ok.1 hx
  obtain ⟨cache, hcache, -⟩ := zoom_eq_ok.1 hf
  exact ⟨x, cache, hcache⟩

theorem not_within_of_left (hc : w.kernel.current = some c) (hd : w.opened c fd = some d)
    (hneg : n < 0) (hleft : d.left n ≠ 0) (hread : w.Readable (d.blkStart + d.pos / 512)) :
    ¬ Within (inBuffer buf n) (fun put => sfsRead put fd buf n) w := by
  intro h
  obtain ⟨e, he⟩ : ∃ e, sfsRead Mm.vstore8 fd buf n w ≠ .error e := by
    by_cases hhang : sfsRead Mm.vstore8 fd buf n w = .error .hang
    · exact ⟨.fault 0, by simp [hhang]⟩
    · exact ⟨.hang, hhang⟩
  have heq := h (fun _ _ => Act.halt e) fun va b ⟨i, hi, _⟩ => by omega
  dsimp only at heq
  rw [sfsRead_of_lt _ hc (lt_of_opened hd), desc_of_opened hd, readDesc_halt hleft hread] at heq
  exact he heq.symm

/-- A descriptor below 16 that is not open makes the call wrong. -/
theorem not_validated_of_not_opened (hc : w.kernel.current = some c) (hfd : ¬ 16 ≤ fd)
    (hd : w.opened c fd = none) : ¬ Validated w c fd buf n := by
  rintro (⟨w', hr, -, h⟩ | ⟨hsome, -⟩)
  · exact absurd (ne_neg_one_of_within hc hfd hr h) (by decide)
  · simp [hd] at hsome

/-- For an open descriptor the stores decide. -/
theorem validated_iff_within (hc : w.kernel.current = some c) (hd : w.opened c fd = some d) :
    Validated w c fd buf n ↔ Within (inBuffer buf n) (fun put => sfsRead put fd buf n) w := by
  refine ⟨?_, fun h => Or.inr ⟨by simp [hd], h⟩⟩
  rintro (⟨w', hr, -, h⟩ | ⟨-, h⟩)
  · exact absurd (ne_neg_one_of_within hc (lt_of_opened hd) hr h) (by decide)
  · exact h

theorem within_iff (hc : w.kernel.current = some c) (hd : w.opened c fd = some d)
    (hb : d.pos < 4294967296 ∧ d.len < 18446744073709551616) (hn : -2147483648 ≤ n)
    (hn' : n < 2147483648) :
    Within (inBuffer buf n) (fun put => sfsRead put fd buf n) w ↔
      0 ≤ n ∨ d.pos = u32 d.len ∨ ¬ w.Readable (d.blkStart + d.pos / 512) := by
  have hcongr : (d.left n ≤ n.toNat ∨ ¬ w.Readable (d.blkStart + d.pos / 512)) →
      Within (inBuffer buf n) (fun put => sfsRead put fd buf n) w := by
    intro h put hput
    dsimp only
    rw [sfsRead_of_lt _ hc (lt_of_opened hd), sfsRead_of_lt _ hc (lt_of_opened hd),
      desc_of_opened hd]
    rcases h with h | h
    · rw [readDesc_congr hput]
      rintro _ ⟨⟩ i hi
      exact ⟨i, by omega, rfl⟩
    · exact readDesc_of_not_readable h
  by_cases h0 : 0 ≤ n
  · exact ⟨fun _ => Or.inl h0, fun _ => hcongr (Or.inl (left_le h0 hn'))⟩
  have hzero := left_eq_zero_iff hb hn (by omega)
  constructor
  · intro h
    by_contra hno
    push Not at hno
    obtain ⟨-, hpos, hread⟩ := hno
    exact not_within_of_left hc hd (by omega) (fun hl => hpos (hzero.1 hl)) hread h
  · rintro (h | h | h)
    · exact absurd h h0
    · exact hcongr (Or.inl (by rw [hzero.2 h]; omega))
    · exact hcongr (Or.inr h)

/-- A call of `sfs_read` is right if and only if it is refused for a descriptor from
16 on, or the descriptor is open and the number is not negative, the file is at its
end or its block cannot be read. -/
theorem sfsRead_validated_iff (hc : w.kernel.current = some c)
    (hpos : ∀ i, (w.files.fdtable i).pos < 4294967296) (hn : -2147483648 ≤ n)
    (hn' : n < 2147483648) :
    Validated w c fd buf n ↔ 16 ≤ fd ∨ ∃ d, w.opened c fd = some d ∧
      (0 ≤ n ∨ d.pos = u32 d.len ∨ ¬ w.Readable (d.blkStart + d.pos / 512)) := by
  by_cases hfd : 16 ≤ fd
  · have hret : ∀ put, sfsRead put fd buf n w = .ok (-1, w) := by
      intro put
      rw [sfsRead, if_pos hfd]
      rfl
    refine ⟨fun _ => Or.inl hfd, fun _ => Or.inl ⟨w, hret _, rfl, fun put _ => ?_⟩⟩
    exact (hret put).trans (hret _).symm
  cases hd : w.opened c fd with
  | none =>
      refine ⟨fun h => absurd h (not_validated_of_not_opened hc hfd hd), ?_⟩
      rintro (h | ⟨d, h, -⟩)
      · exact absurd h hfd
      · cases h
  | some d =>
      rw [validated_iff_within hc hd, within_iff hc hd (opened_bounds hpos hd) hn hn']
      constructor
      · exact fun h => Or.inr ⟨d, rfl, h⟩
      · rintro (h | ⟨_, ⟨⟩, h⟩)
        · exact absurd h hfd
        · exact h

end

/-- A task that has opened a file of two bytes as its descriptor 1. -/
def reader : World where
  kernel := (demo 3).kernel
  files :=
    { super := ⟨0, 0, 0, 0, 0⟩
      cache := bootCache ⟨fun _ _ => 0x61, 1⟩
      ibuf := fun _ => ⟨sfsInodeInuse, none, slice 64 (putLe zeros 26 8 2) 0⟩
      fdtable := fun _ => ⟨0, 0, 0, 0, 0, some 0⟩
      ofile := fun _ fd => if fd = 1 then some 0 else none }
  cons := ⟨zeros, 0, 0⟩
  syscalls := 0
  entry := fun _ => 0
  wild := fun _ => none

theorem reader_opened : reader.opened 0 1 = some ⟨2, 0, 0⟩ := by decide +kernel

/-- A read of ten bytes. -/
theorem reader_validated : Validated reader 0 1 0x1000 10 :=
  (sfsRead_validated_iff rfl (fun _ => Nat.zero_lt_succ _) (by decide) (by decide)).2
    (Or.inr ⟨_, reader_opened, Or.inl (by decide)⟩)

/-- The descriptor 2 has not been opened and is not refused. For the open descriptor
the number `-1` gets both bytes of the file stored. -/
theorem reader_not_validated :
    ¬ Validated reader 0 2 0x1000 10 ∧ ¬ Validated reader 0 1 0x1000 (-1) := by
  have hread : reader.Readable 0 := by
    obtain ⟨hok, hview⟩ := quiet_bootCache sfsDev ⟨fun _ _ => 0x61, 1⟩
    obtain ⟨x, c, hx, -⟩ := @gives_readSector sfsDev (by decide) rfl
      ⟨fun _ _ => 0x61, 1⟩ 0 (by decide) _ hok hview
    exact ⟨x, c, hx⟩
  refine ⟨not_validated_of_not_opened rfl (by decide) (by decide +kernel), fun h => ?_⟩
  have hwithin := (validated_iff_within rfl reader_opened).1 h
  exact not_within_of_left rfl reader_opened (by decide) (by decide) hread hwithin

end Syscall

end Chunix
