import Chunix.Fs.Sequential
import Chunix.Machine.Bytes

/-!
# Reading several sectors

`bread_nblocks` reads a number of sectors one after the other. The file system ext2
has a loop of its own for this, `read_nblocks`, which moves its pointer on from sector
to sector but not the number of the sector: it reads the same sector again and again.
-/

namespace Chunix

namespace Fs

open Machine Act

/-- `EXT2_DEV`, the first device of the memory disk. -/
def ext2Dev : Nat := 256

/-- A sector is copied to the address `p`. -/
def putSector (m : Memory) (p : Nat) (b : Sector) : Memory := paste m p 512 (extend b fun _ => 0)

/-- The loop of `bread_nblocks` with `n` sectors to come. -/
def breadNblocks (dev : Nat) : Nat → Nat → Nat → Memory → Act Cache Memory
  | 0, _, _, m => return m
  | n + 1, buf, blkNo, m => do
      let b ← readSector dev blkNo
      breadNblocks dev n (buf + 512) (u32 (blkNo + 1)) (putSector m buf b)

/-- The loop of `read_nblocks` of ext2. -/
def readNblocks (sec : Nat) : Nat → Nat → Memory → Act Cache Memory
  | 0, _, m => return m
  | n + 1, p, m => do
      let b ← readSector ext2Dev sec
      readNblocks sec n (p + 512) (putSector m p b)

/-- The memory `m` with the sectors `f 0`, …, `f (n - 1)` one behind the other at `p`. -/
def layout (m : Memory) (p n : Nat) (f : Nat → Sector) : Memory := fun x =>
  if p ≤ x ∧ x < p + 512 * n then f ((x - p) / 512) ⟨(x - p) % 512, Nat.mod_lt _ (by decide)⟩ else m x

section

variable {m : Memory} {p n : Nat} {f g : Nat → Sector}

theorem sector_congr {j k : Nat} {i i' : Fin 512} (hj : j = k) (hi : i.val = i'.val) :
    f j i = f k i' := by
  rw [hj, Fin.ext hi]

theorem layout_zero : layout m p 0 f = m := by
  funext x
  exact if_neg (by omega)

theorem putSector_of_mem {b : Sector} {x : Nat} (h : p ≤ x ∧ x < p + 512) (hlt : x - p < 512) :
    putSector m p b x = b ⟨x - p, hlt⟩ :=
  (paste_apply_of_mem h).trans (dif_pos hlt)

theorem putSector_of_notMem {b : Sector} {x : Nat} (h : x < p ∨ p + 512 ≤ x) :
    putSector m p b x = m x := paste_apply_of_notMem h

/-- The first sector and the others. -/
theorem layout_succ :
    layout m p (n + 1) f = layout (putSector m p (f 0)) (p + 512) n fun j => f (j + 1) := by
  have hend : p + 512 * (n + 1) = p + 512 + 512 * n := by omega
  funext x
  rw [layout, layout, hend]
  rcases Nat.lt_or_ge x p with hlow | hlow
  · rw [if_neg (fun h => absurd h.1 (by omega)), if_neg (fun h => absurd h.1 (by omega)),
      putSector_of_notMem (Or.inl hlow)]
  rcases Nat.lt_or_ge x (p + 512) with hfirst | hrest
  · have hlt : x - p < 512 := by omega
    have hin : x < p + 512 + 512 * n := by omega
    rw [if_pos ⟨hlow, hin⟩, if_neg (fun h => absurd h.1 (by omega)),
      putSector_of_mem ⟨hlow, hfirst⟩ hlt]
    refine sector_congr (by omega) ?_
    exact Nat.mod_eq_of_lt hlt
  rcases Nat.lt_or_ge x (p + 512 + 512 * n) with hin | hout
  · rw [if_pos ⟨hlow, hin⟩, if_pos ⟨hrest, hin⟩]
    exact sector_congr (by omega) (by dsimp only; omega)
  · rw [if_neg (fun h => absurd h.2 (by omega)), if_neg (fun h => absurd h.2 (by omega)),
      putSector_of_notMem (Or.inr hrest)]

theorem layout_add {j : Nat} (hj : j < n) (i : Fin 512) : layout m p n f (p + 512 * j + i) = f j i := by
  have hi := i.isLt
  have hin : p ≤ p + 512 * j + i ∧ p + 512 * j + i < p + 512 * n := by omega
  rw [layout, if_pos hin]
  exact sector_congr (by omega) (by dsimp only; omega)

/-- Two layouts are equal when their sectors are. -/
theorem layout_inj : layout m p n f = layout m p n g ↔ ∀ j, j < n → f j = g j := by
  constructor
  · intro h j hj
    funext i
    have := congrFun h (p + 512 * j + i)
    rwa [layout_add hj, layout_add hj] at this
  · intro h
    funext x
    unfold layout
    by_cases hin : p ≤ x ∧ x < p + 512 * n
    · rw [if_pos hin, if_pos hin, h _ (by omega)]
    · rw [if_neg hin, if_neg hin]

end

section

variable {v : Disk} {sec n p : Nat} {m : Memory}

/-- `bread_nblocks` gives the sectors one behind the other. -/
theorem gives_breadNblocks {d : Nat} (hd : d < 65536) (hm : major d = memMajor)
    (hn : sec + n ≤ v.size) (hv : v.size ≤ 4294967296) :
    Gives (quietly d) v (breadNblocks d n p sec m) (layout m p n fun j => v.sector (sec + j)) v := by
  induction n generalizing sec p m with
  | zero =>
      rw [layout_zero]
      exact gives_pure m
  | succ n ih =>
      refine (gives_readSector hd hm (by omega)).bind ?_
      rw [layout_succ]
      have hshift : (fun j => v.sector (sec + (j + 1))) = fun j => v.sector (sec + 1 + j) := by
        funext j
        rw [Nat.add_assoc, Nat.add_comm 1 j]
      rw [hshift]
      cases n with
      | zero =>
          rw [layout_zero]
          exact gives_pure _
      | succ n =>
          rw [u32_eq_self (by omega)]
          exact ih (by omega)

/-- `read_nblocks` gives the first sector as often as it was asked for one. -/
theorem gives_readNblocks (hsec : sec < v.size) :
    Gives (quietly ext2Dev) v (readNblocks sec n p m) (layout m p n fun _ => v.sector sec) v := by
  induction n generalizing p m with
  | zero =>
      rw [layout_zero]
      exact gives_pure m
  | succ n ih =>
      refine (gives_readSector (by decide) (by decide) hsec).bind ?_
      rw [layout_succ]
      exact ih

/-- `read_nblocks` fills the buffer with the sectors from `sec` on, as `bread_nblocks`
does, if and only if all of them have the same contents. -/
theorem readNblocks_agrees_iff {c : Cache} (hc : Quiet ext2Dev c) (hn : sec + n ≤ c.disksize)
    (hv : c.disksize ≤ 4294967296) :
    (outcome (readNblocks sec n p m) c = .ok (layout m p n fun j => c.disk (sec + j)) ∧
      outcome (readNblocks sec n p m) c = outcome (breadNblocks ext2Dev n p sec m) c) ↔
    ∀ j, j < n → c.disk (sec + j) = c.disk sec := by
  have hbread := (gives_breadNblocks (p := p) (m := m) (v := ⟨c.disk, c.disksize⟩) (d := ext2Dev)
    (by decide) (by decide) hn hv).outcome hc rfl
  rw [hbread, and_self]
  cases n with
  | zero =>
      rw [layout_zero]
      exact iff_of_true rfl fun j hj => absurd hj (Nat.not_lt_zero j)
  | succ n =>
      have hread := (gives_readNblocks (n := n + 1) (p := p) (m := m) (v := ⟨c.disk, c.disksize⟩)
        (show sec < c.disksize by omega)).outcome hc rfl
      rw [hread, Except.ok.injEq, layout_inj]
      exact ⟨fun h j hj => (h j hj).symm, fun h j hj => (h j hj).symm⟩

end

/-- A disk of four sectors, the sector `n` being filled with `n / k`. -/
def stripes (k : Nat) : Disk := ⟨fun n _ => UInt8.ofNat (n / k), 4⟩

/-- The two sectors of the superblock are equal. -/
theorem stripes_agree : outcome (readNblocks 2 2 0 fun _ => 0) (bootCache (stripes 2)) =
    outcome (breadNblocks ext2Dev 2 0 2 fun _ => 0) (bootCache (stripes 2)) := by
  obtain ⟨hok, hview⟩ := quiet_bootCache ext2Dev (stripes 2)
  have hdisk : (bootCache (stripes 2)).disk = (stripes 2).sector := congrArg Disk.sector hview
  have hsize : (bootCache (stripes 2)).disksize = 4 := congrArg Disk.size hview
  refine ((readNblocks_agrees_iff hok (by rw [hsize]) (by rw [hsize]; decide)).2 ?_).2
  intro j hj
  rw [hdisk]
  funext i
  show UInt8.ofNat ((2 + j) / 2) = UInt8.ofNat (2 / 2)
  rw [show (2 + j) / 2 = 1 by omega]

/-- The two sectors of the superblock are different, as those of a disk are, and the
second half of the buffer is not the second sector. -/
theorem stripes_differ : ∃ m m' : Memory,
    outcome (readNblocks 2 2 0 fun _ => 0) (bootCache (stripes 1)) = .ok m ∧
    outcome (breadNblocks ext2Dev 2 0 2 fun _ => 0) (bootCache (stripes 1)) = .ok m' ∧
    m 512 = 2 ∧ m' 512 = 3 := by
  obtain ⟨hok, hview⟩ := quiet_bootCache ext2Dev (stripes 1)
  refine ⟨_, _, (gives_readNblocks (by decide)).outcome hok hview,
    (gives_breadNblocks (by decide) (by decide) (by decide) (by decide)).outcome hok hview, ?_, ?_⟩
  · decide
  · decide

end Fs

end Chunix
