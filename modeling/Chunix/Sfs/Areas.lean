import Chunix.Sfs.RoundTrip
import Mathlib.Order.Interval.Finset.Nat

/-!
# The areas of an image

The data blocks of the files and the block of the root directory fill the blocks
from `reserved_blk` on without gaps or overlaps, and no element of the index, the
marker included, lies in one of them or in the superblock.
-/

namespace Chunix

namespace Sfs

open Machine

/-- The blocks of the image that an entry gives to its file. -/
def fileBlocks (idx : Index) : Finset Nat :=
  Finset.Ico (reservedBlk + blkStart idx) (reservedBlk + (blkEnd idx + 1))

/-- The bytes of a block of the image. -/
def blockBytes (b : Nat) : Finset Nat := Finset.Ico (512 * b) (512 * (b + 1))

/-- The bytes of an element of the index. -/
def indexBytes (nblk sec : Nat) : Finset Nat := Finset.Ico (place nblk sec) (place nblk sec + 64)

theorem disjoint_Ico_of_le {a b c d : Nat} (h : b ≤ c) :
    Disjoint (Finset.Ico a b) (Finset.Ico c d) := by
  refine Finset.disjoint_left.2 fun x hx hx' => ?_
  rw [Finset.mem_Ico] at hx hx'
  omega

theorem starts_bounds {s : Nat} {args : List Arg} {x : Nat × Arg} (h : x ∈ starts s args) :
    s ≤ x.1 ∧ x.1 + x.2.blocks ≤ s + totalBlocks args := by
  induction args generalizing s with
  | nil => simp [starts] at h
  | cons a args ih =>
      rw [starts, List.mem_cons] at h
      simp only [totalBlocks, List.map_cons, List.sum_cons]
      rcases h with rfl | h
      · exact ⟨le_rfl, by simp only; omega⟩
      · have := ih h
        simp only [totalBlocks] at this
        omega

theorem starts_pairwise (s : Nat) (args : List Arg) :
    (starts s args).Pairwise fun x y => x.1 + x.2.blocks ≤ y.1 := by
  induction args generalizing s with
  | nil => exact List.Pairwise.nil
  | cons a args ih => exact List.pairwise_cons.2 ⟨fun x hx => (starts_bounds hx).1, ih _⟩

theorem starts_cover {s b : Nat} {args : List Arg} (hs : s ≤ b) (hb : b < s + totalBlocks args) :
    ∃ x ∈ starts s args, x.1 ≤ b ∧ b < x.1 + x.2.blocks := by
  induction args generalizing s with
  | nil =>
      simp only [totalBlocks, List.map_nil, List.sum_nil] at hb
      omega
  | cons a args ih =>
      by_cases ha : b < s + a.blocks
      · exact ⟨(s, a), by simp [starts], hs, ha⟩
      · simp only [totalBlocks, List.map_cons, List.sum_cons] at hb ih
        obtain ⟨x, hx, hx'⟩ := ih (s := s + a.blocks) (by omega) (by omega)
        exact ⟨x, by simp [starts, hx], hx'⟩

section

variable {nblk : Nat} {args : List Arg} {mk : Mk}

/-- The blocks of the entry of a regular file. -/
theorem fileBlocks_eq {img : Memory} {da start : Nat} {a : Arg} {idx : Index}
    (h : Describes img da start a idx) (ht : etype idx = iatFileEnt) :
    fileBlocks idx = Finset.Ico (reservedBlk + start) (reservedBlk + (start + a.blocks)) := by
  rcases h.kind with ⟨-, hd⟩ | ⟨_, -, -, -, hb, he, -⟩
  · rw [ht] at hd
    exact absurd hd (by decide)
  · rw [fileBlocks, hb, he]

/-- The entries with arguments that come later have blocks that come later. -/
theorem Made.starts_le (h : Made nblk args mk) {j k : Nat} {e e' : Nat × Index}
    (hj : mk.initial[j + 1]? = some e) (hk : mk.initial[k + 1]? = some e') (hjk : j < k) :
    ∃ x y : Nat × Arg, Describes mk.img mk.daBlocks x.1 x.2 e.2 ∧
      Describes mk.img mk.daBlocks y.1 y.2 e'.2 ∧ x.1 + x.2.blocks ≤ y.1 := by
  obtain ⟨x, hx, hd⟩ := h.entry hj
  obtain ⟨y, hy, hd'⟩ := h.entry hk
  obtain ⟨hj', rfl⟩ := List.getElem?_eq_some_iff.1 hx
  obtain ⟨hk', rfl⟩ := List.getElem?_eq_some_iff.1 hy
  exact ⟨_, _, hd, hd', List.pairwise_iff_getElem.1 (starts_pairwise 1 args) j k hj' hk' hjk⟩

theorem Made.disjoint_of_lt (h : Made nblk args mk) {j k : Nat} {e e' : Nat × Index}
    (hj : mk.initial[j + 1]? = some e) (hk : mk.initial[k + 1]? = some e')
    (ht : etype e.2 = iatFileEnt) (ht' : etype e'.2 = iatFileEnt) (hjk : j < k) :
    Disjoint (fileBlocks e.2) (fileBlocks e'.2) := by
  obtain ⟨x, y, hd, hd', hle⟩ := h.starts_le hj hk hjk
  rw [fileBlocks_eq hd ht, fileBlocks_eq hd' ht']
  exact disjoint_Ico_of_le (by omega)

/-- In the image of a finished run of `mk_sfs` the files have disjoint blocks, as
many as their length needs and with their bytes, and these are with the block of
the root directory the blocks from `reserved_blk` on; no element of the index lies
in one of them or in the superblock. -/
theorem areas_disjoint (hn : 512 * nblk < 4294967296) (h : mkSfs nblk args = some mk) :
    (∀ (j k : Nat) (e e' : Nat × Index), j ≠ k → mk.initial[j + 1]? = some e →
      mk.initial[k + 1]? = some e' → etype e.2 = iatFileEnt → etype e'.2 = iatFileEnt →
      Disjoint (fileBlocks e.2) (fileBlocks e'.2)) ∧
    (∃ root, mk.initial[0]? = some (1, root) ∧
      (∀ b, b ∈ Finset.Ico reservedBlk (reservedBlk + mk.daBlocks) ↔ b ∈ fileBlocks root ∨
        ∃ (k : Nat) (e : Nat × Index), mk.initial[k + 1]? = some e ∧ etype e.2 = iatFileEnt ∧
          b ∈ fileBlocks e.2) ∧
      ∀ (k : Nat) (e : Nat × Index), mk.initial[k + 1]? = some e → etype e.2 = iatFileEnt →
        Disjoint (fileBlocks root) (fileBlocks e.2)) ∧
    (∀ (k : Nat) (e : Nat × Index), mk.initial[k + 1]? = some e → etype e.2 = iatFileEnt →
      ∃ a content, args[k]? = some a ∧ a.stat = some (.regular content) ∧
        (fileBlocks e.2).card = ceilBlocks content.length ∧
        ∀ i (hi : i < content.length),
          mk.img (512 * (reservedBlk + blkStart e.2) + i) = content[i]) ∧
    ∀ b sec, b ∈ Finset.Ico 0 (reservedBlk + mk.daBlocks) → sec ≤ mk.iaNum →
      Disjoint (blockBytes b) (indexBytes nblk sec) := by
  have hm := mkSfs_made hn h
  have hf := hm.fits
  unfold Fits at hf
  obtain ⟨root, es, hes, hroot, hall⟩ := hm.entries
  have hroot' : mk.initial[0]? = some (1, root) := by rw [hes]; rfl
  have hrootBlocks : fileBlocks root = Finset.Ico reservedBlk (reservedBlk + 1) := by
    rw [fileBlocks, hroot.blkStart, hroot.blkEnd, Nat.add_zero]
  refine ⟨?_, ⟨root, hroot', fun b => ?_, fun k e hk ht => ?_⟩, ?_, ?_⟩
  · intro j k e e' hjk hj hk ht ht'
    rcases Nat.lt_or_gt_of_ne hjk with hlt | hlt
    · exact hm.disjoint_of_lt hj hk ht ht' hlt
    · exact (hm.disjoint_of_lt hk hj ht' ht hlt).symm
  · rw [hrootBlocks, Finset.mem_Ico, Finset.mem_Ico, hm.daBlocks]
    unfold reservedBlk
    constructor
    · rintro ⟨h₁, h₂⟩
      by_cases hb : b < 2
      · exact Or.inl ⟨h₁, hb⟩
      · obtain ⟨x, hx, hxb⟩ := @starts_cover 1 (b - 1) args
          (by omega) (by omega)
        obtain ⟨k, hk⟩ := List.mem_iff_getElem?.1 hx
        obtain ⟨e, he⟩ := hm.initial_getElem? (starts_getElem? hk)
        obtain ⟨x', hx', hd⟩ := hm.entry he
        cases hk.symm.trans hx'
        -- A directory has no blocks, so the entry is that of a regular file.
        have ht : etype e.2 = iatFileEnt := by
          rcases hd.kind with ⟨hs, -⟩ | ⟨_, -, ht, -⟩
          · simp only [Arg.blocks, hs] at hxb
            omega
          · exact ht
        refine Or.inr ⟨k, e, he, ht, ?_⟩
        rw [fileBlocks_eq hd ht, Finset.mem_Ico]
        unfold reservedBlk
        omega
    · rintro (hb | ⟨k, e, hk, ht, hb⟩)
      · omega
      · obtain ⟨x, hx, hd⟩ := hm.entry hk
        have := starts_bounds (List.mem_of_getElem? hx)
        rw [fileBlocks_eq hd ht, Finset.mem_Ico] at hb
        unfold reservedBlk at hb
        omega
  · obtain ⟨x, hx, hd⟩ := hm.entry hk
    have := starts_bounds (List.mem_of_getElem? hx)
    rw [hrootBlocks, fileBlocks_eq hd ht]
    exact disjoint_Ico_of_le (by omega)
  · intro k e hk ht
    obtain ⟨x, hx, hd⟩ := hm.entry hk
    have hblocks := fileBlocks_eq hd ht
    rcases hd.kind with ⟨-, hdir⟩ | ⟨content, hs, -, -, hb, -, hdata⟩
    · rw [ht] at hdir
      exact absurd hdir (by decide)
    · refine ⟨x.2, content, starts_getElem? hx, hs, ?_, fun i hi => ?_⟩
      · rw [hblocks, Nat.card_Ico]
        simp only [Arg.blocks, hs]
        omega
      · rw [hb, reservedBlk, Nat.add_comm 1 x.1, hdata.bytes i hi]
  · intro b sec hb hsec
    rw [Finset.mem_Ico] at hb
    unfold reservedBlk at hb
    refine disjoint_Ico_of_le ?_
    unfold place
    omega

end

/-- The file `ab` has one block, apart from that of the root directory and from
the index. -/
theorem tiny_areas :
    ∃ mk e, mkSfs 4 [tiny] = some mk ∧ mk.initial[1]? = some e ∧ (fileBlocks e.2).card = 1 := by
  obtain ⟨mk, hmk⟩ := mkSfs_tiny
  have hm := mkSfs_made (by decide) hmk
  obtain ⟨e, he⟩ := hm.initial_getElem? (k := 0) (a := tiny) rfl
  obtain ⟨x, hx, hd⟩ := hm.entry he
  cases hx
  rcases hd.kind with ⟨hdir, -⟩ | ⟨_, -, ht, -⟩
  · simp [tiny] at hdir
  · obtain ⟨-, -, hcard, -⟩ := areas_disjoint (by decide) hmk
    obtain ⟨a, content, ha, hs, hc, -⟩ := hcard 0 e he ht
    cases ha
    cases hs
    exact ⟨mk, e, hmk, he, hc⟩

end Sfs

end Chunix
