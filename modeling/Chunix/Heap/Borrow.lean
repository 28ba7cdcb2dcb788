import Chunix.Heap.Order
import Chunix.Heap.Paged

/-!
# Blocks that are given back

A caller that takes a block, writes into it and gives it back leaves the heap as it
was: the same chunks, the same bytes in the blocks of the others, and no page less to be
had. The pages count only if `shrink` gives the page of the heap back in full; the
window of a task does.
-/

namespace Chunix

namespace Heap

open Machine Act

theorem total_le_total_malloc (n : Nat) (cs : List Chunk) : total cs ≤ total (malloc n cs) := by
  rcases malloc_cases n 0 0 cs with ⟨l, c, r, rfl, -, hfit, -, hm, -⟩ | ⟨-, hm, -, -⟩
  · rw [hm]
    simp only [total_append, total_cut hfit, total_cons, Nat.le_refl]
  · rw [hm, total_append]
    exact Nat.le_add_right _ _

/-- Two chunks in use are apart. -/
theorem apart_of_mem_usedAt {a : Nat} {cs : List Chunk} {b c : Nat × Nat} (hs : Sized cs)
    (hb : b ∈ usedAt a cs) (hc : c ∈ usedAt a cs) (hne : b.1 ≠ c.1) :
    b.1 + b.2 ≤ c.1 ∨ c.1 + c.2 ≤ b.1 := by
  obtain ⟨i, hi, rfl⟩ := List.getElem_of_mem hb
  obtain ⟨j, hj, rfl⟩ := List.getElem_of_mem hc
  have hpw := List.pairwise_iff_getElem.1 (pairwise_usedAt (a := a) hs)
  rcases Nat.lt_trichotomy i j with hij | rfl | hij
  · exact Or.inl (hpw i j hi hj hij)
  · exact absurd rfl hne
  · exact Or.inr (hpw j i hj hi hij)

/-! ### Bytes -/

/-- The word of four bytes. -/
def wordOf (c : Nat → UInt8) : Nat :=
  (c 0).toNat + 256 * (c 1).toNat + 65536 * (c 2).toNat + 16777216 * (c 3).toNat

theorem store32_wordOf {m : Memory} {a : Nat} (ha : a + 4 ≤ 4294967296) (c : Nat → UInt8) :
    store32 m a (wordOf c) = fun x => if a ≤ x ∧ x < a + 4 then c (x - a) else m x := by
  have h0 := (c 0).toNat_lt
  have h1 := (c 1).toNat_lt
  have h2 := (c 2).toNat_lt
  have h3 := (c 3).toNat_lt
  have hbyte : ∀ (b : UInt8) (w : Nat), w % 256 = b.toNat → UInt8.ofNat w = b := by
    intro b w hw
    rw [← UInt8.toNat_inj, UInt8.toNat_ofNat', hw]
  funext x
  simp only [store32, u32_eq_self (show a < 4294967296 by omega),
    u32_eq_self (show a + 1 < 4294967296 by omega), u32_eq_self (show a + 2 < 4294967296 by omega),
    u32_eq_self (show a + 3 < 4294967296 by omega), wordOf]
  split_ifs with hx₀ hx hx₁ hx hx₂ hx hx₃ hx
  · exact (hbyte (c 0) _ (by omega)).trans (congrArg c (by omega))
  · omega
  · exact (hbyte (c 1) _ (by omega)).trans (congrArg c (by omega))
  · omega
  · exact (hbyte (c 2) _ (by omega)).trans (congrArg c (by omega))
  · omega
  · exact (hbyte (c 3) _ (by omega)).trans (congrArg c (by omega))
  · omega
  · omega
  · rfl

/-- The byte number `i` of a word. -/
def byteOf (w i : Nat) : UInt8 := UInt8.ofNat (w / 256 ^ i)

theorem byteOf_load32 {m : Memory} {a i : Nat} (ha : a + 4 ≤ 4294967296) (hi : i < 4) :
    byteOf (load32 m a) i = m (a + i) := by
  have h0 := (m a).toNat_lt
  have h1 := (m (a + 1)).toNat_lt
  have h2 := (m (a + 2)).toNat_lt
  have h3 := (m (a + 3)).toNat_lt
  rw [byteOf, ← UInt8.toNat_inj, UInt8.toNat_ofNat']
  simp only [load32, u32_eq_self (show a < 4294967296 by omega),
    u32_eq_self (show a + 1 < 4294967296 by omega), u32_eq_self (show a + 2 < 4294967296 by omega),
    u32_eq_self (show a + 3 < 4294967296 by omega)]
  obtain rfl | rfl | rfl | rfl : i = 0 ∨ i = 1 ∨ i = 2 ∨ i = 3 := by omega
  · simp only [Nat.add_zero, Nat.pow_zero, Nat.div_one]
    omega
  · omega
  · omega
  · omega

variable {σ : Type} (W : Window σ)

/-- A byte written to the window, with the rest of its word as it is. -/
def storeByte (a : Nat) (b : UInt8) : Act σ Unit := do
  let w ← W.ld (a / 4 * 4)
  W.st (a / 4 * 4) (wordOf fun j => if j = a % 4 then b else byteOf w j)

/-- Bytes written to the window one after the other. -/
def storeBytes : Nat → List UInt8 → Act σ Unit
  | _, [] => pure ()
  | a, b :: bs => do
      storeByte W a b
      storeBytes (u32 (a + 1)) bs

variable {W} {A : Abstraction σ View}

theorem gives_storeByte (hW : Lawful W A) {v : View} {a : Nat} (b : UInt8) (ha : heapStart ≤ a)
    (hatop : a < v.top) (hpage : v.top % 4096 = 0) (hend : v.top ≤ heapEnd) :
    Gives A v (storeByte W a b) () { v with mem := Function.update v.mem a b } := by
  have hst : heapStart = 0xD0000000 := rfl
  have hen : heapEnd = 0xFFBFF000 := rfl
  have hword : ∀ w : View, w.mem = v.mem → store32 w.mem (a / 4 * 4)
      (wordOf fun j => if j = a % 4 then b else byteOf (load32 v.mem (a / 4 * 4)) j) =
      Function.update v.mem a b := by
    intro w hw
    rw [store32_wordOf (by omega), hw]
    funext x
    by_cases hx : x = a
    · subst hx
      rw [Function.update_self, if_pos (by omega), if_pos (by omega)]
    · rw [Function.update_of_ne hx]
      split_ifs with hin hsub
      · omega
      · rw [byteOf_load32 (by omega) (by omega), Nat.add_sub_cancel' hin.1]
      · rfl
  refine (hW.ld v (a / 4 * 4) (by omega) (by omega)).bind ?_
  refine (hW.st v (a / 4 * 4) _ (by omega) (by omega)).mono ?_
  rintro u w ⟨-, rfl⟩
  refine ⟨rfl, ?_⟩
  rw [View.store, hword v rfl]

/-! ### Pages -/

/-- The pages that a heap has and those that are to be had, in the units of `avail`. -/
def View.credit (v : View) : Nat := v.avail + 2 * (v.top / 4096)

/-- The page that `shrink` unmaps is to be had again. -/
def Refunds (W : Window σ) (A : Abstraction σ View) : Prop :=
  ∀ v, heapStart + 4096 ≤ v.top → Total A v W.shrink fun _ w => v.avail + 2 ≤ w.avail

/-- The window of a task gives the page back to the free list, and its page table
stays. -/
theorem taskWindow_refunds (own : Nat → Prop) : Refunds taskWindow (paged own) := by
  rintro v hlow k ⟨c, s, l, h⟩ rfl
  obtain ⟨k', v, hk, h', -, -, havail, -⟩ := h.shrink hlow
  exact ⟨(), k', hk, ⟨c, s, v :: l, h'⟩, havail⟩

/-- The view that only says whether the credit is at least `n`. No page can be had in
it, so it is lawful for a window that gives its pages back. -/
def credited (A : Abstraction σ View) (n : Nat) : Abstraction σ View where
  ok := A.ok
  view s := { A.view s with avail := if n ≤ (A.view s).credit then 1 else 0 }

theorem Lawful.credited (hW : Lawful W A) (hR : Refunds W A) (n : Nat) :
    Lawful W (credited A n) where
  top_le := hW.top_le
  ld := by
    rintro v a ha ha' s hs rfl
    obtain ⟨r, s', hr, hok, rfl, hv⟩ := hW.ld (A.view s) a ha ha' s hs rfl
    exact ⟨_, s', hr, hok, rfl, by simp only [Heap.credited, hv]⟩
  st := by
    rintro v a w ha ha' s hs rfl
    obtain ⟨r, s', hr, hok, rfl, hv⟩ := hW.st (A.view s) a w ha ha' s hs rfl
    exact ⟨_, s', hr, hok, rfl, by simp only [Heap.credited, hv]; rfl⟩
  start := by
    rintro v s hs rfl
    obtain ⟨r, s', hr, hok, rfl, hv⟩ := hW.start (A.view s) s hs rfl
    exact ⟨_, s', hr, hok, rfl, by simp only [Heap.credited, hv]⟩
  setStart := by
    rintro v a s hs rfl
    obtain ⟨r, s', hr, hok, rfl, hv⟩ := hW.setStart (A.view s) a s hs rfl
    exact ⟨_, s', hr, hok, rfl, by simp only [Heap.credited, hv]; rfl⟩
  top := by
    rintro v s hs rfl
    obtain ⟨r, s', hr, hok, rfl, hv⟩ := hW.top (A.view s) s hs rfl
    exact ⟨_, s', hr, hok, rfl, by simp only [Heap.credited, hv]⟩
  grow := by
    rintro v - - havail s - rfl
    simp only [Heap.credited] at havail
    split at havail <;> omega
  shrink := by
    rintro v hlow s hs rfl
    obtain ⟨r, s', hr, hok, htop, hstart, -, hmem⟩ := hW.shrink (A.view s) hlow s hs rfl
    obtain ⟨-, havail⟩ := (hR (A.view s) hlow).of_eq_ok hs rfl hr
    refine ⟨_, s', hr, hok, htop, hstart, ?_, hmem⟩
    simp only [Heap.credited]
    have hcredit : (A.view s).credit ≤ (A.view s').credit := by
      unfold View.credit
      omega
    split_ifs <;> omega

/-- The layout does not depend on the pages to be had. -/
theorem Holds.withAvail {v : View} {cs : List Chunk} (h : Holds v cs) (n : Nat) :
    Holds { v with avail := n } cs :=
  ⟨h.start, h.seg, h.sized, h.tidy, h.top, h.fits⟩

/-- `kfree` does not lose a page. -/
theorem total_kfree_credit (hW : Lawful W A) (hR : Refunds W A) {v : View} {c : Chunk}
    {l r : List Chunk} (h : Holds v (l ++ c :: r)) :
    Total A v (kfree W (heapStart + total l + 12)) fun _ w =>
      Holds w (release (total l) (l ++ c :: r)) ∧ v.credit ≤ w.credit ∧
      ∀ x, x < w.top → ¬ InHeader heapStart (l ++ c :: r) x → w.mem x = v.mem x := by
  rintro s hs rfl
  obtain ⟨u, s', hr, hok, hholds, -, hmem⟩ := total_kfree hW h s hs rfl
  obtain ⟨-, -, havail, -⟩ := (total_kfree (hW.credited hR (A.view s).credit)
    (h.withAvail _)).of_eq_ok hs rfl hr
  refine ⟨u, s', hr, hok, hholds, ?_, hmem⟩
  simp only [credited, Nat.le_refl, if_true] at havail
  by_contra hlt
  rw [if_neg hlt] at havail
  omega

/-! ### A block for a while -/

/-- The bytes of the chunks in use are the same. -/
def Intact (cs : List Chunk) (v w : View) : Prop :=
  ∀ c ∈ usedAt heapStart cs, ∀ x, c.1 + 12 ≤ x → x < c.1 + c.2 → w.mem x = v.mem x

/-- The heap is as it was: the same chunks, with the same bytes in those in use, and no
page less to be had. What is in the free chunks does not count. -/
structure Unchanged (cs : List Chunk) (v w : View) : Prop where
  holds : Holds w cs
  avail : v.avail ≤ w.avail
  bytes : Intact cs v w

/-- The heap with one more block of `n` bytes. -/
structure Lent (cs : List Chunk) (n : Nat) (v w : View) : Prop where
  holds : Holds w (malloc (n + 12) cs)
  credit : v.credit ≤ w.credit
  bytes : Intact cs v w

/-- The block that a request for `n` bytes gets. -/
def blockOf (n : Nat) (cs : List Chunk) : Nat := heapStart + mallocAt (n + 12) cs + 12

theorem Unchanged.refl {cs : List Chunk} {v : View} (h : Holds v cs) : Unchanged cs v v :=
  ⟨h, Nat.le_refl _, fun _ _ _ _ _ => rfl⟩

theorem Unchanged.trans {cs : List Chunk} {u v w : View} (h : Unchanged cs u v)
    (h' : Unchanged cs v w) : Unchanged cs u w :=
  ⟨h'.holds, Nat.le_trans h.avail h'.avail,
    fun c hc x hx hx' => (h'.bytes c hc x hx hx').trans (h.bytes c hc x hx hx')⟩

/-- Room for a request stays room for it. -/
theorem Unchanged.room {cs : List Chunk} {v w : View} {n : Nat} (h : Unchanged cs v w)
    (hv : Holds v cs) (hroom : Room v n) :
    ((∃ c ∈ cs, c.free = true ∧ u32 (n + 12) ≤ c.len) ∨
      heapStart + total cs + u32 (n + 12) ≤ heapEnd) ∧
    2 * ((pageUp (heapStart + total (malloc (u32 (n + 12)) cs)) - w.top) / 4096) ≤ w.avail := by
  obtain ⟨hfit, hpages⟩ := hroom cs hv
  rw [hv.top, ← h.holds.top] at hpages
  exact ⟨hfit, Nat.le_trans hpages h.avail⟩

/-- The block lies in the heap. -/
theorem Lent.bounds {cs : List Chunk} {u v : View} {n : Nat} (h : Lent cs n u v) :
    heapStart < blockOf n cs ∧ blockOf n cs + n ≤ heapEnd := by
  obtain ⟨len, hlen, hused⟩ := exists_mem_usedAt_malloc (n + 12) heapStart cs
  have hbd := bounds_of_mem_usedAt h.holds.sized
    ((hused (heapStart + mallocAt (n + 12) cs, len)).2 (Or.inl rfl))
  have hfits := h.holds.fits
  simp only at hbd
  unfold blockOf
  omega

theorem Holds.page {v : View} {cs : List Chunk} (h : Holds v cs) : v.top % 4096 = 0 := by
  rw [h.top, pageUp]
  omega

section

variable (hW : Lawful W A) {u v w : View} {cs : List Chunk} {n : Nat}

include hW

/-- Taking a block. -/
theorem total_kmalloc_lent (h : Unchanged cs u v) (hu : Holds u cs) (hroom : Room u n)
    (hn : n + 12 < 4294967296) :
    Total A v (kmalloc W n) fun p w => p = blockOf n cs ∧ Lent cs n u w := by
  have hr := h.room hu hroom
  rw [u32_eq_self hn] at hr
  have hsz : headerSize ≤ n + 12 := by
    unfold headerSize
    omega
  refine (total_kmalloc hW h.holds hn hr.1 rfl hr.2).mono ?_
  rintro p w ⟨hp, hw, havail, hmem⟩
  refine ⟨hp, hw, ?_, fun c hc x hx hx' => ?_⟩
  · have hle := h.avail
    have htop := h.holds.top
    have htop' := hu.top
    have hpage := hw.page
    have hpage' := h.holds.page
    have hgrow : v.top ≤ w.top := by
      have := total_le_total_malloc (n + 12) cs
      rw [htop, hw.top]
      unfold pageUp
      omega
    rw [← hw.top] at havail
    unfold View.credit
    omega
  · obtain ⟨len, -, hused⟩ := exists_mem_usedAt_malloc (n + 12) heapStart cs
    have hb := bounds_of_mem_usedAt h.holds.sized hc
    have htop := h.holds.le_top
    refine (hmem x (by omega) ?_).trans (h.bytes c hc x hx hx')
    exact not_inHeader_of_mem_usedAt hw.sized ((hused c).2 (Or.inr hc)) hx hx'

/-- Writing a byte of the block. -/
theorem Lent.total_storeByte (h : Lent cs n u v) (hu : Holds u cs) {a : Nat} (b : UInt8)
    (ha : blockOf n cs ≤ a) (ha' : a < blockOf n cs + n) :
    Total A v (storeByte W a b) fun _ w => Lent cs n u w := by
  obtain ⟨len, hlen, hused⟩ := exists_mem_usedAt_malloc (n + 12) heapStart cs
  have hblock := (hused (heapStart + mallocAt (n + 12) cs, len)).2 (Or.inl rfl)
  have hbd := bounds_of_mem_usedAt h.holds.sized hblock
  have htop := h.holds.le_top
  have hfits := h.holds.fits
  have hen : heapEnd = 0xFFBFF000 := rfl
  unfold blockOf at ha ha'
  simp only at hbd
  refine (gives_storeByte hW b (by omega) (by omega) h.holds.page h.holds.top_le).mono ?_
  rintro - w ⟨-, rfl⟩
  refine ⟨⟨h.holds.start, ?_, h.holds.sized, h.holds.tidy, h.holds.top, h.holds.fits⟩, h.credit,
    fun c hc x hx hx' => ?_⟩
  · refine h.holds.seg.congr_header h.holds.sized (by omega) fun x hx => ?_
    refine Function.update_of_ne ?_ _ _
    rintro rfl
    exact not_inHeader_of_mem_usedAt h.holds.sized hblock (by simp only; omega)
      (by simp only; omega) hx
  · -- the chunk in use is another one than that of the block
    have hne : c.1 ≠ heapStart + mallocAt (n + 12) cs := mallocAt_ne_of_mem_usedAt hu.sized hc
    have hapart := apart_of_mem_usedAt h.holds.sized ((hused c).2 (Or.inr hc)) hblock hne
    simp only at hapart
    exact (Function.update_of_ne (by omega) _ _).trans (h.bytes c hc x hx hx')

/-- Writing bytes of the block. -/
theorem Lent.total_storeBytes (h : Lent cs n u v) (hu : Holds u cs) {a : Nat} (bs : List UInt8)
    (ha : blockOf n cs ≤ a) (ha' : a + bs.length ≤ blockOf n cs + n) :
    Total A v (storeBytes W a bs) fun _ w => Lent cs n u w := by
  induction bs generalizing a v with
  | nil => exact (gives_pure ()).mono fun _ w hw => hw.2 ▸ h
  | cons b bs ih =>
      rw [List.length_cons] at ha'
      have hlt : a + 1 < 4294967296 := by
        have hbd := h.bounds
        have hen : heapEnd = 0xFFBFF000 := rfl
        omega
      refine (h.total_storeByte hW hu b ha (by omega)).bind fun _ w hw => ?_
      rw [u32_eq_self hlt]
      exact ih hw (by omega) (by omega)

/-- Giving the block back. -/
theorem Lent.total_kfree (hR : Refunds W A) (h : Lent cs n u v) (hu : Holds u cs) :
    Total A v (kfree W (blockOf n cs)) fun _ w => Unchanged cs u w := by
  obtain ⟨len, -, hused⟩ := exists_mem_usedAt_malloc (n + 12) heapStart cs
  obtain ⟨l, r, hcs, ha⟩ := exists_append_of_mem_usedAt
    ((hused (heapStart + mallocAt (n + 12) cs, len)).2 (Or.inl rfl))
  have hat : mallocAt (n + 12) cs = total l := by
    simp only at ha
    omega
  have hholds := h.holds
  rw [hcs] at hholds
  rw [blockOf, hat]
  refine (total_kfree_credit hW hR hholds).mono ?_
  rintro - w ⟨hw, hcredit, hmem⟩
  rw [← hcs, ← hat, release_malloc hu.sized hu.tidy] at hw
  have hle := h.credit
  have htop : w.top = u.top := by rw [hw.top, hu.top]
  refine ⟨hw, ?_, fun c hc x hx hx' => ?_⟩
  · unfold View.credit at hle hcredit
    rw [htop] at hcredit
    omega
  · have hb := bounds_of_mem_usedAt hu.sized hc
    have hlt := hw.le_top
    refine (hmem x (by omega) ?_).trans (h.bytes c hc x hx hx')
    rw [← hcs]
    exact not_inHeader_of_mem_usedAt h.holds.sized ((hused c).2 (Or.inr hc)) hx hx'

end

/-- The pages of the flat window are those up to the end of the heap. -/
def flatPages : Abstraction Flat View where
  ok s := s.top ≤ heapEnd
  view s := ⟨s.mem, s.top, s.start, 2 * ((heapEnd - s.top) / 4096)⟩

theorem flatPages_lawful : Lawful flat flatPages where
  top_le _ hs := hs
  ld := by
    rintro v a ha ha' s hs rfl
    exact ⟨_, s, if_pos ⟨ha, ha'⟩, hs, rfl, rfl⟩
  st := by
    rintro v a w ha ha' s hs rfl
    exact ⟨_, _, if_pos ⟨ha, ha'⟩, hs, rfl, rfl⟩
  start := by
    rintro v s hs rfl
    exact ⟨_, s, rfl, hs, rfl, rfl⟩
  setStart := by
    rintro v a s hs rfl
    exact ⟨_, _, rfl, hs, rfl, rfl⟩
  top := by
    rintro v s hs rfl
    exact ⟨_, s, rfl, hs, rfl, rfl⟩
  grow := by
    rintro v - hend - s hs rfl
    refine ⟨_, _, rfl, hend, rfl, rfl, ?_, fun _ _ => rfl⟩
    simp only [flatPages] at hend ⊢
    omega
  shrink := by
    rintro v hlow s hs rfl
    refine ⟨_, _, rfl, Nat.le_trans (Nat.sub_le _ _) hs, ?_, rfl, ?_, fun _ _ => rfl⟩
    · exact Nat.sub_add_cancel (Nat.le_trans (Nat.le_add_left _ _) hlow)
    · simp only [flatPages]
      omega

theorem flatPages_refunds : Refunds flat flatPages := by
  rintro v hlow s hs rfl
  refine ⟨_, _, rfl, Nat.le_trans (Nat.sub_le _ _) hs, ?_⟩
  simp only [flatPages] at hlow hs ⊢
  omega

end Heap

end Chunix
