import Chunix.Heap.Window

/-!
# Correctness of `kmalloc`

`kmalloc` takes the layout of the heap to the layout `malloc` says, and changes
no byte outside the headers of the new layout. The search and the three ways a
chunk is found are treated one by one.
-/

namespace Chunix

namespace Heap

open Machine Act

/-- The end of an address rounded up to whole pages. -/
def pageUp (a : Nat) : Nat := (a + 4095) / 4096 * 4096

/-- The window holds a heap with the layout `cs`. -/
structure Holds (v : View) (cs : List Chunk) : Prop where
  start : v.start = nextOf heapStart 0 cs
  seg : Seg v.mem 0 0 heapStart cs
  sized : Sized cs
  tidy : Tidy cs
  top : v.top = pageUp (heapStart + total cs)
  fits : heapStart + total cs ≤ heapEnd

theorem Holds.le_top {v : View} {cs : List Chunk} (h : Holds v cs) :
    heapStart + total cs ≤ v.top := by
  rw [h.top, pageUp]
  omega

theorem Holds.top_le {v : View} {cs : List Chunk} (h : Holds v cs) : v.top ≤ heapEnd := by
  have := h.fits
  rw [h.top, pageUp]
  unfold heapEnd at *
  omega

section

variable {σ : Type} {W : Window σ} {A : Abstraction σ View} (hW : Lawful W A)

include hW

/-- A free chunk that is not worth splitting is taken as it is. -/
theorem gives_take {v : View} {a n prev next : Nat} {c : Chunk} (hn : Node v.mem a prev next c)
    (ha : InWindow v a) (hle : n ≤ c.len) (hsmall : c.len - n ≤ headerSize) :
    Gives A v (do splitChunk W a n; setFree W a 0; return u32 (a + 12)) (a + 12)
      (v.store (a + 8) (2 * c.len + false.toNat)) := by
  unfold headerSize at hsmall
  have hleft : u32 (c.len + 4294967296 - n) = c.len - n := by unfold u32; omega
  have hsplit : Gives A v (splitChunk W a n) () v := by
    refine (gives_getLen hW hn ha).bind ?_
    rw [hleft, if_pos hsmall]
    exact gives_pure ()
  refine hsplit.bind ((gives_setFree hW hn ha false).bind ?_)
  rw [ha.u32_add (by decide)]
  exact gives_pure _

/-- The memory after a chunk at `a` was split at `n`: what is left is a chunk of
its own at `a + n`. -/
theorem total_splitChunk {v : View} {a n prev : Nat} {c d : Chunk} {r : List Chunk}
    (hc : Node v.mem a prev (a + c.len) c) (hd : Seg v.mem 0 a (a + c.len) (d :: r))
    (hs : Sized (d :: r)) (ha : heapStart ≤ a) (htop : a + c.len + total (d :: r) ≤ v.top)
    (hend : v.top ≤ heapEnd) (hn : headerSize ≤ n) (hbig : n + headerSize < c.len) :
    Total A v (do splitChunk W a n; setFree W a 0; return u32 (a + 12)) fun p w =>
      p = a + 12 ∧ w.top = v.top ∧ w.start = v.start ∧ w.avail = v.avail ∧
      Node w.mem a prev (a + n) ⟨n, false⟩ ∧
      Node w.mem (a + n) a (a + c.len) ⟨c.len - n, true⟩ ∧
      Seg w.mem 0 (a + n) (a + c.len) (d :: r) ∧
      (∀ x, ¬ (a ≤ x ∧ x < a + 12) → ¬ (a + n ≤ x ∧ x < a + n + 12) →
        ¬ (a + c.len ≤ x ∧ x < a + c.len + 12) → w.mem x = v.mem x) := by
  have hd12 := (sized_cons.1 hs).1
  unfold headerSize at hn hbig hd12
  have hseg := htop
  rw [total_cons] at htop
  unfold heapStart at ha
  unfold heapEnd at hend
  have iwa : InWindow v a := ⟨ha, by omega, hend⟩
  have iwb : InWindow v (a + n) := ⟨by unfold heapStart; omega, by omega, hend⟩
  have iwd : InWindow v (a + c.len) := ⟨by unfold heapStart; omega, by omega, hend⟩
  have hleft : u32 (c.len + 4294967296 - n) = c.len - n := by unfold u32; omega
  have hnew : u32 (a + n) = a + n := u32_eq_self (by omega)
  have hret : u32 (a + 12) = a + 12 := u32_eq_self (by omega)
  -- The new header holds whatever the chunk held there.
  obtain ⟨p, q, g, hb, hg⟩ := exists_node v.mem (a + n)
  have hsplit : Total A v (splitChunk W a n) fun _ w =>
      w.top = v.top ∧ w.start = v.start ∧ w.avail = v.avail ∧
      Node w.mem a prev (a + n) ⟨n, c.free⟩ ∧
      Node w.mem (a + n) a (a + c.len) ⟨c.len - n, true⟩ ∧
      Seg w.mem 0 (a + n) (a + c.len) (d :: r) ∧
      (∀ x, ¬ (a ≤ x ∧ x < a + 12) → ¬ (a + n ≤ x ∧ x < a + n + 12) →
        ¬ (a + c.len ≤ x ∧ x < a + c.len + 12) → w.mem x = v.mem x) := by
    refine (gives_getLen hW hc iwa).bind ?_
    rw [hleft, if_neg (by omega), hnew]
    refine (gives_setFree hW hb iwb true).bind_eq fun v₁ h₁ => ?_
    have hb₁ := hb.wrote_word h₁ (by omega) hg
    refine (gives_setLen hW hb₁ (iwb.wrote h₁) (by omega)).bind_eq fun v₂ h₂ => ?_
    have hb₂ := hb₁.wrote_word h₂ (by omega) (by omega)
    have hc₂ := (hc.wrote h₁ (by omega) (by omega)).wrote h₂ (by omega) (by omega)
    have hd₂ := (hd.wrote h₁ hs (by omega) (by omega)).wrote h₂ hs (by omega) (by omega)
    have iwa₂ := (iwa.wrote h₁).wrote h₂
    have iwb₂ := (iwb.wrote h₁).wrote h₂
    refine (gives_setLen hW hc₂ iwa₂ (by omega)).bind_eq fun v₃ h₃ => ?_
    refine (gives_setPrev hW (iwb₂.wrote h₃) a).bind_eq fun v₄ h₄ => ?_
    have hc₄ := (hc₂.wrote_word h₃ (by omega) (by omega)).wrote h₄ (by omega) (by omega)
    have hb₄ := (hb₂.wrote h₃ (by omega) (by omega)).wrote_prev h₄ (by omega) (by omega)
    have hd₄ := (hd₂.wrote h₃ hs (by omega) (by omega)).wrote h₄ hs (by omega) (by omega)
    have iwa₄ := (iwa₂.wrote h₃).wrote h₄
    have iwb₄ := (iwb₂.wrote h₃).wrote h₄
    refine (gives_getNext hW hc₄ iwa₄).bind ?_
    refine (gives_setNext hW iwb₄ _).bind_eq fun v₅ h₅ => ?_
    have hc₅ := hc₄.wrote h₅ (by omega) (by omega)
    have hb₅ := hb₄.wrote_next h₅ (by omega) (by omega)
    have hd₅ := hd₄.wrote h₅ hs (by omega) (by omega)
    refine (gives_getNext hW hc₅ (iwa₄.wrote h₅)).bind ?_
    have iwd₅ := (((((iwd.wrote h₁).wrote h₂).wrote h₃).wrote h₄).wrote h₅)
    refine (gives_setPrev hW iwd₅ _).bind_eq fun v₆ h₆ => ?_
    have hc₆ := hc₅.wrote h₆ (by omega) (by omega)
    have hb₆ := hb₅.wrote h₆ (by omega) (by omega)
    have hd₆ := hd₅.wrote_prev h₆ hs (by omega) (by omega)
    refine (gives_setNext hW ((iwa₄.wrote h₅).wrote h₆) _).mono ?_
    rintro - v₇ ⟨-, h₇⟩
    refine ⟨?_, ?_, ?_, hc₆.wrote_next h₇ (by omega) (by omega),
      hb₆.wrote h₇ (by omega) (by omega), hd₆.wrote h₇ hs (by omega) (by omega), ?_⟩
    · subst_vars; rfl
    · subst_vars; rfl
    · subst_vars; rfl
    · intro x hxa hxb hxd
      rw [wrote_apply h₇ (by omega) (by omega), wrote_apply h₆ (by omega) (by omega),
        wrote_apply h₅ (by omega) (by omega), wrote_apply h₄ (by omega) (by omega),
        wrote_apply h₃ (by omega) (by omega), wrote_apply h₂ (by omega) (by omega),
        wrote_apply h₁ (by omega) (by omega)]
  refine Total.bind hsplit ?_
  rintro - u ⟨ht, hst, hav, hnc, hnb, hsd, hfr⟩
  have iwu : InWindow u a := ⟨iwa.low, by rw [ht]; exact iwa.high, by rw [ht]; exact iwa.top⟩
  refine (gives_setFree hW hnc iwu false).bind_eq fun w hw => ?_
  rw [hret]
  refine (gives_pure _).mono ?_
  rintro p w' ⟨hp, hw'⟩
  rw [hw']
  refine ⟨hp, by rw [hw]; exact ht, by rw [hw]; exact hst, by rw [hw]; exact hav,
    hnc.wrote_word hw (by omega) (by omega), hnb.wrote hw (by omega) (by omega),
    hsd.wrote hw hs (by omega) (by omega), ?_⟩
  intro x hxa hxb hxd
  rw [wrote_apply hw (by omega) (by omega), hfr x hxa hxb hxd]

/-- The memory after the search: the chunk found, or zero, and the chunk before
it. -/
def find (n : Nat) : Nat → Nat → List Chunk → Nat × Nat
  | prev, _, [] => (0, prev)
  | prev, a, c :: cs =>
      if c.free = true ∧ n ≤ c.len then (a, prev) else find n a (a + c.len) cs

theorem gives_findChunk {v : View} {n f prev a : Nat} {cs : List Chunk}
    (hs : Seg v.mem 0 prev a cs) (hz : Sized cs) (ha : heapStart ≤ a)
    (htop : a + total cs ≤ v.top) (hend : v.top ≤ heapEnd) (hf : cs.length < f) :
    Gives A v (findChunk W n f (nextOf a 0 cs) prev) (find n prev a cs) v := by
  induction cs generalizing f prev a with
  | nil =>
      cases f with
      | zero => simp at hf
      | succ f => exact gives_pure _
  | cons c cs ih =>
      cases f with
      | zero => simp at hf
      | succ f =>
          obtain ⟨hc, hcs⟩ := sized_cons.1 hz
          unfold headerSize at hc
          rw [total_cons] at htop
          have iw : InWindow v a := ⟨ha, by omega, hend⟩
          have hne : a ≠ 0 := by unfold heapStart at ha; omega
          change Gives A v (findChunk W n (f + 1) a prev) _ v
          rw [findChunk, find, if_neg hne]
          refine (gives_getFree hW hs.1 iw).bind ((gives_getLen hW hs.1 iw).bind ?_)
          have hiff : (c.free.toNat = 1 ∧ n ≤ c.len) ↔ (c.free = true ∧ n ≤ c.len) := by
            cases c.free <;> simp
          by_cases hfit : c.free = true ∧ n ≤ c.len
          · rw [if_pos (hiff.2 hfit), if_pos hfit]
            exact gives_pure _
          · rw [if_neg (fun h => hfit (hiff.1 h)), if_neg hfit]
            refine (gives_getNext hW hs.1 iw).bind ?_
            exact ih hs.2 hcs (by omega) (by omega) (by simpa using hf)

/-- `alloc_chunk` raises the top of the window by the `k` pages that are
missing. -/
theorem total_allocChunk {v : View} {start len k f : Nat} (he : start + len ≤ heapEnd)
    (hlow : heapStart ≤ v.top) (hpage : v.top % 4096 = 0)
    (hk : k = (pageUp (start + len) - v.top) / 4096) (hav : 2 * k ≤ v.avail) (hf : k < f) :
    Total A v (allocChunk W start len f) fun _ w =>
      w.top = max v.top (pageUp (start + len)) ∧ w.start = v.start ∧
      v.avail ≤ w.avail + 2 * k ∧ ∀ x, x < v.top → w.mem x = v.mem x := by
  unfold heapEnd at he
  have hu : u32 (start + len) = start + len := u32_eq_self (by omega)
  induction k generalizing v f with
  | zero =>
      cases f with
      | zero => omega
      | succ f =>
          refine (hW.top v).bind ?_
          unfold pageUp at hk ⊢
          rw [hu, if_neg (by omega)]
          refine (gives_pure _).mono ?_
          rintro _ w ⟨-, rfl⟩
          exact ⟨by omega, rfl, by omega, fun _ _ => rfl⟩
  | succ k ih =>
      cases f with
      | zero => omega
      | succ f =>
          refine (hW.top v).bind ?_
          unfold pageUp at hk
          rw [hu, if_pos (by omega)]
          refine (hW.grow v hlow (by unfold heapEnd; omega) (by omega)).bind ?_
          rintro _ w ⟨ht, hst, hav', hm⟩
          refine (ih (v := w) (f := f) (by omega) (by omega) (by unfold pageUp; omega) (by omega)
            (by omega)).mono ?_
          rintro _ u ⟨hut, hust, huav, hum⟩
          refine ⟨?_, hust.trans hst, by omega, ?_⟩
          · unfold pageUp at hut ⊢
            omega
          · intro x hx
            rw [hum x (by omega), hm x hx]

/-- The last part of `kmalloc`: a chunk of `n` bytes is put behind the others. -/
theorem total_appendChunk {v : View} {n k : Nat} {cs : List Chunk}
    (hs : Seg v.mem 0 0 heapStart cs) (hz : Sized cs)
    (htop : v.top = pageUp (heapStart + total cs)) (hn : headerSize ≤ n)
    (hfit : heapStart + total cs + n ≤ heapEnd)
    (hk : k = (pageUp (heapStart + total cs + n) - v.top) / 4096) (hav : 2 * k ≤ v.avail) :
    Total A v (appendChunk W (lastAddr 0 heapStart cs) (heapStart + total cs) n) fun p w =>
      p = heapStart + total cs + 12 ∧ w.top = pageUp (heapStart + total cs + n) ∧
      w.start = v.start ∧ v.avail ≤ w.avail + 2 * k ∧
      Seg w.mem 0 0 heapStart (cs ++ [⟨n, false⟩]) ∧
      ∀ x, x < v.top → ¬ InHeader heapStart (cs ++ [⟨n, false⟩]) x → w.mem x = v.mem x := by
  have hlow : heapStart ≤ v.top := by rw [htop, pageUp]; omega
  have hpage : v.top % 4096 = 0 := by rw [htop, pageUp]; omega
  unfold headerSize at hn
  have hst : heapStart = 0xD0000000 := rfl
  have hen : heapEnd = 0xFFBFF000 := rfl
  have hf : k < 1048577 := by rw [hk, pageUp]; omega
  refine (total_allocChunk hW hfit hlow hpage hk hav hf).bind ?_
  rintro - v₀ ⟨ht₀, hst₀, hav₀, hm₀⟩
  have ht₀ : v₀.top = pageUp (heapStart + total cs + n) := by
    rw [ht₀, htop, pageUp, pageUp]
    omega
  have htop_le : v₀.top ≤ heapEnd := by rw [ht₀, pageUp]; omega
  have hend₀ : heapStart + total cs + n ≤ v₀.top := by rw [ht₀, pageUp]; omega
  have hs₀ : Seg v₀.mem 0 0 heapStart cs :=
    hs.agree hz (by rw [htop, pageUp]; omega) (by rw [htop, pageUp]; omega) hm₀
  have iw : InWindow v₀ (heapStart + total cs) := ⟨by omega, by omega, htop_le⟩
  obtain ⟨p, q, g, hg, hglen⟩ := exists_node v₀.mem (heapStart + total cs)
  have hlast : lastAddr 0 heapStart cs ≤ heapStart + total cs := by
    rcases cs.eq_nil_or_concat with rfl | ⟨l, c, rfl⟩
    · simp [lastAddr]
    · simp [lastAddr_append, lastAddr]
  refine (gives_setPrev hW iw _).bind_eq fun v₁ h₁ => ?_
  refine (gives_setNext hW (iw.wrote h₁) 0).bind_eq fun v₂ h₂ => ?_
  have hg₂ := (hg.wrote_prev h₁ (by omega) (by omega)).wrote_next h₂ (by omega) (by omega)
  refine (gives_setFree hW hg₂ ((iw.wrote h₁).wrote h₂) false).bind_eq fun v₃ h₃ => ?_
  have hg₃ := hg₂.wrote_word h₃ (by omega) hglen
  refine (gives_setLen hW hg₃ (((iw.wrote h₁).wrote h₂).wrote h₃) (by omega)).bind_eq
    fun v₄ h₄ => ?_
  have hg₄ := hg₃.wrote_word h₄ (by omega) (by omega)
  have hs₄ := (((hs₀.wrote h₁ hz (by omega) (by omega)).wrote h₂ hz (by omega) (by omega)).wrote h₃
    hz (by omega) (by omega)).wrote h₄ hz (by omega) (by omega)
  have hkept : ∀ x, x < v.top → ¬ (heapStart + total cs ≤ x ∧ x < heapStart + total cs + 12) →
      v₄.mem x = v.mem x := by
    intro x hx hxe
    rw [wrote_apply h₄ (by omega) (by omega), wrote_apply h₃ (by omega) (by omega),
      wrote_apply h₂ (by omega) (by omega), wrote_apply h₁ (by omega) (by omega), hm₀ x hx]
  have hret : u32 (heapStart + total cs + 12) = heapStart + total cs + 12 :=
    u32_eq_self (by omega)
  have ht₄ : v₄.top = v₀.top ∧ v₄.start = v₀.start ∧ v₄.avail = v₀.avail := by
    subst h₁ h₂ h₃ h₄
    exact ⟨rfl, rfl, rfl⟩
  rw [hret]
  rcases cs.eq_nil_or_concat with rfl | ⟨l, c, rfl⟩
  · -- The first chunk of the heap.
    rw [if_neg (by simp [lastAddr])]
    refine (gives_pure _).mono ?_
    rintro p w ⟨hp, hw⟩
    rw [hw]
    refine ⟨hp, by rw [ht₄.1, ht₀], by rw [ht₄.2.1, hst₀], by rw [ht₄.2.2]; exact hav₀,
      seg_singleton.2 hg₄, ?_⟩
    intro x hx hnh
    exact hkept x hx fun h => hnh (Or.inl h)
  · -- The chunk before gets its forward link.
    have hprev : lastAddr 0 heapStart (l.concat c) = heapStart + total l := by
      simp [lastAddr_append, lastAddr]
    rw [hprev] at hg₄ ⊢
    rw [List.concat_eq_append] at *
    have hz' := (sized_cons.1 (sized_append.1 hz).2).1
    unfold headerSize at hz'
    simp only [total_append, total_cons, total_nil, Nat.add_zero] at hend₀ hfit ht₀ hg₄ hkept hs₄ ⊢
    have iw₄ : InWindow v₄ (heapStart + total l) := ⟨by omega, by omega, by omega⟩
    rw [if_pos (by omega)]
    refine (gives_setNext hW iw₄ _).bind_eq fun w hw => ?_
    refine (gives_pure _).mono ?_
    rintro p w' ⟨hp, hw'⟩
    rw [hw']
    refine ⟨hp, ?_, ?_, ?_, ?_, ?_⟩
    · rw [hw, View.store_top, ht₄.1, ht₀]
    · rw [hw, View.store_start, ht₄.2.1, hst₀]
    · rw [hw, View.store_avail, ht₄.2.2]
      exact hav₀
    · refine seg_append.2 ⟨?_, ?_⟩
      · have hnext : nextOf (heapStart + total (l ++ [c])) 0 [(⟨n, false⟩ : Chunk)] =
            heapStart + (total l + c.len) := by simp [nextOf]
        rw [hnext, hw]
        exact hs₄.store_next hz (by simp; omega) (by omega)
      · rw [seg_singleton, lastAddr_append]
        simp only [lastAddr, total_append, total_cons, total_nil, Nat.add_zero]
        exact hg₄.wrote hw (by omega) (by omega)
    · intro x hx hnh
      simp only [inHeader_append, InHeader, total_append, total_cons, total_nil, Nat.add_zero,
        or_false, not_or] at hnh
      rw [wrote_apply hw (by omega) (by omega), hkept x hx (by omega)]

omit hW

/-- What becomes of a free chunk from which `n` bytes are taken. -/
def cut (n : Nat) (c : Chunk) : List Chunk :=
  if c.len - n ≤ headerSize then [⟨c.len, false⟩] else [⟨n, false⟩, ⟨c.len - n, true⟩]

/-- The search finds the chunk that `malloc` cuts, or there is none. -/
theorem malloc_cases (n prev a : Nat) (cs : List Chunk) :
    (∃ l c r, cs = l ++ c :: r ∧ c.free = true ∧ n ≤ c.len ∧
      find n prev a cs = (a + total l, lastAddr prev a l) ∧
      malloc n cs = l ++ (cut n c ++ r) ∧ mallocAt n cs = total l) ∨
    (find n prev a cs = (0, lastAddr prev a cs) ∧ malloc n cs = cs ++ [⟨n, false⟩] ∧
      mallocAt n cs = total cs ∧ ∀ c ∈ cs, ¬ (c.free = true ∧ n ≤ c.len)) := by
  induction cs generalizing prev a with
  | nil => exact Or.inr ⟨rfl, rfl, rfl, by simp⟩
  | cons c cs ih =>
      by_cases hc : c.free = true ∧ n ≤ c.len
      · refine Or.inl ⟨[], c, cs, rfl, hc.1, hc.2, ?_, ?_, ?_⟩
        · simp [find, hc, lastAddr]
        · by_cases hs : c.len - n ≤ headerSize <;> simp [malloc, hc, cut, hs]
        · simp [mallocAt, hc]
      · rcases ih a (a + c.len) with ⟨l, d, r, rfl, hd, hle, hf, hm, hat⟩ | ⟨hf, hm, hat, hno⟩
        · refine Or.inl ⟨c :: l, d, r, rfl, hd, hle, ?_, ?_, ?_⟩
          · simp [find, hc, hf, lastAddr, Nat.add_assoc]
          · simp [malloc, hc, hm]
          · simp [mallocAt, hc, hat]
        · refine Or.inr ⟨?_, ?_, ?_, List.forall_mem_cons.2 ⟨hc, hno⟩⟩
          · simp [find, hc, hf, lastAddr]
          · simp [malloc, hc, hm]
          · simp [mallocAt, hc, hat]

theorem total_cut {n : Nat} {c : Chunk} (h : n ≤ c.len) : total (cut n c) = c.len := by
  unfold cut
  split
  · simp
  · simp
    omega

theorem nextOf_cut (a nxt n : Nat) (c : Chunk) (r : List Chunk) :
    nextOf a nxt (cut n c ++ r) = a := by
  unfold cut
  split <;> rfl

theorem length_le_total {cs : List Chunk} (h : Sized cs) : 12 * cs.length ≤ total cs := by
  induction cs with
  | nil => simp
  | cons c cs ih =>
      obtain ⟨hc, hcs⟩ := sized_cons.1 h
      unfold headerSize at hc
      have := ih hcs
      simp only [List.length_cons, total_cons]
      omega

include hW

/-- A chunk the search has found is cut. -/
theorem total_cutChunk {v : View} {n prev a : Nat} {c d : Chunk} {r : List Chunk}
    (hs : Seg v.mem 0 prev a (c :: d :: r)) (hz : Sized (d :: r)) (ha : heapStart ≤ a)
    (htop : a + total (c :: d :: r) ≤ v.top) (hend : v.top ≤ heapEnd) (hn : headerSize ≤ n)
    (hle : n ≤ c.len) :
    Total A v (do splitChunk W a n; setFree W a 0; return u32 (a + 12)) fun p w =>
      p = a + 12 ∧ w.top = v.top ∧ w.start = v.start ∧ w.avail = v.avail ∧
      Seg w.mem 0 prev a (cut n c ++ d :: r) ∧
      ∀ x, ¬ InHeader a (cut n c ++ d :: r) x → w.mem x = v.mem x := by
  obtain ⟨hnode, hseg⟩ := hs
  have hd := (sized_cons.1 hz).1
  have hst : heapStart = 0xD0000000 := rfl
  have hen : heapEnd = 0xFFBFF000 := rfl
  simp only [headerSize, total_cons] at hn hd htop
  by_cases hsmall : c.len - n ≤ headerSize
  · have iw : InWindow v a := ⟨ha, by omega, hend⟩
    refine (gives_take hW hnode iw hle hsmall).mono ?_
    rintro p w ⟨hp, hw⟩
    simp only [cut, if_pos hsmall, List.cons_append, List.nil_append]
    refine ⟨hp, by rw [hw]; rfl, by rw [hw]; rfl, by rw [hw]; rfl, ⟨?_, ?_⟩, ?_⟩
    · exact hnode.wrote_word hw (by omega) (by omega)
    · exact hseg.wrote hw hz (by simp only [total_cons]; omega) (by simp only; omega)
    · intro x hx
      simp only [InHeader, not_or] at hx
      exact wrote_apply hw (by omega) (by omega)
  · have hbig : n + headerSize < c.len := by omega
    refine (total_splitChunk hW hnode hseg hz ha (by simp only [total_cons]; omega) hend hn
      hbig).mono ?_
    rintro p w ⟨hp, ht, hstart, hav, hna, hnb, hsd, hfr⟩
    have hadd : a + n + (c.len - n) = a + c.len := by omega
    simp only [cut, if_neg hsmall, List.cons_append, List.nil_append, Seg, nextOf, hadd]
    refine ⟨hp, ht, hstart, hav, ⟨hna, hnb, hsd⟩, ?_⟩
    · intro x hx
      simp only [InHeader, hadd, not_or] at hx
      exact hfr x hx.1 hx.2.1 hx.2.2.1

/-- `kmalloc` turns the layout `cs` into `malloc (n + 12) cs` and returns the
address behind the header of the chunk it took. The heap is not extended beyond
`HEAP_END`, and there are pages for the extension. -/
theorem total_kmalloc {v : View} {n k : Nat} {cs : List Chunk} (h : Holds v cs)
    (hn : n + 12 < 4294967296)
    (hroom : (∃ c ∈ cs, c.free = true ∧ n + 12 ≤ c.len) ∨
      heapStart + total cs + (n + 12) ≤ heapEnd)
    (hk : k = (pageUp (heapStart + total (malloc (n + 12) cs)) - v.top) / 4096)
    (hav : 2 * k ≤ v.avail) :
    Total A v (kmalloc W n) fun p w =>
      p = heapStart + mallocAt (n + 12) cs + 12 ∧ Holds w (malloc (n + 12) cs) ∧
      v.avail ≤ w.avail + 2 * k ∧
      ∀ x, x < v.top → ¬ InHeader heapStart (malloc (n + 12) cs) x → w.mem x = v.mem x := by
  have hle := h.le_top
  have hend := h.top_le
  have hst : heapStart = 0xD0000000 := rfl
  have hen : heapEnd = 0xFFBFF000 := rfl
  have hlen := length_le_total h.sized
  have hu : u32 (n + 12) = n + 12 := u32_eq_self hn
  have hsz : headerSize ≤ n + 12 := by unfold headerSize; omega
  unfold kmalloc
  simp only [hu]
  refine (hW.start v).bind ?_
  rw [h.start]
  refine (gives_findChunk hW h.seg h.sized (Nat.le_refl _) hle hend (by omega)).bind ?_
  rcases malloc_cases (n + 12) 0 heapStart cs with
    ⟨l, c, r, rfl, hfree, hfit, hfind, hm, hat⟩ | ⟨hfind, hm, hat, hno⟩
  · -- A free chunk is never the last one.
    obtain ⟨d, r, rfl⟩ : ∃ d r', r = d :: r' := by
      have hu := h.tidy.of_append.1 hfree
      cases r with
      | nil => simp [headUsed] at hu
      | cons d r => exact ⟨d, r, rfl⟩
    have htidy := tidy_malloc (n := n + 12) h.tidy
    have hsized := sized_malloc hsz h.sized
    rw [hm] at hk htidy hsized
    rw [hfind, hm, hat]
    obtain ⟨hsl, hsc⟩ := seg_append.1 h.seg
    obtain ⟨hzl, hzc⟩ := sized_append.1 h.sized
    have hzd := (sized_cons.1 hzc).2
    have htot : total (l ++ (cut (n + 12) c ++ d :: r)) = total (l ++ c :: d :: r) := by
      simp only [total_append, total_cut hfit, total_cons]
    rw [htot] at hk
    simp only [total_append] at hle
    rw [if_pos (by simp only; omega)]
    refine (total_cutChunk hW hsc hzd (by omega) (by omega) hend hsz hfit).mono ?_
    rintro p w ⟨hp, ht, hstart, havw, hseg, hfr⟩
    refine ⟨hp, ⟨?_, ?_, hsized, htidy, ?_, ?_⟩, by omega, ?_⟩
    · rw [hstart, h.start]
      cases l with
      | nil => exact (nextOf_cut heapStart 0 (n + 12) c (d :: r)).symm
      | cons e l => rfl
    · refine seg_append.2 ⟨?_, hseg⟩
      rw [nextOf_cut]
      refine hsl.congr hzl (by omega) fun x _ hx => hfr x fun hh => ?_
      have := le_of_inHeader hh
      omega
    · rw [ht, h.top, htot]
    · rw [htot]
      exact h.fits
    · intro x hx hnh
      exact hfr x fun hh => hnh (inHeader_append.2 (Or.inr hh))
  · have hfit : heapStart + total cs + (n + 12) ≤ heapEnd := by
      refine hroom.resolve_left ?_
      rintro ⟨c, hc, hcf⟩
      exact hno c hc hcf
    have htidy := tidy_malloc (n := n + 12) h.tidy
    have hsized := sized_malloc hsz h.sized
    rw [hm] at hk htidy hsized
    rw [hfind, hm, hat]
    rw [if_neg (by simp)]
    simp only [total_append, total_cons, total_nil, Nat.add_zero, ← Nat.add_assoc] at hk
    -- The view in which `heap_start` is set.
    have happend : Total A { v with start := heapStart }
        (appendChunk W (lastAddr 0 heapStart cs) (heapStart + total cs) (n + 12)) fun p w =>
        p = heapStart + total cs + 12 ∧ Holds w (cs ++ [⟨n + 12, false⟩]) ∧
        v.avail ≤ w.avail + 2 * k ∧ ∀ x, x < v.top →
          ¬ InHeader heapStart (cs ++ [⟨n + 12, false⟩]) x → w.mem x = v.mem x := by
      refine (total_appendChunk hW (v := { v with start := heapStart }) h.seg h.sized h.top hsz hfit
        (by rw [hk, Nat.add_assoc]) hav).mono ?_
      rintro p w ⟨hp, ht, hstart, havw, hseg, hfr⟩
      refine ⟨hp, ⟨?_, hseg, hsized, htidy, ?_, ?_⟩, havw, hfr⟩
      · rw [hstart]
        cases cs <;> rfl
      · rw [ht]
        simp [Nat.add_assoc]
      · simpa [Nat.add_assoc] using hfit
    rcases cs.eq_nil_or_concat with rfl | ⟨l, c, rfl⟩
    · rw [if_neg (by simp [lastAddr])]
      exact (hW.setStart v heapStart).bind happend
    · rw [List.concat_eq_append] at *
      have hv : ({ v with start := heapStart } : View) = v := by
        have hs := h.start
        have : nextOf heapStart 0 (l ++ [c]) = heapStart := by cases l <;> rfl
        rw [this] at hs
        rw [← hs]
      have hlast : lastAddr 0 heapStart (l ++ [c]) = heapStart + total l := by
        simp [lastAddr_append, lastAddr]
      have hnode := seg_singleton.1 (seg_append.1 h.seg).2
      have hc := (sized_cons.1 (sized_append.1 h.sized).2).1
      unfold headerSize at hc
      simp only [total_append, total_cons, total_nil, Nat.add_zero, ← Nat.add_assoc] at hle happend ⊢
      rw [hv, hlast] at happend
      rw [hlast, if_pos (by omega)]
      refine (gives_getLen hW hnode ⟨by omega, by omega, hend⟩).bind ?_
      rw [u32_eq_self (by omega)]
      exact happend

end

end Heap

end Chunix
