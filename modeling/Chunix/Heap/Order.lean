import Chunix.Heap.Client

/-!
# Freeing in any order

`kfree` merges what it frees with its neighbours at once. The layout it leaves is
still the one that comes from marking all the freed chunks in the original layout
and normalizing once, so it does not depend on the order in which they are freed.
For the same reason a chunk that is freed right after it was asked for leaves no
trace. `Snapshot` is the heap as a reader finds it: the list of headers from
`heap_start` on and the two fields of the task.
-/

namespace Chunix

namespace Heap

open Machine Act

/-- A chunk in use starts at the offset `o`. -/
def UsedOffset (o : Nat) (cs : List Chunk) : Prop := ∃ len, (o, len) ∈ usedAt 0 cs

/-- The chunks at the given offsets marked free, in a layout that starts at `a`. -/
def markAll (os : List Nat) : Nat → List Chunk → List Chunk
  | _, [] => []
  | a, c :: cs => (if a ∈ os then ⟨c.len, true⟩ else c) :: markAll os (a + c.len) cs

section

variable {a b o : Nat} {c d : Chunk} {cs : List Chunk} {os : List Nat}

theorem mem_usedAt_iff {len : Nat} : (o, len) ∈ usedAt a cs ↔ a ≤ o ∧ (o - a, len) ∈ usedAt 0 cs := by
  induction cs generalizing a o with
  | nil => simp [usedAt]
  | cons c cs ih =>
      rw [usedAt, usedAt, List.mem_append, List.mem_append, ih, Nat.zero_add,
        ih (a := c.len) (o := o - a), Nat.sub_sub]
      by_cases hf : c.free = true
      · simp only [hf, if_true, List.not_mem_nil, false_or]
        constructor
        · rintro ⟨hle, hmem⟩
          exact ⟨by omega, by omega, hmem⟩
        · rintro ⟨hle, hle', hmem⟩
          exact ⟨by omega, hmem⟩
      · simp only [hf, Bool.false_eq_true, if_false, List.mem_singleton, Prod.mk.injEq]
        constructor
        · rintro (⟨ho, hlen⟩ | ⟨hle, hmem⟩)
          · exact ⟨by omega, Or.inl ⟨by omega, hlen⟩⟩
          · exact ⟨by omega, Or.inr ⟨by omega, hmem⟩⟩
        · rintro ⟨hle, ⟨ho, hlen⟩ | ⟨hle', hmem⟩⟩
          · exact Or.inl ⟨by omega, hlen⟩
          · exact Or.inr ⟨by omega, hmem⟩

theorem usedOffset_cons : UsedOffset o (c :: cs) ↔
    (o = 0 ∧ c.free = false) ∨ (c.len ≤ o ∧ UsedOffset (o - c.len) cs) := by
  have hcons : ∀ len, (o, len) ∈ usedAt 0 (c :: cs) ↔
      (o = 0 ∧ len = c.len ∧ c.free = false) ∨ (c.len ≤ o ∧ (o - c.len, len) ∈ usedAt 0 cs) := by
    intro len
    rw [usedAt, List.mem_append, Nat.zero_add, mem_usedAt_iff]
    by_cases hf : c.free = true
    · simp [hf]
    · simp [hf]
  constructor
  · rintro ⟨len, hmem⟩
    rcases (hcons len).1 hmem with ⟨ho, -, hf⟩ | ⟨hle, hmem⟩
    · exact Or.inl ⟨ho, hf⟩
    · exact Or.inr ⟨hle, len, hmem⟩
  · rintro (⟨ho, hf⟩ | ⟨hle, len, hmem⟩)
    · exact ⟨c.len, (hcons _).2 (Or.inl ⟨ho, rfl, hf⟩)⟩
    · exact ⟨len, (hcons len).2 (Or.inr ⟨hle, hmem⟩)⟩

theorem usedOffset_normalize : UsedOffset o (normalize cs) ↔ UsedOffset o cs := by
  rw [UsedOffset, UsedOffset, usedAt_normalize]

theorem not_usedOffset_nil : ¬ UsedOffset o [] := by
  rintro ⟨len, hmem⟩
  simp [usedAt] at hmem

/-- Merging is associative. -/
theorem merge_merge (hc : c.free = true) (hd : d.free = true) (cs : List Chunk) :
    merge c (merge d cs) = merge ⟨c.len + d.len, true⟩ cs := by
  cases cs with
  | nil => simp [merge, hc, hd]
  | cons e r =>
      by_cases he : e.free = true
      · simp [merge, hc, hd, he, Nat.add_assoc]
      · simp [merge, hc, hd, he]

theorem markFree_of_ne (ho : o ≠ 0) : markFree o (c :: cs) = c :: markFree (o - c.len) cs := by
  rw [markFree, if_neg ho]

/-- Marking a chunk in use and merging a chunk in front of it commute. -/
theorem normalize_markFree_merge (hc : headerSize ≤ c.len) (hs : Sized cs) (hle : c.len ≤ o)
    (hu : UsedOffset (o - c.len) cs) :
    normalize (markFree o (merge c cs)) = merge c (normalize (markFree (o - c.len) cs)) := by
  unfold headerSize at hc
  have ho : o ≠ 0 := by omega
  cases cs with
  | nil => exact absurd hu not_usedOffset_nil
  | cons d r =>
      by_cases hboth : c.free = true ∧ d.free = true
      · obtain ⟨hf, hd⟩ := hboth
        have hdlen : headerSize ≤ d.len := (sized_cons.1 hs).1
        unfold headerSize at hdlen
        -- the chunk that is marked lies behind the two that are merged
        have hle' : d.len ≤ o - c.len := by
          rcases usedOffset_cons.1 hu with ⟨-, hd'⟩ | ⟨hle', -⟩
          · rw [hd] at hd'
            cases hd'
          · exact hle'
        have hmerge : merge c (d :: r) = ⟨c.len + d.len, true⟩ :: r := by simp [merge, hf, hd]
        rw [hmerge, markFree_of_ne ho, markFree_of_ne (by omega), normalize_cons, normalize_cons,
          merge_merge hf hd, Nat.sub_sub]
      · have hmerge : merge c (d :: r) = c :: d :: r := by
          by_cases hf : c.free = true
          · have hd : d.free = false := by simpa using fun hd => hboth ⟨hf, hd⟩
            exact merge_of_headUsed (by simp [headUsed, hd])
          · exact merge_of_used _ (by simpa using hf)
        rw [hmerge, markFree_of_ne ho, normalize_cons]

/-- A chunk in use can be marked before or after the layout is normalized. -/
theorem normalize_markFree_normalize (hs : Sized cs) (hu : UsedOffset o cs) :
    normalize (markFree o (normalize cs)) = normalize (markFree o cs) := by
  induction cs generalizing o with
  | nil => rfl
  | cons c cs ih =>
      obtain ⟨hc, hcs⟩ := sized_cons.1 hs
      rcases usedOffset_cons.1 hu with ⟨rfl, hf⟩ | ⟨hle, hu⟩
      · rw [normalize_cons, merge_of_used _ hf, markFree, markFree, if_pos rfl, if_pos rfl,
          normalize_cons, normalize_cons, normalize_of_tidy (tidy_normalize cs)]
      · have ho : o ≠ 0 := by
          unfold headerSize at hc
          omega
        rw [normalize_cons, normalize_markFree_merge hc (sized_normalize hcs) hle
          (usedOffset_normalize.2 hu), ih hcs hu, markFree_of_ne ho, normalize_cons]

theorem markAll_nil (a : Nat) (cs : List Chunk) : markAll [] a cs = cs := by
  induction cs generalizing a with
  | nil => rfl
  | cons c cs ih => simp [markAll, ih]

theorem markAll_congr {os' : List Nat} (h : ∀ o, o ∈ os ↔ o ∈ os') (a : Nat) (cs : List Chunk) :
    markAll os a cs = markAll os' a cs := by
  induction cs generalizing a with
  | nil => rfl
  | cons c cs ih =>
      rw [markAll, markAll, ih]
      simp only [h a]

theorem sized_markAll (hs : Sized cs) : Sized (markAll os a cs) := by
  induction cs generalizing a with
  | nil => exact hs
  | cons c cs ih =>
      obtain ⟨hc, hcs⟩ := sized_cons.1 hs
      refine sized_cons.2 ⟨?_, ih hcs⟩
      split_ifs
      · exact hc
      · exact hc

/-- The chunks in use that are not marked stay in use. -/
theorem usedOffset_markAll (ho : a + o ∉ os) (hu : UsedOffset o cs) :
    UsedOffset o (markAll os a cs) := by
  induction cs generalizing a o with
  | nil => exact hu
  | cons c cs ih =>
      rw [markAll, usedOffset_cons]
      rcases usedOffset_cons.1 hu with ⟨rfl, hf⟩ | ⟨hle, hu⟩
      · rw [Nat.add_zero] at ho
        exact Or.inl ⟨rfl, by rw [if_neg ho, hf]⟩
      · have hlen : (if a ∈ os then (⟨c.len, true⟩ : Chunk) else c).len = c.len := by
          split_ifs
          · rfl
          · rfl
        rw [hlen]
        refine Or.inr ⟨hle, ih ?_ hu⟩
        rwa [show a + c.len + (o - c.len) = a + o by omega]

/-- One more chunk is marked. -/
theorem markFree_markAll (hs : Sized cs) (hu : UsedOffset o cs) :
    markFree o (markAll os a cs) = markAll ((a + o) :: os) a cs := by
  induction cs generalizing a o with
  | nil => exact absurd hu not_usedOffset_nil
  | cons c cs ih =>
      obtain ⟨hc, hcs⟩ := sized_cons.1 hs
      unfold headerSize at hc
      have hlen : (if a ∈ os then (⟨c.len, true⟩ : Chunk) else c).len = c.len := by
        split_ifs
        · rfl
        · rfl
      rcases usedOffset_cons.1 hu with ⟨rfl, -⟩ | ⟨hle, hu⟩
      · -- behind the first chunk there is no chunk at its address
        have hrest : ∀ {cs : List Chunk} {b : Nat}, a < b → markAll os b cs = markAll (a :: os) b cs := by
          intro cs
          induction cs with
          | nil => exact fun _ => rfl
          | cons c cs ih =>
              intro b hb
              have hmem : b ∈ a :: os ↔ b ∈ os := by
                rw [List.mem_cons]
                exact or_iff_right (by omega)
              rw [markAll, markAll, ih (by omega)]
              simp only [hmem]
        rw [Nat.add_zero, markAll, markAll, markFree, if_pos rfl, hlen, if_pos List.mem_cons_self,
          hrest (by omega)]
      · have hmem : a ∈ (a + o) :: os ↔ a ∈ os := by
          rw [List.mem_cons]
          exact or_iff_right (by omega)
        rw [markAll, markAll, markFree_of_ne (by omega), hlen, ih hcs hu,
          show a + c.len + (o - c.len) = a + o by omega]
        simp only [hmem]

/-- Freeing one more chunk. -/
theorem release_markAll (hs : Sized cs) (hu : UsedOffset o cs) (ho : o ∉ os) :
    release o (normalize (markAll os 0 cs)) = normalize (markAll (o :: os) 0 cs) := by
  have hu' : UsedOffset o (markAll os 0 cs) := usedOffset_markAll (by rwa [Nat.zero_add]) hu
  rw [release, normalize_markFree_normalize (sized_markAll hs) hu', markFree_markAll hs hu,
    Nat.zero_add]

theorem total_malloc_le (n : Nat) (cs : List Chunk) : total (malloc n cs) ≤ total cs + n := by
  induction cs with
  | nil => simp [malloc]
  | cons c cs ih =>
      rw [malloc]
      split_ifs with hfit hcut
      · simp only [total_cons]
        omega
      · simp only [total_cons]
        omega
      · simp only [total_cons]
        omega

/-- A chunk that is asked for and freed at once leaves the layout as it was. -/
theorem release_malloc {n : Nat} (hs : Sized cs) (ht : Tidy cs) :
    release (mallocAt n cs) (malloc n cs) = cs := by
  induction cs with
  | nil => simp [malloc, mallocAt, release, markFree, normalize, merge]
  | cons c cs ih =>
      obtain ⟨hc, hcs⟩ := sized_cons.1 hs
      unfold headerSize at hc
      rw [malloc, mallocAt]
      by_cases hfit : c.free = true ∧ n ≤ c.len
      · rw [if_pos hfit, if_pos hfit]
        have hself : (⟨c.len, true⟩ : Chunk) = c := by rw [← hfit.1]
        by_cases hcut : c.len - n ≤ headerSize
        · rw [if_pos hcut, release, markFree, if_pos rfl, hself, normalize_of_tidy ht]
        · rw [if_neg hcut, release, markFree, if_pos rfl, normalize_cons, normalize_cons,
            normalize_of_tidy ht.2, merge_merge rfl rfl]
          simp only
          rw [show n + (c.len - n) = c.len by omega, hself, merge_of_tidy ht]
      · rw [if_neg hfit, if_neg hfit, release, markFree_of_ne (by omega), Nat.add_sub_cancel_left,
          normalize_cons]
        have hih : normalize (markFree (mallocAt n cs) (malloc n cs)) = cs := ih hcs ht.2
        rw [hih, merge_of_tidy ht]

end

/-- A header as it is read from memory, with its address. -/
structure Head where
  addr : Nat
  prev : Nat
  next : Nat
  len : Nat
  free : Nat
deriving DecidableEq, Repr

/-- The header at an address. -/
def headAt (m : Memory) (a : Nat) : Head :=
  ⟨a, load32 m a, load32 m (a + 4), load32 m (a + 8) / 2, load32 m (a + 8) % 2⟩

/-- The headers met from the address `a` on along the links `next`, at most `f` of
them. -/
def headsFrom (m : Memory) : Nat → Nat → List Head
  | 0, _ => []
  | f + 1, a => if a = 0 then [] else headAt m a :: headsFrom m f (load32 m (a + 4))

/-- A heap as a reader finds it. -/
structure Snapshot where
  heads : List Head
  start : Nat
  top : Nat
deriving DecidableEq, Repr

/-- The list of chunks, `heap_start` and `heap_top`. A heap has fewer headers than
bytes. -/
def View.snapshot (v : View) : Snapshot :=
  ⟨headsFrom v.mem (v.top - heapStart) v.start, v.start, v.top⟩

/-- The headers of a layout. -/
def headsOf : Nat → Nat → List Chunk → List Head
  | _, _, [] => []
  | prev, a, c :: cs =>
      ⟨a, prev, nextOf (a + c.len) 0 cs, c.len, c.free.toNat⟩ :: headsOf a (a + c.len) cs

theorem headAt_node {m : Memory} {a prev next : Nat} {c : Chunk} (h : Node m a prev next c) :
    headAt m a = ⟨a, prev, next, c.len, c.free.toNat⟩ := by
  have hbit : c.free.toNat < 2 := by cases c.free <;> decide
  have hlen : (2 * c.len + c.free.toNat) / 2 = c.len := by omega
  have hfree : (2 * c.len + c.free.toNat) % 2 = c.free.toNat := by omega
  rw [headAt, h.prev, h.next, h.word, hlen, hfree]

theorem headsFrom_seg {m : Memory} {prev a f : Nat} {cs : List Chunk} (h : Seg m 0 prev a cs)
    (ha : 0 < a) (hf : cs.length ≤ f) : headsFrom m f (nextOf a 0 cs) = headsOf prev a cs := by
  induction cs generalizing prev a f with
  | nil =>
      cases f with
      | zero => rfl
      | succ f => rw [nextOf, headsFrom, if_pos rfl, headsOf]
  | cons c cs ih =>
      obtain ⟨hnode, hseg⟩ := h
      cases f with
      | zero => simp at hf
      | succ f =>
          rw [nextOf, headsFrom, if_neg (by omega), headAt_node hnode, hnode.next, headsOf,
            ih hseg (by omega) (by simpa using hf)]

/-- The heap is read back from its layout alone. -/
theorem Holds.snapshot {v : View} {cs : List Chunk} (h : Holds v cs) :
    v.snapshot = ⟨headsOf 0 heapStart cs, nextOf heapStart 0 cs, pageUp (heapStart + total cs)⟩ := by
  have hlen := length_le_total h.sized
  have hle := h.le_top
  rw [View.snapshot, h.start, headsFrom_seg h.seg (by decide) (by omega), h.top]

/-- The blocks are given back one after the other. -/
def kfreeAll {σ : Type} (W : Window σ) : List Nat → Act σ Unit
  | [] => pure ()
  | p :: ps => do
      kfree W p
      kfreeAll W ps

/-- The offset of the chunk of a block. -/
def Block.offset (b : Block) : Nat := b.ptr - heapStart - 12

section

variable {σ : Type} {W : Window σ} {A : Abstraction σ View} (hW : Lawful W A) {s : σ}
  {live : List Block} {cs : List Chunk}

theorem Backed.usedOffset {b : Block} (h : Backed cs b) :
    b.ptr = heapStart + b.offset + 12 ∧ UsedOffset b.offset cs := by
  obtain ⟨⟨a, len⟩, hc, hp, -⟩ := h
  obtain ⟨hle, hmem⟩ := mem_usedAt_iff.1 hc
  have hoff : b.offset = a - heapStart := by
    unfold Block.offset
    omega
  refine ⟨by omega, len, ?_⟩
  rwa [hoff]

include hW

/-- The layout after some more blocks have been given back: all their chunks are
marked in the first layout. -/
theorem Inv.kfreeAll {bs : List Block} {os : List Nat} (hs : Sized cs)
    (h : Inv A ⟨s, live⟩ (normalize (markAll os 0 cs))) (hnd : bs.Nodup)
    (hbs : ∀ b ∈ bs, b ∈ live ∧ Backed cs b ∧ b.offset ∉ os) :
    ∃ s', Heap.kfreeAll W (bs.map Block.ptr) s = .ok ((), s') ∧ ∃ os',
      Holds (A.view s') (normalize (markAll os' 0 cs)) ∧
        ∀ o, o ∈ os' ↔ o ∈ os ∨ ∃ b ∈ bs, b.offset = o := by
  induction bs generalizing s live os with
  | nil => exact ⟨s, rfl, os, h.holds, by simp⟩
  | cons b bs ih =>
      obtain ⟨hb, hback, hos⟩ := hbs b List.mem_cons_self
      obtain ⟨hptr, hused⟩ := hback.usedOffset
      obtain ⟨hbnd, hnd⟩ := List.nodup_cons.1 hnd
      obtain ⟨_, -, ht⟩ := h.total_kfree hW hb
      obtain ⟨_, s₁, hk, -⟩ := ht s h.ok rfl
      obtain ⟨o, ho, h₁⟩ := h.kfree hW hb hk
      have hoff : o = b.offset := by omega
      rw [hoff, release_markAll hs hused hos] at h₁
      -- the other blocks are still held, at other pointers
      have hbs' : ∀ b' ∈ bs, b' ∈ live.erase b ∧ Backed cs b' ∧ b'.offset ∉ b.offset :: os := by
        intro b' hb'
        obtain ⟨hlive, hback', hos'⟩ := hbs b' (List.mem_cons_of_mem _ hb')
        have hne : b' ≠ b := fun he => hbnd (he ▸ hb')
        refine ⟨(List.mem_erase_of_ne hne).2 hlive, hback', ?_⟩
        rw [List.mem_cons, not_or]
        refine ⟨fun he => hne ?_, hos'⟩
        have hptr' := hback'.usedOffset.1
        exact List.inj_on_of_nodup_map h.nodup hlive hb (by omega)
      obtain ⟨s', hk', os', hholds, hmem⟩ := ih h₁ hnd hbs'
      refine ⟨s', ?_, os', hholds, fun o => ?_⟩
      · rw [List.map_cons, Heap.kfreeAll, Act.bind_of_ok hk]
        exact hk'
      · rw [hmem o, List.mem_cons, List.exists_mem_cons_iff, or_comm (a := o = b.offset), or_assoc,
          eq_comm]

/-- From the empty heap on, after every run whose requests find room and do not wrap
around, blocks that are given back in any two orders leave the same heap. -/
theorem kfree_order {c₀ c : Client σ} {es : List Call} (hok : A.ok c₀.state)
    (hempty : Empty (A.view c₀.state)) (hlive : c₀.live = []) (hr : Run (GoodStep W A) c₀ es c)
    {bs bs' : List Block} (hnd : bs.Nodup) (hbs : ∀ b ∈ bs, b ∈ c.live) (hperm : bs.Perm bs') :
    ∃ s s', Heap.kfreeAll W (bs.map Block.ptr) c.state = .ok ((), s) ∧
      Heap.kfreeAll W (bs'.map Block.ptr) c.state = .ok ((), s') ∧
      (A.view s).snapshot = (A.view s').snapshot := by
  obtain ⟨cs, h⟩ := inv_run hW hok hempty hlive hr
  have hstart : normalize (markAll [] 0 cs) = cs := by
    rw [markAll_nil, normalize_of_tidy h.holds.tidy]
  have h' : Inv A ⟨c.state, c.live⟩ (normalize (markAll [] 0 cs)) := by
    rw [hstart]
    exact h
  obtain ⟨s, hk, os, hholds, hos⟩ := h'.kfreeAll hW h.holds.sized hnd
    fun b hb => ⟨hbs b hb, h.backed b (hbs b hb), by simp⟩
  obtain ⟨s', hk', os', hholds', hos'⟩ := h'.kfreeAll hW h.holds.sized (hperm.nodup_iff.1 hnd)
    fun b hb => ⟨hbs b (hperm.mem_iff.2 hb), h.backed b (hbs b (hperm.mem_iff.2 hb)), by simp⟩
  have hmark : markAll os 0 cs = markAll os' 0 cs := by
    refine markAll_congr (fun o => ?_) 0 cs
    rw [hos o, hos' o]
    simp only [hperm.mem_iff]
  refine ⟨s, s', hk, hk', ?_⟩
  rw [hholds.snapshot, hholds'.snapshot, hmark]

end

/-- A flat heap of one page has room for a small request. -/
theorem flat_room {s : Flat} {n : Nat} (htop : s.top ≤ heapStart + 4096) (hn : u32 (n + 12) ≤ 4096) :
    Room (flatView.view s) n := by
  intro cs hcs
  have hst : heapStart = 0xD0000000 := rfl
  have hen : heapEnd = 0xFFBFF000 := rfl
  have hle : heapStart + total cs ≤ s.top := hcs.le_top
  have hmalloc := total_malloc_le (u32 (n + 12)) cs
  refine ⟨Or.inr (by omega), ?_⟩
  simp only [flatView, pageUp]
  omega

/-- A first block of the flat heap. -/
theorem flat_one_block : ∃ p s, GoodStep flat flatView flatEmpty (.kmalloc 20) ⟨s, [⟨p, 20⟩]⟩ ∧
    s.top ≤ heapStart + 4096 := by
  obtain ⟨p, s, hp, htop⟩ : ∃ p s, kmalloc flat 20 flatEmpty.state = .ok (p, s) ∧
      s.top ≤ heapStart + 4096 := ⟨_, _, rfl, by decide⟩
  refine ⟨p, s, ⟨⟨.kmalloc hp, ?_⟩, ?_⟩, htop⟩
  · rintro m ⟨⟩
    exact flat_room (by decide) (by decide)
  · rintro m ⟨⟩
    decide

/-- Two blocks of the flat heap. -/
theorem flat_two_blocks : ∃ c b b', Run (GoodStep flat flatView) flatEmpty [.kmalloc 20, .kmalloc 40] c ∧
    c.live = [b', b] ∧ b ≠ b' := by
  obtain ⟨p, s, hstep, htop⟩ := flat_one_block
  obtain ⟨cs, hi⟩ := inv_run flat_lawful flatEmpty_ok flatEmpty_empty rfl (.single hstep)
  have hroom : Room (flatView.view s) 40 := flat_room htop (by decide)
  obtain ⟨p', s', hp'⟩ := hi.kmalloc_returns flat_lawful hroom (by decide)
  have hstep' : GoodStep flat flatView ⟨s, [⟨p, 20⟩]⟩ (.kmalloc 40) ⟨s', [⟨p', 40⟩, ⟨p, 20⟩]⟩ :=
    ⟨⟨.kmalloc hp', by rintro m ⟨⟩; exact hroom⟩, by rintro m ⟨⟩; decide⟩
  exact ⟨_, ⟨p, 20⟩, ⟨p', 40⟩, .cons hstep (.single hstep'), rfl, by simp⟩

/-- The two blocks are given back in both orders. -/
theorem flat_kfree_order : ∃ c b b' s s',
    Run (GoodStep flat flatView) flatEmpty [.kmalloc 20, .kmalloc 40] c ∧ c.live = [b', b] ∧
      kfreeAll flat [b.ptr, b'.ptr] c.state = .ok ((), s) ∧
      kfreeAll flat [b'.ptr, b.ptr] c.state = .ok ((), s') ∧
      (flatView.view s).snapshot = (flatView.view s').snapshot := by
  obtain ⟨c, b, b', hr, hlive, hne⟩ := flat_two_blocks
  have hperm : [b, b'].Perm [b', b] := List.Perm.swap b' b []
  obtain ⟨s, s', hk, hk', heq⟩ := kfree_order flat_lawful flatEmpty_ok flatEmpty_empty rfl hr
    (by simpa using hne) (by simp [hlive]) hperm
  exact ⟨c, b, b', s, s', hr, hlive, hk, hk', heq⟩

/-- Two requests, the first of `0xFFFFFFFC` bytes, and their blocks given back. -/
def wrapFirst (inOrder : Bool) : Act Flat Unit := do
  let p ← kmalloc flat 0xFFFFFFFC
  let p' ← kmalloc flat 20
  kfreeAll flat (if inOrder then [p, p'] else [p', p])

theorem wrapFirst_start (inOrder : Bool) :
    ((wrapFirst inOrder flatEmpty.state).toOption.map fun r => r.2.start) =
      some (if inOrder then heapStart else 0) := by
  cases inOrder with
  | false => decide +kernel
  | true => decide +kernel

theorem wrapFirst_ok (inOrder : Bool) : ∃ p s₁ p' s₂ s,
    kmalloc flat 0xFFFFFFFC flatEmpty.state = .ok (p, s₁) ∧ kmalloc flat 20 s₁ = .ok (p', s₂) ∧
      kfreeAll flat (if inOrder then [p, p'] else [p', p]) s₂ = .ok ((), s) ∧
      s.start = if inOrder then heapStart else 0 := by
  obtain ⟨⟨_, s⟩, hok, hstart⟩ := exists_ok_of_toOption (wrapFirst_start inOrder)
  obtain ⟨p, s₁, hp, h⟩ := Act.bind_eq_ok.1 hok
  obtain ⟨p', s₂, hp', h⟩ := Act.bind_eq_ok.1 h
  exact ⟨p, s₁, p', s₂, s, hp, hp', h, hstart⟩

/-- A request of `0xFFFFFFFC` bytes is one of eight bytes with its header, so the next
chunk lies over its header. When the two are given back, the heap is empty in the
end, or it is not, according to the order. -/
theorem flat_kfree_order_wraps : ∃ c b b' s s',
    Run (RoomyStep flat flatView) flatEmpty [.kmalloc 0xFFFFFFFC, .kmalloc 20] c ∧
      c.live = [b', b] ∧ kfreeAll flat [b.ptr, b'.ptr] c.state = .ok ((), s) ∧
      kfreeAll flat [b'.ptr, b.ptr] c.state = .ok ((), s') ∧
      (flatView.view s).snapshot ≠ (flatView.view s').snapshot := by
  obtain ⟨p, s₁, p', s₂, s, hp, hp', hk, hs⟩ := wrapFirst_ok true
  obtain ⟨q, t₁, q', t₂, s', hq, hq', hk', hs'⟩ := wrapFirst_ok false
  obtain ⟨rfl, rfl⟩ := Prod.mk.inj (Except.ok.inj (hp.symm.trans hq))
  obtain ⟨rfl, rfl⟩ := Prod.mk.inj (Except.ok.inj (hp'.symm.trans hq'))
  have htop : s₁.top ≤ heapStart + 4096 := by
    have hval : ((kmalloc flat 0xFFFFFFFC flatEmpty.state).toOption.map fun r => r.2.top) =
        some (heapStart + 4096) := by decide +kernel
    rw [hp] at hval
    exact Nat.le_of_eq (Option.some.inj hval)
  refine ⟨⟨s₂, [⟨p', 20⟩, ⟨p, 0xFFFFFFFC⟩]⟩, ⟨p, 0xFFFFFFFC⟩, ⟨p', 20⟩, s, s',
    .cons ⟨.kmalloc hp, ?_⟩ (.single ⟨.kmalloc hp', ?_⟩), rfl, hk, hk', fun heq => ?_⟩
  · rintro m ⟨⟩
    exact flat_room (by decide) (by decide)
  · rintro m ⟨⟩
    exact flat_room htop (by decide)
  · have hstart : s.start = s'.start := congrArg Snapshot.start heq
    rw [hs, hs'] at hstart
    exact absurd hstart (by decide)

section

variable {σ : Type} {W : Window σ} {A : Abstraction σ View} (hW : Lawful W A)

include hW

/-- From the empty heap on, after every run whose requests find room and do not wrap
around, a block that is asked for and given back at once leaves the heap as it
was. -/
theorem kfree_kmalloc {c₀ c : Client σ} {es : List Call} (hok : A.ok c₀.state)
    (hempty : Empty (A.view c₀.state)) (hlive : c₀.live = []) (hr : Run (GoodStep W A) c₀ es c)
    {n : Nat} (hroom : Room (A.view c.state) n) (hn : n + 12 < 4294967296) :
    ∃ p s s', kmalloc W n c.state = .ok (p, s) ∧ kfree W p s = .ok ((), s') ∧
      (A.view s').snapshot = (A.view c.state).snapshot := by
  obtain ⟨cs, h⟩ := inv_run hW hok hempty hlive hr
  obtain ⟨p, s, hk, hok₁, hp, hholds⟩ := h.total_kmalloc hW hroom hn c.state h.ok rfl
  have h₁ := h.kmalloc hW hroom hn hk
  obtain ⟨_, -, ht⟩ := h₁.total_kfree hW List.mem_cons_self
  obtain ⟨_, s', hk', -⟩ := ht s hok₁ rfl
  obtain ⟨o, ho, h₂⟩ := h₁.kfree hW List.mem_cons_self hk'
  have hoff : o = mallocAt (n + 12) cs := by
    simp only at ho
    omega
  refine ⟨p, s, s', hk, hk', ?_⟩
  have hholds₂ := h₂.holds
  rw [hoff, release_malloc h.holds.sized h.holds.tidy] at hholds₂
  rw [hholds₂.snapshot, h.holds.snapshot]

end

/-- A second block of the flat heap is asked for and given back. -/
theorem flat_kfree_kmalloc : ∃ c p s s',
    Run (GoodStep flat flatView) flatEmpty [.kmalloc 20] c ∧ kmalloc flat 40 c.state = .ok (p, s) ∧
      kfree flat p s = .ok ((), s') ∧
      (flatView.view s').snapshot = (flatView.view c.state).snapshot := by
  obtain ⟨q, t, hstep, htop⟩ := flat_one_block
  obtain ⟨p, s, s', hk, hk', heq⟩ := kfree_kmalloc flat_lawful flatEmpty_ok flatEmpty_empty rfl
    (.single hstep) (flat_room htop (by decide)) (show 40 + 12 < 4294967296 by decide)
  exact ⟨_, p, s, s', .single hstep, hk, hk', heq⟩

/-- The first header of a heap that is not empty. -/
theorem View.snapshot_head {v : View} (hstart : v.start ≠ 0) (htop : heapStart < v.top) :
    v.snapshot.heads.head? = some (headAt v.mem v.start) := by
  obtain ⟨f, hf⟩ : ∃ f, v.top - heapStart = f + 1 := ⟨v.top - heapStart - 1, by omega⟩
  rw [View.snapshot, hf, headsFrom, if_neg hstart, List.head?_cons]

/-- A request of `0xFFFFFFF8` bytes, and then a block that is given back at once. -/
def wrapThenUndo : Act Flat (Flat × Flat) := do
  let _ ← kmalloc flat 0xFFFFFFF8
  let before ← Act.get
  let p ← kmalloc flat 20
  kfree flat p
  let after ← Act.get
  return (before, after)

theorem wrapThenUndo_words :
    ((wrapThenUndo flatEmpty.state).toOption.map fun r =>
      (r.1.1.start, r.1.1.top, load32 r.1.1.mem (heapStart + 8))) =
        some (heapStart, heapStart + 4096, 8) ∧
    ((wrapThenUndo flatEmpty.state).toOption.map fun r =>
      (r.1.2.start, r.1.2.top, load32 r.1.2.mem (heapStart + 8))) =
        some (heapStart, heapStart + 4096, 0) := by
  decide +kernel

/-- A request of `0xFFFFFFF8` bytes leaves a chunk of four bytes. A block that is asked
for then lies over its header, and giving it back does not restore the heap. -/
theorem flat_kfree_kmalloc_wraps : ∃ c p s s',
    Run (RoomyStep flat flatView) flatEmpty [.kmalloc 0xFFFFFFF8] c ∧ Room (flatView.view c.state) 20 ∧
      kmalloc flat 20 c.state = .ok (p, s) ∧ kfree flat p s = .ok ((), s') ∧
      (flatView.view s').snapshot ≠ (flatView.view c.state).snapshot := by
  obtain ⟨⟨⟨before, after⟩, t⟩, hok, hbefore⟩ := exists_ok_of_toOption wrapThenUndo_words.1
  have hafter := wrapThenUndo_words.2
  rw [hok] at hafter
  simp only [wrapThenUndo, Act.bind_eq_ok, Act.get_eq_ok, Act.pure_eq_ok, Prod.mk.injEq] at hok
  obtain ⟨q, s₁, hq, _, _, ⟨rfl, rfl⟩, p, s, hp, _, s', hk, _, _, ⟨rfl, rfl⟩, ⟨h₁, h₂⟩, -⟩ := hok
  rw [← h₁] at hbefore
  rw [← h₂] at hafter
  obtain ⟨hst, htop, hword⟩ : s₁.start = heapStart ∧ s₁.top = heapStart + 4096 ∧
      load32 s₁.mem (heapStart + 8) = 8 := by simpa using hbefore
  obtain ⟨hst', htop', hword'⟩ : s'.start = heapStart ∧ s'.top = heapStart + 4096 ∧
      load32 s'.mem (heapStart + 8) = 0 := by simpa [Except.toOption] using hafter
  refine ⟨⟨s₁, [⟨q, 0xFFFFFFF8⟩]⟩, p, s, s', .single ⟨.kmalloc hq, ?_⟩,
    flat_room (Nat.le_of_eq htop) (by decide), hp, hk, fun heq => ?_⟩
  · rintro m ⟨⟩
    exact flat_room (by decide) (by decide)
  · have hhead := congrArg (fun sn => sn.heads.head?) heq
    simp only [flatView] at hhead
    rw [View.snapshot_head (by simp [hst', heapStart]) (by simp only; omega),
      View.snapshot_head (by simp [hst, heapStart]) (by simp only; omega)] at hhead
    have hlen := congrArg Head.len (Option.some.inj hhead)
    simp only [headAt, hst, hst', hword, hword'] at hlen
    exact absurd hlen (by decide)

end Heap

end Chunix
