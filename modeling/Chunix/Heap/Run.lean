import Chunix.Heap.Free
import Chunix.Machine.Run

/-!
# Runs of a heap client

A client asks for blocks with `kmalloc`, writes into the blocks it holds and
gives them back with `kfree`, in any order. The invariant of such a run is that
the window holds a heap with some layout and that every block of the client is
the body of a chunk in use that is long enough. It holds as long as no request
is so large that adding the header to it wraps around.
-/

namespace Chunix

namespace Heap

open Machine Act

/-- A block a client holds: the pointer it got and the size it asked for. -/
structure Block where
  ptr : Nat
  size : Nat
deriving DecidableEq, Repr

/-- What a client does. -/
inductive Call
  | kmalloc (n : Nat)
  | kfree (p : Nat)
  | write (a w : Nat)
deriving DecidableEq, Repr

/-- A state with the blocks the client holds. -/
structure Client (σ : Type) where
  state : σ
  live : List Block

variable {σ : Type} {W : Window σ} {A : Abstraction σ View}

/-- One step of the client, of a call that returns. -/
inductive Step (W : Window σ) : Client σ → Call → Client σ → Prop
  | kmalloc {s s' live n p} (h : kmalloc W n s = .ok (p, s')) :
      Step W ⟨s, live⟩ (.kmalloc n) ⟨s', ⟨p, n⟩ :: live⟩
  | kfree {s s' live b} (hb : b ∈ live) (h : kfree W b.ptr s = .ok ((), s')) :
      Step W ⟨s, live⟩ (.kfree b.ptr) ⟨s', live.erase b⟩
  | write {s s' live b a w} (hb : b ∈ live) (ha : b.ptr ≤ a ∧ a + 4 ≤ b.ptr + b.size)
      (h : W.st a w s = .ok ((), s')) : Step W ⟨s, live⟩ (.write a w) ⟨s', live⟩

/-- The list of chunks from `heap_start` is well formed: it is contiguous from
`HEAP_START` with `prev` and `next` inverse to each other, every chunk has room
for its header, no two neighbours are free and the last chunk is in use. -/
def HeapOk (v : View) : Prop :=
  ∃ cs, v.start = nextOf heapStart 0 cs ∧ Seg v.mem 0 0 heapStart cs ∧
    (∀ c ∈ cs, headerSize ≤ c.len) ∧
    (∀ l c d r, cs = l ++ c :: d :: r → ¬ (c.free = true ∧ d.free = true)) ∧
    ∀ l c, cs = l ++ [c] → c.free = false

theorem Holds.heapOk {v : View} {cs : List Chunk} (h : Holds v cs) : HeapOk v :=
  ⟨cs, h.start, h.seg, h.sized, (tidy_iff.1 h.tidy).1, (tidy_iff.1 h.tidy).2⟩

/-- The empty heap: no chunk and no page. -/
def Empty (v : View) : Prop := v.start = 0 ∧ v.top = heapStart

theorem Empty.holds {v : View} (h : Empty v) : Holds v [] :=
  ⟨h.1, trivial, by simp [Sized], trivial, by rw [h.2]; rfl, by decide⟩

/-- There is room for a request of `n` bytes: a free chunk is large enough or the
heap stays below `HEAP_END`, and the pages needed can be had. The size is the one
the code computes with, modulo `2 ^ 32`. -/
def Room (v : View) (n : Nat) : Prop :=
  ∀ cs, Holds v cs →
    ((∃ c ∈ cs, c.free = true ∧ u32 (n + 12) ≤ c.len) ∨
      heapStart + total cs + u32 (n + 12) ≤ heapEnd) ∧
    2 * ((pageUp (heapStart + total (malloc (u32 (n + 12)) cs)) - v.top) / 4096) ≤ v.avail

/-- The steps of a client whose requests find room. -/
def RoomyStep (W : Window σ) (A : Abstraction σ View) (c : Client σ) (e : Call) (c' : Client σ) :
    Prop :=
  Step W c e c' ∧ ∀ n, e = .kmalloc n → Room (A.view c.state) n

/-- The steps of a client whose requests find room and do not wrap around. -/
def GoodStep (W : Window σ) (A : Abstraction σ View) (c : Client σ) (e : Call) (c' : Client σ) :
    Prop :=
  RoomyStep W A c e c' ∧ ∀ n, e = .kmalloc n → n + 12 < 4294967296

/-- The block is the body of a chunk in use that is long enough. -/
def Backed (cs : List Chunk) (b : Block) : Prop :=
  ∃ c ∈ usedAt heapStart cs, b.ptr = c.1 + 12 ∧ b.size + 12 ≤ c.2

/-- The invariant of a client: a legal state with a heap in which the blocks held
are backed, each by its own chunk. -/
structure Inv (A : Abstraction σ View) (c : Client σ) (cs : List Chunk) : Prop where
  ok : A.ok c.state
  holds : Holds (A.view c.state) cs
  backed : ∀ b ∈ c.live, Backed cs b
  nodup : (c.live.map Block.ptr).Nodup

theorem Inv.since {R : σ → σ → Prop} {c : Client σ}
    {cs : List Chunk} (h : Inv A c cs) (hrefl : R c.state c.state) : Inv (A.since R c.state) c cs :=
  ⟨⟨h.ok, hrefl⟩, h.holds, h.backed, h.nodup⟩

/-- No header is in the body of a chunk in use. -/
theorem not_inHeader_of_mem_usedAt {a x : Nat} {c : Nat × Nat} {cs : List Chunk} (hs : Sized cs)
    (hc : c ∈ usedAt a cs) (hx : c.1 + 12 ≤ x) (hx' : x < c.1 + c.2) : ¬ InHeader a cs x := by
  obtain ⟨l, r, rfl, ha⟩ := exists_append_of_mem_usedAt hc
  obtain ⟨hl, hr⟩ := sized_append.1 hs
  rw [inHeader_append]
  rintro (h | h | h)
  · have := lt_of_inHeader hl h
    omega
  · omega
  · have := le_of_inHeader h
    simp only at this
    omega

theorem Holds.write {v : View} {cs : List Chunk} {c : Nat × Nat} {a w : Nat} (h : Holds v cs)
    (hc : c ∈ usedAt heapStart cs) (ha : c.1 + 12 ≤ a) (ha' : a + 4 ≤ c.1 + c.2) :
    Holds (v.store a w) cs := by
  have hb := bounds_of_mem_usedAt h.sized hc
  have hfits := h.fits
  have hen : heapEnd = 0xFFBFF000 := rfl
  refine ⟨h.start, ?_, h.sized, h.tidy, h.top, h.fits⟩
  refine h.seg.congr_header h.sized (by omega) fun x hx => store32_apply_of_lt_or_ge (by omega) ?_
  by_contra hx'
  exact not_inHeader_of_mem_usedAt h.sized hc (by omega) (by omega) hx

section

variable (hW : Lawful W A) {s s' : σ} {live : List Block} {cs : List Chunk}

include hW

theorem Inv.total_kmalloc {n : Nat} (h : Inv A ⟨s, live⟩ cs) (hroom : Room (A.view s) n)
    (hn : n + 12 < 4294967296) :
    Total A (A.view s) (kmalloc W n) fun p w =>
      p = heapStart + mallocAt (n + 12) cs + 12 ∧ Holds w (malloc (n + 12) cs) := by
  have hr := hroom cs h.holds
  rw [u32_eq_self hn] at hr
  refine (Heap.total_kmalloc hW h.holds hn hr.1 rfl hr.2).mono ?_
  rintro p w ⟨hp, hw, -⟩
  exact ⟨hp, hw⟩

theorem Inv.total_kfree {b : Block} (h : Inv A ⟨s, live⟩ cs) (hb : b ∈ live) :
    ∃ o, b.ptr = heapStart + o + 12 ∧ Total A (A.view s) (kfree W b.ptr) fun _ w =>
      Holds w (release o cs) ∧ ∀ c, c ∈ usedAt heapStart (release o cs) ↔
        c ∈ usedAt heapStart cs ∧ c.1 ≠ heapStart + o := by
  obtain ⟨c, hc, hp, -⟩ := h.backed b hb
  obtain ⟨l, r, rfl, ha⟩ := exists_append_of_mem_usedAt hc
  refine ⟨total l, by omega, ?_⟩
  rw [hp, ha]
  refine (Heap.total_kfree hW h.holds).mono ?_
  rintro _ w ⟨hw, -⟩
  exact ⟨hw, fun c => mem_usedAt_release h.holds.sized⟩

theorem Inv.kmalloc {n p : Nat} (h : Inv A ⟨s, live⟩ cs) (hroom : Room (A.view s) n)
    (hn : n + 12 < 4294967296) (hk : kmalloc W n s = .ok (p, s')) :
    Inv A ⟨s', ⟨p, n⟩ :: live⟩ (malloc (n + 12) cs) := by
  obtain ⟨hok, hp, hw⟩ := (h.total_kmalloc hW hroom hn).of_eq_ok h.ok rfl hk
  obtain ⟨len, hlen, hused⟩ := exists_mem_usedAt_malloc (n + 12) heapStart cs
  refine ⟨hok, hw, ?_, ?_⟩
  · intro b hb
    rcases List.mem_cons.1 hb with rfl | hb
    · exact ⟨_, (hused _).2 (Or.inl rfl), hp, hlen⟩
    · obtain ⟨c, hc, hb⟩ := h.backed b hb
      exact ⟨c, (hused c).2 (Or.inr hc), hb⟩
  · rw [List.map_cons, List.nodup_cons]
    refine ⟨fun hm => ?_, h.nodup⟩
    obtain ⟨b, hb, hbp⟩ := List.mem_map.1 hm
    obtain ⟨c, hc, hcp, -⟩ := h.backed b hb
    have := mallocAt_ne_of_mem_usedAt (n := n + 12) h.holds.sized hc
    simp only at hbp
    omega

theorem Inv.kfree {b : Block} (h : Inv A ⟨s, live⟩ cs) (hb : b ∈ live)
    (hk : kfree W b.ptr s = .ok ((), s')) :
    ∃ o, b.ptr = heapStart + o + 12 ∧ Inv A ⟨s', live.erase b⟩ (release o cs) := by
  obtain ⟨o, hp, ht⟩ := h.total_kfree hW hb
  obtain ⟨hok, hw, hused⟩ := ht.of_eq_ok h.ok rfl hk
  refine ⟨o, hp, hok, hw, ?_, ?_⟩
  · intro b' hb'
    obtain ⟨c, hc, hcp, hlen⟩ := h.backed b' (List.mem_of_mem_erase hb')
    refine ⟨c, (hused c).2 ⟨hc, fun he => ?_⟩, hcp, hlen⟩
    -- Two blocks at one pointer would be the same block twice.
    have hnd : live.Nodup := List.Nodup.of_map _ h.nodup
    have hne : b' ≠ b := (hnd.mem_erase_iff.1 hb').1
    exact hne (List.inj_on_of_nodup_map h.nodup (List.mem_of_mem_erase hb') hb (by omega))
  · exact h.nodup.sublist (List.erase_sublist.map _)

theorem Inv.write {b : Block} {a w : Nat} (h : Inv A ⟨s, live⟩ cs) (hb : b ∈ live)
    (ha : b.ptr ≤ a ∧ a + 4 ≤ b.ptr + b.size) (hk : W.st a w s = .ok ((), s')) :
    Inv A ⟨s', live⟩ cs := by
  obtain ⟨c, hc, hcp, hlen⟩ := h.backed b hb
  have hbd := bounds_of_mem_usedAt h.holds.sized hc
  have htop : heapStart + total cs ≤ (A.view s).top := h.holds.le_top
  obtain ⟨hok, -, hv⟩ := (hW.st (A.view s) a w (by omega) (by omega)).of_eq_ok h.ok rfl hk
  refine ⟨hok, ?_, h.backed, h.nodup⟩
  rw [hv]
  exact h.holds.write hc (by omega) (by omega)

/-- One step keeps the invariant. -/
theorem inv_step {c c' : Client σ} {e : Call} (h : ∃ cs, Inv A c cs) (hs : GoodStep W A c e c') :
    ∃ cs, Inv A c' cs := by
  obtain ⟨cs, h⟩ := h
  obtain ⟨⟨hs, hroom⟩, hn⟩ := hs
  cases hs with
  | kmalloc hk => exact ⟨_, h.kmalloc hW (hroom _ rfl) (hn _ rfl) hk⟩
  | kfree hb hk =>
      obtain ⟨o, -, h'⟩ := h.kfree hW hb hk
      exact ⟨_, h'⟩
  | write hb ha hk => exact ⟨cs, h.write hW hb ha hk⟩

/-- From the empty heap on, the invariant holds along every run. -/
theorem inv_run {c₀ c : Client σ} {es : List Call} (hok : A.ok c₀.state)
    (hempty : Empty (A.view c₀.state)) (hlive : c₀.live = []) (hr : Run (GoodStep W A) c₀ es c) :
    ∃ cs, Inv A c cs := by
  refine hr.invariant (I := fun c => ∃ cs, Inv A c cs) (fun c e c' _ h hs => inv_step hW h hs) ?_
  exact ⟨[], hok, hempty.holds, by simp [hlive], by simp [hlive]⟩

theorem Inv.kmalloc_returns {c : Client σ} {cs : List Chunk} {n : Nat} (h : Inv A c cs)
    (hroom : Room (A.view c.state) n) (hn : n + 12 < 4294967296) :
    ∃ p s', Heap.kmalloc W n c.state = .ok (p, s') := by
  obtain ⟨p, s', hk, -⟩ := h.total_kmalloc hW hroom hn c.state h.ok rfl
  exact ⟨p, s', hk⟩

theorem Inv.kfree_returns {c : Client σ} {cs : List Chunk} {b : Block} (h : Inv A c cs)
    (hb : b ∈ c.live) : ∃ s', Heap.kfree W b.ptr c.state = .ok ((), s') := by
  obtain ⟨o, -, ht⟩ := h.total_kfree hW hb
  obtain ⟨u, s', hk, -⟩ := ht c.state h.ok rfl
  exact ⟨s', hk⟩

/-- From the empty heap on, along every run whose requests find room and do not
wrap around, the list of chunks is well formed, and every further call returns.
A lawful window may stop the machine at any address outside of
`[HEAP_START, heap_top)`, as `flat` does, so no call follows a null pointer. -/
theorem heap_wellFormed {c₀ c : Client σ} {es : List Call} (hok : A.ok c₀.state)
    (hempty : Empty (A.view c₀.state)) (hlive : c₀.live = []) (hr : Run (GoodStep W A) c₀ es c) :
    HeapOk (A.view c.state) ∧
    (∀ n, Room (A.view c.state) n → n + 12 < 4294967296 →
      ∃ p s', kmalloc W n c.state = .ok (p, s')) ∧
    ∀ b ∈ c.live, ∃ s', kfree W b.ptr c.state = .ok ((), s') := by
  obtain ⟨cs, h⟩ := inv_run hW hok hempty hlive hr
  exact ⟨h.holds.heapOk, fun n hroom hn => h.kmalloc_returns hW hroom hn,
    fun b hb => h.kfree_returns hW hb⟩

end

/-- A window of its own, without page tables: the pages from `HEAP_START` up to
`top` are there and every access outside of them faults. A new page has the
contents the memory happens to have there. -/
structure Flat where
  mem : Memory
  top : Nat
  start : Nat

/-- The operations of the flat window. -/
def flat : Window Flat where
  ld a := fun s =>
    if heapStart ≤ a ∧ a + 4 ≤ s.top then .ok (load32 s.mem a, s) else .error (.fault a)
  st a w := fun s =>
    if heapStart ≤ a ∧ a + 4 ≤ s.top then .ok ((), { s with mem := store32 s.mem a w })
    else .error (.fault a)
  start := Act.gets Flat.start
  setStart a := Act.modify fun s => { s with start := a }
  top := Act.gets Flat.top
  grow := Act.modify fun s => { s with top := s.top + 4096 }
  shrink := Act.modify fun s => { s with top := s.top - 4096 }

/-- The flat window never lacks a page. -/
def flatView : Abstraction Flat View where
  ok s := s.top ≤ heapEnd
  view s := ⟨s.mem, s.top, s.start, 1048576⟩

theorem flat_lawful : Lawful flat flatView where
  top_le _ hs := hs
  ld := by
    rintro v a ha ha' s hs rfl
    exact ⟨_, s, if_pos ⟨ha, ha'⟩, hs, rfl, rfl⟩
  st := by
    rintro v a w ha ha' s hs rfl
    exact ⟨_, _, if_pos ⟨ha, ha'⟩, hs, rfl, rfl⟩
  start := by
    rintro v s hs rfl
    exact ⟨_, s, rfl, hs, rfl, rfl⟩
  setStart := by
    rintro v a s hs rfl
    exact ⟨_, _, rfl, hs, rfl, rfl⟩
  top := by
    rintro v s hs rfl
    exact ⟨_, s, rfl, hs, rfl, rfl⟩
  grow := by
    rintro v - hend - s hs rfl
    exact ⟨_, _, rfl, hend, rfl, rfl, by simp [flatView], fun _ _ => rfl⟩
  shrink := by
    rintro v hlow s hs rfl
    refine ⟨_, _, rfl, Nat.le_trans (Nat.sub_le _ _) hs, ?_, rfl, Nat.le_refl _, fun _ _ => rfl⟩
    exact Nat.sub_add_cancel (Nat.le_trans (Nat.le_add_left _ _) hlow)

/-- The empty flat heap over a memory of zeros. -/
def flatEmpty : Client Flat := ⟨⟨fun _ => 0, heapStart, 0⟩, []⟩

theorem flatEmpty_ok : flatView.ok flatEmpty.state := show heapStart ≤ heapEnd by decide

theorem flatEmpty_empty : Empty (flatView.view flatEmpty.state) := ⟨rfl, rfl⟩

theorem Holds.eq_nil {v : View} {cs : List Chunk} (h : Holds v cs) (hv : Empty v) : cs = [] := by
  have hs := h.start
  rw [hv.1] at hs
  cases cs with
  | nil => rfl
  | cons c cs => exact absurd hs.symm (show heapStart ≠ 0 by decide)

theorem flatEmpty_room {n : Nat} (hn : u32 (n + 12) ≤ 4096) :
    Room (flatView.view flatEmpty.state) n := by
  intro cs hcs
  rw [hcs.eq_nil flatEmpty_empty]
  have hst : heapStart = 0xD0000000 := rfl
  have hen : heapEnd = 0xFFBFF000 := rfl
  refine ⟨Or.inr (by simp only [total_nil]; omega), ?_⟩
  simp only [malloc, total_cons, total_nil, flatView, flatEmpty, pageUp]
  omega

/-- A first request on the flat heap. -/
theorem flat_kmalloc_wellFormed :
    ∃ c, Run (GoodStep flat flatView) flatEmpty [.kmalloc 20] c ∧
      HeapOk (flatView.view c.state) := by
  have hroom := flatEmpty_room (n := 20) (by decide)
  obtain ⟨-, hk, -⟩ := heap_wellFormed flat_lawful flatEmpty_ok flatEmpty_empty rfl
    (Run.nil flatEmpty)
  obtain ⟨p, s', hp⟩ := hk 20 hroom (by decide)
  have hr : Run (GoodStep flat flatView) flatEmpty [.kmalloc 20] ⟨s', [⟨p, 20⟩]⟩ := by
    refine Run.single ⟨⟨Step.kmalloc hp, ?_⟩, ?_⟩
    · rintro n ⟨⟩
      exact hroom
    · rintro n ⟨⟩
      decide
  exact ⟨_, hr, (heap_wellFormed flat_lawful flatEmpty_ok flatEmpty_empty rfl hr).1⟩

/-- A request of `0xFFFFFFF8` bytes on the empty heap finds room, since with the
header it is a request of four bytes, and leaves a chunk that is shorter than its
header. -/
theorem flat_kmalloc_wraps :
    ∃ c, Run (RoomyStep flat flatView) flatEmpty [.kmalloc 0xFFFFFFF8] c ∧
      ¬ HeapOk (flatView.view c.state) := by
  obtain ⟨p, s', hk, hstart, hword⟩ : ∃ p s', kmalloc flat 0xFFFFFFF8 flatEmpty.state = .ok (p, s') ∧
      s'.start = heapStart ∧ load32 s'.mem (heapStart + 8) = 8 := by
    refine ⟨_, _, rfl, rfl, ?_⟩
    decide +kernel
  refine ⟨⟨s', [⟨p, 0xFFFFFFF8⟩]⟩, Run.single ⟨Step.kmalloc hk, ?_⟩, ?_⟩
  · rintro n ⟨⟩
    exact flatEmpty_room (by decide)
  · rintro ⟨cs, hst, hseg, hlen, -⟩
    cases cs with
    | nil => exact absurd (hstart.symm.trans hst) (by decide)
    | cons c cs =>
        have hc := hlen c List.mem_cons_self
        have hlen : load32 s'.mem (heapStart + 8) / 2 = c.len := hseg.1.len
        unfold headerSize at hc
        omega

end Heap

end Chunix
