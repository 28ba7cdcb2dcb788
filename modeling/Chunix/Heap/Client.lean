import Chunix.Heap.Run

/-!
# What the heap guarantees to its clients

The blocks a client holds do not overlap each other or a header and lie below
`heap_top`, and what the client wrote into a block stays there until the block is
given back: `kmalloc` and `kfree` change no byte of a block that stays live.
-/

namespace Chunix

namespace Heap

open Machine Act

/-- The chunks in use do not overlap. -/
theorem pairwise_usedAt {a : Nat} {cs : List Chunk} (h : Sized cs) :
    (usedAt a cs).Pairwise fun b b' => b.1 + b.2 ≤ b'.1 := by
  induction cs generalizing a with
  | nil => exact List.Pairwise.nil
  | cons c cs ih =>
      obtain ⟨hc, hcs⟩ := sized_cons.1 h
      have hrest : (usedAt (a + c.len) cs).Pairwise fun b b' => b.1 + b.2 ≤ b'.1 := ih hcs
      rw [usedAt]
      split
      · exact hrest
      · refine List.pairwise_cons.2 ⟨fun b hb => ?_, hrest⟩
        exact (bounds_of_mem_usedAt hcs hb).1

/-- The guarantee in one state: the blocks held are apart from each other, from
the headers of the chunks on the list, and inside the heap. -/
structure Guarantee (v : View) (live : List Block) : Prop where
  apart : live.Pairwise fun b b' => b.ptr + b.size ≤ b'.ptr ∨ b'.ptr + b'.size ≤ b.ptr
  headers : ∃ cs, v.start = nextOf heapStart 0 cs ∧ Seg v.mem 0 0 heapStart cs ∧
    ∀ b ∈ live, ∀ x, b.ptr ≤ x → x < b.ptr + b.size → ¬ InHeader heapStart cs x
  inside : ∀ b ∈ live, heapStart ≤ b.ptr ∧ b.ptr + b.size ≤ v.top

variable {σ : Type} {W : Window σ} {A : Abstraction σ View}

theorem Backed.not_inHeader {cs : List Chunk} {b : Block} {x : Nat} (h : Backed cs b)
    (hs : Sized cs) (hx : b.ptr ≤ x) (hx' : x < b.ptr + b.size) : ¬ InHeader heapStart cs x := by
  obtain ⟨c, hc, hp, hlen⟩ := h
  exact not_inHeader_of_mem_usedAt hs hc (by omega) (by omega)

theorem Backed.bounds {v : View} {cs : List Chunk} {b : Block} (h : Backed cs b)
    (hv : Holds v cs) : heapStart ≤ b.ptr ∧ b.ptr + b.size ≤ v.top := by
  obtain ⟨c, hc, hp, hlen⟩ := h
  have hb := bounds_of_mem_usedAt hv.sized hc
  have htop := hv.le_top
  omega

theorem Inv.guarantee {c : Client σ} {cs : List Chunk} (h : Inv A c cs) :
    Guarantee (A.view c.state) c.live := by
  refine ⟨?_, ⟨cs, h.holds.start, h.holds.seg, fun b hb x hx hx' =>
    (h.backed b hb).not_inHeader h.holds.sized hx hx'⟩, fun b hb => (h.backed b hb).bounds h.holds⟩
  have hnd : c.live.Pairwise fun b b' => b.ptr ≠ b'.ptr := List.pairwise_map.1 h.nodup
  refine hnd.imp_of_mem fun {b b'} hb hb' hne => ?_
  obtain ⟨d, hd, hp, hlen⟩ := h.backed b hb
  obtain ⟨d', hd', hp', hlen'⟩ := h.backed b' hb'
  -- Different pointers mean different chunks, and the chunks in use are ordered.
  obtain ⟨i, hi, rfl⟩ := List.getElem_of_mem hd
  obtain ⟨j, hj, rfl⟩ := List.getElem_of_mem hd'
  have hpw := List.pairwise_iff_getElem.1 (pairwise_usedAt (a := heapStart) h.holds.sized)
  rcases Nat.lt_trichotomy i j with hij | rfl | hij
  · have := hpw i j hi hj hij
    omega
  · omega
  · have := hpw j i hj hi hij
    omega

section

variable (hW : Lawful W A) {s s' : σ} {live : List Block} {cs : List Chunk}

include hW

/-- `kmalloc` does not change the blocks that are held. -/
theorem Inv.kmalloc_frame {n p : Nat} (h : Inv A ⟨s, live⟩ cs) (hroom : Room (A.view s) n)
    (hn : n + 12 < 4294967296) (hk : Heap.kmalloc W n s = .ok (p, s')) {b : Block} (hb : b ∈ live)
    {x : Nat} (hx : b.ptr ≤ x) (hx' : x < b.ptr + b.size) :
    (A.view s').mem x = (A.view s).mem x := by
  have hr := hroom cs h.holds
  rw [u32_eq_self hn] at hr
  obtain ⟨-, -, hw, -, hframe⟩ :=
    (Heap.total_kmalloc hW h.holds hn hr.1 rfl hr.2).of_eq_ok h.ok rfl hk
  have hold := (h.backed b hb).bounds h.holds
  have hb' := (h.kmalloc hW hroom hn hk).backed b (List.mem_cons_of_mem _ hb)
  exact hframe x (by omega) (hb'.not_inHeader hw.sized hx hx')

/-- `kfree` does not change the blocks that stay. -/
theorem Inv.kfree_frame {b : Block} (h : Inv A ⟨s, live⟩ cs) (hb : b ∈ live)
    (hk : Heap.kfree W b.ptr s = .ok ((), s')) {b' : Block} (hb' : b' ∈ live.erase b)
    {x : Nat} (hx : b'.ptr ≤ x) (hx' : x < b'.ptr + b'.size) :
    (A.view s').mem x = (A.view s).mem x := by
  obtain ⟨c, hc, hp, -⟩ := h.backed b hb
  obtain ⟨l, r, rfl, ha⟩ := exists_append_of_mem_usedAt hc
  have hk' := hk
  rw [hp, ha] at hk'
  obtain ⟨-, -, -, hframe⟩ := (Heap.total_kfree hW h.holds).of_eq_ok h.ok rfl hk'
  obtain ⟨o, -, hi⟩ := h.kfree hW hb hk
  have hnew : heapStart ≤ b'.ptr ∧ b'.ptr + b'.size ≤ (A.view s').top :=
    (hi.backed b' hb').bounds hi.holds
  have hold := h.backed b' (List.mem_of_mem_erase hb')
  exact hframe x (by omega) (hold.not_inHeader h.holds.sized hx hx')

/-- From the empty heap on, along every run whose requests find room and do not
wrap around, the blocks held are apart from each other and from the headers and
lie inside the heap, and a further `kmalloc` or `kfree` leaves the bytes of the
blocks that stay alone. -/
theorem client_guarantee {c₀ c : Client σ} {es : List Call} (hok : A.ok c₀.state)
    (hempty : Empty (A.view c₀.state)) (hlive : c₀.live = []) (hr : Run (GoodStep W A) c₀ es c) :
    Guarantee (A.view c.state) c.live ∧
    ∀ e c', GoodStep W A c e c' → (∀ a w, e ≠ .write a w) →
      ∀ b ∈ c.live, b ∈ c'.live → ∀ x, b.ptr ≤ x → x < b.ptr + b.size →
        (A.view c'.state).mem x = (A.view c.state).mem x := by
  obtain ⟨cs, h⟩ := inv_run hW hok hempty hlive hr
  refine ⟨h.guarantee, ?_⟩
  rintro e c' ⟨⟨hs, hroom⟩, hn⟩ hcall b hb hb' x hx hx'
  cases hs with
  | kmalloc hk => exact h.kmalloc_frame hW (hroom _ rfl) (hn _ rfl) hk hb hx hx'
  | kfree hfree hk => exact h.kfree_frame hW hfree hk hb' hx hx'
  | write _ _ _ => exact absurd rfl (hcall _ _)

end

/-- A first request on the flat heap. -/
theorem flat_kmalloc_guarantee :
    ∃ c, Run (GoodStep flat flatView) flatEmpty [.kmalloc 20] c ∧ c.live.length = 1 ∧
      Guarantee (flatView.view c.state) c.live := by
  have hroom := flatEmpty_room (n := 20) (by decide)
  obtain ⟨p, s', hp⟩ : ∃ p s', kmalloc flat 20 flatEmpty.state = .ok (p, s') := ⟨_, _, rfl⟩
  have hr : Run (GoodStep flat flatView) flatEmpty [.kmalloc 20] ⟨s', [⟨p, 20⟩]⟩ := by
    refine Run.single ⟨⟨Step.kmalloc hp, ?_⟩, ?_⟩
    · rintro n ⟨⟩
      exact hroom
    · rintro n ⟨⟩
      decide
  exact ⟨_, hr, rfl, (client_guarantee flat_lawful flatEmpty_ok flatEmpty_empty rfl hr).1⟩

/-- A request of `0xFFFFFFF8` bytes on the empty heap is answered with a block
that does not end inside the heap. -/
theorem flat_kmalloc_outside :
    ∃ c, Run (RoomyStep flat flatView) flatEmpty [.kmalloc 0xFFFFFFF8] c ∧
      ¬ Guarantee (flatView.view c.state) c.live := by
  obtain ⟨p, s', hk, hp, htop⟩ : ∃ p s', kmalloc flat 0xFFFFFFF8 flatEmpty.state = .ok (p, s') ∧
      p = heapStart + 12 ∧ s'.top = heapStart + 4096 := ⟨_, _, rfl, rfl, rfl⟩
  refine ⟨⟨s', [⟨p, 0xFFFFFFF8⟩]⟩, Run.single ⟨Step.kmalloc hk, ?_⟩, fun h => ?_⟩
  · rintro n ⟨⟩
    exact flatEmpty_room (by decide)
  · have := (h.inside ⟨p, 0xFFFFFFF8⟩ (by simp)).2
    simp only [flatView, htop, hp] at this
    omega

end Heap

end Chunix
