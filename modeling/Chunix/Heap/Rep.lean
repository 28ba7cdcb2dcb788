import Chunix.Heap.Basic
import Chunix.Heap.Layout

/-!
# Layouts in memory

`Node` says that the header of a chunk is in memory, with given links, and `Seg`
that a sequence of chunks without gaps is. A write to memory keeps the headers
it does not touch, so the proofs about the heap follow the writes of the code
one by one and only ever look at the headers next to a write.
-/

namespace Chunix

namespace Heap

open Machine

/-- The header of the chunk `c` is at the address `a`. -/
structure Node (m : Memory) (a prev next : Nat) (c : Chunk) : Prop where
  prev : load32 m a = prev
  next : load32 m (a + 4) = next
  word : load32 m (a + 8) = 2 * c.len + c.free.toNat

/-- The address of the chunk behind one that ends at `a`: the first chunk of `cs`
or, if there is none, `nxt`. -/
def nextOf (a nxt : Nat) : List Chunk → Nat
  | [] => nxt
  | _ :: _ => a

/-- The chunks `cs` are in memory from the address `a` on. The first one points
back to `prev` and the last one on to `nxt`. -/
def Seg (m : Memory) (nxt : Nat) : Nat → Nat → List Chunk → Prop
  | _, _, [] => True
  | prev, a, c :: cs =>
      Node m a prev (nextOf (a + c.len) nxt cs) c ∧ Seg m nxt a (a + c.len) cs

/-- The address of the last chunk of a segment, or `prev` if there is none. -/
def lastAddr : Nat → Nat → List Chunk → Nat
  | prev, _, [] => prev
  | _, a, c :: cs => lastAddr a (a + c.len) cs

theorem lastAddr_append (prev a : Nat) (l r : List Chunk) :
    lastAddr prev a (l ++ r) = lastAddr (lastAddr prev a l) (a + total l) r := by
  induction l generalizing prev a with
  | nil => simp [lastAddr]
  | cons c l ih => simp only [List.cons_append, lastAddr, ih, total_cons, Nat.add_assoc]

theorem nextOf_append (a nxt : Nat) (l r : List Chunk) :
    nextOf a nxt (l ++ r) = nextOf a (nextOf (a + total l) nxt r) l := by
  cases l with
  | nil => simp [nextOf]
  | cons c l => rfl

theorem seg_append {m : Memory} {nxt prev a : Nat} {l r : List Chunk} :
    Seg m nxt prev a (l ++ r) ↔ Seg m (nextOf (a + total l) nxt r) prev a l ∧
      Seg m nxt (lastAddr prev a l) (a + total l) r := by
  induction l generalizing prev a with
  | nil => simp [Seg, lastAddr]
  | cons c l ih =>
      simp only [List.cons_append, Seg, ih, lastAddr, total_cons, nextOf_append, Nat.add_assoc,
        and_assoc]

theorem seg_singleton {m : Memory} {nxt prev a : Nat} {c : Chunk} :
    Seg m nxt prev a [c] ↔ Node m a prev nxt c := by
  simp [Seg, nextOf]

/-- Any three words are a header. -/
theorem exists_node (m : Memory) (a : Nat) :
    ∃ prev next c, Node m a prev next c ∧ c.len < 2147483648 := by
  have hlt := load32_lt m (a + 8)
  refine ⟨_, _, ⟨load32 m (a + 8) / 2, decide (load32 m (a + 8) % 2 = 1)⟩, ⟨rfl, rfl, ?_⟩, ?_⟩
  · rcases Nat.mod_two_eq_zero_or_one (load32 m (a + 8)) with h | h <;> simp [h] <;> omega
  · simp only
    omega

/-- A header is kept by writes that do not touch it. -/
theorem Node.store {m : Memory} {a prev next x w : Nat} {c : Chunk} (h : Node m a prev next c)
    (ha : a + 12 ≤ 4294967296) (hx : x + 4 ≤ a ∨ a + 12 ≤ x ∧ x + 4 ≤ 4294967296) :
    Node (store32 m x w) a prev next c := by
  constructor
  · rw [load32_store32_of_disjoint (by omega) (by omega) (by omega)]
    exact h.prev
  · rw [load32_store32_of_disjoint (by omega) (by omega) (by omega)]
    exact h.next
  · rw [load32_store32_of_disjoint (by omega) (by omega) (by omega)]
    exact h.word

theorem Node.store_prev {m : Memory} {a prev next w : Nat} {c : Chunk} (h : Node m a prev next c)
    (ha : a + 12 ≤ 4294967296) (hw : w < 4294967296) : Node (store32 m a w) a w next c := by
  constructor
  · rw [load32_store32_self, u32_eq_self hw]
  · rw [load32_store32_of_disjoint (by omega) (by omega) (by omega)]
    exact h.next
  · rw [load32_store32_of_disjoint (by omega) (by omega) (by omega)]
    exact h.word

theorem Node.store_next {m : Memory} {a prev next w : Nat} {c : Chunk} (h : Node m a prev next c)
    (ha : a + 12 ≤ 4294967296) (hw : w < 4294967296) :
    Node (store32 m (a + 4) w) a prev w c := by
  constructor
  · rw [load32_store32_of_disjoint (by omega) (by omega) (by omega)]
    exact h.prev
  · rw [load32_store32_self, u32_eq_self hw]
  · rw [load32_store32_of_disjoint (by omega) (by omega) (by omega)]
    exact h.word

theorem Node.store_word {m : Memory} {a prev next : Nat} {c d : Chunk} (h : Node m a prev next c)
    (ha : a + 12 ≤ 4294967296) (hd : d.len < 2147483648) :
    Node (store32 m (a + 8) (2 * d.len + d.free.toNat)) a prev next d := by
  constructor
  · rw [load32_store32_of_disjoint (by omega) (by omega) (by omega)]
    exact h.prev
  · rw [load32_store32_of_disjoint (by omega) (by omega) (by omega)]
    exact h.next
  · rw [load32_store32_self, u32_eq_self]
    cases d.free <;> simp <;> omega

theorem Node.len {m : Memory} {a prev next : Nat} {c : Chunk} (h : Node m a prev next c) :
    load32 m (a + 8) / 2 = c.len := by
  rw [h.word]
  cases c.free <;> simp
  omega

theorem Node.free {m : Memory} {a prev next : Nat} {c : Chunk} (h : Node m a prev next c) :
    load32 m (a + 8) % 2 = c.free.toNat := by
  rw [h.word]
  cases c.free <;> simp

/-- The address `x` is in the header of a chunk of a layout that starts at
`a`. -/
def InHeader (a : Nat) : List Chunk → Nat → Prop
  | [], _ => False
  | c :: cs, x => (a ≤ x ∧ x < a + 12) ∨ InHeader (a + c.len) cs x

theorem inHeader_append {a x : Nat} {l r : List Chunk} :
    InHeader a (l ++ r) x ↔ InHeader a l x ∨ InHeader (a + total l) r x := by
  induction l generalizing a with
  | nil => simp [InHeader]
  | cons c l ih => simp only [List.cons_append, InHeader, ih, total_cons, Nat.add_assoc, or_assoc]

theorem le_of_inHeader {a x : Nat} {cs : List Chunk} (h : InHeader a cs x) : a ≤ x := by
  induction cs generalizing a with
  | nil => exact h.elim
  | cons c cs ih =>
      rcases h with h | h
      · exact h.1
      · have := ih h
        omega

theorem lt_of_inHeader {a x : Nat} {cs : List Chunk} (hs : Sized cs) (h : InHeader a cs x) :
    x < a + total cs := by
  induction cs generalizing a with
  | nil => exact h.elim
  | cons c cs ih =>
      obtain ⟨hc, hcs⟩ := sized_cons.1 hs
      unfold headerSize at hc
      rw [total_cons]
      rcases h with h | h
      · omega
      · have := ih hcs h
        omega

/-- A segment only depends on the headers of its chunks. -/
theorem Seg.congr_header {m m' : Memory} {nxt prev a : Nat} {cs : List Chunk}
    (h : Seg m nxt prev a cs) (hs : Sized cs) (ha : a + total cs ≤ 4294967296)
    (hm : ∀ x, InHeader a cs x → m' x = m x) : Seg m' nxt prev a cs := by
  induction cs generalizing prev a with
  | nil => trivial
  | cons c cs ih =>
      obtain ⟨hc, hcs⟩ := sized_cons.1 hs
      unfold headerSize at hc
      rw [total_cons] at ha
      obtain ⟨hn, hseg⟩ := h
      have hld : ∀ i, i + 4 ≤ 12 → load32 m' (a + i) = load32 m (a + i) := by
        intro i hi
        refine load32_congr_range (by omega) fun x hx hx' => hm x (Or.inl ?_)
        omega
      refine ⟨⟨?_, ?_, ?_⟩, ih hseg hcs (by omega) fun x hx => hm x (Or.inr hx)⟩
      · exact (hld 0 (by decide)).trans hn.prev
      · exact (hld 4 (by decide)).trans hn.next
      · exact (hld 8 (by decide)).trans hn.word

theorem Seg.congr {m m' : Memory} {nxt prev a : Nat} {cs : List Chunk} (h : Seg m nxt prev a cs)
    (hs : Sized cs) (ha : a + total cs ≤ 4294967296)
    (hm : ∀ x, a ≤ x → x < a + total cs → m' x = m x) : Seg m' nxt prev a cs :=
  h.congr_header hs ha fun x hx => hm x (le_of_inHeader hx) (lt_of_inHeader hs hx)

theorem Seg.agree {m m' : Memory} {nxt prev a t : Nat} {cs : List Chunk}
    (h : Seg m nxt prev a cs) (hs : Sized cs) (ha : a + total cs ≤ t) (ht : t ≤ 4294967296)
    (hm : ∀ x, x < t → m' x = m x) : Seg m' nxt prev a cs :=
  h.congr hs (by omega) fun x _ hx => hm x (by omega)

/-- A segment is kept by writes that do not touch it. -/
theorem Seg.store {m : Memory} {nxt prev a x w : Nat} {cs : List Chunk} (h : Seg m nxt prev a cs)
    (hs : Sized cs) (ha : a + total cs ≤ 4294967296)
    (hx : x + 4 ≤ a ∨ a + total cs ≤ x ∧ x + 4 ≤ 4294967296) :
    Seg (store32 m x w) nxt prev a cs := by
  by_cases hcs : total cs = 0
  · cases cs with
    | nil => trivial
    | cons c cs =>
        have := (sized_cons.1 hs).1
        unfold headerSize at this
        rw [total_cons] at hcs
        omega
  · refine h.congr hs ha fun y hy hy' => store32_apply_of_lt_or_ge ?_ ?_ <;> omega

/-- A write to the back link of the first chunk. -/
theorem Seg.store_prev {m : Memory} {nxt prev a w : Nat} {c : Chunk} {cs : List Chunk}
    (h : Seg m nxt prev a (c :: cs)) (hs : Sized (c :: cs))
    (ha : a + total (c :: cs) ≤ 4294967296) (hw : w < 4294967296) :
    Seg (store32 m a w) nxt w a (c :: cs) := by
  obtain ⟨hc, hcs⟩ := sized_cons.1 hs
  unfold headerSize at hc
  rw [total_cons] at ha
  exact ⟨h.1.store_prev (by omega) hw, h.2.store hcs (by omega) (by omega)⟩

/-- A write to the forward link of the last chunk. -/
theorem Seg.store_next {m : Memory} {nxt prev a w : Nat} {c : Chunk} {l : List Chunk}
    (h : Seg m nxt prev a (l ++ [c])) (hs : Sized (l ++ [c]))
    (ha : a + total (l ++ [c]) ≤ 4294967296) (hw : w < 4294967296) :
    Seg (store32 m (a + total l + 4) w) w prev a (l ++ [c]) := by
  obtain ⟨hl, hc⟩ := sized_append.1 hs
  have hc := (sized_cons.1 hc).1
  unfold headerSize at hc
  simp only [total_append, total_cons, total_nil, Nat.add_zero] at ha
  obtain ⟨hsl, hsc⟩ := seg_append.1 h
  rw [seg_singleton] at hsc
  refine seg_append.2 ⟨hsl.store hl (by omega) (by omega), ?_⟩
  rw [seg_singleton]
  exact hsc.store_next (by omega) hw

end Heap

end Chunix
