import Chunix.Heap.Rep
import Chunix.Machine.Total

/-!
# Lawful windows

The proofs about the heap see a window through `View`: the memory of the window,
`heap_top`, `heap_start`, and how many physical pages the window may still take.
A window is lawful when words below `heap_top` can be read and written and a page
can be added at `heap_top` or removed from there without touching the memory
below. Mapping a page may take a second page for a page table.
-/

namespace Chunix

namespace Heap

open Machine Act

/-- What the proofs see of a window. -/
structure View where
  mem : Memory
  top : Nat
  start : Nat
  avail : Nat

/-- The view after a write. -/
def View.store (v : View) (a w : Nat) : View := { v with mem := store32 v.mem a w }

@[simp] theorem View.store_mem (v : View) (a w : Nat) :
    (v.store a w).mem = store32 v.mem a w := rfl

@[simp] theorem View.store_top (v : View) (a w : Nat) : (v.store a w).top = v.top := rfl

@[simp] theorem View.store_start (v : View) (a w : Nat) : (v.store a w).start = v.start := rfl

@[simp] theorem View.store_avail (v : View) (a w : Nat) : (v.store a w).avail = v.avail := rfl

/-- A window whose operations do to the view what they are for. -/
structure Lawful {σ : Type} (W : Window σ) (A : Abstraction σ View) : Prop where
  top_le : ∀ s, A.ok s → (A.view s).top ≤ heapEnd
  ld : ∀ v a, heapStart ≤ a → a + 4 ≤ v.top → Gives A v (W.ld a) (load32 v.mem a) v
  st : ∀ v a w, heapStart ≤ a → a + 4 ≤ v.top → Gives A v (W.st a w) () (v.store a w)
  start : ∀ v, Gives A v W.start v.start v
  setStart : ∀ v a, Gives A v (W.setStart a) () { v with start := a }
  top : ∀ v, Gives A v W.top v.top v
  grow : ∀ v, heapStart ≤ v.top → v.top + 4096 ≤ heapEnd → 2 ≤ v.avail →
    Total A v W.grow fun _ w => w.top = v.top + 4096 ∧ w.start = v.start ∧
      v.avail ≤ w.avail + 2 ∧ ∀ a, a < v.top → w.mem a = v.mem a
  shrink : ∀ v, heapStart + 4096 ≤ v.top →
    Total A v W.shrink fun _ w => w.top + 4096 = v.top ∧ w.start = v.start ∧
      v.avail ≤ w.avail ∧ ∀ a, a < w.top → w.mem a = v.mem a

/-- The operations of a window stay in the relation `R`. -/
structure Stays {σ : Type} (W : Window σ) (A : Abstraction σ View) (R : σ → σ → Prop) : Prop where
  trans : ∀ a b c, R a b → R b c → R a c
  ld : ∀ a s r s', A.ok s → W.ld a s = .ok (r, s') → R s s'
  st : ∀ a w s r s', A.ok s → heapStart ≤ a → a + 4 ≤ (A.view s).top →
    W.st a w s = .ok (r, s') → R s s'
  start : ∀ s r s', A.ok s → W.start s = .ok (r, s') → R s s'
  setStart : ∀ a s r s', A.ok s → W.setStart a s = .ok (r, s') → R s s'
  top : ∀ s r s', A.ok s → W.top s = .ok (r, s') → R s s'
  grow : ∀ s r s', A.ok s → W.grow s = .ok (r, s') → R s s'
  shrink : ∀ s r s', A.ok s → heapStart + 4096 ≤ (A.view s).top → W.shrink s = .ok (r, s') → R s s'

/-- A lawful window is lawful for the states that its operations reach. -/
theorem Lawful.since {σ : Type} {W : Window σ} {A : Abstraction σ View} {R : σ → σ → Prop}
    (hW : Lawful W A) (hR : Stays W A R) (s₀ : σ) : Lawful W (A.since R s₀) where
  top_le := fun s hs => hW.top_le s hs.1
  ld := fun v a ha ha' => (hW.ld v a ha ha').since hR.trans fun s r s' hs _ => hR.ld a s r s' hs
  st := fun v a w ha ha' => (hW.st v a w ha ha').since hR.trans fun s r s' hs hv =>
    hR.st a w s r s' hs ha (hv ▸ ha')
  start := fun v => (hW.start v).since hR.trans fun s r s' hs _ => hR.start s r s' hs
  setStart := fun v a => (hW.setStart v a).since hR.trans fun s r s' hs _ => hR.setStart a s r s' hs
  top := fun v => (hW.top v).since hR.trans fun s r s' hs _ => hR.top s r s' hs
  grow := fun v hlow hend hav => (hW.grow v hlow hend hav).since hR.trans fun s r s' hs _ =>
    hR.grow s r s' hs
  shrink := fun v hlow => (hW.shrink v hlow).since hR.trans fun s r s' hs hv =>
    hR.shrink s r s' hs (hv ▸ hlow)

/-- The header of a chunk at `a` is inside the window. -/
structure InWindow (v : View) (a : Nat) : Prop where
  low : heapStart ≤ a
  high : a + 12 ≤ v.top
  top : v.top ≤ heapEnd

section

variable {v w : View} {a x y prev next nxt : Nat} {c : Chunk} {cs : List Chunk}

theorem InWindow.wrote (h : w = v.store x y) (ha : InWindow v a) : InWindow w a := by
  subst h
  exact ⟨ha.low, ha.high, ha.top⟩

theorem Node.wrote (h : w = v.store x y) (hn : Node v.mem a prev next c)
    (ha : a + 12 ≤ 4294967296) (hx : x + 4 ≤ a ∨ a + 12 ≤ x ∧ x + 4 ≤ 4294967296) :
    Node w.mem a prev next c := by
  subst h
  exact hn.store ha hx

theorem Node.wrote_prev (h : w = v.store a y) (hn : Node v.mem a prev next c)
    (ha : a + 12 ≤ 4294967296) (hy : y < 4294967296) : Node w.mem a y next c := by
  subst h
  exact hn.store_prev ha hy

theorem Node.wrote_next (h : w = v.store (a + 4) y) (hn : Node v.mem a prev next c)
    (ha : a + 12 ≤ 4294967296) (hy : y < 4294967296) : Node w.mem a prev y c := by
  subst h
  exact hn.store_next ha hy

theorem Node.wrote_word {n : Nat} {b : Bool} (h : w = v.store (a + 8) (2 * n + b.toNat))
    (hn : Node v.mem a prev next c) (ha : a + 12 ≤ 4294967296) (hlt : n < 2147483648) :
    Node w.mem a prev next ⟨n, b⟩ := by
  subst h
  exact hn.store_word (d := ⟨n, b⟩) ha hlt

theorem Seg.wrote (h : w = v.store x y) (hs : Seg v.mem nxt prev a cs) (hz : Sized cs)
    (ha : a + total cs ≤ 4294967296)
    (hx : x + 4 ≤ a ∨ a + total cs ≤ x ∧ x + 4 ≤ 4294967296) : Seg w.mem nxt prev a cs := by
  subst h
  exact hs.store hz ha hx

theorem Seg.wrote_prev (h : w = v.store a y) (hs : Seg v.mem nxt prev a (c :: cs))
    (hz : Sized (c :: cs)) (ha : a + total (c :: cs) ≤ 4294967296) (hy : y < 4294967296) :
    Seg w.mem nxt y a (c :: cs) := by
  subst h
  exact hs.store_prev hz ha hy

/-- A write leaves the bytes outside its word alone. -/
theorem wrote_apply {z : Nat} (h : w = v.store x y) (hx : x + 4 ≤ 4294967296)
    (hz : z < x ∨ x + 4 ≤ z) : w.mem z = v.mem z := by
  subst h
  exact store32_apply_of_lt_or_ge hx hz

end

theorem InWindow.u32_add {v : View} {a i : Nat} (h : InWindow v a) (hi : i ≤ 12) :
    u32 (a + i) = a + i := by
  have h1 := h.high
  have h2 := h.top
  unfold heapEnd at h2
  exact u32_eq_self (by omega)

section

variable {σ : Type} {W : Window σ} {A : Abstraction σ View} (hW : Lawful W A)
  {v : View} {a prev next : Nat} {c : Chunk}

include hW

theorem gives_getPrev (hn : Node v.mem a prev next c) (ha : InWindow v a) :
    Gives A v (getPrev W a) prev v := by
  have h := ha.high
  rw [← hn.prev]
  exact hW.ld v a ha.low (by omega)

theorem gives_getNext (hn : Node v.mem a prev next c) (ha : InWindow v a) :
    Gives A v (getNext W a) next v := by
  have hl := ha.low
  have h := ha.high
  rw [← hn.next, getNext, ha.u32_add (by decide)]
  exact hW.ld v (a + 4) (by omega) (by omega)

theorem gives_getWord (ha : InWindow v a) :
    Gives A v (W.ld (u32 (a + 8))) (load32 v.mem (a + 8)) v := by
  have hl := ha.low
  have h := ha.high
  rw [ha.u32_add (by decide)]
  exact hW.ld v (a + 8) (by omega) (by omega)

theorem gives_getFree (hn : Node v.mem a prev next c) (ha : InWindow v a) :
    Gives A v (getFree W a) c.free.toNat v := by
  rw [← hn.free]
  exact (gives_getWord hW ha).bind (gives_pure _)

theorem gives_getLen (hn : Node v.mem a prev next c) (ha : InWindow v a) :
    Gives A v (getLen W a) c.len v := by
  rw [← hn.len]
  exact (gives_getWord hW ha).bind (gives_pure _)

theorem gives_setPrev (ha : InWindow v a) (w : Nat) :
    Gives A v (setPrev W a w) () (v.store a w) := by
  have h := ha.high
  exact hW.st v a w ha.low (by omega)

theorem gives_setNext (ha : InWindow v a) (w : Nat) :
    Gives A v (setNext W a w) () (v.store (a + 4) w) := by
  have hl := ha.low
  have h := ha.high
  rw [setNext, ha.u32_add (by decide)]
  exact hW.st v (a + 4) w (by omega) (by omega)

theorem gives_setWord (ha : InWindow v a) (w : Nat) :
    Gives A v (W.st (u32 (a + 8)) w) () (v.store (a + 8) w) := by
  have hl := ha.low
  have h := ha.high
  rw [ha.u32_add (by decide)]
  exact hW.st v (a + 8) w (by omega) (by omega)

theorem gives_setFree (hn : Node v.mem a prev next c) (ha : InWindow v a) (b : Bool) :
    Gives A v (setFree W a b.toNat) () (v.store (a + 8) (2 * c.len + b.toNat)) := by
  have h : Gives A v (setFree W a b.toNat) ()
      (v.store (a + 8) (load32 v.mem (a + 8) / 2 * 2 + b.toNat)) :=
    (gives_getWord hW ha).bind (gives_setWord hW ha _)
  rwa [hn.len, Nat.mul_comm] at h

theorem gives_setLen (hn : Node v.mem a prev next c) (ha : InWindow v a) {n : Nat}
    (hlt : n < 2147483648) :
    Gives A v (setLen W a n) () (v.store (a + 8) (2 * n + c.free.toNat)) := by
  have h : Gives A v (setLen W a n) ()
      (v.store (a + 8) (n % 2147483648 * 2 + load32 v.mem (a + 8) % 2)) :=
    (gives_getWord hW ha).bind (gives_setWord hW ha _)
  rwa [Nat.mod_eq_of_lt hlt, Nat.mul_comm n, hn.free] at h

end

end Heap

end Chunix
