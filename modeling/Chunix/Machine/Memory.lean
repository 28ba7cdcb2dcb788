import Mathlib.Algebra.GroupWithZero.Nat
import Mathlib.Logic.Function.Basic

/-!
# Byte memories and little-endian words

A memory is a function from byte addresses to bytes. `load32 m a` reads the
four bytes from `a` on as a little-endian word and `store32 m a w` writes one;
both reduce the address of every single byte modulo `2 ^ 32`, as a 32-bit
machine does. `fill` and `blit` are the block operations. Each operation comes
with the lemma that reads back what it wrote and the lemma that says which
bytes it leaves alone, so that later proofs never unfold a memory.
-/

namespace Machine

/-- Reduction of a natural number to a 32-bit word. -/
def u32 (n : Nat) : Nat := n % 4294967296

theorem u32_lt (n : Nat) : u32 n < 4294967296 := Nat.mod_lt _ (by decide)

theorem u32_eq_self {n : Nat} (h : n < 4294967296) : u32 n = n := Nat.mod_eq_of_lt h

@[simp] theorem u32_u32 (n : Nat) : u32 (u32 n) = u32 n := u32_eq_self (u32_lt n)

/-! The sizes of the tables and short texts of which an entry is named by a numeral. -/

instance neZero_sixteen : NeZero 16 := ⟨by decide⟩

instance neZero_twentyFour : NeZero 24 := ⟨by decide⟩

instance neZero_sixtyFour : NeZero 64 := ⟨by decide⟩

/-- A byte-addressed memory. -/
abbrev Memory := Nat → UInt8

/-- The little-endian word at the address `a`. -/
def load32 (m : Memory) (a : Nat) : Nat :=
  (m (u32 a)).toNat + 256 * (m (u32 (a + 1))).toNat +
    65536 * (m (u32 (a + 2))).toNat + 16777216 * (m (u32 (a + 3))).toNat

/-- The memory `m` with the little-endian word `w` written at the address `a`. -/
def store32 (m : Memory) (a w : Nat) : Memory := fun x =>
  if x = u32 a then UInt8.ofNat w
  else if x = u32 (a + 1) then UInt8.ofNat (w / 256)
  else if x = u32 (a + 2) then UInt8.ofNat (w / 65536)
  else if x = u32 (a + 3) then UInt8.ofNat (w / 16777216)
  else m x

theorem load32_lt (m : Memory) (a : Nat) : load32 m a < 4294967296 := by
  have h0 := (m (u32 a)).toNat_lt
  have h1 := (m (u32 (a + 1))).toNat_lt
  have h2 := (m (u32 (a + 2))).toNat_lt
  have h3 := (m (u32 (a + 3))).toNat_lt
  unfold load32
  omega

/-- A word is determined by its four bytes. -/
theorem load32_congr {m m' : Memory} {a : Nat}
    (h : ∀ i, i < 4 → m (u32 (a + i)) = m' (u32 (a + i))) :
    load32 m a = load32 m' a := by
  have h0 := h 0 (by decide)
  have h1 := h 1 (by decide)
  have h2 := h 2 (by decide)
  have h3 := h 3 (by decide)
  simp only [Nat.add_zero] at h0
  simp only [load32, h0, h1, h2, h3]

/-- Two memories that agree below the end of the address space from `a` to
`a + 4` hold the same word at `a`. -/
theorem load32_congr_range {m m' : Memory} {a : Nat} (ha : a + 4 ≤ 4294967296)
    (h : ∀ x, a ≤ x → x < a + 4 → m x = m' x) : load32 m a = load32 m' a := by
  apply load32_congr
  intro i hi
  rw [u32_eq_self (by omega)]
  exact h (a + i) (by omega) (by omega)

theorem store32_apply_of_lt_or_ge {m : Memory} {a w x : Nat}
    (ha : a + 4 ≤ 4294967296) (h : x < a ∨ a + 4 ≤ x) :
    store32 m a w x = m x := by
  have h0 : x ≠ u32 a := by rw [u32_eq_self (by omega)]; omega
  have h1 : x ≠ u32 (a + 1) := by rw [u32_eq_self (by omega)]; omega
  have h2 : x ≠ u32 (a + 2) := by rw [u32_eq_self (by omega)]; omega
  have h3 : x ≠ u32 (a + 3) := by rw [u32_eq_self (by omega)]; omega
  simp only [store32, h0, h1, h2, h3, if_false]

@[simp] theorem load32_store32_self (m : Memory) (a w : Nat) :
    load32 (store32 m a w) a = u32 w := by
  have h1 : u32 (a + 1) ≠ u32 a := by unfold u32; omega
  have h2 : u32 (a + 2) ≠ u32 a ∧ u32 (a + 2) ≠ u32 (a + 1) := by unfold u32; omega
  have h3 : u32 (a + 3) ≠ u32 a ∧ u32 (a + 3) ≠ u32 (a + 1) ∧
      u32 (a + 3) ≠ u32 (a + 2) := by unfold u32; omega
  simp only [load32, store32, if_true, h1, h2.1, h2.2, h3.1, h3.2.1, h3.2.2,
    if_false, UInt8.toNat_ofNat']
  unfold u32
  omega

theorem load32_store32_of_disjoint {m : Memory} {a b w : Nat}
    (ha : a + 4 ≤ 4294967296) (hb : b + 4 ≤ 4294967296)
    (h : a + 4 ≤ b ∨ b + 4 ≤ a) : load32 (store32 m a w) b = load32 m b := by
  apply load32_congr_range hb
  intro x hx hx'
  exact store32_apply_of_lt_or_ge ha (by omega)

/-- Two words with the same bytes. -/
theorem load32_shift {m m' : Memory} {a b : Nat} (ha : a + 4 ≤ 4294967296) (hb : b + 4 ≤ 4294967296)
    (h : ∀ i, i < 4 → m (a + i) = m' (b + i)) : load32 m a = load32 m' b := by
  have h₀ := h 0 (by decide)
  have h₁ := h 1 (by decide)
  have h₂ := h 2 (by decide)
  have h₃ := h 3 (by decide)
  simp only [Nat.add_zero] at h₀
  simp only [load32]
  rw [u32_eq_self (show a < 4294967296 by omega), u32_eq_self (show a + 1 < 4294967296 by omega),
    u32_eq_self (show a + 2 < 4294967296 by omega), u32_eq_self (show a + 3 < 4294967296 by omega),
    u32_eq_self (show b < 4294967296 by omega), u32_eq_self (show b + 1 < 4294967296 by omega),
    u32_eq_self (show b + 2 < 4294967296 by omega), u32_eq_self (show b + 3 < 4294967296 by omega),
    h₀, h₁, h₂, h₃]

/-- The memory with these words and zeros elsewhere. -/
def words (ws : List (Nat × Nat)) : Memory := ws.foldr (fun w m => store32 m w.1 w.2) fun _ => 0

theorem words_zero {ws : List (Nat × Nat)} {a : Nat} (hb : ∀ b ∈ ws.map Prod.fst, b + 4 ≤ 4294967296)
    (h : ∀ b ∈ ws.map Prod.fst, a < b ∨ b + 4 ≤ a) : words ws a = 0 := by
  induction ws with
  | nil => rfl
  | cons w ws ih =>
      obtain ⟨hb₁, hb⟩ := List.forall_mem_cons.1 hb
      obtain ⟨h₁, h⟩ := List.forall_mem_cons.1 h
      exact (store32_apply_of_lt_or_ge hb₁ h₁).trans (ih hb h)

theorem load32_words_zero {ws : List (Nat × Nat)} {a : Nat} (ha : a + 4 ≤ 4294967296)
    (hb : ∀ b ∈ ws.map Prod.fst, b + 4 ≤ 4294967296)
    (h : ∀ b ∈ ws.map Prod.fst, a + 4 ≤ b ∨ b + 4 ≤ a) : load32 (words ws) a = 0 := by
  have hz : load32 (words ws) a = load32 (fun _ => 0) a :=
    load32_congr_range ha fun x hx hx' => words_zero hb fun b hb' => by
      have := h b hb'
      omega
  rw [hz]
  rfl

theorem load32_words {ws : List (Nat × Nat)} {a w : Nat}
    (hb : ∀ b ∈ ws.map Prod.fst, b + 4 ≤ 4294967296)
    (hd : (ws.map Prod.fst).Pairwise fun b c => b + 4 ≤ c ∨ c + 4 ≤ b) (h : (a, w) ∈ ws) :
    load32 (words ws) a = u32 w := by
  induction ws with
  | nil => cases h
  | cons v ws ih =>
      obtain ⟨hb₁, hb⟩ := List.forall_mem_cons.1 hb
      obtain ⟨hd₁, hd⟩ := List.pairwise_cons.1 hd
      rcases List.mem_cons.1 h with rfl | h
      · exact load32_store32_self _ _ _
      · have ha := List.mem_map_of_mem (f := Prod.fst) h
        exact (load32_store32_of_disjoint hb₁ (hb _ ha) (hd₁ _ ha)).trans (ih hb hd h)

/-- The memory `m` with the `n` bytes from `a` on set to `c`. -/
def fill (m : Memory) (a n : Nat) (c : UInt8) : Memory := fun x =>
  if a ≤ x ∧ x < a + n then c else m x

theorem fill_apply_of_mem {m : Memory} {a n x : Nat} {c : UInt8}
    (h : a ≤ x ∧ x < a + n) : fill m a n c x = c := if_pos h

theorem fill_apply_of_notMem {m : Memory} {a n x : Nat} {c : UInt8}
    (h : x < a ∨ a + n ≤ x) : fill m a n c x = m x := if_neg (by omega)

/-- The memory `m` with the `n` bytes at `src` copied to `dst`. The copy reads
the old bytes only, so the two ranges may overlap. -/
def blit (m : Memory) (dst src n : Nat) : Memory := fun x =>
  if dst ≤ x ∧ x < dst + n then m (src + (x - dst)) else m x

theorem blit_apply_of_mem {m : Memory} {dst src n x : Nat}
    (h : dst ≤ x ∧ x < dst + n) : blit m dst src n x = m (src + (x - dst)) := if_pos h

theorem blit_apply_of_notMem {m : Memory} {dst src n x : Nat}
    (h : x < dst ∨ dst + n ≤ x) : blit m dst src n x = m x := if_neg (by omega)

end Machine
