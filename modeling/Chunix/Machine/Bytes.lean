import Chunix.Machine.Memory
import Mathlib.Data.List.GetD
import Mathlib.Tactic.Ring

/-!
# Records in memory

Files and structures are read and written as stretches of bytes. `paste` writes a
stretch, `slice` takes one out as a value of its own and `extend` puts such a
value back in front of other bytes. `getLe` and `putLe` are the little-endian
fields of any width, and a `CString` is a string that ends with a zero byte.
-/

namespace Machine

/-- The memory `m` with the first `n` bytes of `f` written at `a`. -/
def paste (m : Memory) (a n : Nat) (f : Memory) : Memory := fun x =>
  if a ≤ x ∧ x < a + n then f (x - a) else m x

theorem paste_apply_of_mem {m f : Memory} {a n x : Nat} (h : a ≤ x ∧ x < a + n) :
    paste m a n f x = f (x - a) := if_pos h

theorem paste_apply_of_notMem {m f : Memory} {a n x : Nat} (h : x < a ∨ a + n ≤ x) :
    paste m a n f x = m x := if_neg (by omega)

@[simp] theorem paste_apply_add {m f : Memory} {a n i : Nat} (h : i < n) :
    paste m a n f (a + i) = f i := by
  rw [paste_apply_of_mem ⟨by omega, by omega⟩, Nat.add_sub_cancel_left]

/-- The `n` bytes from `a` on. -/
def slice (n : Nat) (m : Memory) (a : Nat) : Fin n → UInt8 := fun i => m (a + i)

theorem slice_congr {n a a' : Nat} {m m' : Memory} (h : ∀ i, i < n → m (a + i) = m' (a' + i)) :
    slice n m a = slice n m' a' :=
  funext fun i => h i i.isLt

/-- The bytes `b` with other bytes behind them. -/
def extend {n : Nat} (b : Fin n → UInt8) (after : Memory) : Memory := fun i =>
  if h : i < n then b ⟨i, h⟩ else after (i - n)

theorem extend_slice {n a i : Nat} {m after : Memory} (h : i < n) :
    extend (slice n m a) after i = m (a + i) := dif_pos h

/-- The little-endian number in the `k` bytes from `a` on. -/
def getLe (m : Memory) (a : Nat) : Nat → Nat
  | 0 => 0
  | k + 1 => (m a).toNat + 256 * getLe m (a + 1) k

/-- The memory `m` with the number `v` written into the `k` bytes from `a` on. -/
def putLe (m : Memory) (a k v : Nat) : Memory :=
  paste m a k fun i => UInt8.ofNat (v / 256 ^ i)

theorem getLe_congr {m m' : Memory} {a k a' : Nat}
    (h : ∀ i, i < k → m (a + i) = m' (a' + i)) : getLe m a k = getLe m' a' k := by
  induction k generalizing a a' with
  | zero => rfl
  | succ k ih =>
      have h₀ := h 0 (by omega)
      simp only [Nat.add_zero] at h₀
      rw [getLe, getLe, h₀, ih]
      intro i hi
      have := h (i + 1) (by omega)
      rwa [show a + 1 + i = a + (i + 1) by omega, show a' + 1 + i = a' + (i + 1) by omega]

theorem getLe_of_digits {m : Memory} {a k v : Nat}
    (h : ∀ i, i < k → m (a + i) = UInt8.ofNat (v / 256 ^ i)) : getLe m a k = v % 256 ^ k := by
  induction k generalizing a v with
  | zero => simp [getLe, Nat.mod_one]
  | succ k ih =>
      have h₀ := h 0 (by omega)
      simp only [Nat.add_zero, pow_zero, Nat.div_one] at h₀
      have ih' : getLe m (a + 1) k = v / 256 % 256 ^ k := by
        refine ih fun i hi => ?_
        have := h (i + 1) (by omega)
        rwa [show a + 1 + i = a + (i + 1) by omega, Nat.div_div_eq_div_mul, ← pow_succ']
      rw [getLe, h₀, ih', UInt8.toNat_ofNat', pow_succ' 256, Nat.mod_mul]

theorem getLe_putLe (m : Memory) (a k v : Nat) : getLe (putLe m a k v) a k = v % 256 ^ k :=
  getLe_of_digits fun _ hi => paste_apply_add hi

theorem getLe_lt (m : Memory) (a k : Nat) : getLe m a k < 256 ^ k := by
  induction k generalizing a with
  | zero => simp [getLe]
  | succ k ih =>
      have h₀ : (m a).toNat < 256 := (m a).toNat_lt
      have hrest := ih (a + 1)
      rw [getLe, pow_succ']
      omega

theorem getLe_one (m : Memory) (a : Nat) : getLe m a 1 = (m a).toNat := by
  simp [getLe]

/-- A string in memory: `len` bytes that are not zero, and a zero byte. Its length
is a value of type `int`. What lies behind it is `text` too. -/
structure CString where
  text : Memory
  len : Nat
  len_lt : len < 2147483648
  nonzero : ∀ i, i < len → text i ≠ 0
  terminated : text len = 0

namespace CString

/-- The characters of the string. -/
def chars (s : CString) : List UInt8 := (List.range s.len).map s.text

@[simp] theorem length_chars (s : CString) : s.chars.length = s.len := by simp [chars]

theorem getElem_chars (s : CString) {i : Nat} (h : i < s.chars.length) :
    s.chars[i] = s.text i := by simp [chars]

/-- A string with given characters, and zero bytes behind it. -/
def ofList (l : List UInt8) (hlen : l.length < 2147483648) (h : ∀ c ∈ l, c ≠ 0) : CString where
  text i := l.getD i 0
  len := l.length
  len_lt := hlen
  nonzero i hi := by
    rw [List.getD_eq_getElem l 0 hi]
    exact h _ (List.getElem_mem hi)
  terminated := by simp

theorem chars_ofList (l : List UInt8) (hlen : l.length < 2147483648) (h : ∀ c ∈ l, c ≠ 0) :
    (ofList l hlen h).chars = l := by
  refine List.ext_getElem (by simp [ofList]) fun i h₁ h₂ => ?_
  rw [getElem_chars]
  exact List.getD_eq_getElem _ _ h₂

end CString

end Machine
