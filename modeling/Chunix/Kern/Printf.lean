import Chunix.Trap.Write
import Mathlib.Data.Nat.Digits.Lemmas

/-!
# The digits of a number

`printint` divides by the base until nothing is left and puts the digits, a sign and the
mark of the base into a buffer, in the order opposite to that of the text. What it prints
is the shortest numeral of the number: reading it back gives the number, and no shorter
text does.
-/

namespace Chunix

namespace Syscall

open Machine Sfs

variable {n k ui : Nat}

theorem digits_length_le (h : ui < 10 ^ k) (hk : 0 < k) : (digits 10 n ui).length ≤ k := by
  induction k generalizing n ui with
  | zero => omega
  | succ k ih =>
      cases n with
      | zero => exact Nat.zero_le _
      | succ n =>
          rw [digits]
          by_cases hq : ui / 10 = 0
          · rw [if_pos hq]
            exact Nat.succ_le_succ (Nat.zero_le k)
          · have hlt : ui / 10 < 10 ^ k := by
              rw [Nat.pow_succ] at h
              omega
            have hpos : 0 < k := by
              rcases Nat.eq_zero_or_pos k with rfl | hpos
              · simp only [Nat.pow_zero] at hlt
                omega
              · exact hpos
            rw [if_neg hq]
            exact Nat.succ_le_succ (ih hlt hpos)

/-- The characters of a decimal number. -/
theorem mem_digits {c : UInt8} (h : c ∈ digits 10 n ui) : ∃ d, d < 10 ∧ c = digit d := by
  induction n generalizing ui with
  | zero => cases h
  | succ n ih =>
      rw [digits] at h
      rcases List.mem_cons.1 h with rfl | h
      · exact ⟨ui % 10, Nat.mod_lt _ (by decide), rfl⟩
      · by_cases hq : ui / 10 = 0
        · rw [if_pos hq] at h
          cases h
        · rw [if_neg hq] at h
          exact ih h

/-- A number that is not negative is put out as its decimal digits. -/
theorem printint_decimal (h : n < 2147483648) :
    printint n 10 true = (digits 10 32 n).reverse := by
  have hneg : (true && decide (2147483648 ≤ n)) = false := by simpa using h
  rw [printint]
  simp only [hneg]
  rfl

/-! ### Reading a numeral back -/

/-- The value of a digit in a base. -/
def readDigit (base : Nat) (c : UInt8) : Option Nat :=
  let d := if c.toNat < 58 then c.toNat - 48 else c.toNat - 55
  if 48 ≤ c.toNat ∧ c.toNat < 58 ∨ 65 ≤ c.toNat ∧ c.toNat < 71 then
    if d < base then some d else none
  else none

/-- The value of the digits of a numeral behind those with the value `v`. -/
def readFrom (base : Nat) : Nat → List UInt8 → Option Nat
  | v, [] => some v
  | v, c :: l => (readDigit base c).bind fun d => readFrom base (v * base + d) l

/-- The value of an unsigned numeral, which has at least one digit. -/
def readNumeral (base : Nat) (l : List UInt8) : Option Nat :=
  if l = [] then none else readFrom base 0 l

/-- The value of a decimal numeral with or without a minus sign. -/
def readSigned : List UInt8 → Option Int
  | [] => none
  | c :: l =>
      if [c] = text "-" then (readNumeral 10 l).map fun n : Nat => -(n : Int)
      else (readNumeral 10 (c :: l)).map fun n : Nat => (n : Int)

/-- The text `l` stands for `x`, and no shorter one does. -/
structure Shortest {α : Type} (read : List UInt8 → Option α) (x : α) (l : List UInt8) : Prop where
  reads : read l = some x
  shortest : ∀ l', read l' = some x → l.length ≤ l'.length

theorem readDigit_digit {base d : Nat} (hb : base ≤ 16) (hd : d < base) :
    readDigit base (digit d) = some d := by
  have h : ∀ d, d < 16 → (digit d).toNat = if d < 10 then 48 + d else 55 + d := by decide
  rw [readDigit, h d (by omega)]
  by_cases hten : d < 10
  · simp only [if_pos hten, if_pos (show 48 + d < 58 by omega)]
    rw [if_pos (by omega), if_pos (by omega), Nat.add_sub_cancel_left]
  · simp only [if_neg hten, if_neg (show ¬ 55 + d < 58 by omega)]
    rw [if_pos (by omega), if_pos (by omega), Nat.add_sub_cancel_left]

theorem readDigit_lt {base d : Nat} {c : UInt8} (h : readDigit base c = some d) : d < base := by
  rw [readDigit] at h
  generalize (if c.toNat < 58 then c.toNat - 48 else c.toNat - 55) = e at h
  split_ifs at h with hc he
  cases h
  exact he

theorem readFrom_concat (base v : Nat) (l : List UInt8) (c : UInt8) :
    readFrom base v (l ++ [c]) =
      (readFrom base v l).bind fun w => (readDigit base c).map (w * base + ·) := by
  induction l generalizing v with
  | nil =>
      simp only [List.nil_append, readFrom, Option.bind_some]
      cases readDigit base c <;> rfl
  | cons b l ih =>
      simp only [List.cons_append, readFrom, ih]
      cases readDigit base b <;> rfl

/-- The digits of `Nat.digits`, which begin with the last one, read back. -/
theorem readFrom_reverse {base : Nat} (hb : base ≤ 16) (v : Nat) {ds : List Nat}
    (hds : ∀ d ∈ ds, d < base) :
    readFrom base v (ds.map digit).reverse =
      some (v * base ^ ds.length + Nat.ofDigits base ds) := by
  induction ds with
  | nil => simp [readFrom]
  | cons d ds ih =>
      obtain ⟨hd, hds⟩ := List.forall_mem_cons.1 hds
      rw [List.map_cons, List.reverse_cons, readFrom_concat, ih hds, readDigit_digit hb hd,
        Option.bind_some, Option.map_some, Nat.ofDigits_cons, List.length_cons]
      congr 1
      ring

/-- A text of `k` digits stands for a number below the `k`th power of the base. -/
theorem readFrom_lt {base v w : Nat} {l : List UInt8} (h : readFrom base v l = some w) :
    w < (v + 1) * base ^ l.length := by
  induction l generalizing v with
  | nil =>
      cases h
      simp
  | cons c l ih =>
      obtain ⟨d, hd, h⟩ := Option.bind_eq_some_iff.1 h
      have hlt := readDigit_lt hd
      calc w < (v * base + d + 1) * base ^ l.length := ih h
        _ ≤ (v * base + base) * base ^ l.length := Nat.mul_le_mul_right _ (by omega)
        _ = (v + 1) * base ^ (l.length + 1) := by ring

theorem readNumeral_lt {base w : Nat} {l : List UInt8} (h : readNumeral base l = some w) :
    l ≠ [] ∧ w < base ^ l.length := by
  unfold readNumeral at h
  split at h
  · cases h
  · have := readFrom_lt h
    rw [Nat.zero_add, Nat.one_mul] at this
    exact ⟨‹_›, this⟩

/-! ### What the loop leaves -/

/-- The loop gives the digits of the number, and one zero for zero. -/
theorem digits_eq {base : Nat} (hb : 1 < base) (h : ui < base ^ k) (hk : 0 < k) :
    digits base k ui = (if ui = 0 then [0] else Nat.digits base ui).map digit := by
  induction k generalizing ui with
  | zero => omega
  | succ k ih =>
      rw [digits]
      by_cases hq : ui / base = 0
      · rw [if_pos hq]
        have hlt : ui < base := by
          by_contra hge
          exact absurd hq (Nat.div_pos (by omega) (by omega)).ne'
        rw [Nat.mod_eq_of_lt hlt]
        by_cases hz : ui = 0
        · rw [if_pos hz, hz]
          rfl
        · rw [if_neg hz, Nat.digits_of_lt base ui hz hlt]
          rfl
      · have hz : ui ≠ 0 := by
          rintro rfl
          exact hq (Nat.zero_div base)
        have hlt : ui / base < base ^ k := by
          rw [Nat.div_lt_iff_lt_mul (by omega), ← Nat.pow_succ]
          exact h
        have hpos : 0 < k := by
          rcases Nat.eq_zero_or_pos k with rfl | hpos
          · rw [Nat.pow_zero] at hlt
            exact absurd (Nat.lt_one_iff.1 hlt) hq
          · exact hpos
        rw [if_neg hq, ih hlt hpos, if_neg hq, if_neg hz,
          Nat.digits_def' hb (Nat.pos_of_ne_zero hz), List.map_cons]

/-- The digits of the loop, read from the other end, are the shortest numeral. -/
theorem digits_shortest {base : Nat} (hb : 1 < base) (hb' : base ≤ 16) (h : ui < base ^ k)
    (hk : 0 < k) : Shortest (readNumeral base) ui (digits base k ui).reverse := by
  rw [digits_eq hb h hk]
  by_cases hz : ui = 0
  · subst hz
    rw [if_pos rfl]
    refine ⟨?_, fun l hl => ?_⟩
    · simp [readNumeral, readFrom, readDigit_digit hb' (show 0 < base by omega)]
    · exact List.length_pos_iff.2 (readNumeral_lt hl).1
  · rw [if_neg hz]
    refine ⟨?_, fun l hl => ?_⟩
    · have hne : ((Nat.digits base ui).map digit).reverse ≠ [] := by
        rw [ne_eq, List.reverse_eq_nil_iff, List.map_eq_nil_iff]
        exact Nat.digits_ne_nil_iff_ne_zero.2 hz
      rw [readNumeral, if_neg hne, readFrom_reverse hb' 0 fun d hd => Nat.digits_lt_base hb hd,
        Nat.zero_mul, Nat.zero_add, Nat.ofDigits_digits]
    · rw [List.length_reverse, List.length_map, Nat.digits_length_le_iff hb]
      exact (readNumeral_lt hl).2

theorem digits_length_le_fuel (base n ui : Nat) : (digits base n ui).length ≤ n := by
  induction n generalizing ui with
  | zero => exact Nat.le_refl 0
  | succ n ih =>
      rw [digits]
      split
      · exact Nat.succ_le_succ (Nat.zero_le n)
      · exact Nat.succ_le_succ (ih _)

/-! ### The whole text -/

/-- A negative number is put out as a minus sign and the digits of its absolute value, also
the one that has no negation. -/
theorem printint_negative (h : 2147483648 ≤ n) (hn : n < 4294967296) :
    printint n 10 true = text "-" ++ (digits 10 32 (4294967296 - n)).reverse := by
  have hneg : (true && decide (2147483648 ≤ n)) = true := by simpa using h
  rw [printint]
  simp only [hneg, if_true, u32_eq_self (show 4294967296 - n < 4294967296 by omega)]
  exact List.reverse_append

/-- What is put in front of a number in another base than ten. -/
def radixMark (base : Nat) : List UInt8 :=
  if base = 2 then text "0b" else if base = 8 then text "0o" else text "0x"

theorem printint_radix {base : Nat} (hb : base = 2 ∨ base = 8 ∨ base = 16) (n : Nat) :
    printint n base false = radixMark base ++ (digits base 32 n).reverse := by
  rw [printint]
  obtain rfl | rfl | rfl := hb <;> simp [radixMark, text]

theorem readSigned_minus (l : List UInt8) :
    readSigned (text "-" ++ l) = (readNumeral 10 l).map fun n : Nat => -(n : Int) := by
  have hminus : text "-" = [0x2d] := by decide
  rw [hminus, List.singleton_append, readSigned, if_pos hminus.symm]

/-- A text that is read as a number without a sign is read as that number. -/
theorem readSigned_of_readNumeral {l : List UInt8} (h : readNumeral 10 l = some n) :
    readSigned l = some (n : Int) := by
  cases l with
  | nil => cases h
  | cons c l =>
      have hc : [c] ≠ text "-" := by
        intro he
        have hminus : c = 0x2d := by simpa [text] using he
        subst hminus
        cases h
      rw [readSigned, if_neg hc, h]
      rfl

/-- What a text is that stands for a number with a sign. -/
theorem readSigned_cases {l : List UInt8} {z : Int} (h : readSigned l = some z) :
    (∃ l' v, l = text "-" ++ l' ∧ readNumeral 10 l' = some v ∧ z = -(v : Int)) ∨
      ∃ v, readNumeral 10 l = some v ∧ z = (v : Int) := by
  cases l with
  | nil => cases h
  | cons c l =>
      rw [readSigned] at h
      by_cases hc : [c] = text "-"
      · rw [if_pos hc] at h
        obtain ⟨v, hv, rfl⟩ := Option.map_eq_some_iff.1 h
        exact Or.inl ⟨l, v, by rw [← hc]; rfl, hv, rfl⟩
      · rw [if_neg hc] at h
        obtain ⟨v, hv, rfl⟩ := Option.map_eq_some_iff.1 h
        exact Or.inr ⟨v, hv, rfl⟩

theorem printint_signed (hn : n < 4294967296) :
    Shortest readSigned (int32 n) (printint n 10 true) := by
  by_cases hneg : n < 2147483648
  · have hshort : Shortest (readNumeral 10) n (digits 10 32 n).reverse :=
      digits_shortest (by decide) (by decide) (Nat.lt_of_lt_of_le hn (by decide)) (by decide)
    rw [printint_decimal hneg, int32, if_pos hneg]
    refine ⟨readSigned_of_readNumeral hshort.reads, fun l hl => ?_⟩
    obtain ⟨l', v, rfl, hv, hz⟩ | ⟨v, hv, hz⟩ := readSigned_cases hl
    · -- the only number that is written with and without a sign is zero
      have hzero : v = n := by omega
      have hle := hshort.shortest l' (hzero ▸ hv)
      rw [List.length_append]
      omega
    · have hzero : v = n := by omega
      exact hshort.shortest l (hzero ▸ hv)
  · have hge : 2147483648 ≤ n := Nat.le_of_not_lt hneg
    have hshort : Shortest (readNumeral 10) (4294967296 - n)
        (digits 10 32 (4294967296 - n)).reverse :=
      digits_shortest (by decide) (by decide)
        (Nat.lt_of_lt_of_le (show 4294967296 - n < 4294967296 by omega) (by decide)) (by decide)
    rw [printint_negative hge hn, int32, if_neg hneg]
    refine ⟨?_, fun l hl => ?_⟩
    · have hval : -((4294967296 - n : Nat) : Int) = (n : Int) - 4294967296 := by omega
      rw [readSigned_minus, hshort.reads, Option.map_some, hval]
    · obtain ⟨l', v, rfl, hv, hz⟩ | ⟨v, hv, hz⟩ := readSigned_cases hl
      · have habs : v = 4294967296 - n := by omega
        rw [List.length_append, List.length_append]
        exact Nat.add_le_add_left (hshort.shortest l' (habs ▸ hv)) _
      · omega

theorem printint_unsigned {base : Nat} (hb : base = 2 ∨ base = 8 ∨ base = 16)
    (hn : n < 4294967296) :
    ∃ l, printint n base false = radixMark base ++ l ∧ Shortest (readNumeral base) n l := by
  refine ⟨_, printint_radix hb n, digits_shortest (by omega) (by omega) ?_ (by decide)⟩
  calc n < 2 ^ 32 := hn
    _ ≤ base ^ 32 := Nat.pow_le_pow_left (by omega) 32

/-- The size `BUF_LEN` of the buffer. -/
def bufLen : Nat := 64 + 3

/-- Every character that is printed was in the buffer. There are 32 digits at most, a sign
and the mark of the base. -/
theorem printint_length_le (n base : Nat) (sign : Bool) :
    (printint n base sign).length ≤ bufLen := by
  have hone : (text "-").length = 1 ∧ (text "b").length = 1 ∧ (text "o").length = 1 ∧
      (text "x").length = 1 ∧ (text "0").length = 1 := by decide
  obtain ⟨h₁, h₂, h₃, h₄, h₅⟩ := hone
  have hsign : ∀ (b : Bool) (l : List UInt8), l.length ≤ 32 →
      (if b then l ++ text "-" else l).length ≤ 33 := by
    intro b l hl
    split
    · rw [List.length_append, h₁]
      omega
    · omega
  have hmark : ∀ l : List UInt8, l.length ≤ 33 →
      (if base = 2 then l ++ text "b" else if base = 8 then l ++ text "o"
        else if base = 16 then l ++ text "x" else l).length ≤ 34 := by
    intro l hl
    split_ifs
    · rw [List.length_append, h₂]
      omega
    · rw [List.length_append, h₃]
      omega
    · rw [List.length_append, h₄]
      omega
    · omega
  have hbuf := hmark _ (hsign (sign && decide (2147483648 ≤ n)) _ (digits_length_le_fuel base 32
    (if (sign && decide (2147483648 ≤ n)) = true then u32 (4294967296 - n) else n)))
  rw [printint, List.length_reverse, bufLen]
  split
  · rw [List.length_append, h₅]
    omega
  · omega

/-- What `printint` prints of a word is the shortest signed decimal numeral of it or, in
base 2, 8 or 16, the mark of the base and the shortest unsigned numeral, and its buffer is
large enough. -/
theorem printint_faithful (n : Nat) (hn : n < 4294967296) :
    Shortest readSigned (int32 n) (printint n 10 true) ∧ (printint n 10 true).length ≤ bufLen ∧
      ∀ base, base = 2 ∨ base = 8 ∨ base = 16 →
        (∃ l, printint n base false = radixMark base ++ l ∧ Shortest (readNumeral base) n l) ∧
          (printint n base false).length ≤ bufLen :=
  ⟨printint_signed hn, printint_length_le n 10 true,
    fun base hb => ⟨printint_unsigned hb hn, printint_length_le n base false⟩⟩

/-- The most negative number. -/
theorem printint_least :
    printint 0x80000000 10 true = text "-2147483648" ∧
      Shortest readSigned (-2147483648) (printint 0x80000000 10 true) := by
  refine ⟨by decide +kernel, ?_⟩
  exact (printint_faithful 0x80000000 (by decide)).1

end Syscall

end Chunix
