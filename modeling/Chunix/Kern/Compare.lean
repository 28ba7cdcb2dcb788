import Chunix.Sfs.Reader

/-!
# Comparing strings

`strncmp` stops at the first difference, after `n` characters, or when one of its
pointers has become null. The test for the end of a string that one expects in the
condition of the loop is a test of the pointers, so that behind a common terminator the
function goes on to compare what happens to lie there. The characters are signed.
-/

namespace Chunix

namespace Str

open Machine Sfs

/-- `strncmp` of the strings at the addresses `s` and `t`. -/
def strncmp (m : Memory) : Nat → Nat → Nat → Int
  | _, _, 0 => 0
  | s, t, n + 1 =>
      if s ≠ 0 ∧ t ≠ 0 ∧ m s = m t then strncmp m (u32 (s + 1)) (u32 (t + 1)) n
      else if s = 0 ∧ t = 0 then 0
      else if s = 0 then -1
      else if t = 0 then 1
      else char (m s) - char (m t)

/-- The string `s` lies at the address `a`, which is not null. -/
structure Lies (m : Memory) (a : Nat) (s : CString) : Prop where
  ne_zero : a ≠ 0
  bound : a + s.len < 4294967296
  text : ∀ i, i ≤ s.len → m (a + i) = s.text i

/-- The first `n` characters of the strings are there and the same, or the strings are the
same up to a common terminator before that. -/
def Agree (s t : CString) (n : Nat) : Prop :=
  (n ≤ s.len ∧ n ≤ t.len ∧ ∀ i, i < n → s.text i = t.text i) ∨
    (s.len < n ∧ t.len = s.len ∧ ∀ i, i < s.len → s.text i = t.text i)

/-- The first difference of the strings is at `i`, within the first `n` characters. -/
structure Differ (s t : CString) (n i : Nat) : Prop where
  lt : i < n
  le_left : i ≤ s.len
  le_right : i ≤ t.len
  before : ∀ j, j < i → s.text j = t.text j
  ne : s.text i ≠ t.text i

/-- What the standard says of the result `r` for two strings: it is zero exactly if they
agree, and has the sign of the first difference of the characters, which are unsigned. -/
structure Compares (s t : CString) (n : Nat) (r : Int) : Prop where
  zero : r = 0 ↔ Agree s t n
  sign : ∀ i, Differ s t n i → (r < 0 ↔ s.text i < t.text i)

section

variable {m : Memory} {a b n i : Nat} {s t : CString}

/-- The comparison comes to a difference, or the strings agree. -/
theorem agree_or_differ (s t : CString) (n : Nat) : Agree s t n ∨ ∃ i, Differ s t n i := by
  by_cases h : ∃ i, i < n ∧ i ≤ s.len ∧ i ≤ t.len ∧ s.text i ≠ t.text i
  · have hfirst := Nat.find_spec h
    refine Or.inr ⟨Nat.find h, hfirst.1, hfirst.2.1, hfirst.2.2.1, fun j hj => ?_, hfirst.2.2.2⟩
    by_contra hne
    exact Nat.find_min h hj ⟨by omega, by omega, by omega, hne⟩
  · have hsame : ∀ i, i < n → i ≤ s.len → i ≤ t.len → s.text i = t.text i := by
      intro i hi his hit
      by_contra hne
      exact h ⟨i, hi, his, hit, hne⟩
    refine Or.inl ?_
    by_cases hn : n ≤ s.len ∧ n ≤ t.len
    · exact Or.inl ⟨hn.1, hn.2, fun i hi => hsame i hi (by omega) (by omega)⟩
    · -- the end of the shorter string is one of the characters that are the same
      have hlen : t.len = s.len := by
        rcases Nat.lt_trichotomy s.len t.len with hlt | heq | hlt
        · have := hsame s.len (by omega) (Nat.le_refl _) (by omega)
          rw [s.terminated] at this
          exact absurd this.symm (t.nonzero s.len hlt)
        · exact heq.symm
        · have := hsame t.len (by omega) (by omega) (Nat.le_refl _)
          rw [t.terminated] at this
          exact absurd this (s.nonzero t.len hlt)
      exact Or.inr ⟨by omega, hlen, fun i hi => hsame i (by omega) (by omega) (by omega)⟩

theorem Differ.not_agree (h : Differ s t n i) : ¬ Agree s t n := by
  have hlt := h.lt
  have hle := h.le_left
  rintro (⟨-, -, hsame⟩ | ⟨-, hlen, hsame⟩)
  · exact h.ne (hsame i hlt)
  · rcases Nat.eq_or_lt_of_le hle with rfl | hi
    · refine h.ne ?_
      rw [s.terminated, ← hlen, t.terminated]
    · exact h.ne (hsame i hi)

theorem Lies.same (hs : Lies m a s) (ht : Lies m b t) (hlen : t.len = s.len)
    (hsame : ∀ i, i < s.len → s.text i = t.text i) (hi : i ≤ s.len) : m (a + i) = m (b + i) := by
  rw [hs.text i hi, ht.text i (by omega)]
  rcases Nat.eq_or_lt_of_le hi with rfl | hlt
  · rw [s.terminated, ← hlen, t.terminated]
  · exact hsame i hlt

/-! ### The loop -/

/-- The loop passes what is the same. -/
theorem strncmp_skip (hs : Lies m a s) (ht : Lies m b t) (hai : a + i ≤ 4294967296)
    (hbi : b + i ≤ 4294967296) (h : ∀ j, j < i → m (a + j) = m (b + j)) :
    strncmp m a b (n + i) = strncmp m (u32 (a + i)) (u32 (b + i)) n := by
  have ha := hs.ne_zero
  have hb := ht.ne_zero
  have hal := hs.bound
  have hbl := ht.bound
  induction i generalizing n with
  | zero => rw [Nat.add_zero, Nat.add_zero, Nat.add_zero, u32_eq_self (by omega), u32_eq_self (by omega)]
  | succ i ih =>
      have hskip := ih (n := n + 1) (by omega) (by omega) fun j hj => h j (by omega)
      rw [show n + (i + 1) = n + 1 + i by omega, hskip, u32_eq_self (show a + i < 4294967296 by omega),
        u32_eq_self (show b + i < 4294967296 by omega), strncmp,
        if_pos ⟨by omega, by omega, h i (Nat.lt_succ_self i)⟩]
      rfl

/-- A string agrees with itself, whatever lies behind it. -/
theorem strncmp_self (m : Memory) (a n : Nat) : strncmp m a a n = 0 := by
  induction n generalizing a with
  | zero => rfl
  | succ n ih =>
      rw [strncmp]
      by_cases ha : a = 0
      · rw [if_neg fun h => h.1 ha, if_pos ⟨ha, ha⟩]
      · rw [if_pos ⟨ha, ha, rfl⟩]
        exact ih _

theorem Differ.strncmp_eq (h : Differ s t n i) (hs : Lies m a s) (ht : Lies m b t) :
    strncmp m a b n = char (s.text i) - char (t.text i) := by
  have hsb := hs.bound
  have htb := ht.bound
  have his := h.le_left
  have hit := h.le_right
  have hlt := h.lt
  have hskip := strncmp_skip (n := n - i) (i := i) hs ht (by omega) (by omega)
    fun j hj => by rw [hs.text j (by omega), ht.text j (by omega), h.before j hj]
  rw [Nat.sub_add_cancel (Nat.le_of_lt hlt)] at hskip
  obtain ⟨k, hk⟩ : ∃ k, n - i = k + 1 := ⟨n - i - 1, by omega⟩
  have hne : ¬ m (a + i) = m (b + i) := by
    rw [hs.text i his, ht.text i hit]
    exact h.ne
  have hane := hs.ne_zero
  have hbne := ht.ne_zero
  rw [hskip, hk, u32_eq_self (by omega), u32_eq_self (by omega), strncmp, if_neg fun h => hne h.2.2,
    if_neg (by omega), if_neg (by omega), if_neg (by omega), hs.text i his, ht.text i hit]

/-- Strings that agree, compared up to the common terminator at most. -/
theorem Agree.strncmp_eq (h : Agree s t n) (hs : Lies m a s) (ht : Lies m b t)
    (hn : n ≤ s.len + 1) : strncmp m a b n = 0 := by
  have hsb := hs.bound
  have htb := ht.bound
  have hsame : n ≤ t.len + 1 ∧ ∀ j, j < n → m (a + j) = m (b + j) := by
    obtain ⟨hns, hnt, hsame⟩ | ⟨hlt, hlen, hsame⟩ := h
    · refine ⟨by omega, fun j hj => ?_⟩
      rw [hs.text j (by omega), ht.text j (by omega), hsame j hj]
    · exact ⟨by omega, fun j hj => hs.same ht hlen hsame (by omega)⟩
  have hskip := strncmp_skip (n := 0) (i := n) hs ht (by omega) (by omega) hsame.2
  rw [Nat.zero_add] at hskip
  rw [hskip]
  rfl

theorem char_injective {x y : UInt8} (h : char x = char y) : x = y := by
  have hx := x.toNat_lt
  have hy := y.toNat_lt
  rw [← UInt8.toNat_inj]
  unfold char at h
  split at h <;> split at h <;> omega

/-- A difference at the first characters. -/
theorem strncmp_ne_zero (ha : a ≠ 0) (hb : b ≠ 0) (hne : m a ≠ m b) :
    strncmp m a b (n + 1) ≠ 0 := by
  rw [strncmp, if_neg fun h => hne h.2.2, if_neg fun h => ha h.1, if_neg ha, if_neg hb]
  intro h
  exact hne (char_injective (by omega))

/-! ### Behind the terminators -/

/-- A byte that belongs to neither string may be anything. -/
theorem Lies.update {x : Nat} (h : Lies m a s) (hx : x < a ∨ a + s.len < x) (c : UInt8) :
    Lies (Function.update m x c) a s := by
  refine ⟨h.ne_zero, h.bound, fun i hi => ?_⟩
  rw [Function.update_of_ne (by omega)]
  exact h.text i hi

/-- Equal strings at different places do not overlap. -/
theorem Lies.apart (hs : Lies m a s) (ht : Lies m b t) (hlen : t.len = s.len) (hab : a ≠ b) :
    a + s.len < b ∨ b + t.len < a := by
  by_contra h
  rcases Nat.lt_or_ge a b with hlt | hge
  · have hend := ht.text (a + s.len - b) (by omega)
    rw [Nat.add_sub_cancel' (by omega), hs.text s.len (Nat.le_refl _), s.terminated] at hend
    exact t.nonzero (a + s.len - b) (by omega) hend.symm
  · have hend := hs.text (b + t.len - a) (by omega)
    rw [Nat.add_sub_cancel' (by omega), ht.text t.len (Nat.le_refl _), t.terminated] at hend
    exact s.nonzero (b + t.len - a) (by omega) hend.symm

/-- When more than the common terminator is compared, what lies behind it can make a
difference. -/
theorem Agree.exists_strncmp_ne (h : Agree s t n) (hs : Lies m a s) (ht : Lies m b t)
    (hn : s.len + 1 < n) (hab : a ≠ b) :
    ∃ m', Lies m' a s ∧ Lies m' b t ∧ strncmp m' a b n ≠ 0 := by
  have hsb := hs.bound
  have htb := ht.bound
  obtain ⟨hlen, hsame⟩ : t.len = s.len ∧ ∀ i, i < s.len → s.text i = t.text i := by
    obtain ⟨hns, -⟩ | ⟨-, hlen, hsame⟩ := h
    · omega
    · exact ⟨hlen, hsame⟩
  have hskip : ∀ m', Lies m' a s → Lies m' b t → strncmp m' a b n =
      strncmp m' (u32 (a + (s.len + 1))) (u32 (b + (s.len + 1))) (n - (s.len + 1)) := by
    intro m' hs' ht'
    have := strncmp_skip (n := n - (s.len + 1)) (i := s.len + 1) hs' ht' (by omega) (by omega)
      fun j hj => hs'.same ht' hlen hsame (by omega)
    rwa [Nat.sub_add_cancel (Nat.le_of_lt hn)] at this
  obtain ⟨k, hk⟩ : ∃ k, n - (s.len + 1) = k + 1 := ⟨n - (s.len + 1) - 1, by omega⟩
  rw [hk] at hskip
  by_cases hatop : a + (s.len + 1) = 4294967296
  · -- the first pointer has become null
    refine ⟨m, hs, ht, ?_⟩
    have hzero : u32 (a + (s.len + 1)) = 0 := by rw [hatop]; rfl
    rw [hskip m hs ht, hzero, u32_eq_self (by omega), strncmp, if_neg (by omega),
      if_neg (by omega), if_pos rfl]
    decide
  by_cases hbtop : b + (s.len + 1) = 4294967296
  · refine ⟨m, hs, ht, ?_⟩
    have hzero : u32 (b + (s.len + 1)) = 0 := by rw [hbtop]; rfl
    rw [hskip m hs ht, hzero, u32_eq_self (by omega), strncmp, if_neg (by omega),
      if_neg (by omega), if_neg (by omega), if_pos rfl]
    decide
  · -- one of the two bytes behind the terminators belongs to neither string
    rw [u32_eq_self (show a + (s.len + 1) < 4294967296 by omega),
      u32_eq_self (show b + (s.len + 1) < 4294967296 by omega)] at hskip
    have hother : ∀ x : UInt8, ∃ c, c ≠ x := by
      intro x
      by_cases hx : x = 0
      · exact ⟨1, by rw [hx]; decide⟩
      · exact ⟨0, Ne.symm hx⟩
    have hapart := hs.apart ht hlen hab
    by_cases hfree : b ≤ a + (s.len + 1) ∧ a + (s.len + 1) ≤ b + t.len
    · obtain ⟨c, hc⟩ := hother (m (a + (s.len + 1)))
      have hs' := hs.update (x := b + (s.len + 1)) (by omega) c
      have ht' := ht.update (x := b + (s.len + 1)) (by omega) c
      refine ⟨_, hs', ht', ?_⟩
      rw [hskip _ hs' ht']
      refine strncmp_ne_zero (by omega) (by omega) ?_
      rw [Function.update_self, Function.update_of_ne (by omega)]
      exact hc.symm
    · obtain ⟨c, hc⟩ := hother (m (b + (s.len + 1)))
      have hs' := hs.update (x := a + (s.len + 1)) (by omega) c
      have ht' := ht.update (x := a + (s.len + 1)) (by omega) c
      refine ⟨_, hs', ht', ?_⟩
      rw [hskip _ hs' ht']
      refine strncmp_ne_zero (by omega) (by omega) ?_
      rw [Function.update_self, Function.update_of_ne (by omega)]
      exact hc

/-- A difference of characters has the sign of their difference without a sign exactly if
both of them or none is below `0x80`. -/
theorem char_sub_lt_iff {x y : UInt8} (hne : x ≠ y) :
    (char x - char y < 0 ↔ x < y) ↔ (x < 0x80 ↔ y < 0x80) := by
  have hx := x.toNat_lt
  have hy := y.toNat_lt
  have hne' : x.toNat ≠ y.toNat := fun h => hne (UInt8.toNat_inj.1 h)
  have h80 : ∀ z : UInt8, z < 0x80 ↔ z.toNat < 128 := fun z => UInt8.lt_iff_toNat_lt
  rw [h80, h80, UInt8.lt_iff_toNat_lt]
  unfold char
  split <;> split <;> omega

/-- The first difference is one. -/
theorem Differ.unique {j : Nat} (h : Differ s t n i) (h' : Differ s t n j) : j = i := by
  rcases Nat.lt_trichotomy j i with hlt | heq | hgt
  · exact absurd (h.before j hlt) h'.ne
  · exact heq
  · exact absurd (h'.before i hgt) h.ne

/-- The result for strings that agree. -/
theorem Agree.compares_iff {r : Int} (h : Agree s t n) : Compares s t n r ↔ r = 0 := by
  constructor
  · intro hr
    exact hr.zero.2 h
  · intro hr
    exact ⟨iff_of_true hr h, fun i hi => absurd h hi.not_agree⟩

/-- The result for strings that do not. -/
theorem Differ.compares_iff (h : Differ s t n i) :
    Compares s t n (char (s.text i) - char (t.text i)) ↔ (s.text i < 0x80 ↔ t.text i < 0x80) := by
  rw [← char_sub_lt_iff h.ne]
  constructor
  · intro hr
    exact hr.sign i h
  · intro hr
    refine ⟨iff_of_false (fun hz => h.ne (char_injective (by omega))) h.not_agree, fun j hj => ?_⟩
    rw [h.unique hj]
    exact hr

/-- The comparison of two strings is what the standard says, whatever lies behind them,
if and only if the pointers are equal, no more than a common terminator is compared or the
strings do not agree, and the characters at the first difference are both below `0x80` or
both not. -/
theorem strncmp_standard_iff (hs : Lies m a s) (ht : Lies m b t) (n : Nat) :
    (∀ m', Lies m' a s → Lies m' b t →
      Compares s t n (strncmp m' a b n) ∧ strncmp m' a b n = strncmp m a b n) ↔
    (a = b ∨ n ≤ s.len + 1 ∨ ¬ Agree s t n) ∧
      ∀ i, Differ s t n i → (s.text i < 0x80 ↔ t.text i < 0x80) := by
  rcases agree_or_differ s t n with hagree | ⟨i, hdiffer⟩
  · constructor
    · intro h
      refine ⟨?_, fun i hi => absurd hagree hi.not_agree⟩
      by_contra hnot
      obtain ⟨hab, hn⟩ := not_or.1 hnot
      obtain ⟨m', hs', ht', hne⟩ := hagree.exists_strncmp_ne hs ht (by omega) hab
      exact hne (hagree.compares_iff.1 (h m' hs' ht').1)
    · rintro ⟨hcond, -⟩
      have hzero : ∀ m', Lies m' a s → Lies m' b t → strncmp m' a b n = 0 := by
        intro m' hs' ht'
        obtain rfl | hn | hn := hcond
        · exact strncmp_self m' a n
        · exact hagree.strncmp_eq hs' ht' hn
        · exact absurd hagree hn
      intro m' hs' ht'
      exact ⟨hagree.compares_iff.2 (hzero m' hs' ht'), by rw [hzero m' hs' ht', hzero m hs ht]⟩
  · constructor
    · intro h
      refine ⟨Or.inr (Or.inr hdiffer.not_agree), fun j hj => ?_⟩
      have hr := (h m hs ht).1
      rw [hj.strncmp_eq hs ht] at hr
      exact hj.compares_iff.1 hr
    · rintro ⟨-, h⟩ m' hs' ht'
      rw [hdiffer.strncmp_eq hs' ht', hdiffer.strncmp_eq hs ht]
      exact ⟨hdiffer.compares_iff.2 (h i hdiffer), rfl⟩

/-- The comparison of the file system, which has no addresses, is this one as long as the
pointers do not become null. -/
theorem strncmp_eq_sfs (ha : a ≠ 0) (hb : b ≠ 0) (han : a + n ≤ 4294967296)
    (hbn : b + n ≤ 4294967296) :
    strncmp m a b n = Sfs.strncmp (fun i => m (a + i)) (fun i => m (b + i)) n := by
  induction n generalizing a b with
  | zero => rfl
  | succ n ih =>
      rw [strncmp, Sfs.strncmp]
      simp only [Nat.add_zero]
      by_cases h : m a = m b
      · rw [if_pos ⟨ha, hb, h⟩, if_pos h]
        cases n with
        | zero => rfl
        | succ n =>
            rw [u32_eq_self (by omega), u32_eq_self (by omega), ih (by omega) (by omega) (by omega)
              (by omega)]
            simp only [Nat.add_assoc, Nat.add_comm 1]
      · rw [if_neg fun hc => h hc.2.2, if_neg (by omega), if_neg ha, if_neg hb]
        rw [if_neg h]

end

/-- A string of one letter. -/
def letter (c : UInt8) (h : c ≠ 0) : CString :=
  CString.ofList [c] (by simp) (by simpa using h)

/-- A memory with a letter at `16`, a letter at `32`, and a byte behind the terminator of
each. -/
def twoLetters (c d x y : UInt8) : Memory := fun a =>
  if a = 16 then c else if a = 18 then x else if a = 32 then d else if a = 34 then y else 0

theorem twoLetters_lies {c d x y : UInt8} (hc : c ≠ 0) (hd : d ≠ 0) :
    Lies (twoLetters c d x y) 16 (letter c hc) ∧ Lies (twoLetters c d x y) 32 (letter d hd) := by
  have hone : ∀ i, i ≤ 1 → i = 0 ∨ i = 1 := fun i hi => by omega
  constructor
  · refine ⟨by decide, show 16 + 1 < 4294967296 by decide, fun i hi => ?_⟩
    obtain rfl | rfl := hone i hi <;> rfl
  · refine ⟨by decide, show 32 + 1 < 4294967296 by decide, fun i hi => ?_⟩
    obtain rfl | rfl := hone i hi <;> rfl

/-- Two different letters. -/
theorem twoLetters_compares :
    Compares (letter 0x61 (by decide)) (letter 0x62 (by decide)) 5
      (strncmp (twoLetters 0x61 0x62 0 0) 16 32 5) := by
  obtain ⟨hs, ht⟩ := twoLetters_lies (c := 0x61) (d := 0x62) (x := 0) (y := 0) (by decide)
    (by decide)
  have hdiffer : Differ (letter 0x61 (by decide)) (letter 0x62 (by decide)) 5 0 :=
    ⟨by decide, Nat.zero_le _, Nat.zero_le _, fun j hj => absurd hj (Nat.not_lt_zero j), by decide⟩
  refine ((strncmp_standard_iff hs ht 5).2 ⟨Or.inr (Or.inr hdiffer.not_agree), fun i hi => ?_⟩
    _ hs ht).1
  rw [hdiffer.unique hi]
  decide

/-- Two strings that agree are not found equal, because of what lies behind them. -/
theorem twoLetters_differ_behind :
    (∃ m, Lies m 16 (letter 0x61 (by decide)) ∧ Lies m 32 (letter 0x61 (by decide)) ∧
      strncmp m 16 32 3 = -1) ∧
    Agree (letter 0x61 (by decide)) (letter 0x61 (by decide)) 3 := by
  obtain ⟨hs, ht⟩ := twoLetters_lies (c := 0x61) (d := 0x61) (x := 0x62) (y := 0x63) (by decide)
    (by decide)
  exact ⟨⟨_, hs, ht, by decide⟩, Or.inr ⟨by decide, rfl, fun _ _ => rfl⟩⟩

end Str

end Chunix
