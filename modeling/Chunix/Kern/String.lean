import Chunix.Machine.Traced

/-!
# Block copies

`memmove` copies upwards, unless the destination begins inside the source; then it
copies downwards. Either way no byte of the source is overwritten before it has
been read, so the result is that of a copy at once, `blit`.
-/

namespace Chunix

namespace Str

open Machine

/-- The loop of `memmove` with `*d++ = *s++`. -/
def moveUp : Nat → Nat → Nat → Traced → Traced
  | 0, _, _, t => t
  | n + 1, d, s, t => moveUp n (u32 (d + 1)) (u32 (s + 1)) (t.set d (t.mem s))

/-- The loop of `memmove` with `*--d = *--s`. -/
def moveDown : Nat → Nat → Nat → Traced → Traced
  | 0, _, _, t => t
  | n + 1, d, s, t =>
      let d := u32 (d + 4294967295)
      let s := u32 (s + 4294967295)
      moveDown n d s (t.set d (t.mem s))

/-- `memmove`. The end of the source is computed in 32 bits. -/
def memmove (dst src n : Nat) (t : Traced) : Traced :=
  if src < dst ∧ dst < u32 (src + n) then moveDown n (u32 (dst + n)) (u32 (src + n)) t
  else moveUp n dst src t

/-- The addresses of the `n` bytes from `a` on. -/
def Within (a n x : Nat) : Prop := a ≤ x ∧ x < a + n

section

variable {n d s : Nat} {t : Traced}

theorem moveUp_confined (hd : d + n ≤ 4294967296) :
    Traced.Confined (Within d n) t (moveUp n d s t) := by
  induction n generalizing d s t with
  | zero => exact .refl _ _
  | succ n ih =>
      have hfirst : Traced.Confined (Within d (n + 1)) t (t.set d (t.mem s)) :=
        Traced.confined_set ⟨by omega, by omega⟩
      cases n with
      | zero => exact hfirst
      | succ n =>
          have hu : u32 (d + 1) = d + 1 := u32_eq_self (by omega)
          refine hfirst.trans ?_
          rw [moveUp, hu]
          refine (ih (by omega)).mono ?_
          rintro a ⟨hlo, hhi⟩
          exact ⟨by omega, by omega⟩

/-- Copying upwards reads every byte of the source before it is overwritten,
unless the destination begins inside the source. -/
theorem moveUp_mem (hd : d + n ≤ 4294967296) (hs : s + n ≤ 4294967296) (h : d ≤ s ∨ s + n ≤ d) :
    (moveUp n d s t).mem = blit t.mem d s n := by
  induction n generalizing d s t with
  | zero =>
      funext x
      rw [blit_apply_of_notMem (by omega)]
      rfl
  | succ n ih =>
      have hrest : (moveUp n (u32 (d + 1)) (u32 (s + 1)) (t.set d (t.mem s))).mem =
          blit (t.set d (t.mem s)).mem (d + 1) (s + 1) n := by
        cases n with
        | zero =>
            funext x
            rw [blit_apply_of_notMem (by omega)]
            rfl
        | succ n =>
            rw [u32_eq_self (show d + 1 < 4294967296 by omega),
              u32_eq_self (show s + 1 < 4294967296 by omega)]
            exact ih (by omega) (by omega) (by omega)
      funext x
      rw [moveUp, hrest]
      by_cases hx : d + 1 ≤ x ∧ x < d + 1 + n
      · rw [blit_apply_of_mem hx, blit_apply_of_mem ⟨by omega, by omega⟩,
          Traced.set_mem_of_ne (by omega), show s + 1 + (x - (d + 1)) = s + (x - d) by omega]
      · rw [blit_apply_of_notMem (by omega)]
        by_cases hxd : x = d
        · subst hxd
          have hfirst : x ≤ x ∧ x < x + (n + 1) := by omega
          rw [Traced.set_mem_self, blit_apply_of_mem hfirst, Nat.sub_self, Nat.add_zero]
        · rw [Traced.set_mem_of_ne hxd, blit_apply_of_notMem (by omega)]

/-- Copying downwards reads every byte of the source before it is overwritten,
unless the source begins inside the destination. -/
theorem moveDown_mem (hd : d + n ≤ 4294967296) (hs : s + n ≤ 4294967296) (h : s ≤ d) :
    (moveDown n (u32 (d + n)) (u32 (s + n)) t).mem = blit t.mem d s n := by
  induction n generalizing t with
  | zero =>
      funext x
      rw [blit_apply_of_notMem (by omega)]
      rfl
  | succ n ih =>
      -- the pointers are taken down to the last byte, also from the end of all addresses
      have hdown : ∀ a, a + (n + 1) ≤ 4294967296 → u32 (u32 (a + (n + 1)) + 4294967295) = a + n := by
        intro a ha
        unfold u32
        omega
      have hlast : ∀ a, a + (n + 1) ≤ 4294967296 → u32 (a + n) = a + n := by
        intro a ha
        exact u32_eq_self (by omega)
      have hrest := ih (t := t.set (d + n) (t.mem (s + n))) (by omega) (by omega)
      rw [hlast d hd, hlast s hs] at hrest
      simp only [moveDown, hdown d hd, hdown s hs, hrest]
      funext x
      by_cases hx : d ≤ x ∧ x < d + n
      · rw [blit_apply_of_mem hx, blit_apply_of_mem ⟨by omega, by omega⟩,
          Traced.set_mem_of_ne (by omega)]
      · rw [blit_apply_of_notMem (by omega)]
        by_cases hxd : x = d + n
        · subst hxd
          rw [Traced.set_mem_self, blit_apply_of_mem ⟨by omega, by omega⟩, Nat.add_sub_cancel_left]
        · rw [Traced.set_mem_of_ne hxd, blit_apply_of_notMem (by omega)]

/-- Whatever direction it takes, `memmove` copies the source as it was. -/
theorem memmove_mem (hd : d + n ≤ 4294967296) (hs : s + n ≤ 4294967296) :
    (memmove d s n t).mem = blit t.mem d s n := by
  unfold memmove
  by_cases h : s < d ∧ d < u32 (s + n)
  · rw [if_pos h]
    exact moveDown_mem hd hs (Nat.le_of_lt h.1)
  · rw [if_neg h]
    refine moveUp_mem hd hs ?_
    -- a source that ends with the last address cannot begin below the destination
    by_cases hsd : s < d
    · have hend : u32 (s + n) = s + n := u32_eq_self (by omega)
      rw [hend] at h
      omega
    · omega

/-- After `memmove` the destination has the bytes that were in the source before, and
every other byte is as it was, for any overlap of the two. -/
theorem memmove_copies (dst src n : Nat) (t : Traced) (hd : dst + n ≤ 4294967296)
    (hs : src + n ≤ 4294967296) :
    (∀ i, i < n → (memmove dst src n t).mem (dst + i) = t.mem (src + i)) ∧
      ∀ x, x < dst ∨ dst + n ≤ x → (memmove dst src n t).mem x = t.mem x := by
  rw [memmove_mem hd hs]
  constructor
  · intro i hi
    rw [blit_apply_of_mem ⟨by omega, by omega⟩, Nat.add_sub_cancel_left]
  · intro x hx
    exact blit_apply_of_notMem hx

/-- The last five bytes of all, moved up by one within them. -/
theorem memmove_copies_top :
    (memmove 0xFFFFFFFC 0xFFFFFFFB 4 ⟨fun a => UInt8.ofNat a, []⟩).mem 0xFFFFFFFF = 0xFE := by
  have h := (memmove_copies 0xFFFFFFFC 0xFFFFFFFB 4 ⟨fun a => UInt8.ofNat a, []⟩ (by decide)
    (by decide)).1 3 (by decide)
  exact h

end

end Str

end Chunix
