import Chunix.Machine.Memory

/-!
# Memories that record their stores

Where a program may write is a question about its stores and not about the memory
that it leaves: storing a byte that was there already is a store. A traced memory
keeps the addresses of all stores. `Confined S t t'` says that the stores between
two traced memories were made in the set `S`, and that nothing else has changed.
-/

namespace Machine

/-- A memory and the addresses that have been written to, the last one first. -/
structure Traced where
  mem : Memory
  written : List Nat

/-- The little-endian half word at the address `a`. -/
def load16 (m : Memory) (a : Nat) : Nat := (m a).toNat + 256 * (m (a + 1)).toNat

theorem load16_congr {m m' : Memory} {a a' : Nat} (h₀ : m a = m' a') (h₁ : m (a + 1) = m' (a' + 1)) :
    load16 m a = load16 m' a' := by
  rw [load16, load16, h₀, h₁]

namespace Traced

/-- A byte is stored. -/
def set (t : Traced) (a : Nat) (b : UInt8) : Traced :=
  ⟨Function.update t.mem a b, a :: t.written⟩

/-- A half word is stored. -/
def set16 (t : Traced) (a w : Nat) : Traced :=
  (t.set a (UInt8.ofNat w)).set (a + 1) (UInt8.ofNat (w / 256))

variable {t t' t'' : Traced} {S S' : Nat → Prop} {a w x : Nat} {b : UInt8}

@[simp] theorem set_mem_self (t : Traced) (a : Nat) (b : UInt8) : (t.set a b).mem a = b :=
  Function.update_self ..

theorem set_mem_of_ne (h : x ≠ a) : (t.set a b).mem x = t.mem x := Function.update_of_ne h ..

theorem set16_mem_of_ne (h₀ : x ≠ a) (h₁ : x ≠ a + 1) : (t.set16 a w).mem x = t.mem x := by
  rw [set16, set_mem_of_ne h₁, set_mem_of_ne h₀]

@[simp] theorem load16_set16_self (t : Traced) (a w : Nat) :
    load16 (t.set16 a w).mem a = w % 65536 := by
  have h₀ : (t.set16 a w).mem a = UInt8.ofNat w := by
    rw [set16, set_mem_of_ne (Nat.succ_ne_self a).symm, set_mem_self]
  have h₁ : (t.set16 a w).mem (a + 1) = UInt8.ofNat (w / 256) := set_mem_self ..
  rw [load16, h₀, h₁, UInt8.toNat_ofNat', UInt8.toNat_ofNat']
  omega

/-- The stores between the two memories were made in `S`. -/
structure Confined (S : Nat → Prop) (t t' : Traced) : Prop where
  written : ∀ a ∈ t'.written, a ∈ t.written ∨ S a
  same : ∀ a, ¬ S a → t'.mem a = t.mem a

theorem Confined.refl (S : Nat → Prop) (t : Traced) : Confined S t t :=
  ⟨fun _ ha => Or.inl ha, fun _ _ => rfl⟩

theorem Confined.trans (h : Confined S t t') (h' : Confined S t' t'') : Confined S t t'' where
  written a ha := by
    rcases h'.written a ha with ha | ha
    · exact h.written a ha
    · exact Or.inr ha
  same a ha := (h'.same a ha).trans (h.same a ha)

theorem Confined.mono (h : Confined S t t') (hS : ∀ a, S a → S' a) : Confined S' t t' where
  written a ha := (h.written a ha).imp_right (hS a)
  same a ha := h.same a fun hs => ha (hS a hs)

theorem confined_set (h : S a) : Confined S t (t.set a b) where
  written x hx := by
    rcases List.mem_cons.1 hx with rfl | hx
    · exact Or.inr h
    · exact Or.inl hx
  same x hx := by
    refine set_mem_of_ne ?_
    rintro rfl
    exact hx h

theorem confined_set16 (h₀ : S a) (h₁ : S (a + 1)) : Confined S t (t.set16 a w) :=
  (confined_set h₀).trans (confined_set h₁)

end Traced

end Machine
