import Chunix.Machine.Total
import Chunix.Mm.Uvm
import Chunix.Mm.User

/-!
# User memory through the page tables

The pages of an address space that are mapped to page frames of their own are one
memory: a load reads it, a store changes one byte of it, and neither changes the
translation.
-/

namespace Chunix

namespace Mm

open Machine Act

/-- The page frame that holds the page number `n`. -/
def Space.frame (s : Space) (mem : Memory) (n : Nat) : Nat := pteAddr (s.entry mem n)

/-- The address space `s` is in use, and its page numbers in `U` are mapped to different
page frames, none of which is one of its tables. -/
structure Sees (s : Space) (U : Nat → Prop) (m : Mm) : Prop where
  cr3 : m.cr3 = s.dir
  space : s.At m.mem
  present : ∀ n, U n → Mm.present (s.entry m.mem n)
  isFrame : ∀ n, U n → IsFrame (s.frame m.mem n)
  off : ∀ n, U n → ¬ s.Has (s.frame m.mem n)
  inj : ∀ n k, U n → U k → s.frame m.mem n = s.frame m.mem k → n = k

/-- The physical address of the byte at `va`. -/
def Space.addr (s : Space) (mem : Memory) (va : Nat) : Nat := s.frame mem (va / 4096) + va % 4096

open Classical in
/-- The memory that the pages in `U` are. -/
noncomputable def seen (s : Space) (U : Nat → Prop) : Abstraction Mm Memory where
  ok := Sees s U
  view m := fun va => if U (va / 4096) then m.mem (s.addr m.mem va) else 0

section

variable {s : Space} {U : Nat → Prop} {m : Mm} {va : Nat}

theorem Sees.walk (h : Sees s U m) (hva : va < 4294967296) (hU : U (va / 4096)) :
    Mm.walk m.mem m.cr3 (u32 va) = some (s.addr m.mem va) := by
  rw [u32_eq_self hva, h.cr3, h.space.walk_eq hva, if_pos (h.present _ hU)]
  rfl

theorem seen_view (hU : U (va / 4096)) : (seen s U).view m va = m.mem (s.addr m.mem va) :=
  if_pos hU

/-- Different addresses are different bytes. -/
theorem Sees.addr_inj (h : Sees s U m) {vb : Nat} (ha : U (va / 4096)) (hb : U (vb / 4096))
    (he : s.addr m.mem va = s.addr m.mem vb) : va = vb := by
  have h₁ := (h.isFrame _ ha).aligned
  have h₂ := (h.isFrame _ hb).aligned
  unfold Space.addr at he
  have hn := h.inj _ _ ha hb (by omega)
  rw [hn] at he
  omega

/-- A change outside the tables leaves the translation as it is. -/
theorem Sees.agree {P : Nat → Prop} {m' : Mm} (h : Sees s U m) (hcr3 : m'.cr3 = m.cr3)
    (hagree : AgreeOff P m.mem m'.mem) (hP : ∀ p, P p → IsFrame p)
    (hoff : ∀ p, P p → ¬ s.Has p) :
    Sees s U m' ∧ ∀ a, s.addr m'.mem a = s.addr m.mem a := by
  obtain ⟨hat, hentry⟩ := h.space.agree hagree hP hoff
  have hframe : ∀ n, s.frame m'.mem n = s.frame m.mem n :=
    fun n => by rw [Space.frame, hentry, Space.frame]
  refine ⟨⟨hcr3.trans h.cr3, hat, ?_, ?_, ?_, ?_⟩, fun a => by rw [Space.addr, hframe, Space.addr]⟩
  · intro n hn
    rw [hentry]
    exact h.present n hn
  · intro n hn
    rw [hframe]
    exact h.isFrame n hn
  · intro n hn
    rw [hframe]
    exact h.off n hn
  · intro n k hn hk he
    rw [hframe, hframe] at he
    exact h.inj n k hn hk he

theorem gives_vload8 {v : Memory} (hva : va < 4294967296) (hU : U (va / 4096)) :
    Gives (seen s U) v (vload8 va) (v va) v := by
  rintro m h rfl
  refine ⟨_, m, vload8_of_walk (Sees.walk h hva hU), h, ?_, rfl⟩
  rw [seen_view hU]

/-- A byte that is stored is the only one that changes. -/
theorem gives_vstore8 {v : Memory} (hva : va < 4294967296) (hU : U (va / 4096)) (b : UInt8) :
    Gives (seen s U) v (vstore8 va b) () (Function.update v va b) := by
  rintro m (h : Sees s U m) rfl
  have hagree : AgreeOff (fun p => p = s.frame m.mem (va / 4096)) m.mem
      (Function.update m.mem (s.addr m.mem va) b) := by
    intro a ha
    have hne := ha _ rfl
    refine Function.update_of_ne ?_ _ _
    rintro rfl
    refine hne ⟨Nat.le_add_right _ _, ?_⟩
    have := Nat.mod_lt va (show 0 < 4096 by decide)
    unfold Space.addr
    omega
  obtain ⟨hsees, haddr⟩ := @Sees.agree s U m _
    { m with mem := Function.update m.mem (s.addr m.mem va) b } h rfl hagree (fun p hp => hp ▸ h.isFrame _ hU) fun p hp => hp ▸ h.off _ hU
  refine ⟨(), _, vstore8_of_walk (h.walk hva hU) b, hsees, rfl, ?_⟩
  funext a
  by_cases ha : a = va
  · rw [ha, seen_view hU, Function.update_self, haddr]
    simp only [Function.update_self]
  · rw [Function.update_of_ne ha]
    by_cases haU : U (a / 4096)
    · have hne : s.addr m.mem a ≠ s.addr m.mem va := fun he => ha (h.addr_inj haU hU he)
      rw [seen_view haU, seen_view haU, haddr]
      simp only [Function.update_of_ne hne]
    · simp only [seen, if_neg haU]

theorem gives_vload32 {v : Memory} (hva : va + 4 ≤ 4294967296) (hU : ∀ i, i < 4 → U ((va + i) / 4096)) :
    Gives (seen s U) v (vload32 va)
      ((v va).toNat + 256 * (v (va + 1)).toNat + 65536 * (v (va + 2)).toNat +
        16777216 * (v (va + 3)).toNat) v := by
  unfold vload32
  refine (gives_vload8 (by omega) (hU 0 (by decide))).bind ?_
  refine (gives_vload8 (by omega) (hU 1 (by decide))).bind ?_
  refine (gives_vload8 (by omega) (hU 2 (by decide))).bind ?_
  exact (gives_vload8 (by omega) (hU 3 (by decide))).bind (gives_pure _)

/-- A zero that is stored clears four bytes and no others. -/
theorem total_vstore32_zero {v : Memory} (hva : va + 4 ≤ 4294967296)
    (hU : ∀ i, i < 4 → U ((va + i) / 4096)) :
    Total (seen s U) v (vstore32 va 0) fun _ v' =>
      ∀ a, v' a = if va ≤ a ∧ a < va + 4 then 0 else v a := by
  unfold vstore32
  refine (gives_vstore8 (by omega) (hU 0 (by decide)) _).bind ?_
  refine (gives_vstore8 (by omega) (hU 1 (by decide)) _).bind ?_
  refine (gives_vstore8 (by omega) (hU 2 (by decide)) _).bind ?_
  refine (gives_vstore8 (by omega) (hU 3 (by decide)) _).mono ?_
  rintro - v' ⟨-, rfl⟩ a
  simp only [Function.update_apply]
  split_ifs <;> first | rfl | omega

end

end Mm

end Chunix
