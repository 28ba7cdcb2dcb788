import Mathlib.Data.List.Basic
import Mathlib.Data.List.Nodup

/-!
# Lists ordered by their last use

A list whose elements move to its front when they are used is ordered by their last
uses: the first element is the one that was used last, and the elements that were
never used stand at the end. Looking through such a list from its end finds the
element with a property whose last use is the oldest, one that was never used first
of all.
-/

namespace Linked

variable {α : Type*} [DecidableEq α] {h : List α} {l r : List α} {a b : α}

/-- The number of the last use of `a` in the history `h`, counted from one, and zero
if there is none. -/
def lastAt (h : List α) (a : α) : Nat := h.length - h.reverse.idxOf a

theorem lastAt_concat (h : List α) (b a : α) :
    lastAt (h ++ [b]) a = if b = a then h.length + 1 else lastAt h a := by
  rw [lastAt, List.reverse_append, List.reverse_singleton, List.singleton_append, List.idxOf_cons,
    List.length_append, List.length_singleton, lastAt]
  by_cases hb : b = a
  · have hfirst : (b == a) = true := beq_iff_eq.2 hb
    rw [if_pos hb, hfirst, cond_true, Nat.sub_zero]
  · have hlater : (b == a) = false := beq_eq_false_iff_ne.2 hb
    rw [if_neg hb, hlater, cond_false, Nat.add_sub_add_right]

theorem lastAt_le (h : List α) (a : α) : lastAt h a ≤ h.length := Nat.sub_le ..

theorem lastAt_eq_zero_iff : lastAt h a = 0 ↔ a ∉ h := by
  rw [lastAt, Nat.sub_eq_zero_iff_le, ← List.length_reverse, ← Nat.not_lt, List.idxOf_lt_length_iff,
    List.mem_reverse]

/-- Two elements with the same last use are equal. -/
theorem eq_of_lastAt_eq (ha : a ∈ h) (he : lastAt h a = lastAt h b) : a = b := by
  have hi := List.idxOf_lt_length_of_mem (List.mem_reverse.2 ha)
  have hj : h.reverse.idxOf b < h.reverse.length := by
    rw [List.length_reverse] at hi ⊢
    unfold lastAt at he
    omega
  have hb : b ∈ h.reverse := List.idxOf_lt_length_iff.1 hj
  refine (List.idxOf_inj (List.mem_reverse.2 ha)).1 ?_
  rw [List.length_reverse] at hi hj
  unfold lastAt at he
  omega

/-- The list is ordered by the last uses, the last one first. -/
def Recent (h l : List α) : Prop := l.Pairwise fun a b => lastAt h b ≤ lastAt h a

theorem recent_nil (l : List α) : Recent [] l :=
  List.pairwise_of_forall fun _ _ => Nat.le_refl 0

/-- An element is used and moves to the front. -/
theorem Recent.toFront (hr : Recent h (l ++ b :: r)) (hd : (l ++ b :: r).Nodup) :
    Recent (h ++ [b]) (b :: (l ++ r)) := by
  have hb : b ∉ l ++ r := (List.nodup_cons.1 (List.perm_middle.nodup_iff.1 hd)).1
  have hkeep : ∀ a ∈ l ++ r, lastAt (h ++ [b]) a = lastAt h a := by
    intro a ha
    rw [lastAt_concat, if_neg]
    rintro rfl
    exact hb ha
  have hsub : List.Sublist (l ++ r) (l ++ b :: r) := (List.Sublist.refl l).append (List.sublist_cons_self b r)
  refine List.pairwise_cons.2 ⟨fun a ha => ?_, (hr.sublist hsub).imp_of_mem fun {a c} ha hc hle => ?_⟩
  · rw [hkeep a ha, lastAt_concat, if_pos rfl]
    exact Nat.le_succ_of_le (lastAt_le h a)
  · rw [hkeep a ha, hkeep c hc]
    exact hle

/-- The search from the end finds the element with the oldest last use. -/
theorem Recent.lastAt_le_of_find? {p : α → Bool} (hr : Recent h l)
    (hf : l.reverse.find? p = some b) (ha : a ∈ l) (hp : p a = true) : lastAt h b ≤ lastAt h a := by
  obtain ⟨-, as, bs, heq, has⟩ := List.find?_eq_some_iff_append.1 hf
  have hrev : (as ++ b :: bs).Pairwise fun a b => lastAt h a ≤ lastAt h b := by
    rw [← heq]
    exact List.pairwise_reverse.2 hr
  have ha' : a ∈ as ++ b :: bs := heq ▸ List.mem_reverse.2 ha
  rcases List.mem_append.1 ha' with hm | hm
  · have := has a hm
    rw [hp] at this
    cases this
  · rcases List.mem_cons.1 hm with rfl | hm
    · exact Nat.le_refl _
    · exact (List.pairwise_cons.1 (List.pairwise_append.1 hrev).2.1).1 a hm

end Linked
