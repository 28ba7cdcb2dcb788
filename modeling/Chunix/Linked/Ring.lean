import Mathlib.Data.List.Nodup
import Mathlib.Logic.Function.Basic

/-!
# Circular doubly linked lists

The links of a doubly linked list are two functions, `next` and `prev`. A span
`Span next prev a l b` leads from the node `a` through the nodes `l` to the node
`b`, with every step taken back by `prev`; a ring around a header `h` is a span
from `h` to `h`. Taking a node out of a ring and putting a node in behind the
header are the two edits, each with the ring it leaves.
-/

namespace Linked

variable {α : Type*}

/-- The nodes `l` stand between `a` and `b`, linked in both directions. -/
def Span (next prev : α → α) : α → List α → α → Prop
  | a, [], b => next a = b ∧ prev b = a
  | a, c :: l, b => next a = c ∧ prev c = a ∧ Span next prev c l b

variable {next prev next' prev' : α → α} {a b h : α} {l r : List α}

theorem span_append {c : α} :
    Span next prev a (l ++ c :: r) b ↔ Span next prev a l c ∧ Span next prev c r b := by
  induction l generalizing a with
  | nil => simp [Span, and_assoc]
  | cons d l ih => simp only [List.cons_append, Span, ih, and_assoc]

/-- A span depends on the links of its own nodes only. -/
theorem Span.congr (hs : Span next prev a l b) (hn : ∀ x ∈ a :: l, next' x = next x)
    (hp : ∀ x ∈ b :: l, prev' x = prev x) : Span next' prev' a l b := by
  induction l generalizing a with
  | nil => exact ⟨(hn a List.mem_cons_self).trans hs.1, (hp b List.mem_cons_self).trans hs.2⟩
  | cons c l ih =>
      obtain ⟨h₁, h₂, h₃⟩ := hs
      refine ⟨(hn a List.mem_cons_self).trans h₁, ?_, ih h₃ ?_ ?_⟩
      · rw [hp c (by simp), h₂]
      · exact fun x hx => hn x (List.mem_cons_of_mem a hx)
      · intro x hx
        refine hp x ?_
        rcases List.mem_cons.1 hx with rfl | hx
        · exact List.mem_cons_self
        · simp [hx]

/-- A span read backwards. -/
theorem Span.reverse (hs : Span next prev a l b) : Span prev next b l.reverse a := by
  induction l generalizing a with
  | nil => exact ⟨hs.2, hs.1⟩
  | cons c l ih =>
      rw [List.reverse_cons, span_append]
      exact ⟨ih hs.2.2, hs.2.1, hs.1⟩

/-- The node before the end of a span is one of its nodes. -/
theorem Span.prev_mem (hs : Span next prev a l b) : prev b ∈ a :: l := by
  induction l generalizing a with
  | nil => simp [hs.2]
  | cons c l ih => exact List.mem_cons_of_mem a (ih hs.2.2)

variable [DecidableEq α]

/-- The end of a span led over to another node. -/
theorem Span.redirect {c : α} (hs : Span next prev a l b) (hd : (a :: l).Nodup) (hc : c ∉ l) :
    Span (Function.update next (prev b) c) (Function.update prev c (prev b)) a l c := by
  induction l generalizing a with
  | nil => simp [Span, hs.2]
  | cons d l ih =>
      obtain ⟨h₁, h₂, h₃⟩ := hs
      obtain ⟨had, hd⟩ := List.nodup_cons.1 hd
      have hne : a ≠ prev b := fun he => had (he ▸ h₃.prev_mem)
      have hdc : d ≠ c := by
        rintro rfl
        exact hc List.mem_cons_self
      refine ⟨?_, ?_, ih h₃ hd fun hm => hc (List.mem_cons_of_mem d hm)⟩
      · rw [Function.update_of_ne hne, h₁]
      · rw [Function.update_of_ne hdc, h₂]

/-- A node taken out of a ring. -/
theorem Span.unlink (hs : Span next prev h (l ++ b :: r) h) (hd : (h :: (l ++ b :: r)).Nodup) :
    Span (Function.update next (prev b) (next b)) (Function.update prev (next b) (prev b)) h
      (l ++ r) h := by
  obtain ⟨hl, hr⟩ := span_append.1 hs
  have hd' : (h :: l).Nodup ∧ h ∉ b :: r ∧ h ∉ l ∧ (∀ x ∈ l, x ∉ b :: r) ∧ (b :: r).Nodup := by
    rw [List.nodup_cons, List.mem_append, not_or] at hd
    obtain ⟨⟨hhl, hhr⟩, hd⟩ := hd
    obtain ⟨hdl, hdr, hdis⟩ := List.nodup_append'.1 hd
    exact ⟨List.nodup_cons.2 ⟨hhl, hdl⟩, hhr, hhl, fun x hx hx' => hdis hx hx', hdr⟩
  obtain ⟨hdl, hhr, hhl, hdis, hdr⟩ := hd'
  cases r with
  | nil =>
      rw [List.append_nil, hr.1]
      exact hl.redirect hdl hhl
  | cons c r =>
      obtain ⟨hc, -, hr⟩ := hr
      rw [hc]
      have hcl : c ∉ l := fun hm => hdis c hm (by simp)
      refine span_append.2 ⟨hl.redirect hdl hcl, hr.congr ?_ ?_⟩
      · intro x hx
        refine Function.update_of_ne ?_ _ _
        rintro rfl
        have hx' := List.mem_cons_of_mem b hx
        rcases List.mem_cons.1 hl.prev_mem with he | hm
        · exact hhr (he ▸ hx')
        · exact hdis _ hm hx'
      · intro x hx
        refine Function.update_of_ne ?_ _ _
        rintro rfl
        rcases List.mem_cons.1 hx with rfl | hx
        · exact hhr (by simp)
        · exact (List.nodup_cons.1 (List.nodup_cons.1 hdr).2).1 hx

/-- A node put into a ring right behind the header. The writes are those of
`b->next = h->next; b->prev = h; h->next->prev = b; h->next = b`. -/
theorem Span.insert (hs : Span next prev h l h) (hd : (h :: l).Nodup) (hb : b ∉ h :: l) :
    Span (Function.update (Function.update next b (next h)) h b)
      (Function.update (Function.update prev b h) (next h) b) h (b :: l) h := by
  have hbh : b ≠ h := fun he => hb (by simp [he])
  have hbl : b ∉ l := fun hm => hb (List.mem_cons_of_mem h hm)
  cases l with
  | nil =>
      refine ⟨by simp, ?_, ?_, ?_⟩
      · rw [hs.1, Function.update_of_ne hbh, Function.update_self]
      · rw [Function.update_of_ne hbh, Function.update_self, hs.1]
      · rw [hs.1, Function.update_self]
  | cons c l =>
      obtain ⟨hc, -, hs⟩ := hs
      obtain ⟨hhl, hdl⟩ := List.nodup_cons.1 hd
      have hbc : b ≠ c := fun he => hbl (by simp [he])
      rw [hc]
      refine ⟨by simp, ?_, ?_, ?_, hs.congr ?_ ?_⟩
      · rw [Function.update_of_ne hbc, Function.update_self]
      · rw [Function.update_of_ne hbh, Function.update_self]
      · rw [Function.update_self]
      · intro x hx
        have hxh : x ≠ h := fun he => hhl (he ▸ hx)
        have hxb : x ≠ b := fun he => hbl (he ▸ hx)
        rw [Function.update_of_ne hxh, Function.update_of_ne hxb]
      · intro x hx
        have hxc : x ≠ c := by
          rintro rfl
          rcases List.mem_cons.1 hx with rfl | hx
          · exact hhl List.mem_cons_self
          · exact (List.nodup_cons.1 hdl).1 hx
        have hxb : x ≠ b := by
          rintro rfl
          rcases List.mem_cons.1 hx with rfl | hx
          · exact hbh rfl
          · exact hbl (List.mem_cons_of_mem c hx)
        rw [Function.update_of_ne hxc, Function.update_of_ne hxb]

end Linked
