import Mathlib.Data.List.Nodup

/-!
# Singly linked lists through a link function

`IsChain next p l` says that following `next` from `p` visits exactly the nodes
of `l`, in order, and then ends. A chain is determined by its start and visits
no node twice, so that pushing a node at the front keeps a chain exactly when
the node is not on it. `follow next n p` computes the chain if it has at most
`n` nodes.
-/

namespace Linked

/-- Following `next` from `p` visits the nodes of `l` and then ends. -/
def IsChain {α : Type*} (next : α → Option α) : Option α → List α → Prop
  | p, [] => p = none
  | p, a :: l => p = some a ∧ IsChain next (next a) l

theorem isChain_nil {α : Type*} {next : α → Option α} {p : Option α} :
    IsChain next p [] ↔ p = none := Iff.rfl

theorem isChain_cons {α : Type*} {next : α → Option α} {p : Option α} {a : α} {l : List α} :
    IsChain next p (a :: l) ↔ p = some a ∧ IsChain next (next a) l := Iff.rfl

/-- The chain from a node is unique. -/
theorem IsChain.unique {α : Type*} {next : α → Option α} {p : Option α} {l l' : List α}
    (h : IsChain next p l) (h' : IsChain next p l') : l = l' := by
  induction l generalizing p l' with
  | nil =>
      cases l' with
      | nil => rfl
      | cons b l' => rw [isChain_nil.1 h] at h'; exact absurd h'.1 (by simp)
  | cons a l ih =>
      cases l' with
      | nil => rw [isChain_nil.1 h'] at h; exact absurd h.1 (by simp)
      | cons b l' =>
          obtain ⟨hp, hl⟩ := h
          obtain ⟨hp', hl'⟩ := h'
          cases hp.symm.trans hp'
          rw [ih hl hl']

theorem IsChain.head_eq {α : Type*} {next : α → Option α} {p : Option α} {l : List α}
    (h : IsChain next p l) : p = l.head? := by
  cases l with
  | nil => exact h
  | cons a l => exact h.1

/-- The link of a node leads to what follows it. -/
theorem IsChain.next_eq {α : Type*} {next : α → Option α} {p : Option α} {b a : List α} {x : α}
    (h : IsChain next p (b ++ x :: a)) : next x = a.head? := by
  induction b generalizing p with
  | nil => exact h.2.head_eq
  | cons y b ih => exact ih h.2

/-- The chain from a node on a chain is the rest of that chain. -/
theorem IsChain.suffix {α : Type*} {next : α → Option α} {p : Option α} {l : List α} {a : α}
    (h : IsChain next p l) (ha : a ∈ l) :
    ∃ l₁ l₂, l = l₁ ++ a :: l₂ ∧ IsChain next (next a) l₂ := by
  induction l generalizing p with
  | nil => simp at ha
  | cons b l ih =>
      by_cases hab : a = b
      · subst hab
        exact ⟨[], l, rfl, h.2⟩
      · obtain ⟨l₁, l₂, rfl, h₂⟩ := ih h.2 (List.mem_of_ne_of_mem hab ha)
        exact ⟨b :: l₁, l₂, rfl, h₂⟩

/-- A chain visits no node twice: its first node does not occur in the rest,
since the chain from it would be its own proper suffix. -/
theorem IsChain.nodup {α : Type*} {next : α → Option α} {p : Option α} {l : List α}
    (h : IsChain next p l) : l.Nodup := by
  induction l generalizing p with
  | nil => exact List.nodup_nil
  | cons a l ih =>
      refine List.nodup_cons.2 ⟨?_, ih h.2⟩
      intro ha
      obtain ⟨l₁, l₂, hl, h₂⟩ := IsChain.suffix h.2 ha
      have hlen := congrArg List.length (hl.symm.trans (IsChain.unique h.2 h₂))
      simp only [List.length_append, List.length_cons] at hlen
      omega

/-- A chain reads the links of its own nodes only. -/
theorem IsChain.congr {α : Type*} {next next' : α → Option α} {p : Option α} {l : List α}
    (h : IsChain next p l) (he : ∀ a ∈ l, next' a = next a) : IsChain next' p l := by
  induction l generalizing p with
  | nil => exact h
  | cons a l ih =>
      refine ⟨h.1, ?_⟩
      rw [he a List.mem_cons_self]
      exact ih h.2 fun b hb => he b (List.mem_cons_of_mem a hb)

/-- Pushing a node that is not on the chain gives the longer chain. -/
theorem IsChain.push {α : Type*} [DecidableEq α] {next : α → Option α} {p : Option α}
    {l : List α} {a : α} (h : IsChain next p l) (ha : a ∉ l) :
    IsChain (Function.update next a p) (some a) (a :: l) := by
  refine ⟨rfl, ?_⟩
  rw [Function.update_self]
  apply h.congr
  intro b hb
  have hba : b ≠ a := by rintro rfl; exact ha hb
  exact Function.update_of_ne hba _ _

/-- Pushing a node that is on the chain already closes a cycle: no chain is
left. -/
theorem IsChain.not_push {α : Type*} [DecidableEq α] {next : α → Option α} {p : Option α}
    {l : List α} {a : α} (h : IsChain next p l) (ha : a ∈ l) (l' : List α) :
    ¬ IsChain (Function.update next a p) (some a) l' := by
  intro h'
  cases l' with
  | nil => exact absurd h' (by simp [IsChain])
  | cons b l' =>
      obtain ⟨hb, hl'⟩ := h'
      cases hb
      rw [Function.update_self] at hl'
      have hmem : ∀ (q : Option α) (l₁ l₂ : List α), a ∈ l₁ → IsChain next q l₁ →
          IsChain (Function.update next a p) q l₂ → a ∈ l₂ := by
        intro q l₁
        induction l₁ generalizing q with
        | nil => intro _ hm; simp at hm
        | cons c l₁ ih =>
            intro l₂ hm hc hc'
            cases l₂ with
            | nil => rw [isChain_nil.1 hc'] at hc; exact absurd hc.1 (by simp)
            | cons d l₂ =>
                cases hc.1.symm.trans hc'.1
                by_cases hac : a = c
                · exact hac ▸ List.mem_cons_self
                · have hr := hc'.2
                  rw [Function.update_of_ne (Ne.symm hac)] at hr
                  exact List.mem_cons_of_mem c
                    (ih (next c) l₂ (List.mem_of_ne_of_mem hac hm) hc.2 hr)
      have hal : IsChain (Function.update next a p) (some a) (a :: l') :=
        ⟨rfl, by rw [Function.update_self]; exact hl'⟩
      have hnd := hal.nodup
      exact (List.nodup_cons.1 hnd).1 (hmem p l l' ha h hl')

/-- A node without a successor put behind the last node of a chain ends the longer
chain. -/
theorem IsChain.snoc {α : Type*} [DecidableEq α] {next : α → Option α} {p : Option α}
    {l : List α} {a b : α} (h : IsChain next p l) (ha : l.getLast? = some a) (hb : b ∉ l)
    (hn : next b = none) : IsChain (Function.update next a (some b)) p (l ++ [b]) := by
  have hnd := h.nodup
  induction l generalizing p with
  | nil => simp at ha
  | cons c l ih =>
      obtain ⟨hp, hl⟩ := h
      refine ⟨hp, ?_⟩
      cases l with
      | nil =>
          simp only [List.getLast?_singleton, Option.some.injEq] at ha
          subst ha
          have hba : b ≠ c := fun he => hb (he ▸ List.mem_cons_self)
          rw [Function.update_self]
          exact ⟨rfl, by rw [Function.update_of_ne hba]; exact hn⟩
      | cons d l =>
          rw [List.getLast?_cons_cons] at ha
          have hac : c ≠ a := by
            rintro rfl
            exact (List.nodup_cons.1 hnd).1 (List.mem_of_getLast? ha)
          rw [Function.update_of_ne hac]
          exact ih hl ha (fun hm => hb (List.mem_cons_of_mem c hm)) (List.nodup_cons.1 hnd).2

/-- The nodes visited from `p` if there are at most `n` of them. -/
def follow {α : Type*} (next : α → Option α) : Nat → Option α → Option (List α)
  | _, none => some []
  | 0, some _ => none
  | n + 1, some a => (follow next n (next a)).map fun l => a :: l

theorem isChain_of_follow {α : Type*} {next : α → Option α} {n : Nat} {p : Option α}
    {l : List α} (h : follow next n p = some l) : IsChain next p l := by
  induction n generalizing p l with
  | zero =>
      cases p with
      | none => cases h; rfl
      | some a => cases h
  | succ n ih =>
      cases p with
      | none => cases h; rfl
      | some a =>
          obtain ⟨l', hl', rfl⟩ := Option.map_eq_some_iff.1 h
          exact ⟨rfl, ih hl'⟩

theorem IsChain.follow_eq {α : Type*} {next : α → Option α} {n : Nat} {p : Option α}
    {l : List α} (h : IsChain next p l) (hn : l.length ≤ n) : follow next n p = some l := by
  induction l generalizing n p with
  | nil =>
      rw [isChain_nil.1 h]
      cases n <;> rfl
  | cons a l ih =>
      obtain ⟨rfl, hl⟩ := h
      cases n with
      | zero => simp at hn
      | succ n => simp [follow, ih hl (Nat.le_of_succ_le_succ hn)]

end Linked
