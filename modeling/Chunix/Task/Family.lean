import Chunix.Task.Running
import Mathlib.Order.Fin.Basic

/-!
# Parents and pids

What `exit` and `wait` do to the parents and the pids, in full: `exit` hands every
child on the list to `inittask` and wakes its own parent, and a pass of `wait` that
returns nothing has seen the whole list.
-/

namespace Chunix

namespace Task

open Machine Linked Kernel

/-- The parents and the pids after the loop of `exit`. -/
structure Handed (c : Slot) (l : List Slot) (k k' : Kernel) : Prop where
  pid : ∀ t, (k'.tasks t).pid = (k.tasks t).pid
  parent : ∀ t, (k'.tasks t).parent =
    if t ∈ l ∧ (k.tasks t).parent = some c then k.inittask else (k.tasks t).parent

/-- The children on two lists are handed over one list after the other. -/
theorem Handed.trans {c : Slot} {l l' : List Slot} {k k₁ k' : Kernel} (h : Handed c l k k₁)
    (hi : k₁.inittask = k.inittask) (h' : Handed c l' k₁ k') : Handed c (l ++ l') k k' := by
  refine ⟨fun t => (h'.pid t).trans (h.pid t), fun t => ?_⟩
  rw [h'.parent t, h.parent t, hi]
  by_cases hp : (k.tasks t).parent = some c
  · by_cases hl : t ∈ l
    · simp [hl, hp]
    · simp [hl, hp]
  · simp [hp]

end Task

end Chunix
