import Mathlib.Logic.Function.Basic

/-!
# Runs of a labelled transition system

`Run step s ls t` says that the labels `ls`, taken in order, lead from the
state `s` to the state `t`. An invariant is proved for one step and holds along
every run (`Run.invariant`). `Run.ends_or_stays` is the rule for a fact that only one kind
of label can end: as long as no such label has occurred, the fact still holds.
-/

namespace Machine

/-- The labels `ls`, taken in order, lead from one state to another. -/
inductive Run {S L : Type*} (step : S → L → S → Prop) : S → List L → S → Prop
  | nil (s : S) : Run step s [] s
  | cons {s t u : S} {l : L} {ls : List L} (h : step s l t) (hr : Run step t ls u) :
      Run step s (l :: ls) u

namespace Run

variable {S L : Type*} {step : S → L → S → Prop}

theorem append {s t u : S} {ls ls' : List L} (h : Run step s ls t) (h' : Run step t ls' u) :
    Run step s (ls ++ ls') u := by
  induction h with
  | nil => exact h'
  | cons hs _ ih => exact Run.cons hs (ih h')

theorem single {s t : S} {l : L} (h : step s l t) : Run step s [l] t :=
  Run.cons h (Run.nil t)

/-- A run over a concatenation of labels passes through the seam. -/
theorem split {s u : S} {ls' : List L} : ∀ {ls : List L}, Run step s (ls ++ ls') u →
    ∃ t, Run step s ls t ∧ Run step t ls' u := by
  intro ls
  induction ls generalizing s with
  | nil => exact fun h => ⟨s, Run.nil s, h⟩
  | cons l ls ih =>
      intro h
      cases h with
      | cons hs hr =>
          obtain ⟨t, h₁, h₂⟩ := ih hr
          exact ⟨t, Run.cons hs h₁, h₂⟩

/-- A property kept by every step with one of the labels holds at the end of the
run. -/
theorem invariant {I : S → Prop} {s t : S} {ls : List L} (h : Run step s ls t)
    (hstep : ∀ s l t, l ∈ ls → I s → step s l t → I t) (h₀ : I s) : I t := by
  induction h with
  | nil => exact h₀
  | @cons s t u l ls hs _ ih =>
      exact ih (fun s l' t hl => hstep s l' t (List.mem_cons_of_mem l hl))
        (hstep s l t List.mem_cons_self h₀ hs)

/-- A run of one system is a run of every system with more steps. -/
theorem mono {step' : S → L → S → Prop} (hle : ∀ s l t, step s l t → step' s l t)
    {s t : S} {ls : List L} (h : Run step s ls t) : Run step' s ls t := by
  induction h with
  | nil => exact Run.nil _
  | cons hs _ ih => exact Run.cons (hle _ _ _ hs) ih

/-- A fact that only the labels in `Ends` can end still holds after a run
without such a label. -/
theorem ends_or_stays {I Q : S → Prop} {Ends : L → Prop} (hI : ∀ s l t, I s → step s l t → I t)
    (hQ : ∀ s l t, I s → Q s → step s l t → Ends l ∨ Q t)
    {s t : S} {ls : List L} (h : Run step s ls t) (h₀ : I s) (hq : Q s) :
    (∃ l ∈ ls, Ends l) ∨ Q t := by
  induction h with
  | nil => exact Or.inr hq
  | @cons s t u l ls hs hr ih =>
      rcases hQ s l t h₀ hq hs with he | hq'
      · exact Or.inl ⟨l, List.mem_cons_self, he⟩
      · rcases ih (hI s l t h₀ hs) hq' with ⟨l', hl', he⟩ | hq''
        · exact Or.inl ⟨l', List.mem_cons_of_mem l hl', he⟩
        · exact Or.inr hq''

end Run

end Machine
