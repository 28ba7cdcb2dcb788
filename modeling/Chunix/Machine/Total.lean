import Mathlib.Tactic.Choose
import Chunix.Machine.Act

/-!
# Total correctness through a view

A proof about an action often needs only part of the state. An abstraction says
which states are legal and what of them is visible. `Total A v x Q` says that
from every legal state with the view `v` the action `x` returns, in a legal state
again, with a result and a view in `Q`; `Gives A v x a w` is the case where the
result `a` and the view `w` are known. The rules below take a program apart
statement by statement. `Steady A v x` is for programs that only read: what `x`
comes to, be it a stop, is the same from all these states.
-/

namespace Machine

/-- The legal states of a type and what is visible of them. -/
structure Abstraction (σ V : Type) where
  ok : σ → Prop
  view : σ → V

/-- The states that are legal and that `R` relates to the state `s₀`. -/
def Abstraction.since {σ V : Type} (A : Abstraction σ V) (R : σ → σ → Prop) (s₀ : σ) :
    Abstraction σ V where
  ok s := A.ok s ∧ R s₀ s
  view := A.view

namespace Act

variable {σ V α β : Type} {A : Abstraction σ V} {v w : V}

/-- From every legal state with the view `v`, the action returns in a legal state
with a result and a view in `Q`. -/
def Total (A : Abstraction σ V) (v : V) (x : Act σ α) (Q : α → V → Prop) : Prop :=
  ∀ s, A.ok s → A.view s = v → ∃ a s', x s = .ok (a, s') ∧ A.ok s' ∧ Q a (A.view s')

/-- From every legal state with the view `v`, the action returns `a` in a legal
state with the view `w`. -/
def Gives (A : Abstraction σ V) (v : V) (x : Act σ α) (a : α) (w : V) : Prop :=
  Total A v x fun b u => b = a ∧ u = w

theorem Total.mono {x : Act σ α} {P Q : α → V → Prop} (h : Total A v x P)
    (hPQ : ∀ a w, P a w → Q a w) : Total A v x Q := by
  intro s hs hv
  obtain ⟨a, s', hx, hok, hp⟩ := h s hs hv
  exact ⟨a, s', hx, hok, hPQ _ _ hp⟩

/-- What is known of an action that has returned. -/
theorem Total.of_eq_ok {x : Act σ α} {Q : α → V → Prop} {s s' : σ} {a : α} (h : Total A v x Q)
    (hs : A.ok s) (hv : A.view s = v) (hx : x s = .ok (a, s')) : A.ok s' ∧ Q a (A.view s') := by
  obtain ⟨b, t, hb, hok, hq⟩ := h s hs hv
  cases hx.symm.trans hb
  exact ⟨hok, hq⟩

theorem gives_pure (a : α) : Gives A v (pure a) a v :=
  fun s hs hv => ⟨a, s, rfl, hs, rfl, hv⟩

theorem Total.bind {x : Act σ α} {f : α → Act σ β} {P : α → V → Prop} {Q : β → V → Prop}
    (hx : Total A v x P) (hf : ∀ a w, P a w → Total A w (f a) Q) : Total A v (x >>= f) Q := by
  intro s hs hv
  obtain ⟨a, s₁, hx, hok, hp⟩ := hx s hs hv
  obtain ⟨b, s₂, hb, hok', hq⟩ := hf a _ hp s₁ hok rfl
  exact ⟨b, s₂, bind_eq_ok.2 ⟨a, s₁, hx, hb⟩, hok', hq⟩

theorem Gives.bind {x : Act σ α} {f : α → Act σ β} {a : α} {Q : β → V → Prop}
    (hx : Gives A v x a w) (hf : Total A w (f a) Q) : Total A v (x >>= f) Q := by
  refine Total.bind hx ?_
  rintro b u ⟨rfl, rfl⟩
  exact hf

/-- The rule with a name for the view in between. -/
theorem Gives.bind_eq {x : Act σ α} {f : α → Act σ β} {a : α} {Q : β → V → Prop}
    (hx : Gives A v x a w) (hf : ∀ u, u = w → Total A u (f a) Q) : Total A v (x >>= f) Q :=
  hx.bind (hf w rfl)

/-- An action keeps a relation that each of its steps is in. -/
theorem Total.since {x : Act σ α} {Q : α → V → Prop} {R : σ → σ → Prop} {s₀ : σ}
    (h : Total A v x Q) (htrans : ∀ a b c, R a b → R b c → R a c)
    (hR : ∀ s a s', A.ok s → A.view s = v → x s = .ok (a, s') → R s s') :
    Total (A.since R s₀) v x Q := by
  rintro s ⟨hs, hs₀⟩ hv
  obtain ⟨a, s', hx, hok, hq⟩ := h s hs hv
  exact ⟨a, s', hx, ⟨hok, htrans _ _ _ hs₀ (hR s a s' hs hv hx)⟩, hq⟩

/-- From every legal state with the view `v` the action comes to `r`: it returns
the value in a legal state with the same view, or it stops. -/
def Reads (A : Abstraction σ V) (v : V) (x : Act σ α) (r : Except Stop α) : Prop :=
  ∀ s, A.ok s → A.view s = v →
    match r with
    | .ok a => ∃ s', x s = .ok (a, s') ∧ A.ok s' ∧ A.view s' = v
    | .error e => x s = .error e

/-- What the action comes to depends on the view alone, and it does not change
the view. -/
def Steady (A : Abstraction σ V) (v : V) (x : Act σ α) : Prop := ∃ r, Reads A v x r

/-- What the action comes to from a state. -/
def outcome (x : Act σ α) (s : σ) : Except Stop α := (x s).map Prod.fst

theorem Gives.outcome {x : Act σ α} {a : α} {s : σ} (h : Gives A v x a w) (hs : A.ok s)
    (hv : A.view s = v) : outcome x s = .ok a := by
  obtain ⟨_, t, ht, -, rfl, -⟩ := h s hs hv
  rw [Act.outcome, ht]
  rfl

theorem reads_pure (a : α) : Reads A v (pure a) (.ok a) := fun s hs hv => ⟨s, rfl, hs, hv⟩

theorem Reads.bind {x : Act σ α} {f : α → Act σ β} {r : Except Stop α} {r' : α → Except Stop β}
    (hx : Reads A v x r) (hf : ∀ a, Reads A v (f a) (r' a)) :
    Reads A v (x >>= f) (r >>= r') := by
  intro s hs hv
  cases r with
  | error e => exact bind_of_error (hx s hs hv)
  | ok a =>
      obtain ⟨t, ht, hok, hview⟩ := hx s hs hv
      rw [bind_of_ok ht]
      exact hf a t hok hview

theorem steady_pure (a : α) : Steady A v (pure a) := ⟨_, reads_pure a⟩

theorem steady_halt (e : Stop) : Steady A v (halt e : Act σ α) := ⟨.error e, fun _ _ _ => rfl⟩

theorem Steady.bind {x : Act σ α} {f : α → Act σ β} (hx : Steady A v x)
    (hf : ∀ a, Steady A v (f a)) : Steady A v (x >>= f) := by
  obtain ⟨r, hr⟩ := hx
  choose r' hr' using hf
  exact ⟨_, hr.bind hr'⟩

theorem Steady.of_eq_ok {x : Act σ α} {s s' : σ} {a : α} (h : Steady A v x) (hs : A.ok s)
    (hv : A.view s = v) (hx : x s = .ok (a, s')) : A.ok s' ∧ A.view s' = v := by
  obtain ⟨r, hr⟩ := h
  have := hr s hs hv
  cases r with
  | error e =>
      rw [hx] at this
      cases this
  | ok b =>
      obtain ⟨t, ht, hok, hview⟩ := this
      cases hx.symm.trans ht
      exact ⟨hok, hview⟩

/-- A steady action comes everywhere to what it comes to from one legal state. -/
theorem Steady.reads {x : Act σ α} {s : σ} (h : Steady A v x) (hs : A.ok s)
    (hv : A.view s = v) : Reads A v x (outcome x s) := by
  obtain ⟨r, hr⟩ := h
  have hout : outcome x s = r := by
    have := hr s hs hv
    cases r with
    | error e =>
        simp only at this
        rw [outcome, this]
        rfl
    | ok a =>
        obtain ⟨t, ht, -⟩ := this
        rw [outcome, ht]
        rfl
  exact hout ▸ hr

end Act

end Machine
