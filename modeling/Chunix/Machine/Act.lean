import Mathlib.Logic.Function.Basic

/-!
# Actions of a machine that may stop

An action on a state either returns a value and a new state or stops the
machine for good: by a panic, by a page fault, or because a loop does not end.
The equivalences below take a successful composite action apart, so that a
proof about it never unfolds the monad.
-/

namespace Machine

/-- Why the machine stops. -/
inductive Stop
  | panic (msg : String)
  | fault (addr : Nat)
  | hang
deriving DecidableEq, Repr

/-- An outcome that was evaluated. -/
theorem exists_ok_of_toOption {α β : Type} {x : Except Stop α} {f : α → β} {b : β}
    (h : x.toOption.map f = some b) : ∃ a, x = .ok a ∧ f a = b := by
  cases x with
  | error e => cases h
  | ok a => exact ⟨a, rfl, Option.some.inj h⟩

/-- An action on states `σ` with a result in `α`. -/
def Act (σ α : Type) := σ → Except Stop (α × σ)

namespace Act

variable {σ τ α β : Type}

instance : Monad (Act σ) where
  pure a := fun s => .ok (a, s)
  bind x f := fun s =>
    match x s with
    | .ok (a, t) => f a t
    | .error e => .error e

/-- The state. -/
def get : Act σ σ := fun s => .ok (s, s)

/-- The value of `f` at the state. -/
def gets (f : σ → α) : Act σ α := fun s => .ok (f s, s)

/-- The change of the state by `f`. -/
def modify (f : σ → σ) : Act σ Unit := fun s => .ok ((), f s)

/-- The end of the machine. -/
def halt (e : Stop) : Act σ α := fun _ => .error e

/-- The action `x` on the component of the state that `view` reads and `put`
writes. -/
def zoom (view : σ → τ) (put : τ → σ → σ) (x : Act τ α) : Act σ α := fun s =>
  match x (view s) with
  | .ok (a, t) => .ok (a, put t s)
  | .error e => .error e

@[simp] theorem pure_eq_ok {a b : α} {s t : σ} :
    (pure a : Act σ α) s = .ok (b, t) ↔ a = b ∧ s = t := by
  change Except.ok (a, s) = Except.ok (b, t) ↔ _
  simp

@[simp] theorem get_eq_ok {s t u : σ} :
    (get : Act σ σ) s = .ok (u, t) ↔ s = u ∧ s = t := by
  simp [get]

@[simp] theorem gets_eq_ok {f : σ → α} {b : α} {s t : σ} :
    gets f s = .ok (b, t) ↔ f s = b ∧ s = t := by
  simp [gets]

@[simp] theorem modify_eq_ok {f : σ → σ} {u : Unit} {s t : σ} :
    modify f s = .ok (u, t) ↔ f s = t := by
  simp [modify]

@[simp] theorem halt_eq_ok {e : Stop} {b : α} {s t : σ} :
    (halt e : Act σ α) s = .ok (b, t) ↔ False := by
  simp [halt]

/-- A composite action succeeds when its parts do, one after the other. -/
theorem bind_eq_ok {x : Act σ α} {f : α → Act σ β} {b : β} {s u : σ} :
    (x >>= f) s = .ok (b, u) ↔ ∃ a t, x s = .ok (a, t) ∧ f a t = .ok (b, u) := by
  change (match x s with
    | .ok (a, t) => f a t
    | .error e => .error e) = Except.ok (b, u) ↔ _
  cases h : x s with
  | error e => simp
  | ok p =>
      obtain ⟨a, t⟩ := p
      constructor
      · intro hf
        exact ⟨a, t, rfl, hf⟩
      · rintro ⟨a', t', he, hf⟩
        cases he
        exact hf

/-- A composite action goes on where its first part has returned. -/
theorem bind_of_ok {x : Act σ α} {f : α → Act σ β} {a : α} {s t : σ} (h : x s = .ok (a, t)) :
    (x >>= f) s = f a t := by
  change (match x s with
    | .ok (a, t) => f a t
    | .error e => .error e) = f a t
  rw [h]

/-- A composite action stops where its first part stops. -/
theorem bind_of_error {x : Act σ α} {f : α → Act σ β} {e : Stop} {s : σ} (h : x s = .error e) :
    (x >>= f) s = .error e := by
  change (match x s with
    | .ok (a, t) => f a t
    | .error e => .error e) = Except.error e
  rw [h]

theorem zoom_eq_ok {view : σ → τ} {put : τ → σ → σ} {x : Act τ α} {a : α} {s u : σ} :
    zoom view put x s = .ok (a, u) ↔ ∃ t, x (view s) = .ok (a, t) ∧ put t s = u := by
  unfold zoom
  cases h : x (view s) with
  | error e => simp
  | ok p =>
      obtain ⟨b, t⟩ := p
      constructor
      · intro he
        cases he
        exact ⟨t, rfl, rfl⟩
      · rintro ⟨t', he, rfl⟩
        cases he
        rfl

theorem ite_eq_ok {c : Prop} [Decidable c] {x y : Act σ α} {a : α} {s t : σ} :
    (if c then x else y) s = .ok (a, t) ↔ (c ∧ x s = .ok (a, t)) ∨ (¬ c ∧ y s = .ok (a, t)) := by
  by_cases h : c <;> simp [h]

/-- Two composite actions with the same first part agree where their second parts
do. -/
theorem bind_congr_of_ok {x : Act σ α} {f g : α → Act σ β} {s : σ}
    (h : ∀ a t, x s = .ok (a, t) → f a t = g a t) : (x >>= f) s = (x >>= g) s := by
  cases hx : x s with
  | error e => rw [bind_of_error hx, bind_of_error hx]
  | ok r => rw [bind_of_ok hx, bind_of_ok hx, h _ _ hx]

/-- The action leaves the state alone when it returns. -/
def ReadOnly (x : Act σ α) : Prop := ∀ s a t, x s = .ok (a, t) → t = s

theorem readOnly_pure (a : α) : ReadOnly (pure a : Act σ α) :=
  fun _ _ _ h => (pure_eq_ok.1 h).2.symm

theorem readOnly_get : ReadOnly (get : Act σ σ) := fun _ _ _ h => (get_eq_ok.1 h).2.symm

theorem readOnly_gets (f : σ → α) : ReadOnly (gets f) := fun _ _ _ h => (gets_eq_ok.1 h).2.symm

theorem readOnly_halt (e : Stop) : ReadOnly (halt e : Act σ α) :=
  fun _ _ _ h => (halt_eq_ok.1 h).elim

theorem ReadOnly.bind {x : Act σ α} {f : α → Act σ β} (hx : ReadOnly x)
    (hf : ∀ a, ReadOnly (f a)) : ReadOnly (x >>= f) := by
  intro s b u h
  obtain ⟨a, t, ha, hb⟩ := bind_eq_ok.1 h
  rw [hf a t b u hb, hx s a t ha]

theorem ReadOnly.zoom {view : σ → τ} {put : τ → σ → σ} {x : Act τ α} (hx : ReadOnly x)
    (hput : ∀ s, put (view s) s = s) : ReadOnly (Act.zoom view put x) := by
  intro s a t h
  obtain ⟨m, hm, rfl⟩ := zoom_eq_ok.1 h
  rw [hx _ _ _ hm, hput]

/-- The action does not change what `p` reads. -/
def Leaves {γ : Type} (p : σ → γ) (x : Act σ α) : Prop := ∀ s a t, x s = .ok (a, t) → p t = p s

section

variable {γ : Type} {p : σ → γ}

theorem Leaves.bind {x : Act σ α} {f : α → Act σ β} (hx : Leaves p x)
    (hf : ∀ a, Leaves p (f a)) : Leaves p (x >>= f) := by
  intro s b u h
  obtain ⟨a, t, ha, hb⟩ := bind_eq_ok.1 h
  rw [hf a t b u hb, hx s a t ha]

end

end Act

end Machine
