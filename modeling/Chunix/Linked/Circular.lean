import Mathlib.Data.List.Basic
import Mathlib.Logic.Function.Basic

/-!
# Circular buffers

A circular buffer of `N` places has a position where the next element is read and
one where the next element is written, and nothing else: it counts as empty when
the two positions agree. `Tracks N d n` relates it to the list `d` of everything
that was ever written and to the number `n` of elements read. As long as fewer
than `N` elements are waiting the buffer is a queue; with `N` of them waiting it
looks empty, and from then on at least `N` are waiting forever.
-/

namespace Linked

variable {α : Type*} {N n rpos wpos : Nat} {d : List α} {buf : Nat → α} {a : α}

/-- The position behind `p`. -/
def nextPos (N p : Nat) : Nat := if p + 1 = N then 0 else p + 1

theorem nextPos_mod (hN : 0 < N) (k : Nat) : nextPos N (k % N) = (k + 1) % N := by
  have hlt : k % N < N := Nat.mod_lt k hN
  have hsucc : (k + 1) % N = (k % N + 1) % N := (Nat.mod_add_mod k N 1).symm
  rw [nextPos, hsucc]
  split_ifs with h
  · rw [h, Nat.mod_self]
  · exact (Nat.mod_eq_of_lt (Nat.lt_of_le_of_ne hlt h)).symm

/-- The buffer after `d` has been written to it and `n` elements have been read. -/
structure Tracks (N : Nat) (d : List α) (n : Nat) (buf : Nat → α) (rpos wpos : Nat) : Prop where
  rpos_eq : rpos = n % N
  wpos_eq : wpos = d.length % N
  le : n ≤ d.length
  recent : ∀ j (hj : j < d.length), d.length ≤ j + N → buf (j % N) = d[j]

theorem tracks_nil : Tracks N ([] : List α) 0 buf 0 0 :=
  ⟨(Nat.zero_mod N).symm, (Nat.zero_mod N).symm, (Nat.le_refl _), fun _ hj => absurd hj (Nat.not_lt_zero _)⟩

/-- A write at the position for writing. -/
theorem Tracks.put (h : Tracks N d n buf rpos wpos) (hN : 0 < N) (a : α) :
    Tracks N (d ++ [a]) n (Function.update buf wpos a) rpos (nextPos N wpos) where
  rpos_eq := h.rpos_eq
  wpos_eq := by
    rw [h.wpos_eq, nextPos_mod hN, List.length_append, List.length_singleton]
  le := by
    have := h.le
    simp only [List.length_append, List.length_singleton]
    omega
  recent := by
    intro j hj hd
    rw [List.length_append, List.length_singleton] at hj hd
    by_cases hlast : j = d.length
    · subst hlast
      rw [h.wpos_eq, Function.update_self, List.getElem_append_right (Nat.le_refl _)]
      simp
    · have hne : j % N ≠ wpos := by
        rw [h.wpos_eq]
        intro he
        -- two numbers less than `N` apart with the same remainder are equal
        have hdvd : N ∣ d.length - j :=
          Nat.dvd_of_mod_eq_zero (Nat.sub_mod_eq_zero_of_mod_eq he.symm)
        exact absurd (Nat.le_of_dvd (by omega) hdvd) (by omega)
      rw [Function.update_of_ne hne, List.getElem_append_left (by omega)]
      exact h.recent j (by omega) (by omega)

theorem Tracks.lt (h : Tracks N d n buf rpos wpos) (hne : rpos ≠ wpos) : n < d.length := by
  have hle := h.le
  by_contra hge
  have heq : n = d.length := by omega
  exact hne (by rw [h.rpos_eq, h.wpos_eq, heq])

/-- A read where the positions differ. -/
theorem Tracks.get (h : Tracks N d n buf rpos wpos) (hN : 0 < N) (hne : rpos ≠ wpos) :
    Tracks N d (n + 1) buf (nextPos N rpos) wpos where
  rpos_eq := by rw [h.rpos_eq, nextPos_mod hN]
  wpos_eq := h.wpos_eq
  le := h.lt hne
  recent := h.recent

theorem Tracks.bounds (h : Tracks N d n buf rpos wpos) (hN : 0 < N) : rpos < N ∧ wpos < N := by
  rw [h.rpos_eq, h.wpos_eq]
  exact ⟨Nat.mod_lt _ hN, Nat.mod_lt _ hN⟩

/-- As long as fewer than `N` elements are waiting, the buffer is empty only if
all have been read. -/
theorem Tracks.eq_length (h : Tracks N d n buf rpos wpos) (hroom : d.length < n + N)
    (heq : rpos = wpos) : n = d.length := by
  have hle := h.le
  rw [h.rpos_eq, h.wpos_eq] at heq
  have hdvd : N ∣ d.length - n :=
    Nat.dvd_of_mod_eq_zero (Nat.sub_mod_eq_zero_of_mod_eq heq.symm)
  by_contra hne
  exact absurd (Nat.le_of_dvd (by omega) hdvd) (by omega)

/-- And the next element that is read is the one whose turn it is. -/
theorem Tracks.head (h : Tracks N d n buf rpos wpos) (hroom : d.length < n + N)
    (hlt : n < d.length) : buf rpos = d[n] := by
  rw [h.rpos_eq]
  exact h.recent n hlt (by omega)

/-- Once `N` elements are waiting, the buffer never gets below that. -/
theorem Tracks.full_get (h : Tracks N d n buf rpos wpos) (hfull : n + N ≤ d.length)
    (hne : rpos ≠ wpos) : n + 1 + N ≤ d.length := by
  by_contra hlt
  have heq : d.length = n + N := by omega
  exact hne (by rw [h.rpos_eq, h.wpos_eq, heq, Nat.add_mod_right])

end Linked
