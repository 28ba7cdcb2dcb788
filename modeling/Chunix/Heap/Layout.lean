import Mathlib.Data.List.Nodup

/-!
# Layouts of a heap

A heap is a sequence of chunks without gaps, each free or in use. The allocator
takes the first free chunk that is large enough, cuts off what is left if that is
worth a header, and extends the heap if there is no such chunk. Freeing a chunk
marks it free and merges neighbours: `normalize` is the one place that says what
merging does, namely that a run of free chunks becomes one chunk and a run at the
end of the heap disappears. In a tidy layout every free chunk is followed by a
chunk in use, and tidy layouts are those that `normalize` leaves alone.
-/

namespace Chunix

namespace Heap

/-- A chunk with its length, which includes the header. -/
structure Chunk where
  len : Nat
  free : Bool
deriving DecidableEq, Repr

/-- The size of `struct heap_head`. -/
def headerSize : Nat := 12

/-- The length of a layout. -/
def total : List Chunk → Nat
  | [] => 0
  | c :: cs => c.len + total cs

@[simp] theorem total_nil : total [] = 0 := rfl

@[simp] theorem total_cons (c : Chunk) (cs : List Chunk) : total (c :: cs) = c.len + total cs := rfl

@[simp] theorem total_append (l r : List Chunk) : total (l ++ r) = total l + total r := by
  induction l with
  | nil => simp
  | cons c l ih => simp [ih, Nat.add_assoc]

/-- There is a first chunk and it is in use. -/
def headUsed : List Chunk → Bool
  | [] => false
  | c :: _ => !c.free

/-- Every free chunk is followed by a chunk in use. -/
def Tidy : List Chunk → Prop
  | [] => True
  | c :: cs => (c.free = true → headUsed cs = true) ∧ Tidy cs

/-- Every chunk has room for its header. -/
def Sized (cs : List Chunk) : Prop := ∀ c ∈ cs, headerSize ≤ c.len

theorem sized_cons {c : Chunk} {cs : List Chunk} :
    Sized (c :: cs) ↔ headerSize ≤ c.len ∧ Sized cs := List.forall_mem_cons

theorem sized_append {l r : List Chunk} : Sized (l ++ r) ↔ Sized l ∧ Sized r :=
  List.forall_mem_append

/-- A layout is tidy when no two neighbours are free and the last chunk is in
use. -/
theorem tidy_iff {cs : List Chunk} :
    Tidy cs ↔ (∀ l c d r, cs = l ++ c :: d :: r → ¬ (c.free = true ∧ d.free = true)) ∧
      ∀ l c, cs = l ++ [c] → c.free = false := by
  induction cs with
  | nil => simp [Tidy]
  | cons c cs ih =>
      rw [Tidy, ih]
      constructor
      · rintro ⟨hc, hn, hl⟩
        refine ⟨?_, ?_⟩
        · rintro (_ | ⟨a, l⟩) c' d r h ⟨hf, hf'⟩
          · cases h
            simp [headUsed, hf'] at hc
            simp [hc] at hf
          · cases h
            exact hn l c' d r rfl ⟨hf, hf'⟩
        · rintro (_ | ⟨a, l⟩) c' h
          · cases h
            simpa [headUsed] using hc
          · cases h
            exact hl l c' rfl
      · rintro ⟨hn, hl⟩
        refine ⟨?_, fun l c' d r h => hn (c :: l) c' d r (by rw [h]; rfl),
          fun l c' h => hl (c :: l) c' (by rw [h]; rfl)⟩
        intro hf
        cases cs with
        | nil => simp [hl [] c rfl] at hf
        | cons d r =>
            have := hn [] c d r rfl
            simpa [headUsed, hf] using this

/-- What stands before a layout stays tidy when only the use of its first chunk
matters. -/
theorem tidy_append_congr {l r r' : List Chunk} (h : Tidy (l ++ r)) (hr : Tidy r')
    (hu : headUsed r = true → headUsed r' = true) : Tidy (l ++ r') := by
  induction l with
  | nil => exact hr
  | cons c l ih =>
      refine ⟨?_, ih h.2⟩
      intro hf
      have := h.1 hf
      cases l with
      | nil => exact hu this
      | cons d l => exact this

theorem Tidy.of_append {l r : List Chunk} (h : Tidy (l ++ r)) : Tidy r := by
  induction l with
  | nil => exact h
  | cons c l ih => exact ih h.2

/-- The layout after a request for `n` bytes, the header included. -/
def malloc (n : Nat) : List Chunk → List Chunk
  | [] => [⟨n, false⟩]
  | c :: cs =>
      if c.free = true ∧ n ≤ c.len then
        if c.len - n ≤ headerSize then ⟨c.len, false⟩ :: cs
        else ⟨n, false⟩ :: ⟨c.len - n, true⟩ :: cs
      else c :: malloc n cs

/-- The offset of the chunk a request for `n` bytes gets. -/
def mallocAt (n : Nat) : List Chunk → Nat
  | [] => 0
  | c :: cs => if c.free = true ∧ n ≤ c.len then 0 else c.len + mallocAt n cs

/-- A chunk put in front of a layout, merged with a free chunk behind it, and
dropped if it is free and nothing is behind it. -/
def merge (c : Chunk) (cs : List Chunk) : List Chunk :=
  if c.free then
    match cs with
    | [] => []
    | d :: r => if d.free then ⟨c.len + d.len, true⟩ :: r else c :: d :: r
  else c :: cs

/-- The layout with free neighbours merged and free chunks at the end dropped. -/
def normalize (cs : List Chunk) : List Chunk := cs.foldr merge []

/-- The chunk at the offset `o` marked free. -/
def markFree (o : Nat) : List Chunk → List Chunk
  | [] => []
  | c :: cs => if o = 0 then ⟨c.len, true⟩ :: cs else c :: markFree (o - c.len) cs

/-- The layout after the chunk at the offset `o` was freed. -/
def release (o : Nat) (cs : List Chunk) : List Chunk := normalize (markFree o cs)

theorem merge_of_used {c : Chunk} (cs : List Chunk) (hc : c.free = false) :
    merge c cs = c :: cs := by
  simp [merge, hc]

theorem merge_of_headUsed {c : Chunk} {cs : List Chunk} (h : headUsed cs = true) :
    merge c cs = c :: cs := by
  cases cs with
  | nil => simp [headUsed] at h
  | cons d r =>
      have hd : d.free = false := by simpa [headUsed] using h
      by_cases hc : c.free = true <;> simp [merge, hc, hd]

/-- A tidy layout is left alone by one more merge in front of it exactly when the
longer layout is tidy. -/
theorem merge_of_tidy {c : Chunk} {cs : List Chunk} (h : Tidy (c :: cs)) :
    merge c cs = c :: cs := by
  by_cases hc : c.free = true
  · exact merge_of_headUsed (h.1 hc)
  · exact merge_of_used cs (by simpa using hc)

theorem foldr_merge_of_tidy {l r : List Chunk} (h : Tidy (l ++ r)) :
    l.foldr merge r = l ++ r := by
  induction l with
  | nil => rfl
  | cons c l ih =>
      rw [List.foldr_cons, ih h.2]
      exact merge_of_tidy h

theorem normalize_of_tidy {cs : List Chunk} (h : Tidy cs) : normalize cs = cs := by
  have := foldr_merge_of_tidy (l := cs) (r := []) (by simpa using h)
  simpa [normalize] using this

theorem normalize_cons (c : Chunk) (cs : List Chunk) :
    normalize (c :: cs) = merge c (normalize cs) := rfl

theorem normalize_append (l r : List Chunk) :
    normalize (l ++ r) = l.foldr merge (normalize r) := List.foldr_append

theorem tidy_merge {c : Chunk} {cs : List Chunk} (h : Tidy cs) : Tidy (merge c cs) := by
  by_cases hc : c.free = true
  · cases cs with
    | nil => simp [merge, hc, Tidy]
    | cons d r =>
        by_cases hd : d.free = true
        · simp only [merge, hc, hd, if_true]
          exact ⟨fun _ => h.1 hd, h.2⟩
        · rw [merge_of_headUsed (by simpa [headUsed] using hd)]
          exact ⟨fun _ => by simpa [headUsed] using hd, h⟩
  · rw [merge_of_used cs (by simpa using hc)]
    exact ⟨fun hf => absurd hf hc, h⟩

theorem tidy_normalize (cs : List Chunk) : Tidy (normalize cs) := by
  induction cs with
  | nil => trivial
  | cons c cs ih => exact tidy_merge ih

theorem sized_merge {c : Chunk} {cs : List Chunk} (h : Sized (c :: cs)) : Sized (merge c cs) := by
  obtain ⟨hc, hcs⟩ := sized_cons.1 h
  by_cases hf : c.free = true
  · cases cs with
    | nil => simp [merge, hf, Sized]
    | cons d r =>
        by_cases hd : d.free = true
        · simp only [merge, hf, hd, if_true]
          exact sized_cons.2 ⟨by simp only; omega, (sized_cons.1 hcs).2⟩
        · rw [merge_of_headUsed (by simpa [headUsed] using hd)]
          exact h
  · rw [merge_of_used cs (by simpa using hf)]
    exact h

theorem sized_normalize {cs : List Chunk} (h : Sized cs) : Sized (normalize cs) := by
  induction cs with
  | nil => exact h
  | cons c cs ih =>
      obtain ⟨hc, hcs⟩ := sized_cons.1 h
      exact sized_merge (sized_cons.2 ⟨hc, ih hcs⟩)

theorem total_merge_le (c : Chunk) (cs : List Chunk) : total (merge c cs) ≤ c.len + total cs := by
  by_cases hf : c.free = true
  · cases cs with
    | nil => simp [merge, hf]
    | cons d r =>
        by_cases hd : d.free = true
        · simp only [merge, hf, hd, if_true, total_cons]
          omega
        · rw [merge_of_headUsed (by simpa [headUsed] using hd)]
          simp
  · rw [merge_of_used cs (by simpa using hf)]
    simp

theorem total_normalize_le (cs : List Chunk) : total (normalize cs) ≤ total cs := by
  induction cs with
  | nil => exact Nat.le_refl 0
  | cons c cs ih => exact Nat.le_trans (total_merge_le c (normalize cs)) (by simpa using ih)

theorem tidy_malloc {n : Nat} {cs : List Chunk} (h : Tidy cs) : Tidy (malloc n cs) := by
  induction cs with
  | nil => simp [malloc, Tidy]
  | cons c cs ih =>
      rw [malloc]
      split
      · rename_i hc
        have hu := h.1 hc.1
        split
        · exact ⟨by simp, h.2⟩
        · exact ⟨by simp, fun _ => hu, h.2⟩
      · refine ⟨?_, ih h.2⟩
        intro hf
        have hu := h.1 hf
        cases cs with
        | nil => simp [headUsed] at hu
        | cons d r =>
            have hd : d.free = false := by simpa [headUsed] using hu
            simp [malloc, hd, headUsed]

theorem sized_malloc {n : Nat} {cs : List Chunk} (hn : headerSize ≤ n) (h : Sized cs) :
    Sized (malloc n cs) := by
  induction cs with
  | nil => simpa [malloc, Sized] using hn
  | cons c cs ih =>
      obtain ⟨hc, hcs⟩ := sized_cons.1 h
      rw [malloc]
      split
      · split
        · exact sized_cons.2 ⟨hc, hcs⟩
        · exact sized_cons.2 ⟨hn, sized_cons.2 ⟨by simp only; omega, hcs⟩⟩
      · exact sized_cons.2 ⟨hc, ih hcs⟩

/-- The addresses and lengths of the chunks in use, when the layout starts at
`a`. -/
def usedAt (a : Nat) : List Chunk → List (Nat × Nat)
  | [] => []
  | c :: cs => (if c.free then [] else [(a, c.len)]) ++ usedAt (a + c.len) cs

theorem usedAt_append (a : Nat) (l r : List Chunk) :
    usedAt a (l ++ r) = usedAt a l ++ usedAt (a + total l) r := by
  induction l generalizing a with
  | nil => simp [usedAt]
  | cons c l ih => simp [usedAt, ih, Nat.add_assoc]

/-- Merging does not concern the chunks in use. -/
theorem usedAt_merge (a : Nat) (c : Chunk) (cs : List Chunk) :
    usedAt a (merge c cs) = usedAt a (c :: cs) := by
  by_cases hf : c.free = true
  · cases cs with
    | nil => simp [merge, hf, usedAt]
    | cons d r =>
        by_cases hd : d.free = true
        · simp [merge, hf, hd, usedAt, Nat.add_assoc]
        · rw [merge_of_headUsed (by simpa [headUsed] using hd)]
  · rw [merge_of_used cs (by simpa using hf)]

theorem usedAt_normalize (a : Nat) (cs : List Chunk) : usedAt a (normalize cs) = usedAt a cs := by
  induction cs generalizing a with
  | nil => rfl
  | cons c cs ih =>
      rw [normalize_cons, usedAt_merge]
      simp only [usedAt, ih]

theorem bounds_of_mem_usedAt {a : Nat} {b : Nat × Nat} {cs : List Chunk} (hs : Sized cs)
    (h : b ∈ usedAt a cs) :
    a ≤ b.1 ∧ headerSize ≤ b.2 ∧ b.1 + b.2 ≤ a + total cs := by
  induction cs generalizing a with
  | nil => simp [usedAt] at h
  | cons c cs ih =>
      obtain ⟨hc, hcs⟩ := sized_cons.1 hs
      rw [usedAt, List.mem_append] at h
      rw [total_cons]
      rcases h with h | h
      · split at h
        · simp at h
        · rw [List.mem_singleton.1 h]
          exact ⟨Nat.le_refl a, hc, by simp only; omega⟩
      · have := ih hcs h
        omega

/-- The address of a chunk in use splits the layout. -/
theorem exists_append_of_mem_usedAt {a : Nat} {b : Nat × Nat} {cs : List Chunk}
    (h : b ∈ usedAt a cs) :
    ∃ l r, cs = l ++ ⟨b.2, false⟩ :: r ∧ b.1 = a + total l := by
  induction cs generalizing a with
  | nil => simp [usedAt] at h
  | cons c cs ih =>
      rw [usedAt, List.mem_append] at h
      rcases h with h | h
      · split at h
        · simp at h
        · rename_i hf
          rw [List.mem_singleton.1 h]
          refine ⟨[], cs, ?_, rfl⟩
          simp only [Bool.not_eq_true] at hf
          rw [← hf, List.nil_append]
      · obtain ⟨l, r, rfl, hb⟩ := ih h
        exact ⟨c :: l, r, rfl, by rw [hb, total_cons, Nat.add_assoc]⟩

/-- A request adds its chunk, of at least the length asked for, to those in
use. -/
theorem exists_mem_usedAt_malloc (n a : Nat) (cs : List Chunk) :
    ∃ len, n ≤ len ∧ ∀ b, b ∈ usedAt a (malloc n cs) ↔
      b = (a + mallocAt n cs, len) ∨ b ∈ usedAt a cs := by
  induction cs generalizing a with
  | nil => exact ⟨n, Nat.le_refl n, fun b => by simp [malloc, mallocAt, usedAt]⟩
  | cons c cs ih =>
      rw [malloc, mallocAt]
      split
      · rename_i hc
        have hlen : n + (c.len - n) = c.len := by omega
        split
        · exact ⟨c.len, hc.2, fun b => by simp [usedAt, hc.1]⟩
        · exact ⟨n, Nat.le_refl n, fun b => by simp [usedAt, hc.1, Nat.add_assoc, hlen]⟩
      · obtain ⟨len, hle, hb⟩ := ih (a + c.len)
        refine ⟨len, hle, fun b => ?_⟩
        simp only [usedAt, List.mem_append, hb, Nat.add_assoc]
        tauto

/-- The chunk a request gets was not in use. -/
theorem mallocAt_ne_of_mem_usedAt {n a : Nat} {b : Nat × Nat} {cs : List Chunk} (hs : Sized cs)
    (h : b ∈ usedAt a cs) : b.1 ≠ a + mallocAt n cs := by
  induction cs generalizing a with
  | nil => simp [usedAt] at h
  | cons c cs ih =>
      obtain ⟨hc, hcs⟩ := sized_cons.1 hs
      unfold headerSize at hc
      rw [usedAt, List.mem_append] at h
      rw [mallocAt]
      rcases h with h | h
      · split at h
        · simp at h
        · rename_i hf
          rw [List.mem_singleton.1 h, if_neg (fun hc => hf hc.1)]
          simp only
          omega
      · split
        · have := bounds_of_mem_usedAt hcs h
          omega
        · have := ih hcs h
          omega

theorem markFree_append {l r : List Chunk} {c : Chunk} (h : Sized l) :
    markFree (total l) (l ++ c :: r) = l ++ ⟨c.len, true⟩ :: r := by
  induction l with
  | nil => simp [markFree]
  | cons d l ih =>
      obtain ⟨hd, hl⟩ := sized_cons.1 h
      have hpos : d.len + total l ≠ 0 := by unfold headerSize at hd; omega
      simp only [List.cons_append, markFree, total_cons, if_neg hpos, Nat.add_sub_cancel_left]
      rw [ih hl]

/-- Freeing a chunk takes it from those in use. -/
theorem mem_usedAt_release {a : Nat} {b : Nat × Nat} {l r : List Chunk} {c : Chunk}
    (hs : Sized (l ++ c :: r)) :
    b ∈ usedAt a (release (total l) (l ++ c :: r)) ↔
      b ∈ usedAt a (l ++ c :: r) ∧ b.1 ≠ a + total l := by
  obtain ⟨hl, hcr⟩ := sized_append.1 hs
  obtain ⟨hc, hr⟩ := sized_cons.1 hcr
  unfold headerSize at hc
  have hlt : b ∈ usedAt a l → b.1 ≠ a + total l := by
    intro h
    have := bounds_of_mem_usedAt hl h
    unfold headerSize at this
    omega
  have hgt : b ∈ usedAt (a + total l + c.len) r → b.1 ≠ a + total l := by
    intro h
    have := bounds_of_mem_usedAt hr h
    omega
  rw [release, usedAt_normalize, markFree_append hl]
  simp only [usedAt_append, usedAt, List.mem_append, if_true, List.not_mem_nil, false_or]
  constructor
  · rintro (h | h)
    · exact ⟨Or.inl h, hlt h⟩
    · exact ⟨Or.inr (Or.inr h), hgt h⟩
  · rintro ⟨h | h | h, hne⟩
    · exact Or.inl h
    · split at h
      · simp at h
      · rw [List.mem_singleton.1 h] at hne
        exact absurd rfl hne
    · exact Or.inr h

end Heap

end Chunix
