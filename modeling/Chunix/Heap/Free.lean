import Chunix.Heap.Malloc

/-!
# Correctness of `kfree`

`kfree` takes the layout of the heap to the layout `release` says. The code looks
at the two neighbours of the chunk only; in a tidy layout that is all there is to
merge, and when the merged chunk is the last one it is given back and the chunk
before it is in use.
-/

namespace Chunix

namespace Heap

open Machine Act

/-- The free chunk `c` has taken in the chunk behind it if that is free. -/
inductive GluedRight (c : Chunk) : List Chunk → Chunk → List Chunk → Prop
  | last : GluedRight c [] c []
  | used {d r} (hd : d.free = false) : GluedRight c (d :: r) c (d :: r)
  | free {d r} (hd : d.free = true) : GluedRight c (d :: r) ⟨c.len + d.len, c.free⟩ r

/-- The free chunk `c` has been taken in by the chunk before it if that is
free. -/
inductive GluedLeft (c : Chunk) : List Chunk → List Chunk → Chunk → Prop
  | first : GluedLeft c [] [] c
  | used {l b} (hb : b.free = false) : GluedLeft c (l ++ [b]) (l ++ [b]) c
  | free {l b} (hb : b.free = true) : GluedLeft c (l ++ [b]) l ⟨b.len + c.len, b.free⟩

theorem GluedRight.merge_eq {c c₂ : Chunk} {r r₂ : List Chunk} (h : GluedRight c r c₂ r₂)
    (hc : c.free = true) (ht : Tidy r) :
    merge c r = (if r₂ = [] then [] else c₂ :: r₂) ∧ c₂.free = true ∧ Tidy r₂ ∧
      (r₂ = [] ∨ headUsed r₂ = true) := by
  cases h with
  | last => simp [merge, hc, Tidy]
  | @used d r hd => simp [merge, hc, hd, headUsed, ht]
  | @free d _ hd =>
      have hu := ht.1 hd
      cases r₂ with
      | nil => simp [headUsed] at hu
      | cons e r => simp [merge, hc, hd, hu, ht.2]

/-- What is left of a layout after the last chunk of it was dropped. -/
theorem tidy_of_append_used {l r : List Chunk} {b : Chunk} (h : Tidy (l ++ b :: r))
    (hb : b.free = false) : Tidy (l ++ [b]) :=
  tidy_append_congr h (by simp [Tidy, hb]) (by simp [headUsed])

theorem tidy_of_append_free {l r : List Chunk} {b : Chunk} (h : Tidy (l ++ b :: r))
    (hb : b.free = true) : Tidy l := by
  have := tidy_append_congr h (show Tidy [] from trivial) (by simp [headUsed, hb])
  simpa using this

/-- The neighbours are all that is merged in a tidy layout. -/
theorem release_eq {l r r₂ l₃ : List Chunk} {c c₂ c₃ : Chunk} (ht : Tidy (l ++ c :: r))
    (hz : Sized l) (hr : GluedRight ⟨c.len, true⟩ r c₂ r₂) (hl : GluedLeft c₂ l l₃ c₃) :
    release (total l) (l ++ c :: r) = if r₂ = [] then l₃ else l₃ ++ c₃ :: r₂ := by
  obtain ⟨hm, hf, ht₂, hu⟩ := hr.merge_eq rfl ht.of_append.2
  have hnorm : release (total l) (l ++ c :: r) =
      l.foldr merge (if r₂ = [] then [] else c₂ :: r₂) := by
    rw [release, markFree_append hz, normalize_append, normalize_cons,
      normalize_of_tidy ht.of_append.2, hm]
  rw [hnorm]
  have hX : r₂ ≠ [] → Tidy (c₂ :: r₂) := fun hne => ⟨fun _ => hu.resolve_left hne, ht₂⟩
  cases hl with
  | first => by_cases h : r₂ = [] <;> simp [h]
  | @used l b hb =>
      have hbr : Tidy (l ++ [b]) := by
        rw [List.append_assoc] at ht
        exact tidy_of_append_used ht hb
      by_cases h : r₂ = []
      · simp only [h, if_true]
        have := foldr_merge_of_tidy (l := l ++ [b]) (r := []) (by simpa using hbr)
        simpa using this
      · simp only [h, if_false]
        refine foldr_merge_of_tidy ?_
        rw [List.append_assoc]
        exact tidy_append_congr hbr ⟨by simp [hb], hX h⟩ (by simp [headUsed, hb])
  | @free _ b hb =>
      rw [List.append_assoc] at ht
      have htl := tidy_of_append_free ht hb
      by_cases h : r₂ = []
      · simp only [h, if_true, List.foldr_append, List.foldr_cons, List.foldr_nil]
        have hbm : merge b [] = [] := by simp [merge, hb]
        rw [hbm]
        have := foldr_merge_of_tidy (l := l₃) (r := []) (by simpa using htl)
        simpa using this
      · simp only [h, if_false, List.foldr_append, List.foldr_cons, List.foldr_nil]
        have hbm : merge b (c₂ :: r₂) = ⟨b.len + c₂.len, b.free⟩ :: r₂ := by
          simp [merge, hb, hf]
        rw [hbm]
        refine foldr_merge_of_tidy (tidy_append_congr ht ⟨fun _ => hu.resolve_left h, ht₂⟩ ?_)
        simp [headUsed, hb]

theorem sized_release {l r : List Chunk} {c : Chunk} (hz : Sized (l ++ c :: r)) :
    Sized (release (total l) (l ++ c :: r)) := by
  obtain ⟨hl, hc, hr⟩ := (sized_append.trans (and_congr_right' sized_cons)).1 hz
  rw [release, markFree_append hl]
  exact sized_normalize (sized_append.2 ⟨hl, sized_cons.2 ⟨hc, hr⟩⟩)

/-- Gluing to the right keeps the extent of the chunks, and no header is where
none was before. -/
theorem GluedRight.extent {c c₂ : Chunk} {r r₂ : List Chunk} (h : GluedRight c r c₂ r₂)
    (hz : Sized (c :: r)) :
    total (c₂ :: r₂) = total (c :: r) ∧ Sized (c₂ :: r₂) ∧
      ∀ {a x}, InHeader a (c₂ :: r₂) x → InHeader a (c :: r) x := by
  cases h with
  | last => exact ⟨rfl, hz, id⟩
  | used hd => exact ⟨rfl, hz, id⟩
  | @free d _ hd =>
      obtain ⟨hc, hr⟩ := sized_cons.1 hz
      obtain ⟨hd', hr⟩ := sized_cons.1 hr
      refine ⟨by simp [Nat.add_assoc], sized_cons.2 ⟨Nat.le_add_right_of_le hc, hr⟩, ?_⟩
      intro a x hx
      simp only [InHeader, ← Nat.add_assoc] at hx ⊢
      exact hx.imp_right Or.inr

theorem GluedLeft.extent {c c₃ : Chunk} {l l₃ r : List Chunk} (h : GluedLeft c l l₃ c₃)
    (hz : Sized (l ++ c :: r)) :
    total (l₃ ++ c₃ :: r) = total (l ++ c :: r) ∧ Sized (l₃ ++ c₃ :: r) ∧
      ∀ {a x}, InHeader a (l₃ ++ c₃ :: r) x → InHeader a (l ++ c :: r) x := by
  cases h with
  | first => exact ⟨rfl, hz, id⟩
  | used hb => exact ⟨rfl, hz, id⟩
  | @free _ b hb =>
      obtain ⟨hl, hcr⟩ := sized_append.1 hz
      obtain ⟨hl, hb'⟩ := sized_append.1 hl
      refine ⟨by simp [Nat.add_assoc], sized_append.2 ⟨hl, sized_cons.2
        ⟨Nat.le_add_right_of_le (sized_cons.1 hb').1, (sized_cons.1 hcr).2⟩⟩, ?_⟩
      intro a x hx
      simp only [inHeader_append, InHeader, total_append, total_cons, total_nil, Nat.add_zero,
        ← Nat.add_assoc] at hx ⊢
      tauto

section

variable {σ : Type} {W : Window σ} {A : Abstraction σ View} (hW : Lawful W A)

include hW

theorem total_glueRight {v : View} {prev a : Nat} {c : Chunk} {r : List Chunk}
    (hs : Seg v.mem 0 prev a (c :: r)) (hz : Sized (c :: r)) (ht : Tidy r) (ha : heapStart ≤ a)
    (htop : a + total (c :: r) ≤ v.top) (hend : v.top ≤ heapEnd) :
    Total A v (glueRight W a) fun _ w =>
      w.top = v.top ∧ w.start = v.start ∧ w.avail = v.avail ∧
      (∃ c₂ r₂, GluedRight c r c₂ r₂ ∧ Seg w.mem 0 prev a (c₂ :: r₂)) ∧
      ∀ x, ¬ InHeader a (c :: r) x → w.mem x = v.mem x := by
  have hst : heapStart = 0xD0000000 := rfl
  have hen : heapEnd = 0xFFBFF000 := rfl
  obtain ⟨hc, hr⟩ := sized_cons.1 hz
  obtain ⟨hnode, hseg⟩ := hs
  unfold headerSize at hc
  rw [total_cons] at htop
  have iw : InWindow v a := ⟨ha, by omega, hend⟩
  have nothing : ∀ {c₂ r₂}, GluedRight c r c₂ r₂ → c₂ = c → r₂ = r →
      Total A v (pure () : Act σ Unit) fun _ w =>
        w.top = v.top ∧ w.start = v.start ∧ w.avail = v.avail ∧
        (∃ c₂ r₂, GluedRight c r c₂ r₂ ∧ Seg w.mem 0 prev a (c₂ :: r₂)) ∧
        ∀ x, ¬ InHeader a (c :: r) x → w.mem x = v.mem x := by
    rintro c₂ r₂ hg rfl rfl
    refine (gives_pure ()).mono ?_
    rintro _ w ⟨-, rfl⟩
    exact ⟨rfl, rfl, rfl, ⟨_, _, hg, hnode, hseg⟩, fun _ _ => rfl⟩
  refine (gives_getNext hW hnode iw).bind ?_
  cases r with
  | nil =>
      rw [if_neg (by simp [nextOf])]
      exact nothing .last rfl rfl
  | cons d r =>
      obtain ⟨hd, hr'⟩ := sized_cons.1 hr
      unfold headerSize at hd
      rw [total_cons] at htop
      obtain ⟨hnd, hsr⟩ := hseg
      have iwd : InWindow v (a + c.len) := ⟨by omega, by omega, hend⟩
      rw [show nextOf (a + c.len) 0 (d :: r) = a + c.len from rfl] at hnode ⊢
      rw [if_pos (by omega)]
      refine (gives_getNext hW hnode iw).bind ((gives_getFree hW hnd iwd).bind ?_)
      by_cases hdf : d.free = true
      · -- The chunk behind a free chunk exists and keeps its contents.
        have hu := ht.1 hdf
        cases r with
        | nil => simp [headUsed] at hu
        | cons e r =>
            have he := (sized_cons.1 hr').1
            unfold headerSize at he
            rw [total_cons] at htop
            rw [show nextOf (a + c.len + d.len) 0 (e :: r) = a + c.len + d.len from rfl] at hnd
            rw [if_pos (by simp [hdf])]
            refine (gives_getLen hW hnode iw).bind ((gives_getNext hW hnode iw).bind
              ((gives_getLen hW hnd iwd).bind ?_))
            refine (gives_setLen hW hnode iw (by omega)).bind_eq fun v₁ h₁ => ?_
            have hc₁ := hnode.wrote_word h₁ (by omega) (by omega)
            have hd₁ := hnd.wrote h₁ (by omega) (by omega)
            have he₁ := hsr.wrote h₁ hr' (by simp only [total_cons]; omega) (by omega)
            refine (gives_getNext hW hc₁ (iw.wrote h₁)).bind
              ((gives_getNext hW hd₁ (iwd.wrote h₁)).bind ?_)
            have iwe : InWindow v (a + c.len + d.len) := ⟨by omega, by omega, hend⟩
            refine (gives_setPrev hW (iwe.wrote h₁) a).bind_eq fun v₂ h₂ => ?_
            have hc₂ := hc₁.wrote h₂ (by omega) (by omega)
            have hd₂ := hd₁.wrote h₂ (by omega) (by omega)
            have he₂ := he₁.wrote_prev h₂ hr' (by simp only [total_cons]; omega) (by omega)
            refine (gives_getNext hW hc₂ ((iw.wrote h₁).wrote h₂)).bind
              ((gives_getNext hW hd₂ ((iwd.wrote h₁).wrote h₂)).bind ?_)
            refine (gives_setNext hW ((iw.wrote h₁).wrote h₂) _).mono ?_
            rintro _ w ⟨-, h₃⟩
            refine ⟨by subst h₁ h₂ h₃; rfl, by subst h₁ h₂ h₃; rfl, by subst h₁ h₂ h₃; rfl,
              ⟨_, _, .free hdf, ?_, ?_⟩, ?_⟩
            · simpa only [nextOf, ← Nat.add_assoc] using hc₂.wrote_next h₃ (by omega) (by omega)
            · have := he₂.wrote h₃ hr' (by simp only [total_cons]; omega) (by omega)
              simpa only [← Nat.add_assoc] using this
            · intro x hx
              simp only [InHeader, not_or] at hx
              rw [wrote_apply h₃ (by omega) (by omega), wrote_apply h₂ (by omega) (by omega),
                wrote_apply h₁ (by omega) (by omega)]
      · have hdf' : d.free = false := by simpa using hdf
        rw [if_neg (by simp [hdf'])]
        exact nothing (.used hdf') rfl rfl

theorem total_glueLeft {v : View} {c : Chunk} {l r : List Chunk}
    (hs : Seg v.mem 0 0 heapStart (l ++ c :: r)) (hz : Sized (l ++ c :: r))
    (htop : heapStart + total (l ++ c :: r) ≤ v.top) (hend : v.top ≤ heapEnd) :
    Total A v (glueLeft W (heapStart + total l)) fun p w =>
      w.top = v.top ∧ w.start = v.start ∧ w.avail = v.avail ∧
      (∃ l₃ c₃, GluedLeft c l l₃ c₃ ∧ p = heapStart + total l₃ ∧
        Seg w.mem 0 0 heapStart (l₃ ++ c₃ :: r)) ∧
      ∀ x, ¬ InHeader heapStart (l ++ c :: r) x → w.mem x = v.mem x := by
  have hst : heapStart = 0xD0000000 := rfl
  have hen : heapEnd = 0xFFBFF000 := rfl
  obtain ⟨hzl, hzc⟩ := sized_append.1 hz
  obtain ⟨hc, hzr⟩ := sized_cons.1 hzc
  obtain ⟨hsl, hnode, hsr⟩ := seg_append.1 hs
  unfold headerSize at hc
  simp only [total_append, total_cons] at htop
  have iw : InWindow v (heapStart + total l) := ⟨by omega, by omega, hend⟩
  have nothing : GluedLeft c l l c →
      Total A v (pure (heapStart + total l) : Act σ Nat) fun p w =>
        w.top = v.top ∧ w.start = v.start ∧ w.avail = v.avail ∧
        (∃ l₃ c₃, GluedLeft c l l₃ c₃ ∧ p = heapStart + total l₃ ∧
          Seg w.mem 0 0 heapStart (l₃ ++ c₃ :: r)) ∧
        ∀ x, ¬ InHeader heapStart (l ++ c :: r) x → w.mem x = v.mem x := by
    intro hg
    refine (gives_pure _).mono ?_
    rintro p w ⟨hp, rfl⟩
    exact ⟨rfl, rfl, rfl, ⟨l, c, hg, hp, hs⟩, fun _ _ => rfl⟩
  refine (gives_getPrev hW hnode iw).bind ?_
  rcases l.eq_nil_or_concat with rfl | ⟨l, b, rfl⟩
  · rw [if_neg (by simp [lastAddr])]
    exact nothing .first
  · rw [List.concat_eq_append] at *
    have hlast : lastAddr 0 heapStart (l ++ [b]) = heapStart + total l := by
      simp [lastAddr_append, lastAddr]
    obtain ⟨hzl', hzb⟩ := sized_append.1 hzl
    have hb := (sized_cons.1 hzb).1
    unfold headerSize at hb
    obtain ⟨hsl', hsb⟩ := seg_append.1 hsl
    have hnb := seg_singleton.1 hsb
    simp only [total_append, total_cons, total_nil, Nat.add_zero, ← Nat.add_assoc] at *
    rw [hlast] at hnode ⊢
    rw [show nextOf (heapStart + total l + b.len) 0 (c :: r) = heapStart + total l + b.len from rfl]
      at hnb
    have iwb : InWindow v (heapStart + total l) := ⟨by omega, by omega, hend⟩
    rw [if_pos (by omega)]
    refine (gives_getPrev hW hnode iw).bind ((gives_getFree hW hnb iwb).bind ?_)
    by_cases hbf : b.free = true
    · rw [if_pos (by simp [hbf])]
      refine (gives_getPrev hW hnode iw).bind ((gives_getPrev hW hnode iw).bind
        ((gives_getLen hW hnb iwb).bind ((gives_getLen hW hnode iw).bind ?_)))
      refine (gives_setLen hW hnb iwb (by omega)).bind_eq fun v₁ h₁ => ?_
      have hc₁ := hnode.wrote h₁ (by omega) (by omega)
      have hb₁ := hnb.wrote_word h₁ (by omega) (by omega)
      have hl₁ := hsl'.wrote h₁ hzl' (by omega) (by omega)
      have hr₁ := hsr.wrote h₁ hzr (by omega) (by omega)
      refine (gives_getPrev hW hc₁ (iw.wrote h₁)).bind
        ((gives_getNext hW hc₁ (iw.wrote h₁)).bind ?_)
      refine (gives_setNext hW (iwb.wrote h₁) _).bind_eq fun v₂ h₂ => ?_
      have hnx : nextOf (heapStart + total l + b.len + c.len) 0 r < 4294967296 := by
        cases r with
        | nil => simp [nextOf]
        | cons d r => simp only [nextOf]; omega
      have hc₂ := hc₁.wrote h₂ (by omega) (by omega)
      have hb₂ := hb₁.wrote_next h₂ (by omega) hnx
      have hl₂ := hl₁.wrote h₂ hzl' (by omega) (by omega)
      have hr₂ := hr₁.wrote h₂ hzr (by omega) (by omega)
      have iw₂ := (iw.wrote h₁).wrote h₂
      refine (gives_getNext hW hc₂ iw₂).bind ?_
      have hsame : v₂.top = v.top ∧ v₂.start = v.start ∧ v₂.avail = v.avail := by
        subst h₁ h₂
        exact ⟨rfl, rfl, rfl⟩
      have hkept : ∀ x, ¬ InHeader heapStart (l ++ [b] ++ c :: r) x → v₂.mem x = v.mem x := by
        intro x hx
        simp only [inHeader_append, InHeader, not_or] at hx
        rw [wrote_apply h₂ (by omega) (by omega), wrote_apply h₁ (by omega) (by omega)]
      cases r with
      | nil =>
          rw [if_neg (by simp [nextOf])]
          refine (gives_getPrev hW hc₂ iw₂).mono ?_
          rintro p w ⟨hp, rfl⟩
          refine ⟨hsame.1, hsame.2.1, hsame.2.2, ⟨l, _, .free hbf, hp, ?_⟩, hkept⟩
          exact seg_append.2 ⟨hl₂, seg_singleton.2 hb₂⟩
      | cons d r =>
          have hd := (sized_cons.1 hzr).1
          unfold headerSize at hd
          rw [total_cons] at htop
          rw [if_pos (by simp only [nextOf]; omega)]
          simp only [nextOf] at hc₂ hb₂
          have iwd : InWindow v₂ (heapStart + total l + b.len + c.len) :=
            ⟨by omega, by omega, by omega⟩
          refine (gives_getNext hW hc₂ iw₂).bind ((gives_getPrev hW hc₂ iw₂).bind ?_)
          refine (gives_setPrev hW iwd _).bind_eq fun v₃ h₃ => ?_
          have hc₃ := hc₂.wrote h₃ (by omega) (by omega)
          refine (gives_getPrev hW hc₃ (iw₂.wrote h₃)).mono ?_
          rintro p w ⟨hp, rfl⟩
          refine ⟨by subst h₃; exact hsame.1, by subst h₃; exact hsame.2.1,
            by subst h₃; exact hsame.2.2, ⟨l, _, .free hbf, hp, ?_⟩, ?_⟩
          · refine seg_append.2 ⟨hl₂.wrote h₃ hzl' (by omega) (by omega), ?_, ?_⟩
            · have := hb₂.wrote h₃ (by omega) (by omega)
              simpa only [nextOf, ← Nat.add_assoc] using this
            · have := hr₂.wrote_prev h₃ hzr (by simp only [total_cons]; omega) (by omega)
              simpa only [← Nat.add_assoc] using this
          · intro x hx
            have hx' := hx
            simp only [inHeader_append, InHeader, not_or, total_append, total_cons, total_nil,
              Nat.add_zero, ← Nat.add_assoc] at hx'
            rw [wrote_apply h₃ (by omega) (by omega), hkept x hx]
    · have hbf' : b.free = false := by simpa using hbf
      rw [if_neg (by simp [hbf'])]
      exact nothing (.used hbf')

/-- The loop of `free_chunk` lowers the top of the window to the first page
boundary at or above the chunk. -/
theorem total_freePages {v : View} {a k f : Nat} (ha : heapStart ≤ a)
    (htop : pageUp a + 4096 * k = v.top) (hend : v.top ≤ heapEnd) (hf : k < f) :
    Total A v (freePages W a f) fun _ w =>
      w.top = pageUp a ∧ w.start = v.start ∧ v.avail ≤ w.avail ∧
      ∀ x, x < w.top → w.mem x = v.mem x := by
  have hst : heapStart = 0xD0000000 := rfl
  have hen : heapEnd = 0xFFBFF000 := rfl
  induction k generalizing v f with
  | zero =>
      cases f with
      | zero => omega
      | succ f =>
          refine (hW.top v).bind ?_
          unfold pageUp at htop ⊢
          rw [if_neg (by unfold u32; omega)]
          refine (gives_pure _).mono ?_
          rintro _ w ⟨-, rfl⟩
          exact ⟨by omega, rfl, Nat.le_refl _, fun _ _ => rfl⟩
  | succ k ih =>
      cases f with
      | zero => omega
      | succ f =>
          refine (hW.top v).bind ?_
          have hup : a ≤ pageUp a ∧ heapStart ≤ pageUp a := by unfold pageUp; omega
          rw [if_pos (by unfold u32; omega)]
          refine (hW.shrink v (by rw [hst] at *; omega)).bind ?_
          rintro _ w ⟨ht, hs, hav, hm⟩
          refine (ih (v := w) (f := f) (by omega) (by omega) (by omega)).mono ?_
          rintro _ u ⟨hut, hus, huav, hum⟩
          refine ⟨hut, hus.trans hs, by omega, ?_⟩
          intro x hx
          rw [hum x hx, hm x (by omega)]

/-- `free_chunk` drops the last chunk and the pages above the ones before it. -/
theorem total_freeChunk {v : View} {c : Chunk} {l : List Chunk} {k : Nat}
    (hstart : v.start = heapStart) (hs : Seg v.mem 0 0 heapStart (l ++ [c]))
    (hz : Sized (l ++ [c])) (hin : heapStart + total (l ++ [c]) ≤ v.top) (hend : v.top ≤ heapEnd)
    (htop : pageUp (heapStart + total l) + 4096 * k = v.top) :
    Total A v (freeChunk W (heapStart + total l)) fun _ w =>
      w.top = pageUp (heapStart + total l) ∧ w.start = nextOf heapStart 0 l ∧
      v.avail ≤ w.avail ∧ Seg w.mem 0 0 heapStart l ∧
      ∀ x, x < w.top → ¬ InHeader heapStart (l ++ [c]) x → w.mem x = v.mem x := by
  have hst : heapStart = 0xD0000000 := rfl
  have hen : heapEnd = 0xFFBFF000 := rfl
  obtain ⟨hzl, hzc⟩ := sized_append.1 hz
  have hc := (sized_cons.1 hzc).1
  obtain ⟨hsl, hsc⟩ := seg_append.1 hs
  have hnode := seg_singleton.1 hsc
  unfold headerSize at hc
  simp only [total_append, total_cons, total_nil, Nat.add_zero] at hin
  have iw : InWindow v (heapStart + total l) := ⟨by omega, by omega, hend⟩
  have hk : k < 1048577 := by unfold pageUp at htop; omega
  refine (gives_getPrev hW hnode iw).bind ?_
  rcases l.eq_nil_or_concat with rfl | ⟨l, b, rfl⟩
  · rw [if_pos (by simp [lastAddr])]
    refine (hW.setStart v 0).bind ?_
    refine (total_freePages hW (v := ⟨v.mem, v.top, 0, v.avail⟩) (by omega) htop hend hk).mono ?_
    rintro _ w ⟨ht, hs', hav, hm⟩
    exact ⟨ht, hs', hav, trivial, fun x hx _ => hm x hx⟩
  · rw [List.concat_eq_append] at *
    have hlast : lastAddr 0 heapStart (l ++ [b]) = heapStart + total l := by
      simp [lastAddr_append, lastAddr]
    have hb := (sized_cons.1 (sized_append.1 hzl).2).1
    unfold headerSize at hb
    simp only [total_append, total_cons, total_nil, Nat.add_zero, ← Nat.add_assoc] at *
    rw [hlast] at hnode ⊢
    rw [if_neg (by omega)]
    have iwb : InWindow v (heapStart + total l) := ⟨by omega, by omega, hend⟩
    refine (gives_getPrev hW hnode iw).bind ?_
    refine (gives_setNext hW iwb 0).bind_eq fun v₁ h₁ => ?_
    have hs₁ : Seg v₁.mem 0 0 heapStart (l ++ [b]) := by
      rw [h₁]
      exact hsl.store_next hzl (by simp; omega) (by omega)
    have ht₁ : v₁.top = v.top ∧ v₁.start = v.start ∧ v₁.avail = v.avail := by
      subst h₁
      exact ⟨rfl, rfl, rfl⟩
    refine (total_freePages hW (by omega) (by rw [ht₁.1]; exact htop) (by omega) hk).mono ?_
    rintro _ w ⟨ht, hs', hav, hm⟩
    have hle : heapStart + total l + b.len ≤ w.top := by rw [ht, pageUp]; omega
    have hwt : w.top ≤ 4294967296 := by rw [ht, pageUp]; omega
    refine ⟨ht, ?_, by omega, ?_, ?_⟩
    · rw [hs', ht₁.2.1, hstart]
      cases l <;> rfl
    · refine hs₁.agree hzl (by simp; omega) hwt hm
    · intro x hx hnh
      simp only [inHeader_append, InHeader, not_or, total_append, total_cons, total_nil,
        Nat.add_zero, ← Nat.add_assoc] at hnh
      rw [hm x hx, wrote_apply h₁ (by omega) (by omega)]

/-- `glue_chunk` on a chunk that has just been freed leaves the layout `release`
says. -/
theorem total_glueChunk {v : View} {c : Chunk} {l r : List Chunk}
    (hstart : v.start = heapStart) (hs : Seg v.mem 0 0 heapStart (l ++ ⟨c.len, true⟩ :: r))
    (hz : Sized (l ++ c :: r)) (ht : Tidy (l ++ c :: r))
    (htop : v.top = pageUp (heapStart + total (l ++ c :: r)))
    (hfits : heapStart + total (l ++ c :: r) ≤ heapEnd) :
    Total A v (glueChunk W (heapStart + total l)) fun _ w =>
      Holds w (release (total l) (l ++ c :: r)) ∧ v.avail ≤ w.avail ∧
      ∀ x, x < w.top → ¬ InHeader heapStart (l ++ c :: r) x → w.mem x = v.mem x := by
  have hst : heapStart = 0xD0000000 := rfl
  have hen : heapEnd = 0xFFBFF000 := rfl
  obtain ⟨hzl, hzc⟩ := sized_append.1 hz
  have hin : heapStart + total (l ++ c :: r) ≤ v.top := by rw [htop, pageUp]; omega
  have hend : v.top ≤ heapEnd := by rw [htop, pageUp]; omega
  have hin' := hin
  rw [total_append, ← Nat.add_assoc] at hin'
  obtain ⟨hsl, hsc⟩ := seg_append.1 hs
  have hzc' : Sized (⟨c.len, true⟩ :: r) := 
    sized_cons.2 ⟨(sized_cons.1 hzc).1, (sized_cons.1 hzc).2⟩
  refine (total_glueRight hW hsc hzc' ht.of_append.2 (Nat.le_add_right _ _) hin' hend).bind ?_
  rintro _ v₁ ⟨ht₁, hs₁, hav₁, ⟨c₂, r₂, hg, hseg₁⟩, hm₁⟩
  obtain ⟨hext, hz₂, hh₂⟩ := hg.extent hzc'
  have hzl₂ : Sized (l ++ c₂ :: r₂) := sized_append.2 ⟨hzl, hz₂⟩
  have hext₂ : total (l ++ c₂ :: r₂) = total (l ++ c :: r) := by
    rw [total_append, total_append, hext, total_cons, total_cons]
  have hsegl₁ : Seg v₁.mem 0 0 heapStart (l ++ c₂ :: r₂) := by
    refine seg_append.2 ⟨?_, hseg₁⟩
    refine hsl.congr hzl (by omega) ?_
    intro x _ hx
    refine hm₁ x fun hx' => ?_
    have := le_of_inHeader hx'
    omega
  refine (total_glueLeft hW hsegl₁ hzl₂ (by omega) (by omega)).bind ?_
  rintro p v₂ ⟨ht₂, hs₂, hav₂, ⟨l₃, c₃, hg', rfl, hseg₂⟩, hm₂⟩
  obtain ⟨hext₃, hz₃, hh₃⟩ := hg'.extent hzl₂
  have hrel := release_eq ht hzl hg hg'
  have hkept : ∀ x, ¬ InHeader heapStart (l ++ c :: r) x → v₂.mem x = v.mem x := by
    intro x hx
    simp only [inHeader_append, not_or] at hx
    rw [hm₂ x (by simp only [inHeader_append, not_or]; exact ⟨hx.1, fun h => hx.2 (hh₂ h)⟩),
      hm₁ x hx.2]
  have hsub : ∀ {x}, InHeader heapStart (l₃ ++ c₃ :: r₂) x → InHeader heapStart (l ++ c :: r) x := by
    intro x hx
    have := hh₃ hx
    simp only [inHeader_append] at this ⊢
    exact this.imp_right hh₂
  have hnode := (seg_append.1 hseg₂).2.1
  have hc₃ := (sized_cons.1 (sized_append.1 hz₃).2).1
  have hin₃ : heapStart + (total l₃ + (c₃.len + total r₂)) ≤ v₂.top := by
    rw [total_append, total_cons] at hext₃
    omega
  unfold headerSize at hc₃
  have iw : InWindow v₂ (heapStart + total l₃) := ⟨by omega, by omega, by omega⟩
  refine (gives_getNext hW hnode iw).bind ?_
  cases r₂ with
  | nil =>
      rw [if_pos (by rfl)]
      simp only [if_true] at hrel
      obtain ⟨k, hk⟩ : ∃ k, pageUp (heapStart + total l₃) + 4096 * k = v₂.top := by
        refine ⟨(v₂.top - pageUp (heapStart + total l₃)) / 4096, ?_⟩
        rw [ht₂, ht₁, htop, ← hext₂, ← hext₃, total_append]
        unfold pageUp
        omega
      refine (total_freeChunk hW (by omega) hseg₂ hz₃ (by omega) (by omega) hk).mono ?_
      rintro _ w ⟨htw, hsw, havw, hsegw, hmw⟩
      rw [hrel]
      refine ⟨⟨hsw, hsegw, (sized_append.1 hz₃).1, ?_, htw, ?_⟩, by omega, ?_⟩
      · rw [← hrel]
        exact tidy_normalize _
      · simp only [total_append, total_cons] at hext₃ hext₂ hfits
        omega
      · intro x hx hnh
        rw [hmw x hx (fun h => hnh (hsub h)), hkept x hnh]
  | cons d r₂ =>
      have hd := (sized_cons.1 (sized_cons.1 (sized_append.1 hz₃).2).2).1
      rw [if_neg (by simp only [nextOf]; omega)]
      simp only [reduceCtorEq, if_false] at hrel
      refine (gives_pure ()).mono ?_
      rintro _ w ⟨-, rfl⟩
      rw [hrel]
      refine ⟨⟨?_, hseg₂, hz₃, ?_, ?_, ?_⟩, by omega, fun x _ hnh => hkept x hnh⟩
      · rw [hs₂, hs₁, hstart]
        cases l₃ <;> rfl
      · rw [← hrel]
        exact tidy_normalize _
      · rw [ht₂, ht₁, htop, hext₃, hext₂]
      · rw [hext₃, hext₂]
        exact hfits

/-- `kfree` of a chunk in use takes the layout to `release`, and leaves the bytes
of the window that are in no header alone. -/
theorem total_kfree {v : View} {c : Chunk} {l r : List Chunk} (h : Holds v (l ++ c :: r)) :
    Total A v (kfree W (heapStart + total l + 12)) fun _ w =>
      Holds w (release (total l) (l ++ c :: r)) ∧ v.avail ≤ w.avail ∧
      ∀ x, x < w.top → ¬ InHeader heapStart (l ++ c :: r) x → w.mem x = v.mem x := by
  have hst : heapStart = 0xD0000000 := rfl
  have hen : heapEnd = 0xFFBFF000 := rfl
  have hle := h.le_top
  have hend := h.top_le
  obtain ⟨hzl, hzc⟩ := sized_append.1 h.sized
  obtain ⟨hc, hzr⟩ := sized_cons.1 hzc
  obtain ⟨hsl, hnode, hsr⟩ := seg_append.1 h.seg
  unfold headerSize at hc
  rw [total_append, total_cons] at hle
  have iw : InWindow v (heapStart + total l) := ⟨by omega, by omega, hend⟩
  have hhead : u32 (heapStart + total l + 12 + 4294967296 - 12) = heapStart + total l := by
    unfold u32
    omega
  rw [kfree, hhead]
  refine (gives_setFree hW hnode iw true).bind_eq fun v₁ h₁ => ?_
  have hsame : v₁.top = v.top ∧ v₁.start = v.start ∧ v₁.avail = v.avail := by
    subst h₁
    exact ⟨rfl, rfl, rfl⟩
  have hsr₁ := hsr.wrote h₁ hzr (by omega) (by omega)
  have hseg₁ : Seg v₁.mem 0 0 heapStart (l ++ ⟨c.len, true⟩ :: r) :=
    seg_append.2 ⟨hsl.wrote h₁ hzl (by omega) (by omega),
      hnode.wrote_word h₁ (by omega) (by omega), hsr₁⟩
  have hstart : v₁.start = heapStart := by
    rw [hsame.2.1, h.start]
    cases l <;> rfl
  refine (total_glueChunk hW hstart hseg₁ h.sized h.tidy (by rw [hsame.1, h.top]) h.fits).mono ?_
  rintro _ w ⟨hw, hav, hm⟩
  refine ⟨hw, by omega, fun x hx hnh => ?_⟩
  have hnh' := hnh
  simp only [inHeader_append, InHeader, not_or] at hnh'
  rw [hm x hx hnh, wrote_apply h₁ (by omega) (by omega)]

end

end Heap

end Chunix
