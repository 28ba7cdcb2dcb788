import Chunix.Kern.String
import Chunix.Machine.Run
import Mathlib.Tactic.SplitIfs

/-!
# The screen

The console writes its characters into the video memory, a grid of 25 rows of 80
cells. `cons_pos` is the cell for the next character. When it moves behind the last
cell the rows are scrolled, all but the top row, which is the status bar. Whatever
is printed, only cells of the grid are written and the position stays inside it.
-/

namespace Chunix

namespace Cga

open Machine Str

/-- The address `P2V(CGA_START)`, which `cons_init` gives to `cons_buf`. -/
def consBuf : Nat := 0x800B8000

def consRows : Nat := 25

def consCols : Nat := 80

def consSize : Nat := consRows * consCols

def tabWidth : Nat := 8

/-- The macro `CEIL`. -/
def ceil (num base : Nat) : Nat := (num / base + 1) * base

def brightGreen : UInt8 := 0xa

/-- The variables of the console. `video` is the memory with the cells, and
`cursor` the position that the video controller shows. -/
structure Screen where
  video : Traced
  consPos : Nat
  dcolor : UInt8
  cursor : Nat

/-- The value of `color | c` for a character of type `char`, cut to 16 bits. A
negative character sets all bits of the colour. -/
def glyph (dcolor c : UInt8) : Nat :=
  dcolor.toNat <<< 8 ||| (if c.toNat < 128 then c.toNat else c.toNat + 65280)

/-- The blank character. -/
def blank : UInt8 := 0x20

/-- The macro `BLANK_CHAR`. -/
def blankChar : Nat := glyph brightGreen blank

/-- The assignment `cons_buf[i] = w`. -/
def Screen.poke (s : Screen) (i w : Nat) : Screen :=
  { s with video := s.video.set16 (consBuf + 2 * i) w }

/-- The cell `cons_buf[i]`. -/
def Screen.cell (s : Screen) (i : Nat) : Nat := load16 s.video.mem (consBuf + 2 * i)

def putCursor (pos : Nat) (s : Screen) : Screen := { s with cursor := pos }

/-- A loop that sets `n` cells from `i` on to `w`. -/
def fillCells (w : Nat) : Nat → Nat → Screen → Screen
  | 0, _, s => s
  | n + 1, i, s => fillCells w n (i + 1) (s.poke i w)

def cleanScreen (s : Screen) : Screen :=
  putCursor 0 { fillCells blankChar consSize 0 s with consPos := 0 }

/-- `cons_init`, as far as it is about the screen. -/
def consInit (s : Screen) : Screen := cleanScreen { s with consPos := 0 }

/-- `get_cursor`: the column and the row. -/
def getCursor (s : Screen) : Nat × Nat := (s.consPos % consCols, s.consPos / consCols)

def setCursor (x y : Nat) (s : Screen) : Screen :=
  let pos := (y * consCols + x) % 65536
  putCursor pos { s with consPos := pos }

def settextcolor (forecolor backcolor : UInt8) (s : Screen) : Screen :=
  { s with dcolor := backcolor <<< 4 ||| (forecolor &&& 0x0F) }

/-- The loop `cons_buf[cons_pos++] = w`, `n` times. -/
def advance (w : Nat) : Nat → Screen → Screen
  | 0, s => s
  | n + 1, s => advance w n { s.poke s.consPos w with consPos := (s.consPos + 1) % 65536 }

/-- The `switch` of `putc_to_console`: the character is placed. -/
def place (c : UInt8) (s : Screen) : Screen :=
  if c = 0x08 then
    if 0 < s.consPos then { s.poke (s.consPos - 1) blankChar with consPos := s.consPos - 1 } else s
  else if c = 0x0a ∨ c = 0x0d then
    let pos := (s.consPos + consCols) % 65536
    { s with consPos := pos - pos % consCols }
  else if c = 0x09 then
    advance (glyph s.dcolor blank) (ceil s.consPos tabWidth - s.consPos) s
  else
    advance (glyph s.dcolor c) 1 s

/-- The end of `putc_to_console`: the rows are scrolled if the position is behind
the last one. -/
def scroll (s : Screen) : Screen :=
  if consSize ≤ s.consPos then
    let video := memmove (consBuf + 2 * consCols) (consBuf + 2 * (2 * consCols))
      ((consSize - 2 * consCols) * 2) s.video
    let s := fillCells (glyph s.dcolor blank) consCols (consSize - consCols) { s with video := video }
    { s with consPos := s.consPos - consCols }
  else s

def putcToConsole (c : UInt8) (s : Screen) : Screen :=
  let s := scroll (place c s)
  putCursor s.consPos s

/-- The addresses of the `n` cells from `i` on. -/
def Cells (i n : Nat) : Nat → Prop := Within (consBuf + 2 * i) (2 * n)

theorem glyph_lt (dcolor c : UInt8) : glyph dcolor c < 65536 := by
  have hc := c.toNat_lt
  have hd := dcolor.toNat_lt
  have hlow : (if c.toNat < 128 then c.toNat else c.toNat + 65280) < 2 ^ 16 := by
    split_ifs <;> omega
  have hhigh : dcolor.toNat <<< 8 < 2 ^ 16 := by
    rw [Nat.shiftLeft_eq]
    omega
  exact Nat.or_lt_two_pow hhigh hlow

section

variable {s : Screen} {i j n w : Nat} {c : UInt8}

theorem Screen.cell_congr {s' : Screen} (h : ∀ a, Cells i 1 a → s'.video.mem a = s.video.mem a) :
    s'.cell i = s.cell i :=
  load16_congr (h _ ⟨by omega, by omega⟩) (h _ ⟨by omega, by omega⟩)

/-- A cell outside of those that were written is unchanged. -/
theorem Screen.cell_of_confined {s' : Screen} (h : Traced.Confined (Cells i n) s.video s'.video)
    (hj : j < i ∨ i + n ≤ j) : s'.cell j = s.cell j := by
  refine Screen.cell_congr fun a ha => h.same a fun hi => ?_
  obtain ⟨h₁, h₂⟩ := ha
  obtain ⟨h₃, h₄⟩ := hi
  omega

theorem poke_confined (s : Screen) (i w : Nat) :
    Traced.Confined (Cells i 1) s.video (s.poke i w).video :=
  Traced.confined_set16 ⟨by omega, by omega⟩ ⟨by omega, by omega⟩

theorem cell_poke (hw : w < 65536) : (s.poke i w).cell i = w := by
  rw [Screen.cell, Screen.poke, Traced.load16_set16_self, Nat.mod_eq_of_lt hw]

theorem fillCells_confined (w n i : Nat) (s : Screen) :
    Traced.Confined (Cells i n) s.video (fillCells w n i s).video := by
  induction n generalizing i s with
  | zero => exact .refl _ _
  | succ n ih =>
      refine Traced.Confined.trans ((poke_confined s i w).mono ?_) ((ih (i + 1) _).mono ?_)
      · rintro a ⟨h₁, h₂⟩
        exact ⟨by omega, by omega⟩
      · rintro a ⟨h₁, h₂⟩
        exact ⟨by omega, by omega⟩

theorem fillCells_cell (hw : w < 65536) (hlo : i ≤ j) (hhi : j < i + n) :
    (fillCells w n i s).cell j = w := by
  induction n generalizing i s with
  | zero => omega
  | succ n ih =>
      rw [fillCells]
      by_cases hj : j = i
      · subst hj
        rw [Screen.cell_of_confined (fillCells_confined ..) (Or.inl (Nat.lt_succ_self j))]
        exact cell_poke hw
      · exact ih (by omega) (by omega)

/-- A loop that sets cells changes nothing but cells. -/
theorem fillCells_eq (w n i : Nat) (s : Screen) :
    fillCells w n i s = { s with video := (fillCells w n i s).video } := by
  induction n generalizing i s with
  | zero => rfl
  | succ n ih =>
      rw [fillCells, ih]
      rfl

theorem fillCells_congr {s' : Screen} (h : s'.video = s.video) :
    (fillCells w n i s').video = (fillCells w n i s).video := by
  induction n generalizing i s s' with
  | zero => exact h
  | succ n ih =>
      refine ih ?_
      rw [Screen.poke, Screen.poke, h]

/-- The loop that moves the position along with its stores. -/
theorem advance_eq (h : s.consPos + n < 65536) :
    advance w n s =
      { s with video := (fillCells w n s.consPos s).video, consPos := s.consPos + n } := by
  induction n generalizing s with
  | zero => rfl
  | succ n ih =>
      have hmod : (s.consPos + 1) % 65536 = s.consPos + 1 := Nat.mod_eq_of_lt (by omega)
      have hcells : (fillCells w n (s.consPos + 1)
          { s.poke s.consPos w with consPos := s.consPos + 1 }).video =
          (fillCells w (n + 1) s.consPos s).video := fillCells_congr rfl
      rw [advance, hmod, ih (show s.consPos + 1 + n < 65536 by omega), hcells]
      dsimp only [Screen.poke]
      rw [Nat.add_right_comm s.consPos 1 n]
      rfl

/-- What placing a character does from a position in the grid. -/
structure Placed (s p : Screen) : Prop where
  confined : Traced.Confined (Cells 0 consSize) s.video p.video
  pos_le : p.consPos ≤ consSize
  dcolor : p.dcolor = s.dcolor
  top : consSize ≤ p.consPos → ∀ i, i < consCols → p.cell i = s.cell i

/-- The characters that fill cells from the position on. -/
theorem placed_advance (h : s.consPos < consSize) (hn : s.consPos + n ≤ consSize)
    (htop : consSize ≤ s.consPos + n → consCols ≤ s.consPos) : Placed s (advance w n s) := by
  have hsize : consSize = 2000 := rfl
  have hconf := fillCells_confined w n s.consPos s
  rw [advance_eq (by omega)]
  refine ⟨hconf.mono ?_, hn, rfl, fun hend i hi => ?_⟩
  · rintro a ⟨h₁, h₂⟩
    exact ⟨by omega, by omega⟩
  · have hpos := htop hend
    exact Screen.cell_of_confined hconf (Or.inl (by omega))

theorem placed_place (h : s.consPos < consSize) (c : UInt8) : Placed s (place c s) := by
  have hsize : consSize = 2000 := rfl
  have hcols : consCols = 80 := rfl
  unfold place
  split_ifs with hb hpos hnl htab
  · refine ⟨(poke_confined ..).mono ?_, ?_, rfl, fun hend => ?_⟩
    · rintro a ⟨h₁, h₂⟩
      exact ⟨by omega, by omega⟩
    · exact Nat.le_trans (Nat.sub_le ..) (Nat.le_of_lt h)
    · change consSize ≤ s.consPos - 1 at hend
      omega
  · exact ⟨.refl _ _, Nat.le_of_lt h, rfl, fun hend => absurd hend (Nat.not_le.2 h)⟩
  · refine ⟨.refl _ _, ?_, rfl, fun _ _ _ => rfl⟩
    dsimp only
    rw [Nat.mod_eq_of_lt (by omega), hcols]
    omega
  · have hceil : ceil s.consPos tabWidth = (s.consPos / 8 + 1) * 8 := rfl
    exact placed_advance h (by omega) (by omega)
  · exact placed_advance h (by omega) (by omega)

/-- A character that only fills a cell. -/
def Plain (c : UInt8) : Prop := c ≠ 0x08 ∧ c ≠ 0x09 ∧ c ≠ 0x0a ∧ c ≠ 0x0d

instance (c : UInt8) : Decidable (Plain c) := inferInstanceAs (Decidable (_ ∧ _))

theorem putcToConsole_plain (hc : Plain c) (h : s.consPos + 1 < consSize) :
    putcToConsole c s = { s with
      video := (s.poke s.consPos (glyph s.dcolor c)).video
      consPos := s.consPos + 1
      cursor := s.consPos + 1 } := by
  obtain ⟨hb, htab, hnl, hcr⟩ := hc
  have hsize : consSize = 2000 := rfl
  have hplace : place c s = { s with
      video := (s.poke s.consPos (glyph s.dcolor c)).video, consPos := s.consPos + 1 } := by
    rw [place, if_neg hb, if_neg (not_or.2 ⟨hnl, hcr⟩), if_neg htab, advance_eq (by omega)]
    rfl
  have hscroll : scroll (place c s) = place c s := by
    rw [scroll, if_neg]
    rw [hplace]
    exact Nat.not_le.2 h
  rw [putcToConsole, hscroll, hplace]
  rfl

/-- A text without control characters fills the cells from the position on. -/
structure Typed (cs : List UInt8) (s s' : Screen) : Prop where
  consPos : s'.consPos = s.consPos + cs.length
  dcolor : s'.dcolor = s.dcolor
  confined : Traced.Confined (Cells s.consPos cs.length) s.video s'.video
  typed : ∀ j (hj : j < cs.length), s'.cell (s.consPos + j) = glyph s.dcolor cs[j]

theorem typed_foldl {cs : List UInt8} (hcs : ∀ c ∈ cs, Plain c)
    (h : s.consPos + cs.length < consSize) :
    Typed cs s (cs.foldl (fun s c => putcToConsole c s) s) := by
  induction cs generalizing s with
  | nil => exact ⟨rfl, rfl, .refl _ _, fun j hj => absurd hj (Nat.not_lt_zero j)⟩
  | cons c cs ih =>
      rw [List.length_cons] at h
      have hone := putcToConsole_plain (hcs c List.mem_cons_self) (show s.consPos + 1 < consSize by omega)
      have hpoke := poke_confined s s.consPos (glyph s.dcolor c)
      rw [List.foldl_cons, hone]
      obtain ⟨hpos, hcolor, hconf, htyped⟩ := ih (s := { s with
        video := (s.poke s.consPos (glyph s.dcolor c)).video
        consPos := s.consPos + 1
        cursor := s.consPos + 1 }) (fun d hd => hcs d (List.mem_cons_of_mem c hd))
          (show s.consPos + 1 + cs.length < consSize by omega)
      dsimp only at hpos hcolor hconf htyped
      refine ⟨?_, hcolor, ?_, fun j hj => ?_⟩
      · rw [hpos, List.length_cons]
        omega
      · refine (hpoke.mono ?_).trans (hconf.mono ?_)
        · rintro a ⟨h₁, h₂⟩
          exact ⟨h₁, by rw [List.length_cons]; omega⟩
        · rintro a ⟨h₁, h₂⟩
          exact ⟨by omega, by rw [List.length_cons]; omega⟩
      · cases j with
        | zero =>
            refine (Screen.cell_of_confined (s := s.poke s.consPos (glyph s.dcolor c)) hconf
              (Or.inl (Nat.lt_succ_self _))).trans ?_
            exact cell_poke (glyph_lt ..)
        | succ j =>
            have hj' := htyped j (Nat.lt_of_succ_lt_succ hj)
            rw [Nat.add_assoc, Nat.add_comm 1 j] at hj'
            exact hj'

/-- What scrolling leaves: the top row as it was, the other rows one row further
up, and a blank row at the bottom. -/
structure Scrolled (s s' : Screen) : Prop where
  top : ∀ i, i < consCols → s'.cell i = s.cell i
  rows : ∀ i, consCols ≤ i → i < consSize - consCols → s'.cell i = s.cell (i + consCols)
  bottom : ∀ i, consSize - consCols ≤ i → i < consSize → s'.cell i = glyph s.dcolor blank

/-- The rows that `memmove` copies. -/
theorem scroll_video (t : Traced) :
    (memmove (consBuf + 2 * consCols) (consBuf + 2 * (2 * consCols))
      ((consSize - 2 * consCols) * 2) t).mem =
        blit t.mem (consBuf + 160) (consBuf + 320) 3680 ∧
      Traced.Confined (Cells consCols (consSize - 2 * consCols)) t
        (memmove (consBuf + 2 * consCols) (consBuf + 2 * (2 * consCols))
          ((consSize - 2 * consCols) * 2) t) := by
  have hup : ¬ (consBuf + 2 * (2 * consCols) < consBuf + 2 * consCols ∧ consBuf + 2 * consCols <
      u32 (consBuf + 2 * (2 * consCols) + (consSize - 2 * consCols) * 2)) := by decide
  rw [memmove, if_neg hup]
  exact ⟨moveUp_mem (by decide) (by decide) (by decide), moveUp_confined (by decide)⟩

theorem scroll_of_ge (h : consSize ≤ s.consPos) :
    Scrolled s (scroll s) ∧ (scroll s).consPos = s.consPos - consCols ∧
      (scroll s).dcolor = s.dcolor ∧
      Traced.Confined (Cells 0 consSize) s.video (scroll s).video := by
  obtain ⟨hmem, hmove⟩ := scroll_video s.video
  have hsize : consSize = 2000 := rfl
  have hcols : consCols = 80 := rfl
  rw [scroll, if_pos h]
  generalize memmove (consBuf + 2 * consCols) (consBuf + 2 * (2 * consCols))
    ((consSize - 2 * consCols) * 2) s.video = video at hmem hmove
  have hfill := fillCells_confined (glyph s.dcolor blank) consCols (consSize - consCols)
    { s with video := video }
  have hrow := fun i => @fillCells_cell { s with video := video } (consSize - consCols) i consCols _
    (glyph_lt s.dcolor blank)
  have heq := fillCells_eq (glyph s.dcolor blank) consCols (consSize - consCols)
    { s with video := video }
  dsimp only
  generalize fillCells (glyph s.dcolor blank) consCols (consSize - consCols)
    { s with video := video } = f at hfill hrow heq
  have hcell : ∀ i, i < consSize - consCols → f.cell i = load16 video.mem (consBuf + 2 * i) :=
    fun i hi => Screen.cell_of_confined hfill (Or.inl hi)
  refine ⟨⟨fun i hi => ?_, fun i hlo hhi => ?_, fun i hlo hhi => ?_⟩, ?_, ?_, ?_⟩
  · show f.cell i = s.cell i
    rw [hcell i (by omega)]
    exact @Screen.cell_of_confined s _ i _ { s with video := video } hmove (Or.inl hi)
  · show f.cell i = s.cell (i + consCols)
    -- the two bytes of the cell come from the cell one row further down
    rw [hcell i hhi, hmem]
    refine load16_congr ?_ ?_
    · rw [blit_apply_of_mem (by omega)]
      exact congrArg s.video.mem (by omega)
    · rw [blit_apply_of_mem (by omega)]
      exact congrArg s.video.mem (by omega)
  · exact hrow i hlo (by omega)
  · show f.consPos - consCols = s.consPos - consCols
    rw [heq]
  · show f.dcolor = s.dcolor
    rw [heq]
  · refine (hmove.mono ?_).trans (hfill.mono ?_)
    · rintro a ⟨h₁, h₂⟩
      exact ⟨by omega, by omega⟩
    · rintro a ⟨h₁, h₂⟩
      exact ⟨by omega, by omega⟩

/-- What happens to the screen: a character is put out, or the cursor is moved in
the grid, or the colour is changed. -/
inductive Ev
  | putc (c : UInt8)
  | setCursor (x y : Nat)
  | settextcolor (forecolor backcolor : UInt8)
deriving DecidableEq, Repr

/-- The screen before and after. -/
def Step (s : Screen) : Ev → Screen → Prop
  | .putc c, s' => s' = putcToConsole c s
  | .setCursor x y, s' => x < consCols ∧ y < consRows ∧ s' = Cga.setCursor x y s
  | .settextcolor f b, s' => s' = Cga.settextcolor f b s

/-- The position is in the grid, and only cells of the grid have been written. -/
structure Inside (s : Screen) : Prop where
  pos_lt : s.consPos < consSize
  written : ∀ a ∈ s.video.written, Cells 0 consSize a

theorem Inside.confined {s' : Screen} (h : Inside s) (hpos : s'.consPos < consSize)
    (hconf : Traced.Confined (Cells 0 consSize) s.video s'.video) : Inside s' where
  pos_lt := hpos
  written a ha := (hconf.written a ha).elim (h.written a) id

theorem inside_consInit (h : s.video.written = []) : Inside (consInit s) where
  pos_lt := show 0 < consSize by decide
  written a ha := by
    have hfill := fillCells_confined blankChar consSize 0 { s with consPos := 0 }
    rw [consInit, cleanScreen, putCursor] at ha
    generalize fillCells blankChar consSize 0 { s with consPos := 0 } = f at ha hfill
    rcases hfill.written a ha with hw | hw
    · rw [h] at hw
      cases hw
    · exact hw

theorem Inside.putc (h : Inside s) (c : UInt8) : Inside (putcToConsole c s) := by
  have hsize : consSize = 2000 := rfl
  have hcols : consCols = 80 := rfl
  have hp := placed_place h.pos_lt c
  have hle := hp.pos_le
  by_cases hend : consSize ≤ (place c s).consPos
  · obtain ⟨-, hpos, -, hconf⟩ := scroll_of_ge hend
    refine h.confined ?_ (hp.confined.trans hconf)
    show (scroll (place c s)).consPos < consSize
    omega
  · have hnone : scroll (place c s) = place c s := if_neg hend
    refine h.confined ?_ ?_
    · show (scroll (place c s)).consPos < consSize
      rw [hnone]
      omega
    · show Traced.Confined _ s.video (scroll (place c s)).video
      rw [hnone]
      exact hp.confined

/-- The step lemma. -/
theorem Inside.step {s' : Screen} {e : Ev} (h : Inside s) (hs : Step s e s') : Inside s' := by
  cases e with
  | putc c =>
      obtain rfl : s' = putcToConsole c s := hs
      exact h.putc c
  | setCursor x y =>
      obtain ⟨hx, hy, rfl⟩ := hs
      refine h.confined ?_ (.refl _ _)
      have hcols : consCols = 80 := rfl
      have hrows : consRows = 25 := rfl
      have hsize : consSize = 2000 := rfl
      have hlt : y * consCols + x < consSize := by
        rw [hcols, hsize]
        omega
      show (y * consCols + x) % 65536 < consSize
      rw [Nat.mod_eq_of_lt (by omega)]
      exact hlt
  | settextcolor f b =>
      obtain rfl : s' = Cga.settextcolor f b s := hs
      exact h.confined h.pos_lt (.refl _ _)

/-- From `cons_init` on, whatever is printed and wherever the cursor is set in the
grid, only cells of the grid are written and the position stays in the grid. A
character that makes the rows scroll leaves the top row as it was, every other row
as the one below it was with the character in it, and a blank row at the bottom. -/
theorem console_stays_on_screen {s₀ s : Screen} {es : List Ev} (h₀ : s₀.video.written = [])
    (h : Run Step (consInit s₀) es s) :
    s.consPos < consSize ∧ (∀ a ∈ s.video.written, Cells 0 consSize a) ∧
      ∀ c, consSize ≤ (place c s).consPos →
        (∀ i, i < consCols → (putcToConsole c s).cell i = s.cell i) ∧
          Scrolled (place c s) (putcToConsole c s) := by
  have hin : Inside s := h.invariant (I := Inside) (fun _ _ _ _ hi hs => hi.step hs)
    (inside_consInit h₀)
  refine ⟨hin.pos_lt, hin.written, fun c hend => ?_⟩
  have hp := placed_place hin.pos_lt c
  obtain ⟨hscrolled, -⟩ := scroll_of_ge hend
  refine ⟨fun i hi => ?_, hscrolled.top, hscrolled.rows, hscrolled.bottom⟩
  exact (hscrolled.top i hi).trans (hp.top hend i hi)

/-- The last cell of the grid is filled. -/
theorem console_scrolls_at_last_cell : ∃ s₀ s : Screen, s₀.video.written = [] ∧
    Run Step (consInit s₀) [.setCursor 79 24] s ∧
      Scrolled (place 0x61 s) (putcToConsole 0x61 s) := by
  have hrun : Run Step (consInit ⟨⟨fun _ => 0, []⟩, 0, brightGreen, 0⟩) [.setCursor 79 24]
      (setCursor 79 24 (consInit ⟨⟨fun _ => 0, []⟩, 0, brightGreen, 0⟩)) :=
    .single ⟨by decide, by decide, rfl⟩
  have hend : consSize ≤ (place 0x61
      (setCursor 79 24 (consInit ⟨⟨fun _ => 0, []⟩, 0, brightGreen, 0⟩))).consPos :=
    show consSize ≤ 79 + 24 * 80 + 1 by decide
  exact ⟨_, _, rfl, hrun, ((console_stays_on_screen rfl hrun).2.2 0x61 hend).2⟩

end

end Cga

end Chunix
