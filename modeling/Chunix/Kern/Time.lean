import Chunix.Drv.Screen
import Chunix.Kern.Printf

/-!
# The status row

Once a second the timer interrupt prints the uptime into the status row, from
column 64 on, and puts the cursor back. The row has room for six digits. With a
seventh one, after eleven days and a half, the end of the text runs into the row
below.
-/

namespace Chunix

namespace Time

open Machine Str Cga Syscall

/-- The console and the serial line, which gets a copy of everything but the
output of the timer. `mm` is the memory that `printk` finds strings in. -/
structure Tty where
  screen : Screen
  timerFlag : Nat
  serial : List UInt8
  mm : Mm

def putC (c : UInt8) (t : Tty) : Tty :=
  { t with
    screen := putcToConsole c t.screen
    serial := if t.timerFlag = 0 then t.serial ++ [c] else t.serial }

/-- Characters are put out. -/
def putText (cs : List UInt8) (t : Tty) : Tty := cs.foldl (fun t c => putC c t) t

/-- `printk`. -/
def printk (fmt : List UInt8) (ap : List Nat) : Act Tty Unit := do
  let cs ← Act.zoom Tty.mm (fun m t => { t with mm := m }) (Syscall.printk fmt ap)
  Act.modify (putText cs)

/-- The update of the status row. -/
def display (seconds : Nat) : Act Tty Unit := do
  let (x, y) ← Act.gets fun t => getCursor t.screen
  Act.modify fun t => { t with screen := setCursor 64 0 t.screen, timerFlag := 1 }
  printk (text "time: %d sec\n") [seconds]
  Act.modify fun t => { t with screen := setCursor x y t.screen, timerFlag := 0 }

/-- The variables of the timer. -/
structure Timer where
  tty : Tty
  timerTicks : Nat
  reent : Int

/-- `timer_isr` up to its call of `sched_yield`. -/
def timerIsr : Act Timer Unit := do
  Act.modify fun t => { t with reent := t.reent + 1 }
  let t ← Act.get
  if t.reent ≠ 0 then
    Act.modify fun t => { t with reent := t.reent - 1 }
  else
    let ticks := u32 (t.timerTicks + 1)
    Act.modify fun t => { t with timerTicks := ticks }
    if t.timerTicks % 100 = 0 then
      Act.zoom Timer.tty (fun tty t => { t with tty := tty }) (display (ticks / 100))
    Act.modify fun t => { t with reent := t.reent - 1 }

/-- The status in front of the line feed. -/
def statusText (seconds : Nat) : List UInt8 :=
  text "time: " ++ (digits 10 32 seconds).reverse ++ text " sec"

section

variable {seconds : Nat}

theorem printk_status (h : seconds < 2147483648) (m : Mm) :
    Syscall.printk (text "time: %d sec\n") [seconds] m =
      .ok (statusText seconds ++ [0x0a], m) := by
  have hprint : Syscall.printk (text "time: %d sec\n") [seconds] m =
      .ok (text "time: " ++ (printint seconds 10 true ++ (text " sec" ++ [0x0a])), m) := rfl
  rw [hprint, printint_decimal h, statusText]
  simp only [List.append_assoc]

theorem plain_statusText : ∀ c ∈ statusText seconds, Plain c := by
  have hdigit : ∀ d, d < 10 → Plain (digit d) := by decide
  have htime : ∀ c ∈ text "time: ", Plain c := by decide +kernel
  have hsec : ∀ c ∈ text " sec", Plain c := by decide +kernel
  intro c hc
  rcases List.mem_append.1 hc with hc | hc
  · rcases List.mem_append.1 hc with hc | hc
    · exact htime c hc
    · obtain ⟨d, hd, rfl⟩ := mem_digits (List.mem_reverse.1 hc)
      exact hdigit d hd
  · exact hsec c hc

theorem length_statusText :
    (statusText seconds).length = 10 + (digits 10 32 seconds).length := by
  have htime : (text "time: ").length = 6 := by decide
  have hsec : (text " sec").length = 4 := by decide
  rw [statusText, List.length_append, List.length_append, List.length_reverse, htime, hsec]
  omega

theorem putText_screen (cs : List UInt8) (t : Tty) :
    (putText cs t).screen = cs.foldl (fun s c => putcToConsole c s) t.screen := by
  induction cs generalizing t with
  | nil => rfl
  | cons c cs ih =>
      rw [List.foldl_cons]
      exact ih (putC c t)

theorem newline_video {s : Screen} (h : s.consPos < 1920) :
    (putcToConsole 0x0a s).video = s.video := by
  have hsize : consSize = 2000 := rfl
  have hplace : place 0x0a s = { s with consPos := s.consPos + 80 - (s.consPos + 80) % 80 } := by
    have hmod : (s.consPos + consCols) % 65536 = s.consPos + 80 :=
      Nat.mod_eq_of_lt (show s.consPos + 80 < 65536 by omega)
    rw [place, if_neg (by decide), if_pos (by decide), hmod]
    rfl
  have hscroll : scroll (place 0x0a s) = place 0x0a s := by
    rw [scroll, if_neg]
    rw [hplace]
    show ¬ consSize ≤ s.consPos + 80 - (s.consPos + 80) % 80
    omega
  rw [putcToConsole, hscroll, hplace]
  rfl

theorem printk_eq (h : seconds < 2147483648) (t : Tty) :
    printk (text "time: %d sec\n") [seconds] t =
      .ok ((), putText (statusText seconds ++ [0x0a]) t) := by
  rw [printk, Act.bind_of_ok (Act.zoom_eq_ok.2 ⟨_, printk_status h t.mm, rfl⟩)]
  rfl

/-- The screen behind the update. -/
theorem display_screen (h : seconds < 2147483648) (t : Tty) :
    ∃ t', display seconds t = .ok ((), t') ∧
      t'.screen = setCursor (t.screen.consPos % consCols) (t.screen.consPos / consCols)
        ((statusText seconds ++ [0x0a]).foldl (fun s c => putcToConsole c s)
          (setCursor 64 0 t.screen)) := by
  have hcursor : Act.gets (fun t : Tty => getCursor t.screen) t = .ok (getCursor t.screen, t) := rfl
  have hhome : Act.modify (fun t : Tty => { t with screen := setCursor 64 0 t.screen, timerFlag := 1 })
      t = .ok ((), { t with screen := setCursor 64 0 t.screen, timerFlag := 1 }) := rfl
  rw [display, Act.bind_of_ok hcursor]
  dsimp only [getCursor]
  rw [Act.bind_of_ok hhome, Act.bind_of_ok (printk_eq h _)]
  refine ⟨_, rfl, ?_⟩
  dsimp only
  rw [putText_screen]

/-- The update writes its text from cell 64 on and nothing else, and puts the
cursor back. -/
theorem display_typed {t : Tty} (h : seconds < 100000000) (hpos : t.screen.consPos < 65536) :
    ∃ t' s, display seconds t = .ok ((), t') ∧
      Typed (statusText seconds) (setCursor 64 0 t.screen) s ∧
      t'.screen.video = s.video ∧ t'.screen.consPos = t.screen.consPos := by
  have hlen : (statusText seconds).length ≤ 18 := by
    have := digits_length_le (n := 32) (show seconds < 10 ^ 8 from h) (by decide)
    rw [length_statusText]
    omega
  have htyped := typed_foldl (s := setCursor 64 0 t.screen) (@plain_statusText seconds)
    (show 64 + (statusText seconds).length < 2000 by omega)
  obtain ⟨t', ht', hscreen⟩ := display_screen (show seconds < 2147483648 by omega) t
  rw [List.foldl_append, List.foldl_cons, List.foldl_nil] at hscreen
  generalize (statusText seconds).foldl (fun s c => putcToConsole c s) (setCursor 64 0 t.screen) = s
    at htyped hscreen
  have hend : s.consPos = 64 + (statusText seconds).length := htyped.consPos
  have hback := Nat.div_add_mod' t.screen.consPos consCols
  refine ⟨t', s, ht', htyped, ?_, ?_⟩
  · rw [hscreen]
    exact newline_video (by omega)
  · rw [hscreen, setCursor, putCursor, hback, Nat.mod_eq_of_lt hpos]

end

/-- The timer updates the status row. -/
def Timer.Displays (t : Timer) : Prop := t.reent = -1 ∧ t.timerTicks % 100 = 0

/-- The seconds that it shows. -/
def Timer.seconds (t : Timer) : Nat := u32 (t.timerTicks + 1) / 100

theorem Timer.seconds_lt (t : Timer) : t.seconds < 100000000 := by
  have := u32_lt (t.timerTicks + 1)
  rw [Timer.seconds]
  omega

theorem timerIsr_of_displays {t : Timer} {tty : Tty} (h : t.Displays)
    (hd : display t.seconds t.tty = .ok ((), tty)) :
    timerIsr t = .ok ((), { t with tty := tty, timerTicks := u32 (t.timerTicks + 1) }) := by
  obtain ⟨hreent, hticks⟩ := h
  have henter : Act.modify (fun t : Timer => { t with reent := t.reent + 1 }) t =
      .ok ((), { t with reent := t.reent + 1 }) := rfl
  have hfirst : ¬ t.reent + 1 ≠ 0 := by
    rw [hreent]
    decide
  rw [timerIsr, Act.bind_of_ok henter, Act.bind_of_ok (Act.get_eq_ok.2 ⟨rfl, rfl⟩)]
  dsimp only
  rw [if_neg hfirst, if_pos hticks]
  refine Act.bind_eq_ok.2 ⟨(), _, rfl, Act.bind_eq_ok.2 ⟨(), _, Act.zoom_eq_ok.2 ⟨tty, hd, rfl⟩, ?_⟩⟩
  dsimp only [Act.modify]
  rw [Int.add_sub_cancel]

theorem timerIsr_of_not_displays {t : Timer} (h : ¬ t.Displays) :
    ∃ t', timerIsr t = .ok ((), t') ∧ t'.tty = t.tty := by
  have henter : Act.modify (fun t : Timer => { t with reent := t.reent + 1 }) t =
      .ok ((), { t with reent := t.reent + 1 }) := rfl
  rw [timerIsr, Act.bind_of_ok henter, Act.bind_of_ok (Act.get_eq_ok.2 ⟨rfl, rfl⟩)]
  dsimp only
  by_cases hreent : t.reent + 1 ≠ 0
  · rw [if_pos hreent]
    exact ⟨_, rfl, rfl⟩
  · have hticks : ¬ t.timerTicks % 100 = 0 := fun hticks => h ⟨by omega, hticks⟩
    rw [if_neg hreent, if_neg hticks]
    exact ⟨_, rfl, rfl⟩

/-- The timer leaves the position and all cells outside of the status row as they
are if and only if it shows nothing, or less than a million seconds, or the end of
the text stands in the row below already. -/
theorem timerIsr_status_row_iff {t : Timer} (hpos : t.tty.screen.consPos < 65536) :
    (∃ t', timerIsr t = .ok ((), t') ∧
      (∀ i, consCols ≤ i → t'.tty.screen.cell i = t.tty.screen.cell i) ∧
      t'.tty.screen.consPos = t.tty.screen.consPos) ↔
    (¬ t.Displays ∨ t.seconds < 1000000 ∨
      ∀ j (hj : j < (statusText t.seconds).length), 16 ≤ j →
        t.tty.screen.cell (64 + j) = glyph t.tty.screen.dcolor (statusText t.seconds)[j]) := by
  by_cases hd : t.Displays
  · obtain ⟨tty, s, hdisplay, htyped, hvideo, hback⟩ := display_typed t.seconds_lt hpos
    have hcell : ∀ i, tty.screen.cell i = s.cell i := by
      intro i
      rw [Screen.cell, hvideo]
      rfl
    have hcols : consCols = 80 := rfl
    have hisr := timerIsr_of_displays hd hdisplay
    simp only [hd, not_true_eq_false, false_or]
    constructor
    · rintro ⟨t', ht', hsame, -⟩
      cases hisr.symm.trans ht'
      refine Or.inr fun j hj hj' => ?_
      rw [← hsame (64 + j) (by omega), hcell]
      exact htyped.typed j hj
    · intro hfits
      refine ⟨_, hisr, fun i hi => ?_, hback⟩
      rw [hcell]
      by_cases hin : i < 64 + (statusText t.seconds).length
      · obtain ⟨j, rfl⟩ : ∃ j, i = 64 + j := ⟨i - 64, by omega⟩
        have hj : j < (statusText t.seconds).length := by omega
        have hnew := htyped.typed j hj
        rcases hfits with hfew | hthere
        · -- the text ends in the status row
          have := digits_length_le (n := 32) (show t.seconds < 10 ^ 6 from hfew) (by decide)
          rw [length_statusText] at hj
          omega
        · exact hnew.trans (hthere j hj (by omega)).symm
      · exact Screen.cell_of_confined htyped.confined (Or.inr (Nat.not_lt.1 hin))
  · obtain ⟨t', ht', htty⟩ := timerIsr_of_not_displays hd
    refine ⟨fun _ => Or.inl hd, fun _ => ⟨t', ht', fun _ _ => ?_, ?_⟩⟩
    · rw [htty]
    · rw [htty]

/-- The timer when the console has been cleared and `ticks` ticks have passed. -/
def clearedTimer (ticks : Nat) : Timer where
  tty := {
    screen := ⟨⟨fun a => if a % 2 = 0 then 0x20 else 0x0a, []⟩, 80, brightGreen, 80⟩
    timerFlag := 0
    serial := []
    mm := ⟨fun _ => 0, 0, 0, 0, 0, 0⟩ }
  timerTicks := ticks
  reent := -1

/-- The first tick. -/
theorem clearedTimer_first : ∃ t', timerIsr (clearedTimer 0) = .ok ((), t') ∧
    ∀ i, consCols ≤ i → t'.tty.screen.cell i = (clearedTimer 0).tty.screen.cell i := by
  obtain ⟨t', ht', hsame, -⟩ := (timerIsr_status_row_iff (t := clearedTimer 0)
    (show 80 < 65536 by decide)).2 (Or.inr (Or.inl (by decide)))
  exact ⟨t', ht', hsame⟩

/-- After a million seconds the last letter of the text is in the row below. -/
theorem clearedTimer_million : ∃ t', timerIsr (clearedTimer 100000000) = .ok ((), t') ∧
    t'.tty.screen.cell 80 ≠ (clearedTimer 100000000).tty.screen.cell 80 := by
  have hd : (clearedTimer 100000000).Displays := ⟨rfl, rfl⟩
  obtain ⟨tty, s, hdisplay, htyped, hvideo, -⟩ :=
    display_typed (t := (clearedTimer 100000000).tty) (clearedTimer 100000000).seconds_lt
      (show 80 < 65536 by decide)
  have hlast : (statusText (clearedTimer 100000000).seconds)[16]? = some 0x63 := by decide
  obtain ⟨hj, hc⟩ := List.getElem?_eq_some_iff.1 hlast
  have hnew := htyped.typed 16 hj
  rw [hc] at hnew
  refine ⟨_, timerIsr_of_displays hd hdisplay, ?_⟩
  rw [Screen.cell, hvideo]
  refine ne_of_eq_of_ne (show load16 s.video.mem (consBuf + 2 * 80) = 0xa63 from hnew) ?_
  decide

end Time

end Chunix
