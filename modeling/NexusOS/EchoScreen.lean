import NexusOS.LineDraft
import Mathlib.Tactic.Choose

/-!
What the user sees is what will be submitted. `Echo` says that the text being
edited stands on the screen from the cell the call started at, moved up one row
for every scroll since. Characters at the right edge wrap, a backspace crosses
the row boundary back, and the bottom right corner scrolls; the text is short
enough that its first cell is never scrolled out.
-/

namespace NexusOS.EchoScreen

open VgaConsole LineEditor LineDraft

def position (t : Console) : Nat := t.terminalRow * vgaWidth + t.terminalColumn

def OnScreen (t : Console) : Prop := t.terminalRow < vgaHeight ∧ t.terminalColumn < vgaWidth

theorem position_lt {t : Console} (on : OnScreen t) : position t < vgaHeight * vgaWidth := by
  obtain ⟨row, column⟩ := on
  simp only [position, vgaHeight, vgaWidth] at *
  omega

theorem printable_plain {c : UInt8} (visible : Printable c) : Plain c := by
  refine ⟨?_, ?_, ?_, ?_⟩ <;>
  · rintro rfl
    exact absurd visible (by decide)

@[simp] theorem position_cursor (t : Console) (x y : Nat) :
    position (updateCursor t x y) = position t := rfl

@[simp] theorem on_screen_cursor (t : Console) (x y : Nat) :
    OnScreen (updateCursor t x y) ↔ OnScreen t := Iff.rfl

/-- The console after a plain character is written and before it scrolls. -/
def written (t : Console) (c : UInt8) : Console :=
  advanceTo (terminalPutentryat (outb t 0x3F8 c) c t.terminalColor t.terminalColumn t.terminalRow)
    (t.terminalColumn + 1)

theorem putchar_plain {t : Console} (on : OnScreen t) (c : UInt8) (plain : Plain c) :
    terminalPutchar t c = updateCursor (scrollCheck (written t c))
      (scrollCheck (written t c)).terminalColumn (scrollCheck (written t c)).terminalRow := by
  have applied := apply_plain (outb t 0x3F8 c) c plain on.2
  rw [terminalPutchar, applied]
  rfl

theorem written_buffer (t : Console) (c : UInt8) :
    (written t c).terminalBuffer =
      Function.update t.terminalBuffer (position t) (vgaEntry c t.terminalColor) := by
  unfold written advanceTo
  split <;> rfl

theorem written_position {t : Console} (on : OnScreen t) (c : UInt8) :
    position (written t c) = position t + 1 ∧ (written t c).terminalColumn < vgaWidth := by
  have fits := on.2
  by_cases edge : vgaWidth ≤ t.terminalColumn + 1
  · simp only [written, advanceTo, edge, if_true, position, putentry_row]
    change (t.terminalRow + 1) * vgaWidth + 0 = _ ∧ _
    simp only [vgaWidth] at *
    omega
  · simp only [written, advanceTo, edge, if_false, position, putentry_row]
    change t.terminalRow * vgaWidth + (t.terminalColumn + 1) = _ ∧ _
    omega

theorem written_scrolls (t : Console) (c : UInt8) : (written t c).scrolls = t.scrolls := by
  unfold written advanceTo
  split <;> rfl

theorem written_color (t : Console) (c : UInt8) :
    (written t c).terminalColor = t.terminalColor := by
  unfold written advanceTo
  split <;> rfl

theorem putchar_short {t : Console} (on : OnScreen t) (c : UInt8) (plain : Plain c)
    (short : position t + 1 < vgaHeight * vgaWidth) :
    OnScreen (terminalPutchar t c) ∧ position (terminalPutchar t c) = position t + 1 ∧
      (terminalPutchar t c).scrolls = t.scrolls ∧
      (terminalPutchar t c).terminalBuffer =
        Function.update t.terminalBuffer (position t) (vgaEntry c t.terminalColor) := by
  obtain ⟨moved, fits⟩ := written_position on c
  have above : (written t c).terminalRow < vgaHeight := by
    simp only [position, vgaHeight, vgaWidth] at *
    omega
  have still : scrollCheck (written t c) = written t c := by
    have notPast : ¬ (written t c).terminalRow ≥ vgaHeight := by omega
    simp only [scrollCheck, notPast, if_false]
  rw [putchar_plain on c plain, still, on_screen_cursor, position_cursor, cursor_scrolls,
    cursor_buffer]
  exact ⟨⟨above, fits⟩, moved, written_scrolls t c, written_buffer t c⟩

theorem putchar_corner {t : Console} (on : OnScreen t) (c : UInt8) (plain : Plain c)
    (corner : position t + 1 = vgaHeight * vgaWidth) :
    OnScreen (terminalPutchar t c) ∧
      position (terminalPutchar t c) + vgaWidth = position t + 1 ∧
      (terminalPutchar t c).scrolls = t.scrolls + 1 ∧
      (terminalPutchar t c).terminalBuffer = scrolledCells t.terminalColor
        (Function.update t.terminalBuffer (position t) (vgaEntry c t.terminalColor)) := by
  obtain ⟨moved, fits⟩ := written_position on c
  have below : (written t c).terminalRow = vgaHeight ∧ (written t c).terminalColumn = 0 := by
    simp only [position, vgaHeight, vgaWidth] at *
    omega
  have past : (written t c).terminalRow ≥ vgaHeight := by omega
  rw [putchar_plain on c plain, on_screen_cursor, position_cursor, cursor_scrolls, cursor_buffer]
  simp only [scrollCheck, past, if_true, scroll_exact]
  refine ⟨⟨?_, fits⟩, ?_, ?_, ?_⟩
  · change vgaHeight - 1 < vgaHeight
    decide
  · change (vgaHeight - 1) * vgaWidth + (written t c).terminalColumn + vgaWidth = _
    rw [below.2, corner]
    decide
  · rw [written_scrolls]
  · rw [written_color, written_buffer]

def steppedBack (t : Console) : Console :=
  if t.terminalColumn > 0 then { t with terminalColumn := t.terminalColumn - 1 }
  else { t with terminalRow := t.terminalRow - 1, terminalColumn := vgaWidth - 1 }

theorem stepped_back_position {t : Console} (on : OnScreen t) (nonzero : 0 < position t) :
    OnScreen (steppedBack t) ∧ position (steppedBack t) + 1 = position t := by
  obtain ⟨row, column⟩ := on
  unfold steppedBack
  split
  · simp only [OnScreen, position] at *
    omega
  · simp only [OnScreen, position, vgaWidth, vgaHeight] at *
    omega

theorem stepped_back_same (t : Console) :
    (steppedBack t).scrolls = t.scrolls ∧ (steppedBack t).terminalBuffer = t.terminalBuffer ∧
      (steppedBack t).terminalColor = t.terminalColor := by
  unfold steppedBack
  split <;> exact ⟨rfl, rfl, rfl⟩

theorem apply_back {t : Console} (nonzero : 0 < position t) :
    applyChar t 0x08 = terminalPutentryat (steppedBack t) 0x20 (steppedBack t).terminalColor
      (steppedBack t).terminalColumn (steppedBack t).terminalRow := by
  by_cases inRow : t.terminalColumn > 0
  · simp [applyChar, steppedBack, inRow]
  -- only the top left corner has no cell before it
  · have below : t.terminalRow > 0 := by
      by_contra top
      simp only [position, vgaWidth] at nonzero
      omega
    simp [applyChar, steppedBack, inRow, below]

theorem putchar_back {t : Console} (on : OnScreen t) (nonzero : 0 < position t) :
    OnScreen (terminalPutchar t 0x08) ∧ position (terminalPutchar t 0x08) + 1 = position t ∧
      (terminalPutchar t 0x08).scrolls = t.scrolls ∧
      (terminalPutchar t 0x08).terminalBuffer =
        Function.update t.terminalBuffer (position t - 1) (vgaEntry 0x20 t.terminalColor) := by
  obtain ⟨onBack, back⟩ := stepped_back_position (t := outb t 0x3F8 0x08) on nonzero
  obtain ⟨scrolls, buffer, color⟩ := stepped_back_same (outb t 0x3F8 0x08)
  have applied := apply_back (t := outb t 0x3F8 0x08) nonzero
  have still : scrollCheck (applyChar (outb t 0x3F8 0x08) 0x08) =
      applyChar (outb t 0x3F8 0x08) 0x08 := by
    have above : ¬ (steppedBack (outb t 0x3F8 0x08)).terminalRow ≥ vgaHeight :=
      Nat.not_le.mpr onBack.1
    rw [applied, scrollCheck, putentry_row, if_neg above]
  rw [terminalPutchar, still, applied, on_screen_cursor, position_cursor, cursor_scrolls,
    cursor_buffer]
  refine ⟨onBack, back, scrolls, ?_⟩
  have cell : position t - 1 = position (steppedBack (outb t 0x3F8 0x08)) :=
    Nat.sub_eq_of_eq_add back.symm
  rw [cell, terminalPutentryat, store]
  change Function.update (steppedBack (outb t 0x3F8 0x08)).terminalBuffer _ _ = _
  rw [buffer, color]
  rfl

theorem scrolled_upper (color : UInt8) (buffer : Nat → UInt16) (k : Nat)
    (upper : k < (vgaHeight - 1) * vgaWidth) :
    scrolledCells color buffer k = buffer (k + vgaWidth) := by
  have notLast : ¬ ((vgaHeight - 1) * vgaWidth ≤ k ∧
      k < (vgaHeight - 1) * vgaWidth + vgaWidth) := by omega
  simp only [scrolledCells, blankCells, copiedCells, notLast, upper, if_false, if_true]

/-- Where the text that started at cell `p` stands after `scrolls` scrolls. -/
def origin (p scrolls : Nat) : Nat := p - vgaWidth * scrolls

/-- The text `s` stands on the screen from cell `p` on, one row higher for
every scroll after the `scrolled` ones before. -/
structure Echo (p scrolled : Nat) (tint : UInt8) (t : Console) (s : Text) : Prop where
  on : OnScreen t
  color : t.terminalColor = tint
  scrolls : scrolled ≤ t.scrolls
  shown : vgaWidth * (t.scrolls - scrolled) ≤ p
  cursor : position t = origin p (t.scrolls - scrolled) + s.length
  cells : ∀ j c, s[j]? = some c →
    t.terminalBuffer (origin p (t.scrolls - scrolled) + j) = vgaEntry c tint

section Keeping
variable {p scrolled : Nat} {tint : UInt8}

theorem echo_start {t : Console} (on : OnScreen t) :
    Echo (position t) t.scrolls t.terminalColor t [] :=
  ⟨on, rfl, Nat.le_refl _, by simp, by simp [origin], by simp⟩

theorem written_cells {t : Console} {s : Text} (echo : Echo p scrolled tint t s) (c : UInt8) :
    ∀ j b, (s ++ [c])[j]? = some b →
      origin p (t.scrolls - scrolled) + j ≤ position t ∧
      Function.update t.terminalBuffer (position t) (vgaEntry c t.terminalColor)
        (origin p (t.scrolls - scrolled) + j) = vgaEntry b tint := by
  intro j b found
  have cursor := echo.cursor
  have bound : j < (s ++ [c]).length := (List.getElem?_eq_some_iff.mp found).1
  rw [List.length_append, List.length_singleton] at bound
  refine ⟨by omega, ?_⟩
  rcases Nat.lt_or_eq_of_le (Nat.le_of_lt_succ bound) with old | new
  · have elsewhere : origin p (t.scrolls - scrolled) + j ≠ position t := by omega
    rw [List.getElem?_append_left old] at found
    rw [Function.update_of_ne elsewhere]
    exact echo.cells j b found
  · have here : origin p (t.scrolls - scrolled) + j = position t := by omega
    subst new
    rw [List.getElem?_concat_length, Option.some.injEq] at found
    rw [here, Function.update_self, found, echo.color]

theorem echo_put (t : Console) (s : Text) (c : UInt8) (visible : Printable c)
    (room : s.length < textLimit) (echo : Echo p scrolled tint t s) :
    Echo p scrolled tint (terminalPutchar t c) (s ++ [c]) := by
  have plain := printable_plain visible
  have cells := written_cells echo c
  have color := (putchar_color t c).trans echo.color
  have cursor := echo.cursor
  have since := echo.scrolls
  rcases Nat.lt_or_eq_of_le (position_lt echo.on) with short | corner
  · obtain ⟨on, moved, same, buffer⟩ := putchar_short echo.on c plain short
    rw [← same] at cells cursor since
    refine ⟨on, color, since, same ▸ echo.shown, ?_, fun j b found => ?_⟩
    · rw [moved, cursor, List.length_append, List.length_singleton, Nat.add_assoc]
    · rw [buffer]
      exact (cells j b found).2
  · -- the scroll moves the text up a row; it is too short to lose its first cell
    obtain ⟨on, moved, more, buffer⟩ := putchar_corner echo.on c plain corner
    have steps : (terminalPutchar t c).scrolls - scrolled = t.scrolls - scrolled + 1 := by omega
    have higher : origin p (t.scrolls - scrolled + 1) + vgaWidth = origin p (t.scrolls - scrolled) ∧
        vgaWidth * (t.scrolls - scrolled + 1) ≤ p := by
      have := echo.shown
      simp only [origin, textLimit, lineSize, vgaHeight, vgaWidth] at *
      omega
    refine ⟨on, color, by omega, steps ▸ higher.2, ?_, fun j b found => ?_⟩
    · rw [steps, List.length_append, List.length_singleton]
      omega
    · obtain ⟨before, cell⟩ := cells j b found
      have upper : origin p (t.scrolls - scrolled + 1) + j < (vgaHeight - 1) * vgaWidth := by
        simp only [vgaHeight, vgaWidth] at *
        omega
      have below : origin p (t.scrolls - scrolled + 1) + j + vgaWidth =
          origin p (t.scrolls - scrolled) + j := by omega
      rw [steps, buffer, scrolled_upper _ _ _ upper, below]
      exact cell

theorem echo_back (t : Console) (s : Text) (c : UInt8)
    (echo : Echo p scrolled tint t (s ++ [c])) :
    Echo p scrolled tint (terminalPutchar t 0x08) s := by
  have cursor := echo.cursor
  rw [List.length_append, List.length_singleton] at cursor
  obtain ⟨on, back, same, buffer⟩ := putchar_back echo.on (by omega)
  refine ⟨on, (putchar_color t 0x08).trans echo.color, same ▸ echo.scrolls, same ▸ echo.shown,
    by rw [same]; omega, fun j b found => ?_⟩
  have bound : j < s.length := (List.getElem?_eq_some_iff.mp found).1
  -- the blank goes to the cell right behind the shorter text
  have kept : origin p (t.scrolls - scrolled) + j ≠ position t - 1 := by omega
  rw [same, buffer, Function.update_of_ne kept]
  exact echo.cells j b (by rw [List.getElem?_append_left bound]; exact found)

theorem echo_mirrors : Mirrors (Echo p scrolled tint) := ⟨echo_put, echo_back⟩

end Keeping

/-- At every head of the loop the screen shows `line[0..i)` where the call
started, in the current colour, and the cursor stands behind it. -/
theorem screen_shows_line (t : Console) (on : OnScreen t) (h : History)
    (rows : ∀ slot, ∃ s, IsText (h.cmdHistory slot) s) (line : Buffer) (bytes : List UInt8)
    (e : Editor) (head : readLoop h lineSize bytes (enter h t line) = .waiting e) :
    e.i ≤ 254 ∧ t.scrolls ≤ e.console.scrolls ∧
      vgaWidth * (e.console.scrolls - t.scrolls) ≤ position t ∧
      position e.console = position t - vgaWidth * (e.console.scrolls - t.scrolls) + e.i ∧
      ∀ j, j < e.i → ∃ c, e.line[j]? = some c ∧
        e.console.terminalBuffer
          (position t - vgaWidth * (e.console.scrolls - t.scrolls) + j) =
        vgaEntry c e.console.terminalColor := by
  choose text held using rows
  have holds : Holds h ⟨text, h.historyCount⟩ := ⟨rfl, held⟩
  have ends := loop_refines echo_mirrors holds bytes _ _ (enter_represents h t (echo_start on) line)
  rw [head] at ends
  generalize editLoop _ bytes _ = drafted at ends
  cases ends with
  | waiting rep room =>
      rename_i d
      have length := rep.length
      have echo := rep.screen
      refine ⟨by simp only [textLimit, lineSize] at room; omega, echo.scrolls, echo.shown, ?_, ?_⟩
      · rw [length]
        exact echo.cursor
      · intro j before
        have inText : j < d.text.length := length ▸ before
        have same : d.text[j]? = e.line[j]? := by
          rw [← rep.text, List.getElem?_take_of_lt before, Vector.getElem?_toList]
        refine ⟨d.text[j], same ▸ List.getElem?_eq_getElem inText, ?_⟩
        rw [echo.color]
        exact echo.cells j _ (List.getElem?_eq_getElem inText)

/-- A cursor in the bottom right corner, where one character scrolls. -/
def cornerConsole : Console := { powerOn with terminalRow := 24, terminalColumn := 79 }

def cornerEditor : Editor where
  line := (Vector.replicate lineSize 0).set 0 0x61
  i := 1
  escState := .text
  hPtr := zeroHistory.historyCurrent
  console := terminalPutchar cornerConsole 0x61

theorem corner_head : readLoop zeroHistory lineSize [0x61]
    (enter zeroHistory cornerConsole (Vector.replicate lineSize 0)) = .waiting cornerEditor := by
  simp only [readLoop, enter, onByte, put, storeAt, lineSize, cornerEditor]
  rfl

theorem corner_letter_shown :
    cornerEditor.i ≤ 254 ∧ cornerConsole.scrolls ≤ cornerEditor.console.scrolls ∧
      vgaWidth * (cornerEditor.console.scrolls - cornerConsole.scrolls) ≤
        position cornerConsole ∧
      position cornerEditor.console = position cornerConsole -
        vgaWidth * (cornerEditor.console.scrolls - cornerConsole.scrolls) + cornerEditor.i ∧
      ∀ j, j < cornerEditor.i → ∃ c, cornerEditor.line[j]? = some c ∧
        cornerEditor.console.terminalBuffer (position cornerConsole -
          vgaWidth * (cornerEditor.console.scrolls - cornerConsole.scrolls) + j) =
        vgaEntry c cornerEditor.console.terminalColor :=
  screen_shows_line cornerConsole ⟨by decide, by decide⟩ zeroHistory
    (fun slot => ⟨[], zero_holds.2 slot⟩) (Vector.replicate lineSize 0) [0x61] cornerEditor
    corner_head

end NexusOS.EchoScreen
