import NexusOS.ScrollingPage
import NexusOS.VgaConsole

/-!
The console of `vga.c` shows a window over an unbounded page. `Shows` relates
the 25x80 buffer to the page's last 25 rows; each class of character keeps it,
and the scroll after the bottom row is the page's move to a new row. Cells
never written since the clear only promise their blank character: the code
gives them the colour in force when they were cleared or scrolled in.
-/

namespace NexusOS.ConsoleWindow

open VgaConsole ScrollingPage

instance : NeZero vgaWidth := ⟨by decide⟩
instance : NeZero vgaHeight := ⟨by decide⟩

/-- A written cell: its character and the attribute it was written with. -/
abbrev Glyph := UInt8 × UInt8
abbrev Screen := Page Glyph vgaWidth vgaHeight

inductive Op where
  | putchar (c : UInt8)
  | setcolor (color : UInt8)

def runConsole : List Op → Console → Console
  | [], t => t
  | .putchar c :: rest, t => runConsole rest (terminalPutchar t c)
  | .setcolor color :: rest, t => runConsole rest (terminalSetcolor t color)

/-- What one character does to the unbounded page. -/
def drawChar (page : Screen) (color c : UInt8) : Screen :=
  if c = 0x0A then page.nextRow
  else if c = 0x0D then page.carriageReturn
  else if c = 0x09 then page.tab 4
  else if c = 0x08 then page.backspace (0x20, color)
  else page.put (c, color)

def runPage : List Op → UInt8 → Screen → Screen
  | [], _, page => page
  | .putchar c :: rest, color, page => runPage rest color (drawChar page color c)
  | .setcolor color :: rest, _, page => runPage rest color page

def Agrees : Option Glyph → UInt16 → Prop
  | none, entry => entryChar entry = 0x20
  | some glyph, entry => entryChar entry = glyph.1 ∧ entryColor entry = glyph.2

structure Shows (t : Console) (page : Screen) : Prop where
  row : page.top + t.terminalRow = page.row
  column : t.terminalColumn = page.column
  cell : ∀ y x, y < vgaHeight → x < vgaWidth →
    Agrees (page.cell (page.top + y) x) (t.terminalBuffer (y * vgaWidth + x))

theorem agrees_entry (c color : UInt8) : Agrees (some (c, color)) (vgaEntry c color) :=
  ⟨entry_char c color, entry_color c color⟩

theorem agrees_blank (color : UInt8) : Agrees none (vgaEntry 0x20 color) := entry_char 0x20 color

theorem flat_index_injective (y x r c : Nat) (hx : x < vgaWidth) (hc : c < vgaWidth) :
    y * vgaWidth + x = r * vgaWidth + c ↔ y = r ∧ x = c := by
  simp only [vgaWidth] at *
  omega

theorem flat_index_bound (y x : Nat) (hy : y < vgaHeight) (hx : x < vgaWidth) :
    y * vgaWidth + x < vgaHeight * vgaWidth := by
  simp only [vgaWidth, vgaHeight] at *
  omega

theorem shows_congr {before after : Console} {page : Screen} (shows : Shows before page)
    (row : after.terminalRow = before.terminalRow)
    (column : after.terminalColumn = before.terminalColumn)
    (buffer : after.terminalBuffer = before.terminalBuffer) : Shows after page :=
  ⟨row ▸ shows.row, column ▸ shows.column, buffer ▸ shows.cell⟩

theorem row_lt {t : Console} {page : Screen} (shows : Shows t page) :
    t.terminalRow < vgaHeight := by
  have same := shows.row
  have reached := page.row_le
  have inside : page.top = page.reached + 1 - vgaHeight := rfl
  simp only [vgaHeight] at *
  omega

theorem column_lt {t : Console} {page : Screen} (shows : Shows t page) :
    t.terminalColumn < vgaWidth := shows.column ▸ page.column_lt

theorem shows_write {t : Console} {page : Screen} (shows : Shows t page) (c color : UInt8) :
    Shows (terminalPutentryat t c color t.terminalColumn t.terminalRow)
      (page.write (c, color)) := by
  have inside := flat_index_bound _ _ (row_lt shows) (column_lt shows)
  rw [terminalPutentryat, store_in_range _ _ _ inside]
  refine ⟨shows.row, shows.column, ?_⟩
  intro y x hy hx
  have sameRow := shows.row
  have sameColumn := shows.column
  have same := flat_index_injective y x t.terminalRow t.terminalColumn hx (column_lt shows)
  change Agrees (if page.top + y = page.row ∧ x = page.column then some (c, color)
    else page.cell (page.top + y) x)
    (Function.update t.terminalBuffer _ (vgaEntry c color) (y * vgaWidth + x))
  rw [Function.update_apply]
  by_cases here : y = t.terminalRow ∧ x = t.terminalColumn
  · have there : page.top + y = page.row ∧ x = page.column := by omega
    rw [if_pos there, if_pos (same.mpr here)]
    exact agrees_entry c color
  · have elsewhere : ¬ (page.top + y = page.row ∧ x = page.column) := by omega
    rw [if_neg elsewhere, if_neg (fun equal => here (same.mp equal))]
    exact shows.cell y x hy hx

theorem shows_place {t : Console} {page : Screen} (shows : Shows t page) (row column r : Nat)
    (same : page.top + row = r) (fits : column < vgaWidth) (shown : page.top ≤ r)
    (short : row < vgaHeight) :
    Shows { t with terminalRow := row, terminalColumn := column }
      (page.place r column fits shown) := by
  have top := page.place_top r column fits shown (by omega)
  refine ⟨?_, rfl, ?_⟩
  · rw [top]
    exact same
  · intro y x hy hx
    rw [top]
    exact shows.cell y x hy hx

/-- Moving below the bottom row and scrolling shows the page one row further:
the row scrolled in was not reached before, hence never written. -/
theorem shows_scroll {t : Console} {page : Screen} (shows : Shows t page) (column r : Nat)
    (same : page.top + vgaHeight = r) (fits : column < vgaWidth) (shown : page.top ≤ r) :
    Shows { terminalScroll { t with terminalRow := vgaHeight, terminalColumn := column } with
        terminalRow := vgaHeight - 1 }
      (page.place r column fits shown) := by
  obtain ⟨top, fresh⟩ := page.place_row_top r column fits shown same.symm
  rw [scroll_exact]
  refine ⟨?_, rfl, ?_⟩
  · rw [top]
    change page.top + 1 + (vgaHeight - 1) = r
    simp only [vgaHeight] at *
    omega
  · intro y x hy hx
    rw [top]
    change Agrees (page.cell (page.top + 1 + y) x)
      (scrolledCells t.terminalColor t.terminalBuffer (y * vgaWidth + x))
    -- the bottom row comes in blank, every other one is the row that was below it
    by_cases last : y = vgaHeight - 1
    · have unwritten : page.cell (page.top + 1 + y) x = none :=
        page.unreached _ x (by simp only [vgaHeight] at *; omega)
      have bottom : (vgaHeight - 1) * vgaWidth ≤ y * vgaWidth + x ∧
          y * vgaWidth + x < (vgaHeight - 1) * vgaWidth + vgaWidth := by
        simp only [vgaHeight, vgaWidth] at *
        omega
      simp only [unwritten, scrolledCells, blankCells, bottom, and_self, if_true]
      exact agrees_blank t.terminalColor
    · have upper : y * vgaWidth + x < (vgaHeight - 1) * vgaWidth := by
        simp only [vgaHeight, vgaWidth] at *
        omega
      have notBottom : ¬ ((vgaHeight - 1) * vgaWidth ≤ y * vgaWidth + x ∧
          y * vgaWidth + x < (vgaHeight - 1) * vgaWidth + vgaWidth) := by omega
      have below : y * vgaWidth + x + vgaWidth = (y + 1) * vgaWidth + x := by
        rw [Nat.succ_mul]
        omega
      have later : page.top + 1 + y = page.top + (y + 1) := by omega
      simp only [scrolledCells, blankCells, copiedCells, notBottom, upper, if_false, if_true,
        below, later]
      exact shows.cell (y + 1) x (by simp only [vgaHeight] at *; omega) hx

theorem shows_settle {t : Console} {page : Screen} (shows : Shows t page) (row column r : Nat)
    (same : page.top + row = r) (fits : column < vgaWidth) (shown : page.top ≤ r)
    (short : row ≤ vgaHeight) :
    Shows (scrollCheck { t with terminalRow := row, terminalColumn := column })
      (page.place r column fits shown) := by
  rcases Nat.lt_or_eq_of_le short with inside | past
  · have still : ¬ row ≥ vgaHeight := by omega
    simp only [scrollCheck, still, if_false]
    exact shows_place shows row column r same fits shown inside
  · subst past
    simp only [scrollCheck, ge_iff_le, Nat.le_refl, if_true]
    exact shows_scroll shows column r same fits shown

theorem shows_next_row {t : Console} {page : Screen} (shows : Shows t page) :
    Shows (scrollCheck { t with terminalColumn := 0, terminalRow := t.terminalRow + 1 })
      page.nextRow := by
  have same := shows.row
  exact shows_settle shows (t.terminalRow + 1) 0 _ (by omega) _ _ (row_lt shows)

-- The column branch shared by a tab and a plain character.
theorem shows_advance {t : Console} {page : Screen} (shows : Shows t page) (column : Nat) :
    Shows (scrollCheck (advanceTo t column)) (page.moveTo column) := by
  by_cases fits : column < vgaWidth
  · have narrow : ¬ vgaWidth ≤ column := by omega
    simp only [Page.moveTo, fits, dif_pos, advanceTo, narrow, if_false]
    exact shows_settle shows t.terminalRow column _ shows.row _ _ (Nat.le_of_lt (row_lt shows))
  · have wide : vgaWidth ≤ column := by omega
    simp only [Page.moveTo, fits, dif_neg, not_false_eq_true, advanceTo, wide, if_true]
    exact shows_next_row shows

theorem shows_backspace {t : Console} {page : Screen} (shows : Shows t page) :
    Shows (applyChar t 0x08) (page.backspace (0x20, t.terminalColor)) := by
  have sameRow := shows.row
  have sameColumn := shows.column
  have short := row_lt shows
  have wide := column_lt shows
  by_cases inRow : t.terminalColumn > 0
  · have inPage : page.column > 0 := by omega
    have moved := shows_place shows t.terminalRow (t.terminalColumn - 1) page.row sameRow
      (by omega) page.top_le short
    simpa [applyChar, inRow, Page.backspace, inPage, sameColumn] using
      shows_write moved 0x20 t.terminalColor
  · have atEdge : ¬ page.column > 0 := by omega
    -- the page has rows above the window, but the code cannot step back to them
    by_cases inWindow : t.terminalRow > 0
    · have below : page.top < page.row := by omega
      have moved := shows_place shows (t.terminalRow - 1) (vgaWidth - 1) (page.row - 1)
        (by omega) (by decide) (Nat.le_sub_one_of_lt below) (by omega)
      simpa [applyChar, inRow, inWindow, Page.backspace, atEdge, below] using
        shows_write moved 0x20 t.terminalColor
    · have atTop : ¬ page.top < page.row := by omega
      simpa [applyChar, inRow, inWindow, Page.backspace, atEdge, atTop] using shows

theorem shows_put {t : Console} {page : Screen} (shows : Shows t page) (c : UInt8)
    (plain : Plain c) :
    Shows (scrollCheck (applyChar t c)) (page.put (c, t.terminalColor)) := by
  rw [apply_plain t c plain (column_lt shows), Page.put, ← shows.column]
  exact shows_advance (shows_write shows c t.terminalColor) (t.terminalColumn + 1)

theorem settled {t : Console} {page : Screen} (shows : Shows t page) : scrollCheck t = t := by
  have still : ¬ t.terminalRow ≥ vgaHeight := Nat.not_le.mpr (row_lt shows)
  simp only [scrollCheck, still, if_false]

theorem shows_char {t : Console} {page : Screen} (shows : Shows t page) (c : UInt8) :
    Shows (scrollCheck (applyChar t c)) (drawChar page t.terminalColor c) := by
  by_cases newline : c = 0x0A
  · subst newline
    exact shows_next_row shows
  by_cases carriage : c = 0x0D
  · subst carriage
    exact shows_settle shows t.terminalRow 0 _ shows.row _ page.top_le
      (Nat.le_of_lt (row_lt shows))
  by_cases tab : c = 0x09
  · subst tab
    rw [apply_tab t (column_lt shows), shows.column]
    exact shows_advance shows ((page.column / 4 + 1) * 4)
  by_cases back : c = 0x08
  · subst back
    -- a backspace leaves the cursor on the screen, so the scroll check does nothing
    have moved := shows_backspace shows
    rw [settled moved]
    exact moved
  · simp only [drawChar, newline, carriage, tab, back, if_false]
    exact shows_put shows c ⟨newline, carriage, tab, back⟩

theorem shows_putchar {t : Console} {page : Screen} (shows : Shows t page) (c : UInt8) :
    Shows (terminalPutchar t c) (drawChar page t.terminalColor c) := by
  have sent : Shows (outb t 0x3F8 c) page := shows_congr shows rfl rfl rfl
  have drawn := shows_char sent c
  exact shows_congr drawn (cursor_row _ _ _) (cursor_column _ _ _) (cursor_buffer _ _ _)

theorem shows_clear (t : Console) :
    Shows (terminalClear t) (Page.empty Glyph vgaWidth vgaHeight) := by
  rw [clear_exact]
  refine ⟨rfl, rfl, ?_⟩
  intro y x hy hx
  have inside : 0 ≤ y * vgaWidth + x ∧ y * vgaWidth + x < 0 + vgaHeight * vgaWidth := by
    have := flat_index_bound y x hy hx
    omega
  simp only [cursor_buffer, blankCells, inside, and_self, if_true]
  exact agrees_blank t.terminalColor

theorem run_shows (ops : List Op) (t : Console) (page : Screen) (shows : Shows t page) :
    Shows (runConsole ops t) (runPage ops t.terminalColor page) := by
  induction ops generalizing t page with
  | nil => exact shows
  | cons op rest ih =>
      cases op with
      | putchar c =>
          have next := ih _ _ (shows_putchar shows c)
          rw [putchar_color] at next
          exact next
      -- the page holds no current colour: the new one only counts for later glyphs
      | setcolor color => exact ih _ _ (shows_congr shows rfl rfl rfl)

/-- From a clear on, the 25x80 buffer and the cursor are the last 25 rows
reached of the page that the same characters draw. -/
theorem window_refines_page (t : Console) (ops : List Op) :
    Shows (runConsole ops (terminalClear t))
      (runPage ops t.terminalColor (Page.empty Glyph vgaWidth vgaHeight)) := by
  have color : (terminalClear t).terminalColor = t.terminalColor := by rw [clear_exact]; rfl
  rw [← color]
  exact run_shows ops _ _ (shows_clear t)

end NexusOS.ConsoleWindow
