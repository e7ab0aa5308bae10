import NexusOS.CountedLoop
import Mathlib.Tactic.SplitIfs

/-!
The text console of `kernel/drivers/vga.c`. `terminalBuffer` is the memory at
0xB8000 seen from `terminal_buffer`; the CRTC and COM1 are the ports the file
writes. Two fields observe and are never read by the code: `overrun` records a
store at or past cell 25*80, `scrolls` counts the calls of `terminal_scroll`.
The wait for the transmitter before each byte sent to COM1 is left out: it
reads the line status and changes nothing.
-/

namespace NexusOS.VgaConsole

open CountedLoop

def vgaWidth : Nat := 80
def vgaHeight : Nat := 25

structure Console where
  terminalRow : Nat
  terminalColumn : Nat
  terminalColor : UInt8
  terminalBuffer : Nat → UInt16
  crtcIndex : UInt8
  crtcRegister : UInt8 → UInt8
  com1 : List UInt8
  overrun : Bool
  scrolls : Nat

/-- The zero-initialised globals over zeroed devices. -/
def powerOn : Console where
  terminalRow := 0
  terminalColumn := 0
  terminalColor := 0
  terminalBuffer := fun _ => 0
  crtcIndex := 0
  crtcRegister := fun _ => 0
  com1 := []
  overrun := false
  scrolls := 0

def vgaEntryColor (fg bg : UInt8) : UInt8 := fg ||| (bg <<< 4)

def vgaEntry (uc color : UInt8) : UInt16 := uc.toUInt16 ||| (color.toUInt16 <<< 8)

def entryChar (entry : UInt16) : UInt8 := entry.toUInt8

def entryColor (entry : UInt16) : UInt8 := (entry >>> 8).toUInt8

def outb (t : Console) (port : UInt16) (val : UInt8) : Console :=
  -- the index port selects the CRTC register that the data port writes
  if port = 0x3D4 then { t with crtcIndex := val }
  else if port = 0x3D5 then
    { t with crtcRegister := Function.update t.crtcRegister t.crtcIndex val }
  else if port = 0x3F8 then { t with com1 := t.com1 ++ [val] }
  else t

/-- `terminal_buffer[index] = entry`. -/
def store (t : Console) (index : Nat) (entry : UInt16) : Console :=
  { t with
    terminalBuffer := Function.update t.terminalBuffer index entry
    overrun := t.overrun || decide (vgaHeight * vgaWidth ≤ index) }

def terminalPutentryat (t : Console) (c color : UInt8) (x y : Nat) : Console :=
  store t (y * vgaWidth + x) (vgaEntry c color)

def updateCursor (t : Console) (x y : Nat) : Console :=
  let pos := UInt16.ofNat (y * vgaWidth + x)
  let t := outb t 0x3D4 0x0F
  let t := outb t 0x3D5 (pos &&& 0xFF).toUInt8
  let t := outb t 0x3D4 0x0E
  outb t 0x3D5 ((pos >>> 8) &&& 0xFF).toUInt8

def terminalClear (t : Console) : Console :=
  let t := countUp vgaHeight (fun y t =>
    countUp vgaWidth (fun x t =>
      store t (y * vgaWidth + x) (vgaEntry 0x20 t.terminalColor)) t) t
  updateCursor { t with terminalRow := 0, terminalColumn := 0 } 0 0

def terminalInitialize (t : Console) : Console :=
  terminalClear { t with
    terminalRow := 0
    terminalColumn := 0
    terminalColor := vgaEntryColor 11 0 }

def terminalSetcolor (t : Console) (color : UInt8) : Console :=
  { t with terminalColor := color }

def terminalScroll (t : Console) : Console :=
  let t := countUp (vgaHeight - 1) (fun y t =>
    countUp vgaWidth (fun x t =>
      store t (y * vgaWidth + x) (t.terminalBuffer ((y + 1) * vgaWidth + x))) t) t
  let t := countUp vgaWidth (fun x t =>
    store t ((vgaHeight - 1) * vgaWidth + x) (vgaEntry 0x20 t.terminalColor)) t
  { t with scrolls := t.scrolls + 1 }

/-- The branches of `terminal_putchar` on the character, before the scroll check. -/
def applyChar (t : Console) (c : UInt8) : Console :=
  if c = 0x0A then { t with terminalColumn := 0, terminalRow := t.terminalRow + 1 }
  else if c = 0x0D then { t with terminalColumn := 0 }
  else if c = 0x09 then
    -- `~(4 - 1)` is converted to `size_t` before the conjunction
    let column := (t.terminalColumn + 4) &&& 0xFFFFFFFC
    if column ≥ vgaWidth then
      { t with terminalColumn := 0, terminalRow := t.terminalRow + 1 }
    else { t with terminalColumn := column }
  else if c = 0x08 then
    if t.terminalColumn > 0 then
      let t := { t with terminalColumn := t.terminalColumn - 1 }
      terminalPutentryat t 0x20 t.terminalColor t.terminalColumn t.terminalRow
    else if t.terminalRow > 0 then
      let t := { t with terminalRow := t.terminalRow - 1, terminalColumn := vgaWidth - 1 }
      terminalPutentryat t 0x20 t.terminalColor t.terminalColumn t.terminalRow
    -- at the top left corner a backspace does nothing
    else t
  else
    let t := terminalPutentryat t c t.terminalColor t.terminalColumn t.terminalRow
    let column := t.terminalColumn + 1
    if column = vgaWidth then
      { t with terminalColumn := 0, terminalRow := t.terminalRow + 1 }
    else { t with terminalColumn := column }

/-- The scroll check that `terminal_putchar` ends with. -/
def scrollCheck (t : Console) : Console :=
  if t.terminalRow ≥ vgaHeight then { terminalScroll t with terminalRow := vgaHeight - 1 }
  else t

def terminalPutchar (t : Console) (c : UInt8) : Console :=
  let t := scrollCheck (applyChar (outb t 0x3F8 c) c)
  updateCursor t t.terminalColumn t.terminalRow

def terminalWrite : List UInt8 → Console → Console
  | [], t => t
  | c :: rest, t => terminalWrite rest (terminalPutchar t c)

theorem entry_toNat (uc color : UInt8) :
    (vgaEntry uc color).toNat = color.toNat * 256 + uc.toNat := by
  have low := uc.toNat_lt
  have high := color.toNat_lt
  have shifted : color.toNat <<< 8 = color.toNat * 256 := by rw [Nat.shiftLeft_eq]
  have joined := Nat.shiftLeft_add_eq_or_of_lt (i := 8) low color.toNat
  simp [vgaEntry]
  rw [Nat.mod_eq_of_lt (by omega), Nat.or_comm, ← joined, shifted]

theorem entry_char (uc color : UInt8) : entryChar (vgaEntry uc color) = uc := by
  have low := uc.toNat_lt
  apply UInt8.toNat_inj.mp
  rw [entryChar, UInt16.toNat_toUInt8, entry_toNat]
  omega

theorem entry_color (uc color : UInt8) : entryColor (vgaEntry uc color) = color := by
  have low := uc.toNat_lt
  have high := color.toNat_lt
  apply UInt8.toNat_inj.mp
  rw [entryColor, UInt16.toNat_toUInt8, UInt16.toNat_shiftRight, entry_toNat]
  simp [Nat.shiftRight_eq_div_pow]
  omega

theorem store_in_range (t : Console) (index : Nat) (entry : UInt16)
    (bound : index < vgaHeight * vgaWidth) :
    store t index entry =
      { t with terminalBuffer := Function.update t.terminalBuffer index entry } := by
  have inside : ¬ vgaHeight * vgaWidth ≤ index := by omega
  simp [store, inside]

@[simp] theorem cursor_row (t : Console) (x y : Nat) :
    (updateCursor t x y).terminalRow = t.terminalRow := rfl
@[simp] theorem cursor_column (t : Console) (x y : Nat) :
    (updateCursor t x y).terminalColumn = t.terminalColumn := rfl
@[simp] theorem cursor_color (t : Console) (x y : Nat) :
    (updateCursor t x y).terminalColor = t.terminalColor := rfl
@[simp] theorem cursor_buffer (t : Console) (x y : Nat) :
    (updateCursor t x y).terminalBuffer = t.terminalBuffer := rfl
@[simp] theorem cursor_scrolls (t : Console) (x y : Nat) :
    (updateCursor t x y).scrolls = t.scrolls := rfl

@[simp] theorem putentry_row (t : Console) (c color : UInt8) (x y : Nat) :
    (terminalPutentryat t c color x y).terminalRow = t.terminalRow := rfl
@[simp] theorem putentry_column (t : Console) (c color : UInt8) (x y : Nat) :
    (terminalPutentryat t c color x y).terminalColumn = t.terminalColumn := rfl

/-- A byte `terminal_putchar` has no branch of its own for. -/
def Plain (c : UInt8) : Prop := c ≠ 0x0A ∧ c ≠ 0x0D ∧ c ≠ 0x09 ∧ c ≠ 0x08

/-- Move right to `column`, or to the start of the next row past the edge. -/
def advanceTo (t : Console) (column : Nat) : Console :=
  if vgaWidth ≤ column then { t with terminalColumn := 0, terminalRow := t.terminalRow + 1 }
  else { t with terminalColumn := column }

theorem tab_stop (column : Nat) (fits : column < vgaWidth) :
    (column + 4) &&& 0xFFFFFFFC = (column / 4 + 1) * 4 := by
  have every : ∀ c : Fin 80, (c.val + 4) &&& 0xFFFFFFFC = (c.val / 4 + 1) * 4 := by decide
  exact every ⟨column, fits⟩

theorem apply_tab (t : Console) (fits : t.terminalColumn < vgaWidth) :
    applyChar t 0x09 = advanceTo t ((t.terminalColumn / 4 + 1) * 4) := by
  rw [← tab_stop _ fits]
  rfl

theorem apply_plain (t : Console) (c : UInt8) (plain : Plain c)
    (fits : t.terminalColumn < vgaWidth) :
    applyChar t c = advanceTo
      (terminalPutentryat t c t.terminalColor t.terminalColumn t.terminalRow)
      (t.terminalColumn + 1) := by
  obtain ⟨newline, carriage, tab, back⟩ := plain
  have edge : t.terminalColumn + 1 = vgaWidth ↔ vgaWidth ≤ t.terminalColumn + 1 := by omega
  simp only [applyChar, newline, carriage, tab, back, if_false, putentry_column, edge]
  rfl

-- A loop that stores one cell a pass, its buffer after every pass known.
theorem store_loop (t : Console) (first count : Nat) (entry : Nat → Console → UInt16)
    (cells : Nat → Nat → UInt16) (bound : first + count ≤ vgaHeight * vgaWidth)
    (start : cells 0 = t.terminalBuffer)
    (next : ∀ i, Function.update (cells i) (first + i)
      (entry i { t with terminalBuffer := cells i }) = cells (i + 1)) :
    countUp count (fun i t => store t (first + i) (entry i t)) t =
      { t with terminalBuffer := cells count } := by
  have closed := count_up_closed (fun i => { t with terminalBuffer := cells i }) count
    (fun i t => store t (first + i) (entry i t)) (fun i within => by
      rw [store_in_range _ _ _ (by omega)]
      simp only [next])
  rw [start] at closed
  exact closed

def blankCells (color : UInt8) (first count : Nat) (buffer : Nat → UInt16) : Nat → UInt16 :=
  fun k => if first ≤ k ∧ k < first + count then vgaEntry 0x20 color else buffer k

theorem blank_loop (t : Console) (first count : Nat)
    (bound : first + count ≤ vgaHeight * vgaWidth) :
    countUp count (fun x t => store t (first + x) (vgaEntry 0x20 t.terminalColor)) t =
      { t with terminalBuffer := blankCells t.terminalColor first count t.terminalBuffer } := by
  apply store_loop t first count (fun _ t => vgaEntry 0x20 t.terminalColor)
    (fun done => blankCells t.terminalColor first done t.terminalBuffer) bound
  · funext k
    have empty : ¬ (first ≤ k ∧ k < first + 0) := by omega
    simp only [blankCells, empty, if_false]
  · intro x
    funext k
    simp only [blankCells, Function.update_apply]
    by_cases here : k = first + x
    · simp [here]
    · have same : (first ≤ k ∧ k < first + (x + 1)) ↔ (first ≤ k ∧ k < first + x) := by omega
      simp only [here, same, if_false]

def copiedCells (count : Nat) (buffer : Nat → UInt16) : Nat → UInt16 :=
  fun k => if k < count then buffer (k + vgaWidth) else buffer k

theorem copy_loop (t : Console) (count : Nat)
    (bound : count ≤ vgaHeight * vgaWidth) :
    countUp count (fun k t => store t k (t.terminalBuffer (k + vgaWidth))) t =
      { t with terminalBuffer := copiedCells count t.terminalBuffer } := by
  have loop := store_loop t 0 count (fun k t => t.terminalBuffer (k + vgaWidth))
    (fun done => copiedCells done t.terminalBuffer) (by omega) rfl
  simp only [Nat.zero_add] at loop
  apply loop
  intro index
  funext k
  -- the cell below has not been overwritten yet
  have ahead : ¬ index + vgaWidth < index := by omega
  simp only [copiedCells, Function.update_apply, ahead, if_false]
  by_cases here : k = index
  · simp [here]
  · have same : k < index + 1 ↔ k < index := by omega
    simp only [here, same, if_false]

def scrolledCells (color : UInt8) (buffer : Nat → UInt16) : Nat → UInt16 :=
  blankCells color ((vgaHeight - 1) * vgaWidth) vgaWidth
    (copiedCells ((vgaHeight - 1) * vgaWidth) buffer)

theorem scroll_exact (t : Console) :
    terminalScroll t = { t with
      terminalBuffer := scrolledCells t.terminalColor t.terminalBuffer
      scrolls := t.scrolls + 1 } := by
  have rows (s : Console) : countUp (vgaHeight - 1) (fun y t =>
      countUp vgaWidth (fun x t =>
        store t (y * vgaWidth + x) (t.terminalBuffer ((y + 1) * vgaWidth + x))) t) s =
      countUp ((vgaHeight - 1) * vgaWidth)
        (fun k t => store t k (t.terminalBuffer (k + vgaWidth))) s := by
    rw [← count_up_row_major]
    have below (y x : Nat) : (y + 1) * vgaWidth + x = y * vgaWidth + x + vgaWidth := by
      rw [Nat.succ_mul]; omega
    simp only [below]
  have copied : (vgaHeight - 1) * vgaWidth ≤ vgaHeight * vgaWidth := by decide
  have last : (vgaHeight - 1) * vgaWidth + vgaWidth ≤ vgaHeight * vgaWidth := by decide
  simp only [terminalScroll, rows, copy_loop _ _ copied, blank_loop _ _ _ last, scrolledCells]

theorem clear_exact (t : Console) :
    terminalClear t = updateCursor { t with
      terminalRow := 0
      terminalColumn := 0
      terminalBuffer :=
        blankCells t.terminalColor 0 (vgaHeight * vgaWidth) t.terminalBuffer } 0 0 := by
  have rows : countUp vgaHeight (fun y t => countUp vgaWidth (fun x t =>
      store t (y * vgaWidth + x) (vgaEntry 0x20 t.terminalColor)) t) t =
      countUp (vgaHeight * vgaWidth)
        (fun k t => store t (0 + k) (vgaEntry 0x20 t.terminalColor)) t := by
    simp only [Nat.zero_add]
    exact count_up_row_major vgaHeight vgaWidth
      (fun k t => store t k (vgaEntry 0x20 t.terminalColor)) t
  simp only [terminalClear, rows, blank_loop t 0 (vgaHeight * vgaWidth) (by simp)]

theorem apply_color (t : Console) (c : UInt8) :
    (applyChar t c).terminalColor = t.terminalColor := by
  simp only [applyChar]
  split_ifs <;> rfl

theorem scroll_check_color (t : Console) :
    (scrollCheck t).terminalColor = t.terminalColor := by
  unfold scrollCheck
  split
  · rw [scroll_exact]
  · rfl

theorem putchar_color (t : Console) (c : UInt8) :
    (terminalPutchar t c).terminalColor = t.terminalColor := by
  rw [terminalPutchar, cursor_color, scroll_check_color, apply_color]
  rfl

end NexusOS.VgaConsole
