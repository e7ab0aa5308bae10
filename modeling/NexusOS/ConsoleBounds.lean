import NexusOS.EchoScreen

/-!
The whole interface of `kernel/drivers/vga.c`, called in any order after
`terminal_initialize`: the cursor stays on the screen, no store leaves the 25x80
buffer, and the hardware cursor is where the next character goes. Inside
`terminal_putchar` the row may be one too many until the scroll check.
-/

namespace NexusOS.ConsoleBounds

open VgaConsole EchoScreen

/-- The string ends at its first NUL. -/
def terminalWritestring (data : List UInt8) (t : Console) : Console :=
  terminalWrite (data.takeWhile (· ≠ 0)) t

inductive Op where
  | clear
  | setcolor (color : UInt8)
  | putchar (c : UInt8)
  | write (data : List UInt8)
  | writestring (data : List UInt8)

def apply (t : Console) : Op → Console
  | .clear => terminalClear t
  | .setcolor color => terminalSetcolor t color
  | .putchar c => terminalPutchar t c
  | .write data => terminalWrite data t
  | .writestring data => terminalWritestring data t

def runOps : List Op → Console → Console
  | [], t => t
  | op :: rest, t => runOps rest (apply t op)

/-- What the CRTC was last told: the high byte is in register 0x0E, the low byte in 0x0F. -/
def cursorAddress (t : Console) : Nat :=
  (t.crtcRegister 0x0E).toNat * 256 + (t.crtcRegister 0x0F).toNat

/-- The state between the operations; `overran` is what `overrun` was at the start. -/
structure Tracked (overran : Bool) (t : Console) : Prop where
  on : OnScreen t
  stores : t.overrun = overran
  cursor : cursorAddress t = position t

/-- The state before the scroll check. -/
structure Drawn (overran : Bool) (t : Console) : Prop where
  row : t.terminalRow ≤ vgaHeight
  column : t.terminalColumn < vgaWidth
  stores : t.overrun = overran

variable {overran : Bool} {t : Console}

theorem cursor_programmed (t : Console) (x y : Nat) (fits : y * vgaWidth + x < 65536) :
    cursorAddress (updateCursor t x y) = y * vgaWidth + x := by
  have pos : (UInt16.ofNat (y * vgaWidth + x)).toNat = y * vgaWidth + x :=
    UInt16.toNat_ofNat_of_lt' fits
  have low : ((updateCursor t x y).crtcRegister 0x0F).toNat = (y * vgaWidth + x) % 256 := by
    change (UInt16.ofNat (y * vgaWidth + x) &&& 0xFF).toUInt8.toNat = _
    rw [UInt16.toNat_toUInt8, UInt16.toNat_and, pos]
    change ((y * vgaWidth + x) &&& (2 ^ 8 - 1)) % 2 ^ 8 = _
    rw [Nat.and_two_pow_sub_one_eq_mod, Nat.mod_mod]
  have high : ((updateCursor t x y).crtcRegister 0x0E).toNat = (y * vgaWidth + x) / 256 := by
    change ((UInt16.ofNat (y * vgaWidth + x) >>> 8) &&& 0xFF).toUInt8.toNat = _
    rw [UInt16.toNat_toUInt8, UInt16.toNat_and, UInt16.toNat_shiftRight, pos]
    change (((y * vgaWidth + x) >>> 8) &&& (2 ^ 8 - 1)) % 2 ^ 8 = _
    rw [Nat.and_two_pow_sub_one_eq_mod, Nat.mod_mod, Nat.shiftRight_eq_div_pow]
    exact Nat.mod_eq_of_lt (by omega)
  rw [cursorAddress, low, high]
  omega

theorem advance_drawn (row : t.terminalRow < vgaHeight) (stores : t.overrun = overran)
    (column : Nat) : Drawn overran (advanceTo t column) := by
  unfold advanceTo
  split
  · exact ⟨row, (by decide : 0 < vgaWidth), stores⟩
  · rename_i narrow
    exact ⟨Nat.le_of_lt row, Nat.lt_of_not_le narrow, stores⟩

theorem putentry_stores (on : OnScreen t) (c color : UInt8) :
    (terminalPutentryat t c color t.terminalColumn t.terminalRow).overrun = t.overrun := by
  have inside : t.terminalRow * vgaWidth + t.terminalColumn < vgaHeight * vgaWidth :=
    position_lt on
  rw [terminalPutentryat, store_in_range _ _ _ inside]

theorem back_drawn (on : OnScreen t) (stores : t.overrun = overran) :
    Drawn overran (applyChar t 0x08) := by
  rcases Nat.eq_zero_or_pos (position t) with corner | inside
  · have row : t.terminalRow = 0 := by simp only [position, vgaWidth] at corner; omega
    have column : t.terminalColumn = 0 := by simp only [position, vgaWidth] at corner; omega
    have still : applyChar t 0x08 = t := by simp [applyChar, row, column]
    rw [still]
    exact ⟨Nat.le_of_lt on.1, on.2, stores⟩
  · have back := (stepped_back_position on inside).1
    have kept : (steppedBack t).overrun = t.overrun := by
      unfold steppedBack
      split <;> rfl
    rw [apply_back inside]
    exact ⟨Nat.le_of_lt back.1, back.2, (putentry_stores back _ _).trans (kept.trans stores)⟩

theorem char_drawn (on : OnScreen t) (stores : t.overrun = overran) (c : UInt8) :
    Drawn overran (applyChar t c) := by
  by_cases newline : c = 0x0A
  · subst newline
    exact ⟨on.1, (by decide : 0 < vgaWidth), stores⟩
  by_cases carriage : c = 0x0D
  · subst carriage
    exact ⟨Nat.le_of_lt on.1, (by decide : 0 < vgaWidth), stores⟩
  by_cases tab : c = 0x09
  · subst tab
    rw [apply_tab t on.2]
    exact advance_drawn on.1 stores _
  by_cases back : c = 0x08
  · subst back
    exact back_drawn on stores
  · rw [apply_plain t c ⟨newline, carriage, tab, back⟩ on.2]
    have kept := (putentry_stores on c t.terminalColor).trans stores
    apply advance_drawn _ kept
    exact on.1

theorem scroll_check_tracked (drawn : Drawn overran t) :
    OnScreen (scrollCheck t) ∧ (scrollCheck t).overrun = overran := by
  unfold scrollCheck
  split
  · rw [scroll_exact]
    exact ⟨⟨(by decide : vgaHeight - 1 < vgaHeight), drawn.column⟩, drawn.stores⟩
  · rename_i above
    exact ⟨⟨Nat.lt_of_not_le above, drawn.column⟩, drawn.stores⟩

theorem cursor_tracked (on : OnScreen t) (stores : t.overrun = overran) :
    Tracked overran (updateCursor t t.terminalColumn t.terminalRow) := by
  refine ⟨on, stores, cursor_programmed _ _ _ ?_⟩
  exact Nat.lt_trans (position_lt on) (by decide)

theorem putchar_tracked (tracked : Tracked overran t) (c : UInt8) :
    Tracked overran (terminalPutchar t c) := by
  have drawn := @char_drawn overran (outb t 0x3F8 c) tracked.on tracked.stores c
  rcases scroll_check_tracked drawn with ⟨on, stores⟩
  exact cursor_tracked on stores

theorem write_tracked (data : List UInt8) (tracked : Tracked overran t) :
    Tracked overran (terminalWrite data t) := by
  induction data generalizing t with
  | nil => exact tracked
  | cons c rest ih => exact ih (putchar_tracked tracked c)

theorem clear_tracked (stores : t.overrun = overran) : Tracked overran (terminalClear t) := by
  have home : 0 < vgaHeight ∧ 0 < vgaWidth := by decide
  -- a clear puts the cursor on the screen wherever it was
  rw [clear_exact]
  exact @cursor_tracked overran { t with
    terminalRow := 0
    terminalColumn := 0
    terminalBuffer := blankCells t.terminalColor 0 (vgaHeight * vgaWidth) t.terminalBuffer }
    home stores

theorem apply_tracked (tracked : Tracked overran t) (op : Op) : Tracked overran (apply t op) := by
  cases op with
  | clear => exact clear_tracked tracked.stores
  | setcolor color => exact ⟨tracked.on, tracked.stores, tracked.cursor⟩
  | putchar c => exact putchar_tracked tracked c
  | write data => exact write_tracked data tracked
  | writestring data => exact write_tracked _ tracked

theorem run_tracked (ops : List Op) (tracked : Tracked overran t) :
    Tracked overran (runOps ops t) := by
  induction ops generalizing t with
  | nil => exact tracked
  | cons op rest ih => exact ih (apply_tracked tracked op)

/-- After any number of operations the cursor is on the screen and programmed
into the CRTC, and the last of them, like every one before, stored in bounds. -/
theorem console_stays_in_bounds (t : Console) (ops : List Op) :
    (runOps ops (terminalInitialize t)).terminalRow < 25 ∧
      (runOps ops (terminalInitialize t)).terminalColumn < 80 ∧
      (runOps ops (terminalInitialize t)).overrun = t.overrun ∧
      cursorAddress (runOps ops (terminalInitialize t)) =
        80 * (runOps ops (terminalInitialize t)).terminalRow +
          (runOps ops (terminalInitialize t)).terminalColumn := by
  have tracked : Tracked t.overrun (terminalInitialize t) := clear_tracked rfl
  rcases run_tracked ops tracked with ⟨⟨row, column⟩, stores, cursor⟩
  refine ⟨row, column, stores, ?_⟩
  rw [cursor, position, Nat.mul_comm, vgaWidth]

end NexusOS.ConsoleBounds
