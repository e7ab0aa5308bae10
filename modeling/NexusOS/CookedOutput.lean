import NexusOS.ConsoleBounds

/-!
The two output routines of `kernel/python/nexus_hal.c`. The cooked one puts a
carriage return before every newline; the newline goes to column 0 by itself,
so on the screen this changes nothing, wherever the text wraps and scrolls.
Only COM1 tells the two apart.
-/

namespace NexusOS.CookedOutput

open VgaConsole EchoScreen ConsoleBounds

/-- Only the raw output returns a length. -/
def mpHalStdoutTxStrn (str : List UInt8) (t : Console) : Console × Nat :=
  (terminalWrite str t, str.length)

def mpHalStdoutTxStrnCooked : List UInt8 → Console → Console
  | [], t => t
  | c :: rest, t =>
      mpHalStdoutTxStrnCooked rest
        (terminalPutchar (if c = 0x0A then terminalPutchar t 0x0D else t) c)

def cook (c : UInt8) : List UInt8 := if c = 0x0A then [0x0D, 0x0A] else [c]

/-- The console with the devices behind its ports in another state. -/
def withPorts (t : Console) (index : UInt8) (register : UInt8 → UInt8) (sent : List UInt8) :
    Console :=
  { t with crtcIndex := index, crtcRegister := register, com1 := sent }

/-- What a character does to the screen itself. -/
def draw (t : Console) (c : UInt8) : Console := scrollCheck (applyChar t c)

section Ports
variable (t : Console) (index : UInt8) (register : UInt8 → UInt8) (sent : List UInt8)

theorem apply_ports (c : UInt8) :
    applyChar (withPorts t index register sent) c =
      withPorts (applyChar t c) index register sent := by
  unfold applyChar
  split
  · rfl
  split
  · rfl
  split
  · dsimp only [withPorts]
    split <;> rfl
  split
  · -- backspace: in the row, at the start of a later row, in the corner
    rcases Nat.eq_zero_or_pos t.terminalColumn with edge | inRow
    · rcases Nat.eq_zero_or_pos t.terminalRow with top | below
      · simp only [withPorts, edge, top, gt_iff_lt, Nat.lt_irrefl, if_false]
      · simp only [withPorts, edge, below, gt_iff_lt, Nat.lt_irrefl, if_false, if_true]
        rfl
    · simp only [withPorts, inRow, gt_iff_lt, if_true]
      rfl
  · by_cases edge : t.terminalColumn + 1 = vgaWidth
    · simp only [withPorts, putentry_column, edge, if_true]
      rfl
    · simp only [withPorts, putentry_column, edge, if_false]
      rfl

theorem scroll_check_ports :
    scrollCheck (withPorts t index register sent) =
      withPorts (scrollCheck t) index register sent := by
  by_cases past : t.terminalRow ≥ vgaHeight
  · have moved : (withPorts t index register sent).terminalRow ≥ vgaHeight := past
    rw [scrollCheck, scrollCheck, if_pos moved, if_pos past, scroll_exact, scroll_exact]
    rfl
  · have moved : ¬ (withPorts t index register sent).terminalRow ≥ vgaHeight := past
    rw [scrollCheck, scrollCheck, if_neg moved, if_neg past]

theorem draw_ports (c : UInt8) :
    draw (withPorts t index register sent) c = withPorts (draw t c) index register sent := by
  rw [draw, apply_ports, scroll_check_ports]
  rfl

end Ports

theorem putchar_draw (t : Console) (c : UInt8) :
    terminalPutchar t c =
      updateCursor (withPorts (draw t c) t.crtcIndex t.crtcRegister (t.com1 ++ [c]))
        (draw t c).terminalColumn (draw t c).terminalRow := by
  have drawn := draw_ports t t.crtcIndex t.crtcRegister (t.com1 ++ [c]) c
  change updateCursor (draw (withPorts t _ _ _) c) (draw (withPorts t _ _ _) c).terminalColumn
    (draw (withPorts t _ _ _) c).terminalRow = _
  rw [drawn]
  rfl

theorem write_sent (str : List UInt8) (t : Console) :
    (terminalWrite str t).com1 = t.com1 ++ str := by
  induction str generalizing t with
  | nil => exact (List.append_nil _).symm
  | cons c rest ih =>
      have sent : (terminalPutchar t c).com1 = t.com1 ++ [c] := by
        rw [putchar_draw]
        rfl
      rw [terminalWrite, ih, sent, List.append_assoc, List.singleton_append]

theorem cursor_com1 (t : Console) (sent : List UInt8) (x y : Nat) :
    updateCursor { t with com1 := sent } x y = { updateCursor t x y with com1 := sent } := rfl

theorem putchar_com1 (t : Console) (sent : List UInt8) (c : UInt8) :
    terminalPutchar { t with com1 := sent } c =
      { terminalPutchar t c with com1 := sent ++ [c] } := by
  have drawn : draw { t with com1 := sent } c = { draw t c with com1 := sent } := by
    have same := draw_ports t t.crtcIndex t.crtcRegister t.com1 c
    have moved := draw_ports t t.crtcIndex t.crtcRegister sent c
    change draw t c = _ at same
    change draw { t with com1 := sent } c = _ at moved
    rw [moved, same]
    rfl
  rw [putchar_draw, putchar_draw t c, drawn]
  exact cursor_com1 (withPorts (draw t c) t.crtcIndex t.crtcRegister (t.com1 ++ [c]))
    (sent ++ [c]) _ _

theorem cursor_overwrites (t u : Console) (same : u.crtcRegister = t.crtcRegister)
    (index : UInt8) (sent : List UInt8) (x y x' y' : Nat) :
    updateCursor (withPorts t index (updateCursor u x y).crtcRegister sent) x' y' =
      { updateCursor t x' y' with com1 := sent } := by
  have registers (a b c d : UInt8) :
      Function.update (Function.update (Function.update (Function.update t.crtcRegister 0x0F a)
        0x0E b) 0x0F c) 0x0E d =
        Function.update (Function.update t.crtcRegister 0x0F c) 0x0E d := by
    have apart : (0x0E : UInt8) ≠ 0x0F := by decide
    rw [Function.update_comm apart, Function.update_idem, Function.update_idem]
  simp only [updateCursor, outb, withPorts, same]
  exact congrArg (fun register => { t with
    crtcIndex := 0x0E, crtcRegister := register, com1 := sent }) (registers _ _ _ _)

theorem newline_cooked {t : Console} (on : OnScreen t) :
    terminalPutchar (terminalPutchar t 0x0D) 0x0A =
      { terminalPutchar t 0x0A with com1 := t.com1 ++ [0x0D, 0x0A] } := by
  -- on the screen a carriage return never scrolls
  have returned : draw t 0x0D = { t with terminalColumn := 0 } := if_neg (Nat.not_le.mpr on.1)
  have before : terminalPutchar t 0x0D =
      withPorts { t with terminalColumn := 0 } (terminalPutchar t 0x0D).crtcIndex
        (terminalPutchar t 0x0D).crtcRegister (t.com1 ++ [0x0D]) := by
    rw [putchar_draw, returned]
    rfl
  have newline : draw (terminalPutchar t 0x0D) 0x0A =
      withPorts (draw t 0x0A) (terminalPutchar t 0x0D).crtcIndex
        (terminalPutchar t 0x0D).crtcRegister (t.com1 ++ [0x0D]) := by
    rw [before]
    exact draw_ports { t with terminalColumn := 0 } _ _ _ 0x0A
  have registers := congrArg Console.crtcRegister (putchar_draw t 0x0D)
  have sent : (terminalPutchar t 0x0D).com1 ++ [0x0A] = t.com1 ++ [0x0D, 0x0A] := by
    rw [before]
    exact List.append_assoc _ _ _
  rw [putchar_draw, newline, sent, putchar_draw t 0x0A, registers]
  exact cursor_overwrites (withPorts (draw t 0x0A) t.crtcIndex t.crtcRegister _) _ rfl _ _ _ _ _ _

theorem putchar_on_screen {t : Console} (on : OnScreen t) (c : UInt8) :
    OnScreen (terminalPutchar t c) := by
  have drawn := @char_drawn t.overrun (outb t 0x3F8 c) on rfl c
  rw [terminalPutchar, on_screen_cursor]
  exact (scroll_check_tracked drawn).1

-- One round of the cooked loop is one character of the raw one, but for COM1.
theorem round_cooked {t : Console} (on : OnScreen t) (sent : List UInt8) (c : UInt8) :
    terminalPutchar
        (if c = 0x0A then terminalPutchar { t with com1 := sent } 0x0D
          else { t with com1 := sent }) c =
      { terminalPutchar t c with com1 := sent ++ cook c } := by
  by_cases newline : c = 0x0A
  · subst newline
    have cooked := @newline_cooked { t with com1 := sent } on
    rw [if_pos rfl, cooked, putchar_com1]
    rfl
  · rw [if_neg newline, putchar_com1, cook, if_neg newline]

theorem cooked_from (str : List UInt8) {t : Console} (on : OnScreen t) (sent : List UInt8) :
    mpHalStdoutTxStrnCooked str { t with com1 := sent } =
      { terminalWrite str t with com1 := sent ++ str.flatMap cook } := by
  induction str generalizing t sent with
  | nil => rw [List.flatMap_nil, List.append_nil]; rfl
  | cons c rest ih =>
      rw [mpHalStdoutTxStrnCooked, round_cooked on, ih (putchar_on_screen on c),
        List.flatMap_cons, List.append_assoc]
      rfl

theorem cooked_draws_same (str : List UInt8) {t : Console} (on : OnScreen t) :
    mpHalStdoutTxStrnCooked str t =
        { (mpHalStdoutTxStrn str t).1 with com1 := t.com1 ++ str.flatMap cook } ∧
      (mpHalStdoutTxStrn str t).1.com1 = t.com1 ++ str :=
  ⟨cooked_from str on t.com1, write_sent str t⟩

theorem corner_newline_drawn_same :
    OnScreen cornerConsole ∧
      mpHalStdoutTxStrnCooked [0x61, 0x0A] cornerConsole =
        { (mpHalStdoutTxStrn [0x61, 0x0A] cornerConsole).1 with
          com1 := cornerConsole.com1 ++ [0x61, 0x0A].flatMap cook } ∧
      (mpHalStdoutTxStrn [0x61, 0x0A] cornerConsole).1.com1 =
        cornerConsole.com1 ++ [0x61, 0x0A] := by
  have on : OnScreen cornerConsole := ⟨by decide, by decide⟩
  exact ⟨on, cooked_draws_same _ on⟩

end NexusOS.CookedOutput
