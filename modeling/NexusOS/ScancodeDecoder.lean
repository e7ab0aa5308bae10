import Mathlib.Data.UInt

/-!
`keyboard_handler` of `kernel/drivers/keyboard.c`: the modifiers, the pending
0xE0 prefix and the two character tables. A run of the handler is given by the
keyboard state it leaves and the bytes it hands to `kbd_buffer_put`, in order.
Key events are those of scan code set 1, as a keyboard sends them whole.
-/

namespace NexusOS.ScancodeDecoder

def ascii (chars : List Char) : List UInt8 := chars.map Char.toUInt8

/-- The entries after the last one listed are zero. -/
def kbdUs : List UInt8 :=
  [0, 27] ++ ascii ['1', '2', '3', '4', '5', '6', '7', '8', '9', '0', '-', '='] ++ [0x08, 0x09] ++
  ascii ['q', 'w', 'e', 'r', 't', 'y', 'u', 'i', 'o', 'p', '[', ']'] ++ [0x0A, 0] ++
  ascii ['a', 's', 'd', 'f', 'g', 'h', 'j', 'k', 'l', ';'] ++ [0x27, 0x60, 0, 0x5C] ++
  ascii ['z', 'x', 'c', 'v', 'b', 'n', 'm', ',', '.', '/'] ++ [0, 0x2A, 0, 0x20] ++
  -- Caps Lock, F1 to F10, Num Lock, Scroll Lock, Home, Up, Page Up
  List.replicate 16 0 ++ [0x2D, 0, 0, 0, 0x2B]

def kbdUsShift : List UInt8 :=
  [0, 27] ++ ascii ['!', '@', '#', '$', '%', '^', '&', '*', '(', ')', '_', '+'] ++ [0x08, 0x09] ++
  ascii ['Q', 'W', 'E', 'R', 'T', 'Y', 'U', 'I', 'O', 'P'] ++ [0x7B, 0x7D, 0x0A, 0] ++
  ascii ['A', 'S', 'D', 'F', 'G', 'H', 'J', 'K', 'L', ':'] ++ [0x22, 0x7E, 0, 0x7C] ++
  ascii ['Z', 'X', 'C', 'V', 'B', 'N', 'M', '<', '>', '?'] ++ [0, 0x2A, 0, 0x20] ++
  List.replicate 16 0 ++ [0x2D, 0, 0, 0, 0x2B]

def lookup (table : List UInt8) (scancode : UInt8) : UInt8 := table.getD scancode.toNat 0

structure Keyboard where
  shiftPressed : Bool
  capsLock : Bool
  ctrlPressed : Bool
  extScancode : Bool

def powerOn : Keyboard := ⟨false, false, false, false⟩

def csi (final : UInt8) : List UInt8 := [0x1B, 0x5B, final]

/-- The `switch` on a make code after the prefix. -/
def extendedKey (scancode : UInt8) : List UInt8 :=
  if scancode = 0x48 then csi 0x41
  else if scancode = 0x50 then csi 0x42
  else if scancode = 0x4D then csi 0x43
  else if scancode = 0x4B then csi 0x44
  else if scancode = 0x47 then csi 0x48
  else if scancode = 0x4F then csi 0x46
  else if scancode = 0x53 then [0x7F]
  else []

def release (k : Keyboard) (released : UInt8) : Keyboard :=
  if released = 0x2A ∨ released = 0x36 then { k with shiftPressed := false }
  else if released = 0x1D then { k with ctrlPressed := false }
  else k

/-- The character a make code that is no modifier and no arrow stands for. -/
def character (k : Keyboard) (scancode : UInt8) : List UInt8 :=
  let base := lookup kbdUs scancode
  let lower := 0x61 ≤ base ∧ base ≤ 0x7A
  let c :=
    if lower then if (k.shiftPressed ^^ k.capsLock) then base - 0x61 + 0x41 else base
    else if k.shiftPressed then lookup kbdUsShift scancode else base
  if base = 0 then []
  else if k.ctrlPressed ∧ lower then [base - 0x61 + 1]
  else if k.ctrlPressed ∧ (0x41 ≤ base ∧ base ≤ 0x5A) then [base - 0x41 + 1]
  else if c ≠ 0 then [c] else []

def keyboardHandler (k : Keyboard) (scancode : UInt8) : Keyboard × List UInt8 :=
  if scancode = 0xE0 then ({ k with extScancode := true }, [])
  else if k.extScancode then
    ({ k with extScancode := false }, if scancode &&& 0x80 = 0 then extendedKey scancode else [])
  else if scancode &&& 0x80 ≠ 0 then (release k (scancode &&& 0x7F), [])
  else if scancode = 0x2A ∨ scancode = 0x36 then ({ k with shiftPressed := true }, [])
  else if scancode = 0x1D then ({ k with ctrlPressed := true }, [])
  else if scancode = 0x3A then ({ k with capsLock := !k.capsLock }, [])
  -- the keypad sends the arrows' codes without the prefix
  else if scancode = 0x48 then (k, csi 0x41)
  else if scancode = 0x50 then (k, csi 0x42)
  else if scancode = 0x4D then (k, csi 0x43)
  else if scancode = 0x4B then (k, csi 0x44)
  else if scancode < 128 then (k, character k scancode)
  else (k, [])

def afterCodes (k : Keyboard) (codes : List UInt8) : Keyboard :=
  codes.foldl (fun k code => (keyboardHandler k code).1) k

def emitted : Keyboard → List UInt8 → List UInt8
  | _, [] => []
  | k, code :: rest => (keyboardHandler k code).2 ++ emitted (keyboardHandler k code).1 rest

/-- A make code whose break code is not read as a prefix. -/
abbrev Key := { code : UInt8 // code < 0x80 ∧ code ≠ 0x60 ∧ code ≠ 0x61 }

inductive KeyEvent where
  | press (key : Key)
  | release (key : Key)
  | pressExtended (key : Key)
  | releaseExtended (key : Key)
  | pause

def KeyEvent.codes : KeyEvent → List UInt8
  | .press key => [key.val]
  | .release key => [key.val + 0x80]
  | .pressExtended key => [0xE0, key.val]
  | .releaseExtended key => [0xE0, key.val + 0x80]
  | .pause => [0xE1, 0x1D, 0x45, 0xE1, 0x9D, 0xC5]

def enterKey : Key := ⟨0x1C, by decide⟩
def escKey : Key := ⟨0x01, by decide⟩

theorem make_not_prefix (key : Key) : key.val ≠ 0xE0 := by
  rcases key with ⟨code, small, _⟩
  rintro rfl
  exact absurd small (by decide)

theorem break_not_prefix (key : Key) : key.val + 0x80 ≠ 0xE0 := by
  rcases key with ⟨code, small, other, _⟩
  intro same
  have : code = 0x60 := by
    rw [← UInt8.add_sub_cancel code 0x80, same]
    decide
  exact other this

theorem released_keeps_flag (k : Keyboard) (released : UInt8) :
    (release k released).extScancode = k.extScancode := by
  unfold release
  split_ifs <;> rfl

theorem flag_branch {c : Prop} [Decidable c] {flag : Bool} {yes no : Keyboard × List UInt8}
    (left : yes.1.extScancode = flag) (right : no.1.extScancode = flag) :
    (if c then yes else no).1.extScancode = flag := by
  split
  · exact left
  · exact right

-- The prefix is pending after a code exactly if the code was the prefix.
theorem prefix_pending_iff (k : Keyboard) (code : UInt8) :
    (keyboardHandler k code).1.extScancode = true ↔ code = 0xE0 := by
  unfold keyboardHandler
  by_cases isPrefix : code = 0xE0
  · rw [if_pos isPrefix]
    exact iff_of_true rfl isPrefix
  rw [if_neg isPrefix]
  by_cases pending : k.extScancode = true
  · rw [if_pos pending]
    exact iff_of_false Bool.false_ne_true isPrefix
  rw [if_neg pending]
  refine iff_of_false ?_ isPrefix
  have plain : k.extScancode = false := Bool.eq_false_iff.mpr pending
  apply Bool.eq_false_iff.mp
  -- no other branch touches the flag
  apply flag_branch ((released_keeps_flag k _).trans plain)
  repeat apply flag_branch plain
  exact plain

theorem emitted_append (k : Keyboard) (codes more : List UInt8) :
    emitted k (codes ++ more) = emitted k codes ++ emitted (afterCodes k codes) more := by
  induction codes generalizing k with
  | nil => rfl
  | cons code rest ih =>
      rw [List.cons_append, emitted, emitted, ih, List.append_assoc]
      rfl

theorem after_append (k : Keyboard) (codes more : List UInt8) :
    afterCodes k (codes ++ more) = afterCodes (afterCodes k codes) more :=
  List.foldl_append

theorem event_ends_plain (event : KeyEvent) :
    ∃ first last, event.codes = first ++ [last] ∧ last ≠ 0xE0 := by
  cases event with
  | press key => exact ⟨[], _, rfl, make_not_prefix key⟩
  | release key => exact ⟨[], _, rfl, break_not_prefix key⟩
  | pressExtended key => exact ⟨[0xE0], _, rfl, make_not_prefix key⟩
  | releaseExtended key => exact ⟨[0xE0], _, rfl, break_not_prefix key⟩
  | pause => exact ⟨[0xE1, 0x1D, 0x45, 0xE1, 0x9D], 0xC5, rfl, by decide⟩

theorem events_leave_no_prefix (events : List KeyEvent) (k : Keyboard)
    (plain : k.extScancode = false) :
    (afterCodes k (events.flatMap KeyEvent.codes)).extScancode = false := by
  induction events generalizing k with
  | nil => exact plain
  | cons event rest ih =>
      rw [List.flatMap_cons, after_append]
      apply ih
      -- the flag only depends on the last code of the event
      rcases event_ends_plain event with ⟨first, last, split, other⟩
      rw [split, after_append]
      exact Bool.eq_false_iff.mpr (mt (prefix_pending_iff _ last).mp other)

theorem enter_puts_newline (k : Keyboard) (plain : k.extScancode = false) :
    (keyboardHandler k enterKey.val).2 = [0x0A] := by
  rcases k with ⟨shift, caps, ctrl, ext⟩
  cases plain
  cases shift <;> cases caps <;> cases ctrl <;> rfl

theorem enter_emitted (events : List KeyEvent) (later : List UInt8) :
    ∃ k, emitted powerOn (events.flatMap KeyEvent.codes ++ enterKey.val :: later) =
      emitted powerOn (events.flatMap KeyEvent.codes) ++ 0x0A :: emitted k later := by
  have plain := events_leave_no_prefix events powerOn rfl
  rw [emitted_append, emitted, enter_puts_newline _ plain]
  exact ⟨_, rfl⟩

end NexusOS.ScancodeDecoder
