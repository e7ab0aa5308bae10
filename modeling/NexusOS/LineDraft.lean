import NexusOS.LineEditor
import Mathlib.Data.List.Induction

/-!
What the line editor is for, without buffers: a draft is a text being edited,
an escape sequence in progress and a place in the past. `Represents` relates an
editor to its draft; one byte, and then a whole call, of `nexus_readline` does
to the buffers what the draft says. The relation also keeps the byte
`line[255]`, which no path of the loop writes, and carries any relation between
the console and the text that the echo of single characters keeps.
-/

namespace NexusOS.LineDraft

open VgaConsole LineEditor

abbrev Text := List UInt8

def Printable (c : UInt8) : Prop := 0x20 ≤ c ∧ c ≤ 0x7E

instance (c : UInt8) : Decidable (Printable c) := inferInstanceAs (Decidable (_ ∧ _))

/-- Ten texts, one a slot, and how many of them were ever stored. -/
structure Past where
  text : Slot → Text
  count : Nat

structure Draft where
  text : Text
  esc : EscState
  slot : Slot

def recallDraft (past : Past) (slot : Slot) : Draft := ⟨past.text slot, .text, slot⟩

/-- `none` is Enter: the text is submitted. -/
def edit (past : Past) (d : Draft) (c : UInt8) : Option Draft :=
  match d.esc with
  | .text =>
      if c = 0x1B then some { d with esc := .escape }
      else if c = 0x0A ∨ c = 0x0D then none
      else if c = 0x08 ∨ c = 0x7F then some { d with text := d.text.dropLast }
      else if Printable c then some { d with text := d.text ++ [c] }
      else some d
  | .escape => some { d with esc := if c = 0x5B then .bracket else .text }
  | .bracket =>
      if c = 0x41 then
        if past.count > 0 then some (recallDraft past (slotBefore d.slot))
        else some { d with esc := .text }
      else if c = 0x42 then
        if past.count > 0 then some (recallDraft past (slotAfter d.slot))
        else some { d with text := [], esc := .text }
      else some { d with esc := .text }

inductive DraftEnd where
  | waiting (d : Draft)
  | entered (d : Draft) (rest : List UInt8)
  | full (d : Draft) (rest : List UInt8)

/-- The text a call may hold when it asks for another byte is shorter than this. -/
def textLimit : Nat := lineSize - 1

def editLoop (past : Past) : List UInt8 → Draft → DraftEnd
  | [], d => if d.text.length < textLimit then .waiting d else .full d []
  | c :: rest, d =>
      if d.text.length < textLimit then
        match edit past d c with
        | some d => editLoop past rest d
        | none => .entered d rest
      else .full d (c :: rest)

def CString (buffer : Buffer) (s : Text) : Prop :=
  (∀ c ∈ s, c ≠ 0) ∧ ∃ tail, buffer.toList = s ++ 0 :: tail

def IsText (buffer : Buffer) (s : Text) : Prop :=
  (∀ c ∈ s, Printable c) ∧ ∃ tail, buffer.toList = s ++ 0 :: tail

def Holds (h : History) (past : Past) : Prop :=
  h.historyCount = past.count ∧ ∀ slot, IsText (h.cmdHistory slot) (past.text slot)

/-- A relation between the console and the text kept by echoing one character
and by erasing one. -/
structure Mirrors (screen : Console → Text → Prop) : Prop where
  put : ∀ t s c, Printable c → s.length < textLimit → screen t s →
    screen (terminalPutchar t c) (s ++ [c])
  back : ∀ t s c, screen t (s ++ [c]) → screen (terminalPutchar t 0x08) s

/-- The console left out of account. -/
def unseen : Console → Text → Prop := fun _ _ => True

theorem unseen_mirrors : Mirrors unseen :=
  ⟨fun _ _ _ _ _ _ => trivial, fun _ _ _ _ => trivial⟩

structure Represents (screen : Console → Text → Prop) (last : UInt8) (e : Editor) (d : Draft) :
    Prop where
  text : e.line.toList.take e.i = d.text
  length : e.i = d.text.length
  esc : e.escState = d.esc
  slot : e.hPtr = d.slot
  printable : ∀ c ∈ d.text, Printable c
  fits : d.text.length ≤ textLimit
  last : e.line.toList[textLimit]? = some last
  screen : screen e.console d.text

theorem printable_nonzero {c : UInt8} (visible : Printable c) : c ≠ 0 := by
  intro zero
  subst zero
  exact absurd visible.1 (by decide)

theorem text_nonzero {s : Text} (printable : ∀ c ∈ s, Printable c) : ∀ c ∈ s, c ≠ 0 :=
  fun c member => printable_nonzero (printable c member)

theorem text_length_lt {buffer : Buffer} {s : Text} (holds : IsText buffer s) :
    s.length < lineSize := by
  obtain ⟨_, tail, split⟩ := holds
  have size : buffer.toList.length = lineSize := by simp
  rw [split, List.length_append, List.length_cons] at size
  omega

theorem text_cstring {buffer : Buffer} {s : Text} (holds : IsText buffer s) : CString buffer s :=
  ⟨text_nonzero holds.1, holds.2⟩

theorem cstring_exact {buffer : Buffer} {s : Text} (holds : CString buffer s) :
    buffer.toList.takeWhile (· ≠ 0) = s := by
  obtain ⟨nonzero, tail, split⟩ := holds
  have kept : ∀ c ∈ s, decide (c ≠ 0) = true := by simpa using nonzero
  rw [split, List.takeWhile_append_of_pos kept]
  simp

theorem cstring_unique {buffer : Buffer} {s t : Text} (left : CString buffer s)
    (right : CString buffer t) : s = t := by
  rw [← cstring_exact left, ← cstring_exact right]

theorem store_inside {size : Nat} (array : Vector UInt8 size) (i : Nat) (c : UInt8)
    (inside : i < size) : storeAt array i c = some (array.set i c) := by
  simp [storeAt, inside]

theorem take_set_self {α : Type} (l : List α) (i : Nat) (c : α) (inside : i < l.length) :
    (l.set i c).take (i + 1) = l.take i ++ [c] := by
  induction l generalizing i with
  | nil => exact absurd inside (Nat.not_lt_zero i)
  | cons head tail ih =>
      cases i with
      | zero => rfl
      | succ i => simpa using ih i (Nat.lt_of_succ_lt_succ inside)

theorem erase_mirrors {screen : Console → Text → Prop} (mirrors : Mirrors screen) (s : Text)
    (t : Console) (shown : screen t s) : screen (eraseCells s.length t) [] := by
  induction s using List.reverseRecOn generalizing t with
  | nil => exact shown
  | append_singleton s c ih =>
      rw [List.length_append, List.length_singleton, eraseCells]
      exact ih _ (mirrors.back t s c shown)

section Steps
variable {screen : Console → Text → Prop} {last : UInt8} {e : Editor} {d : Draft}

theorem represents_put (mirrors : Mirrors screen) (rep : Represents screen last e d)
    (c : UInt8) (visible : Printable c) (room : d.text.length < textLimit) :
    ∃ e', put e c = some e' ∧ Represents screen last e' { d with text := d.text ++ [c] } := by
  have length := rep.length
  have inside : e.i < lineSize := by
    simp only [textLimit] at room
    omega
  refine ⟨_, by rw [put, store_inside _ _ _ inside]; rfl, ?_⟩
  constructor
  · simp only [Vector.toList_set]
    rw [take_set_self _ _ _ (by simpa using inside), rep.text]
  · simp [length]
  · exact rep.esc
  · exact rep.slot
  · intro b member
    rcases List.mem_append.mp member with old | new
    · exact rep.printable b old
    · exact List.mem_singleton.mp new ▸ visible
  · rw [List.length_append, List.length_singleton]
    exact room
  -- a write below the bound leaves the last byte alone
  · have elsewhere : e.i ≠ textLimit := by omega
    simp only [Vector.toList_set]
    rw [List.getElem?_set_ne elsewhere]
    exact rep.last
  · exact mirrors.put e.console d.text c visible room rep.screen

theorem represents_erase (mirrors : Mirrors screen) (rep : Represents screen last e d) :
    Represents screen last (eraseLine e) { d with text := [] } := by
  have erased := erase_mirrors mirrors d.text e.console rep.screen
  rw [← rep.length] at erased
  exact ⟨rfl, rfl, rep.esc, rep.slot, by simp, by simp, rep.last, erased⟩

theorem represents_backspace (mirrors : Mirrors screen) (rep : Represents screen last e d)
    (nonempty : d.text ≠ []) :
    Represents screen last { e with i := e.i - 1, console := terminalPutchar e.console 0x08 }
      { d with text := d.text.dropLast } := by
  have fits := rep.fits
  constructor
  · change e.line.toList.take (e.i - 1) = d.text.dropLast
    have within : e.i < e.line.toList.length := by
      rw [Vector.length_toList, rep.length]
      simp only [textLimit, lineSize] at *
      omega
    rw [← rep.text, List.dropLast_take within]
  · simp [rep.length]
  · exact rep.esc
  · exact rep.slot
  · exact fun c member => rep.printable c (List.dropLast_subset _ member)
  · simp only [List.length_dropLast]
    omega
  · exact rep.last
  · have shown := rep.screen
    rw [← List.dropLast_concat_getLast nonempty] at shown
    exact mirrors.back e.console d.text.dropLast _ shown

theorem represents_recall {h : History} {past : Past} (mirrors : Mirrors screen)
    (rep : Represents screen last e d) (holds : Holds h past) (slot : Slot) :
    ∃ e', recallRow h slot (eraseLine e) = some e' ∧
      Represents screen last e' (recallDraft past slot) := by
  have row := holds.2 slot
  have short := text_length_lt row
  obtain ⟨printable, tail, split⟩ := row
  have erased : Represents screen last { eraseLine e with hPtr := slot, escState := .text }
      ⟨[], .text, slot⟩ :=
    ⟨rfl, rfl, rfl, rfl, by simp, by simp, rep.last, (represents_erase mirrors rep).screen⟩
  rw [recallRow, split]
  apply copy_row_run (fun copied e => Represents screen last e ⟨copied, .text, slot⟩) _ _ _
    (text_nonzero printable) erased
  intro copied c rest d whole copiedSo
  apply represents_put mirrors copiedSo c
  · exact printable c (by simp [whole])
  · have := congrArg List.length whole
    simp only [List.length_append, List.length_cons, textLimit, lineSize] at *
    omega

theorem represents_submit (rep : Represents screen last e d) :
    ∃ e', submit e = some e' ∧ IsText e'.line d.text ∧ e'.i = d.text.length := by
  have fits := rep.fits
  have inside : e.i < lineSize := by
    have := rep.length
    simp only [textLimit, lineSize] at *
    omega
  refine ⟨{ e with line := e.line.set e.i 0, console := terminalPutchar e.console 0x0A },
    by simp [submit, store_inside _ _ _ inside], ⟨rep.printable, ?_⟩, rep.length⟩
  refine ⟨e.line.toList.drop (e.i + 1), ?_⟩
  simp only [Vector.toList_set]
  rw [List.set_eq_take_append_cons_drop, if_pos (by simpa using inside), rep.text]

theorem represents_esc (rep : Represents screen last e d) (esc : EscState) :
    Represents screen last { e with escState := esc } { d with esc := esc } :=
  ⟨rep.text, rep.length, rfl, rep.slot, rep.printable, rep.fits, rep.last, rep.screen⟩

end Steps

/-- The loop body's turn is the draft's: the next draft, or its text submitted. -/
def Follows (screen : Console → Text → Prop) (last : UInt8) (turn : Turn) (before : Draft) :
    Option Draft → Prop
  | some d => ∃ e, turn = .next e ∧ Represents screen last e d
  | none => ∃ e, turn = .stop e ∧ IsText e.line before.text ∧ e.i = before.text.length

section OneByte
variable {screen : Console → Text → Prop} {last : UInt8} {e : Editor}
   {text : Text} {slot : Slot} {h : History} {past : Past}

theorem text_follows (mirrors : Mirrors screen) (rep : Represents screen last e ⟨text, .text, slot⟩)
    (room : text.length < textLimit) (c : UInt8) :
    Follows screen last (onByte h e c) ⟨text, .text, slot⟩ (edit past ⟨text, .text, slot⟩ c) := by
  obtain ⟨line, i, esc, hPtr, console⟩ := e
  obtain rfl : esc = .text := rep.esc
  obtain rfl : hPtr = slot := rep.slot
  simp only [edit, onByte]
  by_cases escape : c = 0x1B
  · simp only [escape, if_true]
    exact ⟨_, rfl, represents_esc rep .escape⟩
  by_cases newline : c = 0x0A ∨ c = 0x0D
  · simp only [escape, newline, if_true, if_false]
    obtain ⟨e', stored, submitted⟩ := represents_submit rep
    exact ⟨e', by rw [stored]; rfl, submitted⟩
  by_cases back : c = 0x08 ∨ c = 0x7F
  · simp only [escape, newline, back, true_and, if_true, if_false]
    have length : i = text.length := rep.length
    by_cases typed : i > 0
    · have nonempty : text ≠ [] := List.ne_nil_of_length_pos (by omega)
      simp only [typed, if_true]
      exact ⟨_, rfl, represents_backspace mirrors rep nonempty⟩
    -- with nothing to erase the code goes on to the test for printable bytes
    · have empty : text = [] := List.eq_nil_of_length_eq_zero (by omega)
      have invisible : ¬ (0x20 ≤ c ∧ c ≤ 0x7E) := by
        rcases back with same | same <;> subst same <;> decide
      subst empty
      simp only [typed, invisible, if_false]
      exact ⟨_, rfl, rep⟩
  · simp only [escape, newline, back, false_and, if_false]
    by_cases visible : 0x20 ≤ c ∧ c ≤ 0x7E
    · obtain ⟨e', stored, after⟩ := represents_put mirrors rep c visible room
      simp only [Printable, visible, and_self, if_true]
      exact ⟨e', by rw [stored]; rfl, after⟩
    · simp only [Printable, visible, if_false]
      exact ⟨_, rfl, rep⟩

theorem escape_follows (rep : Represents screen last e ⟨text, .escape, slot⟩) (c : UInt8) :
    Follows screen last (onByte h e c) ⟨text, .escape, slot⟩
      (edit past ⟨text, .escape, slot⟩ c) := by
  obtain ⟨line, i, esc, hPtr, console⟩ := e
  obtain rfl : esc = .escape := rep.esc
  simp only [edit, onByte]
  by_cases opened : c = 0x5B
  · simp only [opened, if_true]
    exact ⟨_, rfl, represents_esc rep .bracket⟩
  · simp only [opened, if_false]
    exact ⟨_, rfl, represents_esc rep .text⟩

theorem bracket_follows (mirrors : Mirrors screen)
    (rep : Represents screen last e ⟨text, .bracket, slot⟩) (holds : Holds h past) (c : UInt8) :
    Follows screen last (onByte h e c) ⟨text, .bracket, slot⟩
      (edit past ⟨text, .bracket, slot⟩ c) := by
  -- both arrows erase the line and recall a row; they differ in the slot
  have recalled (target : Slot) : Follows screen last (Turn.goOn (recallRow h target (eraseLine e)))
      ⟨text, .bracket, slot⟩ (some (recallDraft past target)) := by
    obtain ⟨e', copied, after⟩ := represents_recall mirrors rep holds target
    exact ⟨e', by rw [copied]; rfl, after⟩
  obtain ⟨line, i, esc, hPtr, console⟩ := e
  obtain rfl : esc = .bracket := rep.esc
  obtain rfl : hPtr = slot := rep.slot
  simp only [edit, onByte, holds.1]
  by_cases up : c = 0x41
  · simp only [up, if_true]
    by_cases stored : past.count > 0
    · simp only [stored, if_true]
      exact recalled (slotBefore hPtr)
    · simp only [stored, if_false]
      exact ⟨_, rfl, represents_esc rep .text⟩
  by_cases down : c = 0x42
  · simp only [down, if_true]
    by_cases stored : past.count > 0
    · simp only [stored, if_true]
      exact recalled (slotAfter hPtr)
    · simp only [stored, if_false]
      exact ⟨_, rfl, represents_esc (represents_erase mirrors rep) .text⟩
  · simp only [up, down, if_false]
    exact ⟨_, rfl, represents_esc rep .text⟩

/-- One byte: the loop body does to the buffer what the draft says, and never
leaves an array. -/
theorem edit_refines {d : Draft} (mirrors : Mirrors screen) (rep : Represents screen last e d)
    (holds : Holds h past) (room : d.text.length < textLimit) (c : UInt8) :
    Follows screen last (onByte h e c) d (edit past d c) := by
  obtain ⟨text, esc, slot⟩ := d
  cases esc with
  | text => exact text_follows mirrors rep room c
  | escape => exact escape_follows rep c
  | bracket => exact bracket_follows mirrors rep holds c

end OneByte

inductive LoopEnds (screen : Console → Text → Prop) (last : UInt8) :
    Outcome Exit → DraftEnd → Prop where
  | waiting {e : Editor} {d : Draft} (rep : Represents screen last e d)
      (room : d.text.length < textLimit) : LoopEnds screen last (.waiting e) (.waiting d)
  | entered {e : Editor} {d : Draft} {rest : List UInt8} (text : IsText e.line d.text)
      (length : e.i = d.text.length) (room : d.text.length < textLimit) :
      LoopEnds screen last (.done ⟨e, true, rest⟩) (.entered d rest)
  | full {e : Editor} {d : Draft} {rest : List UInt8} (rep : Represents screen last e d)
      (length : d.text.length = textLimit) :
      LoopEnds screen last (.done ⟨e, false, rest⟩) (.full d rest)

theorem loop_bound {screen : Console → Text → Prop} {last : UInt8} {e : Editor} {d : Draft}
    (rep : Represents screen last e d) : e.i < lineSize - 1 ↔ d.text.length < textLimit := by
  rw [rep.length]
  rfl

theorem at_bound {screen : Console → Text → Prop} {last : UInt8} {e : Editor} {d : Draft}
    (rep : Represents screen last e d) (full : ¬ d.text.length < textLimit) :
    d.text.length = textLimit := Nat.le_antisymm rep.fits (Nat.not_lt.mp full)

theorem loop_refines {screen : Console → Text → Prop} {last : UInt8} {h : History} {past : Past}
    (mirrors : Mirrors screen) (holds : Holds h past) (bytes : List UInt8) (e : Editor)
    (d : Draft) (rep : Represents screen last e d) :
    LoopEnds screen last (readLoop h lineSize bytes e) (editLoop past bytes d) := by
  induction bytes generalizing e d with
  | nil =>
      simp only [readLoop, editLoop, loop_bound rep]
      by_cases room : d.text.length < textLimit
      · simp only [room, if_true]
        exact .waiting rep room
      · simp only [room, if_false]
        exact .full rep (at_bound rep room)
  | cons c rest ih =>
      simp only [readLoop, editLoop, loop_bound rep]
      by_cases room : d.text.length < textLimit
      · simp only [room, if_true]
        have turn := edit_refines mirrors rep holds room c
        cases edited : edit past d c with
        | none =>
            rw [edited] at turn
            obtain ⟨e', stopped, submitted, length⟩ := turn
            rw [stopped]
            exact .entered submitted length room
        | some d' =>
            rw [edited] at turn
            obtain ⟨e', went, after⟩ := turn
            rw [went]
            exact ih e' d' after
      · simp only [room, if_false]
        exact .full rep (at_bound rep room)

theorem full_buffer {screen : Console → Text → Prop} {last : UInt8} {e : Editor} {d : Draft}
    (rep : Represents screen last e d) (full : d.text.length = textLimit) :
    e.line.toList = d.text ++ [last] := by
  have index : e.i = textLimit := rep.length.trans full
  have first : e.line.toList.take textLimit = d.text := index ▸ rep.text
  have size : e.line.toList.length = textLimit + 1 := Vector.length_toList
  calc e.line.toList
      = e.line.toList.take (textLimit + 1) := by rw [← size, List.take_length]
    _ = e.line.toList.take textLimit ++ [last] := by
        rw [List.take_add_one, rep.last, Option.toList_some]
    _ = d.text ++ [last] := by rw [first]

def pastOf (h : History) : Past where
  text := fun slot => (h.cmdHistory slot).toList.takeWhile (· ≠ 0)
  count := h.historyCount

theorem holds_past {h : History} {past : Past} (holds : Holds h past) : pastOf h = past := by
  obtain ⟨text, count⟩ := past
  have texts : (pastOf h).text = text :=
    funext fun slot => cstring_exact (text_cstring (holds.2 slot))
  have counts : (pastOf h).count = count := holds.1
  rw [← texts, ← counts]

def Sound (h : History) : Prop := Holds h (pastOf h)

theorem holds_sound {h : History} {past : Past} (holds : Holds h past) : Sound h := by
  rw [Sound, holds_past holds]
  exact holds

theorem zero_holds : Holds zeroHistory ⟨fun _ => [], 0⟩ := by
  refine ⟨rfl, fun slot => ⟨by simp, List.replicate 255 0, ?_⟩⟩
  change (Vector.replicate (255 + 1) (0 : UInt8)).toList = _
  rw [Vector.toList_replicate, List.replicate_succ, List.nil_append]

/-- The past after the text `s` was submitted in a call that found `slot` next. -/
def Past.remember (past : Past) (slot : Slot) (s : Text) : Past :=
  if s = [] then past
  else
    { text := Function.update past.text slot s
      count := if past.count < historySize then past.count + 1 else past.count }

theorem remember_holds {h : History} {past : Past} {line : Buffer} {s : Text}
    (holds : Holds h past) (text : IsText line s) :
    Holds (remember h line s.length) (past.remember h.historyCurrent s) := by
  by_cases empty : s = []
  · subst empty
    exact holds
  · have stored : s.length > 0 := List.length_pos_iff.mpr empty
    simp only [remember, stored, if_true, Past.remember, empty, if_false]
    refine ⟨?_, fun slot => ?_⟩
    · simp only [holds.1]
    · by_cases here : slot = h.historyCurrent
      · subst here
        simpa only [Function.update_self] using text
      · simpa only [Function.update_of_ne here] using holds.2 slot

def emptyDraft (slot : Slot) : Draft := ⟨[], .text, slot⟩

/-- The byte of `line` that no path of the loop writes. -/
def lastByte (buffer : Buffer) : UInt8 := buffer[255]

theorem enter_represents {screen : Console → Text → Prop} (h : History) (console : Console)
    (shown : screen console []) (line : Buffer) :
    Represents screen (lastByte line) (enter h console line) (emptyDraft h.historyCurrent) := by
  refine ⟨rfl, rfl, rfl, rfl, by simp [emptyDraft], by simp [emptyDraft], ?_, shown⟩
  have inside : textLimit < line.toList.length := by
    rw [Vector.length_toList]
    decide
  exact List.getElem?_eq_getElem inside

/-- Everything a call of `nexus_readline` can do, beside what its draft does. A
call left by its bound returns the 255 characters with the old `line[255]`
behind them. -/
inductive CallEnds (screen : Console → Text → Prop) (h : History) (last : UInt8) :
    Outcome Return → DraftEnd → Prop where
  | waiting {e : Editor} {d : Draft} (rep : Represents screen last e d)
      (room : d.text.length < textLimit) : CallEnds screen h last (.waiting e) (.waiting d)
  | entered {r : Return} {d : Draft} (byEnter : r.entered = true) (text : IsText r.line d.text)
      (room : d.text.length < textLimit)
      (kept : r.history = remember h r.line d.text.length) :
      CallEnds screen h last (.done r) (.entered d r.rest)
  | full {r : Return} {d : Draft} (byBound : r.entered = false)
      (printable : ∀ c ∈ d.text, Printable c) (length : d.text.length = textLimit)
      (line : r.line.toList = d.text ++ [last])
      (kept : r.history = remember h r.line textLimit) :
      CallEnds screen h last (.done r) (.full d r.rest)

theorem readline_refines {screen : Console → Text → Prop} {h : History} {past : Past}
    (mirrors : Mirrors screen) (holds : Holds h past) (console : Console)
    (shown : screen console []) (line : Buffer) (bytes : List UInt8) :
    CallEnds screen h (lastByte line) (nexusReadline h console line lineSize bytes)
      (editLoop past bytes (emptyDraft h.historyCurrent)) := by
  have ends := loop_refines mirrors holds bytes _ _ (enter_represents h console shown line)
  unfold nexusReadline
  generalize readLoop h lineSize bytes (enter h console line) = left at ends ⊢
  generalize editLoop past bytes (emptyDraft h.historyCurrent) = drafted at ends ⊢
  cases ends with
  | waiting rep room => exact .waiting rep room
  | entered text length room => exact .entered rfl text room (by rw [length])
  | full rep length =>
      exact .full rfl rep.printable length (full_buffer rep length)
        (by rw [rep.length, length])

theorem draft_entered {h : History} {past : Past} (holds : Holds h past) (console : Console)
    (line : Buffer) (bytes : List UInt8) {d : Draft} {rest : List UInt8}
    (submitted : editLoop past bytes (emptyDraft h.historyCurrent) = .entered d rest) :
    ∃ r, nexusReadline h console line lineSize bytes = .done r ∧ r.entered = true ∧
      r.rest = rest ∧ IsText r.line d.text ∧ r.history = remember h r.line d.text.length := by
  have ends := readline_refines unseen_mirrors holds console trivial line bytes
  rw [submitted] at ends
  generalize nexusReadline h console line lineSize bytes = outcome at ends ⊢
  cases ends with
  | entered byEnter text room kept => exact ⟨_, rfl, byEnter, rfl, text, kept⟩

theorem entered_draft {h : History} {past : Past} (holds : Holds h past) (console : Console)
    (line : Buffer) (bytes : List UInt8) {r : Return}
    (returned : nexusReadline h console line lineSize bytes = .done r)
    (byEnter : r.entered = true) :
    ∃ d, editLoop past bytes (emptyDraft h.historyCurrent) = .entered d r.rest ∧
      IsText r.line d.text ∧ d.text.length < textLimit ∧
      r.history = remember h r.line d.text.length := by
  have ends := readline_refines unseen_mirrors holds console trivial line bytes
  rw [returned] at ends
  generalize editLoop past bytes (emptyDraft h.historyCurrent) = drafted at ends ⊢
  cases ends with
  | entered _ text room kept => exact ⟨_, rfl, text, room, kept⟩
  | full byBound => exact absurd (byBound.symm.trans byEnter) Bool.false_ne_true

theorem waiting_draft {h : History} {past : Past} (holds : Holds h past) (console : Console)
    (line : Buffer) (bytes : List UInt8) {e : Editor}
    (waits : nexusReadline h console line lineSize bytes = .waiting e) :
    ∃ d, editLoop past bytes (emptyDraft h.historyCurrent) = .waiting d := by
  have ends := readline_refines unseen_mirrors holds console trivial line bytes
  rw [waits] at ends
  generalize editLoop past bytes (emptyDraft h.historyCurrent) = drafted at ends ⊢
  cases ends with
  | waiting rep room => exact ⟨_, rfl⟩

-- Printable bytes read outside an escape sequence are appended to the text.
theorem typed_run (past : Past) (typed rest : List UInt8) (text : Text) (slot : Slot)
    (printable : ∀ c ∈ typed, Printable c) (room : text.length + typed.length ≤ textLimit) :
    editLoop past (typed ++ rest) ⟨text, .text, slot⟩ =
      editLoop past rest ⟨text ++ typed, .text, slot⟩ := by
  induction typed generalizing text with
  | nil => simp
  | cons c typed ih =>
      have visible := printable c List.mem_cons_self
      have short : text.length < textLimit := by
        rw [List.length_cons] at room
        omega
      have turn : edit past ⟨text, .text, slot⟩ c = some ⟨text ++ [c], .text, slot⟩ := by
        -- a printable byte is none of the bytes that are tested before it
        have control : c ≠ 0x1B ∧ ¬ (c = 0x0A ∨ c = 0x0D) ∧ ¬ (c = 0x08 ∨ c = 0x7F) := by
          refine ⟨?_, ?_, ?_⟩
          · rintro rfl
            exact absurd visible (by decide)
          · rintro (rfl | rfl) <;> exact absurd visible (by decide)
          · rintro (rfl | rfl) <;> exact absurd visible (by decide)
        simp only [edit, control, visible, if_true, if_false]
      simp only [List.cons_append, editLoop, short, if_true, turn]
      rw [ih (text ++ [c]) (fun b member => printable b (List.mem_cons_of_mem c member))
        (by rw [List.length_append, List.length_singleton]; rw [List.length_cons] at room; omega),
        List.append_assoc, List.singleton_append]

end NexusOS.LineDraft
