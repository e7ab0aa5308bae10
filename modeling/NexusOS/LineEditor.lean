import NexusOS.VgaConsole

/-!
`nexus_readline` of `kernel/python/nexus_hal.c`, its command history and its two
callers' copies of the line. Every access to `line`, `exec_buf` or a row of
`cmd_history` is checked: an access outside the array ends the call in `fault`,
so a proof that no `fault` occurs is a proof that all accesses are in bounds.
The bytes a call has read are a finite list; a call that has used them up and
still wants one is `waiting`. Plain `char` comparisons are unsigned here, which
agrees with the signed ones: a byte from 128 up takes the same branches.
-/

namespace NexusOS.LineEditor

open VgaConsole

def historySize : Nat := 10
def lineSize : Nat := 256

abbrev Buffer := Vector UInt8 lineSize
abbrev Slot := Fin historySize

structure History where
  cmdHistory : Slot → Buffer
  historyCount : Nat
  historyCurrent : Slot

def zeroHistory : History where
  cmdHistory := fun _ => Vector.replicate lineSize 0
  historyCount := 0
  historyCurrent := ⟨0, by decide⟩

/-- `(p - 1 + HISTORY_SIZE) % HISTORY_SIZE`. -/
def slotBefore (p : Slot) : Slot :=
  ⟨(p.val + historySize - 1) % historySize, Nat.mod_lt _ (by decide)⟩

def slotAfter (p : Slot) : Slot := ⟨(p.val + 1) % historySize, Nat.mod_lt _ (by decide)⟩

/-- The values 0, 1 and 2 of `esc_state`. -/
inductive EscState where
  | text
  | escape
  | bracket
  deriving DecidableEq

structure Editor where
  line : Buffer
  i : Nat
  escState : EscState
  hPtr : Slot
  console : Console

inductive Turn where
  | next (e : Editor)
  | stop (e : Editor)
  | fault

def Turn.goOn : Option Editor → Turn
  | some e => .next e
  | none => .fault

def Turn.breakOut : Option Editor → Turn
  | some e => .stop e
  | none => .fault

/-- `array[i] = c` on an array of `size` bytes. -/
def storeAt {size : Nat} (array : Vector UInt8 size) (i : Nat) (c : UInt8) :
    Option (Vector UInt8 size) :=
  if inside : i < size then some (array.set i c inside) else none

/-- `line[i++] = c; terminal_putchar(c)`. -/
def put (e : Editor) (c : UInt8) : Option Editor :=
  (storeAt e.line e.i c).map fun line =>
    { e with line, i := e.i + 1, console := terminalPutchar e.console c }

/-- `line[i] = '\0'; terminal_putchar('\n')`. -/
def submit (e : Editor) : Option Editor :=
  (storeAt e.line e.i 0).map fun line =>
    { e with line, console := terminalPutchar e.console 0x0A }

/-- `while (i > 0) { terminal_putchar('\b'); i--; }`. -/
def eraseCells : Nat → Console → Console
  | 0, t => t
  | i + 1, t => eraseCells i (terminalPutchar t 0x08)

def eraseLine (e : Editor) : Editor :=
  { e with i := 0, console := eraseCells e.i e.console }

/-- The copy loop over the bytes of a history row: it runs on until it meets a
NUL, and past the end of the row there is nothing left to read. -/
def copyRow : List UInt8 → Editor → Option Editor
  | [], _ => none
  | c :: rest, e => if c = 0 then some e else (put e c).bind (copyRow rest)

def recallRow (h : History) (slot : Slot) (e : Editor) : Option Editor :=
  copyRow (h.cmdHistory slot).toList { e with hPtr := slot, escState := .text }

/-- One pass through the loop body, for the byte `c` just received. -/
def onByte (h : History) (e : Editor) (c : UInt8) : Turn :=
  match e.escState with
  | .text =>
      if c = 0x1B then .next { e with escState := .escape }
      else if c = 0x0A ∨ c = 0x0D then Turn.breakOut (submit e)
      else if (c = 0x08 ∨ c = 0x7F) ∧ e.i > 0 then
        .next { e with i := e.i - 1, console := terminalPutchar e.console 0x08 }
      -- a backspace on an empty line is tested here as well, and dropped
      else if 0x20 ≤ c ∧ c ≤ 0x7E then Turn.goOn (put e c)
      else .next e
  | .escape =>
      if c = 0x5B then .next { e with escState := .bracket }
      else .next { e with escState := .text }
  | .bracket =>
      if c = 0x41 then
        if h.historyCount > 0 then
          Turn.goOn (recallRow h (slotBefore e.hPtr) (eraseLine e))
        else .next { e with escState := .text }
      else if c = 0x42 then
        -- Down erases the line even when there is nothing to recall
        if h.historyCount > 0 then
          Turn.goOn (recallRow h (slotAfter e.hPtr) (eraseLine e))
        else .next { eraseLine e with escState := .text }
      else .next { e with escState := .text }

inductive Outcome (Result : Type) where
  | waiting (e : Editor)
  | done (result : Result)
  | fault

structure Exit where
  editor : Editor
  entered : Bool
  rest : List UInt8

def readLoop (h : History) (maxLen : Nat) : List UInt8 → Editor → Outcome Exit
  | [], e => if e.i < maxLen - 1 then .waiting e else .done ⟨e, false, []⟩
  | c :: rest, e =>
      -- the bound is tested before a byte is taken, so `c` stays unread behind it
      if e.i < maxLen - 1 then
        match onByte h e c with
        | .next e => readLoop h maxLen rest e
        | .stop e => .done ⟨e, true, rest⟩
        | .fault => .fault
      else .done ⟨e, false, c :: rest⟩

/-- The copy into `cmd_history` takes all 256 bytes of `line`. -/
def remember (h : History) (line : Buffer) (i : Nat) : History :=
  if i > 0 then
    { cmdHistory := Function.update h.cmdHistory h.historyCurrent line
      historyCount := if h.historyCount < historySize then h.historyCount + 1
        else h.historyCount
      historyCurrent := slotAfter h.historyCurrent }
  else h

structure Return where
  line : Buffer
  history : History
  console : Console
  entered : Bool
  rest : List UInt8

def enter (h : History) (console : Console) (line : Buffer) : Editor :=
  { line, i := 0, escState := .text, hPtr := h.historyCurrent, console }

def nexusReadline (h : History) (console : Console) (line : Buffer) (maxLen : Nat)
    (bytes : List UInt8) : Outcome Return :=
  match readLoop h maxLen bytes (enter h console line) with
  | .waiting e => .waiting e
  | .fault => .fault
  | .done exit => .done
      { line := exit.editor.line
        history := remember h exit.editor.line exit.editor.i
        console := exit.editor.console
        entered := exit.entered
        rest := exit.rest }

/-- `strlen` over the bytes of an array; `none` past its end. -/
def strlenIn : List UInt8 → Option Nat
  | [] => none
  | c :: rest => if c = 0 then some 0 else (strlenIn rest).map (· + 1)

def execSize : Nat := 260

/-- The loop of `start_nexus_python` that copies `line` into `exec_buf`, from
index `len` on. -/
def copyExec : List UInt8 → Vector UInt8 execSize → Nat → Option (Vector UInt8 execSize × Nat)
  | [], _, _ => none
  | c :: rest, execBuf, len =>
      if c = 0 then some (execBuf, len)
      else (storeAt execBuf len c).bind fun execBuf => copyExec rest execBuf (len + 1)

def fillExecBuf (line : Buffer) (execBuf : Vector UInt8 execSize) :
    Option (Vector UInt8 execSize × Nat) := do
  let (execBuf, len) ← copyExec line.toList execBuf 0
  let execBuf ← storeAt execBuf len 0x0A
  let execBuf ← storeAt execBuf (len + 1) 0
  some (execBuf, len + 1)

-- An invariant indexed by the bytes copied so far carries through the copy of
-- a NUL-terminated row.
theorem copy_row_run (holds : List UInt8 → Editor → Prop) (row tail : List UInt8) (e : Editor)
    (nonzero : ∀ c ∈ row, c ≠ 0) (start : holds [] e)
    (next : ∀ copied c rest d, row = copied ++ c :: rest → holds copied d →
      ∃ d', put d c = some d' ∧ holds (copied ++ [c]) d') :
    ∃ e', copyRow (row ++ 0 :: tail) e = some e' ∧ holds row e' := by
  have from_suffix : ∀ rest copied d, row = copied ++ rest → holds copied d →
      ∃ e', copyRow (rest ++ 0 :: tail) d = some e' ∧ holds row e' := by
    intro rest
    induction rest with
    | nil =>
        intro copied d whole held
        rw [List.append_nil] at whole
        subst whole
        exact ⟨d, by simp [copyRow], held⟩
    | cons c rest ih =>
        intro copied d whole held
        obtain ⟨d', stored, held'⟩ := next copied c rest d whole held
        obtain ⟨e', copies, reached⟩ := ih (copied ++ [c]) d' (by simp [whole]) held'
        have visible : c ≠ 0 := nonzero c (by simp [whole])
        refine ⟨e', ?_, reached⟩
        simp only [List.cons_append, copyRow, visible, if_false, stored, Option.bind_some]
        exact copies
  exact from_suffix row [] e rfl start

end NexusOS.LineEditor
