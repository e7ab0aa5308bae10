import NexusOS.LineDraft

/-!
The escape syntax `nexus_readline` reads: a byte that is not ESC stands for
itself, ESC takes the byte after it away, and `ESC [` takes one more. The
grammar is stated over whole streams; the editor's `esc_state` follows it across
calls because a call starts, and is ended by Enter, outside any sequence.
-/

namespace NexusOS.EscapeSyntax

open VgaConsole LineEditor LineDraft

/-- Whole keystrokes, as the editor splits its bytes. -/
inductive Keystrokes : List UInt8 → Prop where
  | none : Keystrokes []
  | plain {before : List UInt8} (strokes : Keystrokes before) (c : UInt8) (other : c ≠ 0x1B) :
      Keystrokes (before ++ [c])
  | escape {before : List UInt8} (strokes : Keystrokes before) (c : UInt8) (other : c ≠ 0x5B) :
      Keystrokes (before ++ [0x1B, c])
  | sequence {before : List UInt8} (strokes : Keystrokes before) (c : UInt8) :
      Keystrokes (before ++ [0x1B, 0x5B, c])

/-- The stream ends inside an escape sequence. -/
def OpenEscape (bytes : List UInt8) : Prop :=
  ∃ before, Keystrokes before ∧ (bytes = before ++ [0x1B] ∨ bytes = before ++ [0x1B, 0x5B])

def escNext : EscState → UInt8 → EscState
  | .text, c => if c = 0x1B then .escape else .text
  | .escape, c => if c = 0x5B then .bracket else .text
  | .bracket, _ => .text

def escAfter (esc : EscState) (bytes : List UInt8) : EscState := bytes.foldl escNext esc

theorem esc_after_append (esc : EscState) (bytes more : List UInt8) :
    escAfter esc (bytes ++ more) = escAfter (escAfter esc bytes) more :=
  List.foldl_append

def Read (bytes : List UInt8) : EscState → Prop
  | .text => Keystrokes bytes
  | .escape => ∃ before, Keystrokes before ∧ bytes = before ++ [0x1B]
  | .bracket => ∃ before, Keystrokes before ∧ bytes = before ++ [0x1B, 0x5B]

theorem read_next {bytes : List UInt8} {esc : EscState} (read : Read bytes esc) (c : UInt8) :
    Read (bytes ++ [c]) (escNext esc c) := by
  cases esc with
  | text =>
      by_cases opens : c = 0x1B
      · simp only [escNext, opens, if_true]
        exact ⟨bytes, read, rfl⟩
      · simp only [escNext, opens, if_false]
        exact .plain read c opens
  | escape =>
      rcases read with ⟨before, strokes, rfl⟩
      by_cases opens : c = 0x5B
      · simp only [escNext, opens, if_true]
        exact ⟨before, strokes, by simp⟩
      · simp only [escNext, opens, if_false]
        have whole := Keystrokes.escape strokes c opens
        simpa [Read] using whole
  | bracket =>
      rcases read with ⟨before, strokes, rfl⟩
      have whole := Keystrokes.sequence strokes c
      simpa [Read, escNext] using whole

theorem read_exact (bytes : List UInt8) : Read bytes (escAfter .text bytes) := by
  -- by the last byte: the grammar grows at the end of the stream
  induction bytes using List.reverseRecOn with
  | nil => exact .none
  | append_singleton bytes c ih =>
      rw [esc_after_append]
      exact read_next ih c

theorem keystrokes_close {bytes : List UInt8} (strokes : Keystrokes bytes) :
    escAfter .text bytes = .text := by
  induction strokes with
  | none => rfl
  | plain strokes c other ih =>
      rw [esc_after_append, ih]
      simp [escAfter, escNext, other]
  | escape strokes c other ih =>
      rw [esc_after_append, ih]
      simp [escAfter, escNext, other]
  | sequence strokes c ih =>
      rw [esc_after_append, ih]
      simp [escAfter, escNext]

/-- The parser is inside a sequence exactly when the grammar says so. -/
theorem open_escape_iff (bytes : List UInt8) :
    OpenEscape bytes ↔ escAfter .text bytes ≠ .text := by
  constructor
  · rintro ⟨before, strokes, rfl | rfl⟩
    all_goals
      rw [esc_after_append, keystrokes_close strokes]
      simp [escAfter, escNext]
  · intro inside
    have read := read_exact bytes
    cases state : escAfter .text bytes with
    | text => exact absurd state inside
    | escape =>
        rw [state] at read
        rcases read with ⟨before, strokes, same⟩
        exact ⟨before, strokes, .inl same⟩
    | bracket =>
        rw [state] at read
        rcases read with ⟨before, strokes, same⟩
        exact ⟨before, strokes, .inr same⟩

section Draft
variable {past : Past} {d d' : Draft} {c : UInt8}

theorem edit_esc (edited : edit past d c = some d') : d'.esc = escNext d.esc c := by
  rcases d with ⟨text, esc, slot⟩
  cases esc with
  | text =>
      simp only [edit] at edited
      by_cases opens : c = 0x1B
      · rw [if_pos opens] at edited
        cases edited
        simp [escNext, opens]
      · rw [if_neg opens] at edited
        simp only [escNext, opens, if_false]
        split_ifs at edited <;> cases edited <;> rfl
  | escape =>
      cases edited
      rfl
  | bracket =>
      simp only [edit] at edited
      split_ifs at edited <;> cases edited <;> rfl

theorem edit_none_iff : edit past d c = none ↔ d.esc = .text ∧ (c = 0x0A ∨ c = 0x0D) := by
  rcases d with ⟨text, esc, slot⟩
  cases esc with
  | text =>
      by_cases opens : c = 0x1B
      · subst opens
        simp [edit]
      · simp only [edit, opens, if_false, true_and]
        split_ifs with submits <;> simp [submits]
  | escape => simp [edit]
  | bracket =>
      simp only [edit, reduceCtorEq, false_and, iff_false]
      split_ifs <;> simp

theorem loop_waiting {bytes : List UInt8} (waits : editLoop past bytes d = .waiting d') :
    d'.esc = escAfter d.esc bytes ∧ d'.text.length < textLimit := by
  induction bytes generalizing d with
  | nil =>
      simp only [editLoop] at waits
      split_ifs at waits with room
      cases waits
      exact ⟨rfl, room⟩
  | cons c rest ih =>
      simp only [editLoop] at waits
      split_ifs at waits with room
      cases edited : edit past d c with
      | none => simp [edited] at waits
      | some next =>
          simp only [edited] at waits
          rw [escAfter, List.foldl_cons, ← edit_esc edited]
          exact ih waits

theorem loop_entered {bytes rest : List UInt8}
    (submits : editLoop past bytes d = .entered d' rest) :
    ∃ read, bytes = read ++ rest ∧ read ≠ [] ∧ escAfter d.esc read = .text := by
  induction bytes generalizing d with
  | nil =>
      simp only [editLoop] at submits
      split_ifs at submits
  | cons c bytes ih =>
      simp only [editLoop] at submits
      split_ifs at submits with room
      cases edited : edit past d c with
      | none =>
          simp only [edited] at submits
          cases submits
          rcases edit_none_iff.mp edited with ⟨outside, lineEnd⟩
          refine ⟨[c], rfl, List.cons_ne_nil _ _, ?_⟩
          rcases lineEnd with same | same <;> simp [escAfter, outside, same, escNext]
      | some next =>
          simp only [edited] at submits
          rcases ih submits with ⟨read, split, _, closed⟩
          refine ⟨c :: read, by rw [split, List.cons_append], List.cons_ne_nil _ _, ?_⟩
          rw [escAfter, List.foldl_cons, ← edit_esc edited]
          exact closed

theorem loop_resumes {bytes : List UInt8} (more : List UInt8)
    (waits : editLoop past bytes d = .waiting d') :
    editLoop past (bytes ++ more) d = editLoop past more d' := by
  induction bytes generalizing d with
  | nil =>
      simp only [editLoop] at waits
      split_ifs at waits
      cases waits
      rfl
  | cons c rest ih =>
      simp only [List.cons_append, editLoop] at waits ⊢
      split_ifs at waits with room
      rw [if_pos room]
      cases edited : edit past d c with
      | none => simp [edited] at waits
      | some next =>
          simp only [edited] at waits ⊢
          exact ih waits

/-- A line end read by a waiting draft submits it exactly outside a sequence. -/
theorem newline_submits_iff {bytes : List UInt8} (after : List UInt8)
    (waits : editLoop past bytes d = .waiting d') :
    (∃ e, editLoop past (bytes ++ 0x0A :: after) d = .entered e after) ↔
      escAfter d.esc bytes = .text := by
  rcases loop_waiting waits with ⟨esc, room⟩
  rw [loop_resumes _ waits, ← esc]
  simp only [editLoop, room, if_true]
  cases edited : edit past d' 0x0A with
  | none => exact iff_of_true ⟨d', rfl⟩ (edit_none_iff.mp edited).1
  | some next =>
      have inside : d'.esc ≠ .text := by
        intro outside
        rw [edit_none_iff.mpr ⟨outside, .inl rfl⟩] at edited
        cases edited
      -- a later byte may still submit, but then less than `after` is left
      refine iff_of_false ?_ inside
      rintro ⟨e, submits⟩
      rcases loop_entered submits with ⟨read, split, consumed, _⟩
      exact consumed (List.append_left_eq_self.mp split.symm)

end Draft

end NexusOS.EscapeSyntax
