import NexusOS.CommandHistory

/-!
Walking the history with the arrow keys. Up and Down move one slot around the
ring and show its row, so a Down after an Up shows the row again that was shown
before. What the first Up leaves behind is the empty new line; Down comes back
to the slot that the next command will be stored in, and finds it empty only as
long as the ring is not full.
-/

namespace NexusOS.HistoryWalk

open VgaConsole LineEditor LineDraft RingWindow CommandHistory

inductive Arrow where
  | up
  | down

def Arrow.bytes : Arrow → List UInt8
  | .up => [0x1B, 0x5B, 0x41]
  | .down => [0x1B, 0x5B, 0x42]

def Arrow.move : Arrow → Slot → Slot
  | .up => slotBefore
  | .down => slotAfter

def arrowKeys : List Arrow → List UInt8
  | [] => []
  | arrow :: rest => arrow.bytes ++ arrowKeys rest

/-- The text of a call that waits for its next byte. -/
def shown (e : Editor) : Text := e.line.toList.take e.i

def walk (past : Past) : List Arrow → Draft → Draft
  | [], d => d
  | arrow :: rest, d => walk past rest (recallDraft past (arrow.move d.slot))

theorem walk_append (past : Past) (arrows more : List Arrow) (d : Draft) :
    walk past (arrows ++ more) d = walk past more (walk past arrows d) := by
  induction arrows generalizing d with
  | nil => rfl
  | cons arrow rest ih => exact ih _

theorem slot_after_before (p : Slot) : slotAfter (slotBefore p) = p := by
  apply Fin.ext
  have bound := p.isLt
  simp only [slotAfter, slotBefore, historySize] at *
  omega

theorem arrow_key_run {past : Past} (stored : past.count > 0) (arrow : Arrow)
    (rest : List UInt8) (text : Text) (room : text.length < textLimit) (p : Slot) :
    editLoop past (arrow.bytes ++ rest) ⟨text, .text, p⟩ =
      editLoop past rest (recallDraft past (arrow.move p)) := by
  cases arrow with
  | up => exact up_key_run stored rest text room p
  | down => simp [Arrow.bytes, Arrow.move, editLoop, edit, room, stored]

theorem arrow_keys_run {past : Past} (stored : past.count > 0)
    (short : ∀ slot, (past.text slot).length < textLimit) (arrows : List Arrow) (text : Text)
    (room : text.length < textLimit) (p : Slot) :
    editLoop past (arrowKeys arrows) ⟨text, .text, p⟩ =
      .waiting (walk past arrows ⟨text, .text, p⟩) := by
  induction arrows generalizing text p with
  | nil => exact if_pos room
  | cons arrow rest ih =>
      rw [arrowKeys, arrow_key_run stored arrow _ text room p, recallDraft, ih _ (short _)]
      rfl

theorem walk_shows_row (past : Past) (arrows : List Arrow) (pressed : arrows ≠ []) (d : Draft) :
    (walk past arrows d).text = past.text (walk past arrows d).slot := by
  induction arrows generalizing d with
  | nil => exact absurd rfl pressed
  | cons arrow rest ih =>
      cases rest with
      | nil => rfl
      | cons next rest => exact ih (List.cons_ne_nil _ _) _

theorem up_down_row (past : Past) (arrows : List Arrow) (d : Draft) :
    (walk past (arrows ++ [.up, .down]) d).text = past.text (walk past arrows d).slot := by
  rw [walk_append]
  exact congrArg past.text (slot_after_before _)

/-- How the slots are filled: the new line's slot is an unused one until all are used. -/
structure Filled (past : Past) (lines : List Text) : Prop where
  count : past.count = min historySize lines.length
  nonempty : ∀ s ∈ lines, s ≠ []
  fresh : ∀ k, lines.length ≤ k → k < historySize → past.text (slotOf k) = []

theorem zero_filled : Filled ⟨fun _ => [], 0⟩ [] :=
  ⟨rfl, fun _ member => absurd member List.not_mem_nil, fun _ _ _ => rfl⟩

theorem filled_remember {past : Past} {lines : List Text} (filled : Filled past lines)
    (s : Text) :
    Filled (past.remember (slotOf lines.length) s) (if s = [] then lines else lines ++ [s]) := by
  rcases filled with ⟨count, nonempty, fresh⟩
  by_cases empty : s = []
  · rw [Past.remember, if_pos empty, if_pos empty]
    exact ⟨count, nonempty, fresh⟩
  · rw [Past.remember, if_neg empty, if_neg empty]
    constructor
    · rw [List.length_append, List.length_singleton]
      change (if past.count < historySize then past.count + 1 else past.count) = _
      split <;> omega
    · intro t member
      rcases List.mem_append.mp member with old | new
      · exact nonempty t old
      · exact List.mem_singleton.mp new ▸ empty
    · intro k beyond below
      rw [List.length_append, List.length_singleton] at beyond
      have elsewhere : slotOf k ≠ slotOf lines.length := by
        rw [ne_eq, slot_of_eq_iff, Nat.mod_eq_of_lt below, Nat.mod_eq_of_lt (by omega)]
        omega
      change Function.update past.text (slotOf lines.length) s (slotOf k) = []
      rw [Function.update_of_ne elsewhere]
      exact fresh k (by omega) below

theorem run_filled {h : History} {lines : List Text} (run : EnteredRun h lines) :
    ∃ past, Keeps h past lines ∧ Filled past lines := by
  induction run with
  | start => exact ⟨_, zero_keeps, zero_filled⟩
  | call before console line bytes r s returned entered text ih =>
      rcases ih with ⟨past, keeps, filled⟩
      rcases entered_draft keeps.holds console line bytes returned entered with
        ⟨d, _, drafted, room, kept⟩
      have same := cstring_unique text (text_cstring drafted)
      subst same
      have more := filled_remember filled d.text
      rw [← keeps.current] at more
      exact ⟨_, kept ▸ keeps_remember keeps drafted room, more⟩

theorem new_line_blank_iff {h : History} {past : Past} {lines : List Text}
    (keeps : Keeps h past lines) (filled : Filled past lines) :
    past.text h.historyCurrent = [] ↔ h.historyCount < historySize := by
  rw [keeps.current, keeps.holds.1, filled.count]
  constructor
  · intro blank
    by_contra full
    have many : historySize ≤ lines.length := by omega
    have inside : lines.length - historySize < lines.length := by
      simp only [historySize] at *
      omega
    have cell := keeps.window.cell (lines.length - historySize) _ (Nat.le_refl _)
      (List.getElem?_eq_getElem inside)
    -- ten lines back is the same slot
    have around : slotOf ((lines.length - historySize) % historySize) = slotOf lines.length := by
      rw [slot_of_eq_iff, Nat.mod_mod]
      exact (Nat.mod_eq_sub_mod many).symm
    rw [around, blank] at cell
    exact filled.nonempty _ (List.getElem_mem inside) cell.symm
  · intro few
    exact filled.fresh _ (Nat.le_refl _) (by omega)

theorem draft_waits {h : History} {past : Past} (holds : Holds h past) (console : Console)
    (line : Buffer) (bytes : List UInt8) {d : Draft}
    (drafted : editLoop past bytes (emptyDraft h.historyCurrent) = .waiting d) :
    ∃ e, nexusReadline h console line lineSize bytes = .waiting e ∧ shown e = d.text := by
  have ends := readline_refines unseen_mirrors holds console trivial line bytes
  rw [drafted] at ends
  generalize nexusReadline h console line lineSize bytes = outcome at ends ⊢
  cases ends with
  | waiting rep room => exact ⟨_, rfl, rep.text⟩

theorem arrows_shown {h : History} {past : Past} {lines : List Text} (keeps : Keeps h past lines)
    (nonempty : lines ≠ []) (console : Console) (line : Buffer) (arrows : List Arrow) :
    ∃ e, nexusReadline h console line lineSize (arrowKeys arrows) = .waiting e ∧
      shown e = (walk past arrows (emptyDraft h.historyCurrent)).text :=
  draft_waits keeps.holds console line _
    (arrow_keys_run (keeps.stored nonempty) keeps.short arrows [] (by decide) h.historyCurrent)

/-- After any run of entered calls and any arrows, an Up and a Down show the same
text again, if an arrow was pressed before or the ring is not full, and only then. -/
theorem down_undoes_up_iff {h : History} {lines : List Text} (run : EnteredRun h lines)
    (nonempty : lines ≠ []) (console : Console) (line : Buffer) (arrows : List Arrow) :
    ∃ e e', nexusReadline h console line lineSize (arrowKeys arrows) = .waiting e ∧
      nexusReadline h console line lineSize (arrowKeys (arrows ++ [.up, .down])) = .waiting e' ∧
      (shown e' = shown e ↔ arrows ≠ [] ∨ h.historyCount < historySize) := by
  rcases run_filled run with ⟨past, keeps, filled⟩
  rcases arrows_shown keeps nonempty console line arrows with ⟨e, waits, before⟩
  rcases arrows_shown keeps nonempty console line (arrows ++ [.up, .down]) with ⟨e', waits', after⟩
  rw [up_down_row] at after
  refine ⟨e, e', waits, waits', ?_⟩
  rw [before, after]
  by_cases pressed : arrows = []
  · subst pressed
    change past.text h.historyCurrent = [] ↔ _
    rw [new_line_blank_iff keeps filled]
    exact (or_iff_right (not_not_intro rfl)).symm
  · rw [walk_shows_row past arrows pressed]
    exact iff_of_true rfl (.inl pressed)

/-- Two commands over ten, and the walk stands on the last one. -/
theorem walk_over_twelve : ∃ h, EnteredRun h (letterLines 12) ∧ letterLines 12 ≠ [] ∧
    ∃ e e', nexusReadline h powerOn (Vector.replicate lineSize 0) lineSize
        (arrowKeys [.up, .up, .down]) = .waiting e ∧
      nexusReadline h powerOn (Vector.replicate lineSize 0) lineSize
        (arrowKeys ([.up, .up, .down] ++ [.up, .down])) = .waiting e' ∧
      shown e' = shown e := by
  have nonempty : letterLines 12 ≠ [] := by decide
  rcases @letter_lines_run 12 (by decide) with ⟨h, run⟩
  rcases down_undoes_up_iff run nonempty powerOn (Vector.replicate lineSize 0)
    [.up, .up, .down] with ⟨e, e', waits, waits', same⟩
  exact ⟨h, run, nonempty, e, e', waits, waits', same.mpr (.inl (by simp))⟩

/-- With ten commands stored, Up and Down on the empty line end on the oldest of them. -/
theorem full_ring_shows_oldest : ∃ h, EnteredRun h (letterLines 10) ∧
    ∃ e e', nexusReadline h powerOn (Vector.replicate lineSize 0) lineSize (arrowKeys []) =
        .waiting e ∧
      nexusReadline h powerOn (Vector.replicate lineSize 0) lineSize
        (arrowKeys ([] ++ [.up, .down])) = .waiting e' ∧
      shown e = [] ∧ shown e' = [0x61] := by
  rcases @letter_lines_run 10 (by decide) with ⟨h, run⟩
  rcases run_keeps run with ⟨past, keeps⟩
  have nonempty : letterLines 10 ≠ [] := by decide
  rcases arrows_shown keeps nonempty powerOn (Vector.replicate lineSize 0) [] with
    ⟨e, waits, before⟩
  rcases arrows_shown keeps nonempty powerOn (Vector.replicate lineSize 0) ([] ++ [.up, .down]) with
    ⟨e', waits', after⟩
  rw [up_down_row] at after
  refine ⟨h, run, e, e', waits, waits', before, after.trans ?_⟩
  change past.text h.historyCurrent = _
  rw [keeps.current]
  exact keeps.window.cell 0 _ (Nat.le_refl _) rfl

end NexusOS.HistoryWalk
