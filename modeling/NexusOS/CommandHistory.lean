import NexusOS.LineDraft
import NexusOS.RingWindow

/-!
The command history refines "the last ten non-empty lines". `Keeps` reads the
ten rows as a ring window over every non-empty line returned so far; a call
ended by Enter pushes its line, and the Up arrow walks the window backwards.
-/

namespace NexusOS.CommandHistory

open VgaConsole LineEditor LineDraft RingWindow

/-- Calls from the zeroed history, each ended by Enter, and the non-empty lines
they returned as C strings. -/
inductive EnteredRun : History → List Text → Prop where
  | start : EnteredRun zeroHistory []
  | call {h : History} {lines : List Text} (before : EnteredRun h lines) (console : Console)
      (line : Buffer) (bytes : List UInt8) (r : Return) (s : Text)
      (returned : nexusReadline h console line lineSize bytes = .done r)
      (entered : r.entered = true) (text : CString r.line s) :
      EnteredRun r.history (if s = [] then lines else lines ++ [s])

def slotOf (k : Nat) : Slot := ⟨k % historySize, Nat.mod_lt _ (by decide)⟩

/-- The ten rows hold the last lines, in the ring order of their numbers. -/
structure Keeps (h : History) (past : Past) (lines : List Text) : Prop where
  holds : Holds h past
  current : h.historyCurrent = slotOf lines.length
  stored : lines ≠ [] → past.count > 0
  short : ∀ slot, (past.text slot).length < textLimit
  window : Window historySize (fun k => past.text (slotOf k)) lines
    (lines.length - historySize)

theorem zero_keeps : Keeps zeroHistory ⟨fun _ => [], 0⟩ [] :=
  ⟨zero_holds, rfl, fun nonempty => absurd rfl nonempty, fun _ => Nat.zero_lt_succ _,
    window_empty historySize _⟩

theorem slot_of_eq_iff (k l : Nat) : slotOf k = slotOf l ↔ k % historySize = l % historySize :=
  Fin.mk.injEq _ _ _ _ ▸ Iff.rfl

theorem slot_after_of (k : Nat) : slotAfter (slotOf k) = slotOf (k + 1) := by
  simp [slotAfter, slotOf]

theorem update_slot (text : Slot → Text) (k l : Nat) (s : Text) :
    Function.update text (slotOf l) s (slotOf (k % historySize)) =
      Function.update (fun i => text (slotOf i)) (l % historySize) s (k % historySize) := by
  have same : slotOf (k % historySize) = slotOf l ↔ k % historySize = l % historySize := by
    rw [slot_of_eq_iff, Nat.mod_mod]
  simp only [Function.update_apply, same]

theorem keeps_remember {h : History} {past : Past} {lines : List Text} (keeps : Keeps h past lines)
    {line : Buffer} {s : Text} (text : IsText line s) (room : s.length < textLimit) :
    Keeps (remember h line s.length) (past.remember h.historyCurrent s)
      (if s = [] then lines else lines ++ [s]) := by
  have holds := remember_holds keeps.holds text
  by_cases empty : s = []
  · subst empty
    simpa [Past.remember, remember] using keeps
  · have nonzero : s.length > 0 := List.length_pos_iff.mpr empty
    have current := keeps.current
    simp only [empty, if_false]
    refine ⟨holds, ?_, fun _ => ?_, fun slot => ?_, ?_⟩
    · simp only [remember, nonzero, if_true, current, slot_after_of, List.length_append,
        List.length_singleton]
    · by_cases few : past.count < historySize
      · simp only [Past.remember, empty, few, if_true, if_false]
        omega
      · simp only [Past.remember, empty, few, if_false]
        simp only [historySize] at few
        omega
    · simp only [Past.remember, empty, if_false]
      by_cases here : slot = h.historyCurrent
      · subst here
        simpa only [Function.update_self] using room
      · simpa only [Function.update_of_ne here] using keeps.short slot
    · simp only [Past.remember, empty, if_false, current]
      -- the new line takes the row of the line ten before it
      have pushed := window_push keeps.window s ((lines ++ [s]).length - historySize)
        (by rw [List.length_append]; omega)
        (by rw [List.length_append, List.length_singleton]; simp only [historySize]; omega)
      exact window_congr pushed (fun k => update_slot past.text k lines.length s)

theorem run_keeps {h : History} {lines : List Text} (run : EnteredRun h lines) :
    ∃ past, Keeps h past lines := by
  induction run with
  | start => exact ⟨_, zero_keeps⟩
  | call before console line bytes r s returned entered text ih =>
      obtain ⟨past, keeps⟩ := ih
      obtain ⟨d, _, drafted, room, kept⟩ :=
        entered_draft keeps.holds console line bytes returned entered
      have same := cstring_unique text (text_cstring drafted)
      subst same
      exact ⟨_, kept ▸ keeps_remember keeps drafted room⟩

def upKeys : Nat → List UInt8
  | 0 => []
  | k + 1 => 0x1B :: 0x5B :: 0x41 :: upKeys k

/-- `k` slots back, around the ring. -/
def slotBack (k : Nat) (p : Slot) : Slot :=
  ⟨(p.val + (historySize - 1) * k) % historySize, Nat.mod_lt _ (by decide)⟩

theorem slot_back_succ (k : Nat) (p : Slot) : slotBack k (slotBefore p) = slotBack (k + 1) p := by
  apply Fin.ext
  simp only [slotBack, slotBefore, historySize]
  omega

theorem slot_back_of (k n : Nat) (stored : k ≤ n) : slotBack k (slotOf n) = slotOf (n - k) := by
  apply Fin.ext
  simp only [slotBack, slotOf, historySize]
  omega

theorem up_key_run {past : Past} (stored : past.count > 0) (rest : List UInt8)
    (text : Text) (room : text.length < textLimit) (p : Slot) :
    editLoop past (0x1B :: 0x5B :: 0x41 :: rest) ⟨text, .text, p⟩ =
      editLoop past rest (recallDraft past (slotBefore p)) := by
  simp [editLoop, edit, room, stored]

theorem up_keys_run {past : Past} (stored : past.count > 0)
    (short : ∀ slot, (past.text slot).length < textLimit) (k : Nat) (rest : List UInt8)
    (text : Text) (room : text.length < textLimit) (p : Slot) :
    editLoop past (upKeys (k + 1) ++ rest) ⟨text, .text, p⟩ =
      editLoop past rest (recallDraft past (slotBack (k + 1) p)) := by
  induction k generalizing text p with
  | zero => exact up_key_run stored rest text room p
  | succ k ih =>
      -- an arrow drops what was being edited, so the next one starts from any text
      have first := up_key_run stored (upKeys (k + 1) ++ rest) text room p
      have others := ih (past.text (slotBefore p)) (short _) (slotBefore p)
      rw [slot_back_succ] at others
      exact first.trans others

/-- After any run of entered calls, `k` Up arrows and Enter return the `k`-th
most recent non-empty line. -/
theorem recall_returns_recent {h : History} {lines : List Text} (run : EnteredRun h lines)
    (k : Nat) (pressed : 1 ≤ k) (stored : k ≤ min historySize lines.length) (console : Console)
    (line : Buffer) (rest : List UInt8) :
    ∃ r s, nexusReadline h console line lineSize (upKeys k ++ 0x0A :: rest) = .done r ∧
      r.entered = true ∧ r.rest = rest ∧ lines[lines.length - k]? = some s ∧ CString r.line s := by
  obtain ⟨past, keeps⟩ := run_keeps run
  have few : k ≤ lines.length := Nat.le_trans stored (Nat.min_le_right _ _)
  have recent : k ≤ historySize := Nat.le_trans stored (Nat.min_le_left _ _)
  have inside : lines.length - k < lines.length := by omega
  have nonempty : lines ≠ [] := List.ne_nil_of_length_pos (by omega)
  have found := List.getElem?_eq_getElem inside
  have walked : editLoop past (upKeys k ++ 0x0A :: rest) (emptyDraft h.historyCurrent) =
      .entered (recallDraft past (slotOf (lines.length - k))) rest := by
    obtain ⟨j, rfl⟩ := Nat.exists_eq_add_of_le' pressed
    rw [emptyDraft, up_keys_run (keeps.stored nonempty) keeps.short j _ [] (by decide),
      keeps.current, slot_back_of _ _ few]
    simp [editLoop, edit, recallDraft, keeps.short]
  obtain ⟨r, returned, byEnter, left, text, _⟩ := draft_entered keeps.holds console line _ walked
  have row : past.text (slotOf (lines.length - k)) = lines[lines.length - k] := by
    have cell := keeps.window.cell (lines.length - k) _ (by omega) found
    rwa [show slotOf ((lines.length - k) % historySize) = slotOf (lines.length - k) by
      rw [slot_of_eq_iff, Nat.mod_mod]] at cell
  exact ⟨r, _, returned, byEnter, left, found, row ▸ text_cstring text⟩

theorem typed_line_returned {h : History} (sound : Sound h) (console : Console) (line : Buffer)
    (s : Text) (printable : ∀ c ∈ s, Printable c) (room : s.length < textLimit) :
    ∃ r, nexusReadline h console line lineSize (s ++ [0x0A]) = .done r ∧ r.entered = true ∧
      CString r.line s := by
  have drafted : editLoop (pastOf h) (s ++ [0x0A]) (emptyDraft h.historyCurrent) =
      .entered ⟨s, .text, h.historyCurrent⟩ [] := by
    rw [emptyDraft, typed_run _ _ _ _ _ printable (by simpa using Nat.le_of_lt room)]
    simp [editLoop, edit, room]
  obtain ⟨r, returned, byEnter, _, text, _⟩ := draft_entered sound console line _ drafted
  exact ⟨r, returned, byEnter, text_cstring text⟩

theorem typed_lines_run (lines : List Text)
    (typed : ∀ s ∈ lines, s ≠ [] ∧ (∀ c ∈ s, Printable c) ∧ s.length < textLimit) :
    ∃ h, EnteredRun h lines := by
  induction lines using List.reverseRecOn with
  | nil => exact ⟨_, .start⟩
  | append_singleton lines s ih =>
      rcases ih (fun t member => typed t (List.mem_append_left _ member)) with ⟨h, run⟩
      rcases typed s (List.mem_append_right _ (List.mem_singleton_self s)) with
        ⟨nonempty, printable, room⟩
      rcases run_keeps run with ⟨past, keeps⟩
      rcases typed_line_returned (holds_sound keeps.holds) powerOn (Vector.replicate lineSize 0) s
        printable room with ⟨r, returned, byEnter, text⟩
      have more := EnteredRun.call run powerOn _ _ r s returned byEnter text
      rw [if_neg nonempty] at more
      exact ⟨r.history, more⟩

/-- The first `n` commands a, b, c and so on, of one letter each. -/
def letterLines (n : Nat) : List Text := (List.range n).map fun k => [UInt8.ofNat (0x61 + k)]

theorem letter_lines_run {n : Nat} (few : n ≤ 26) : ∃ h, EnteredRun h (letterLines n) := by
  have letters : ∀ k < 26, Printable (UInt8.ofNat (0x61 + k)) := by decide
  apply typed_lines_run
  intro s member
  rcases List.mem_map.mp member with ⟨k, inside, rfl⟩
  have visible := letters k (Nat.lt_of_lt_of_le (List.mem_range.mp inside) few)
  exact ⟨List.cons_ne_nil _ _, fun _ member => List.mem_singleton.mp member ▸ visible,
    Nat.le_of_ble_eq_true rfl⟩

/-- Twelve commands in, ten Up arrows reach the third: the first two are lost. -/
theorem third_command_recalled : ∃ h, EnteredRun h (letterLines 12) ∧
    ∃ r, nexusReadline h powerOn (Vector.replicate lineSize 0xCC) lineSize
        (upKeys 10 ++ 0x0A :: [0x78]) = .done r ∧
      r.entered = true ∧ r.rest = [0x78] ∧ CString r.line [0x63] := by
  obtain ⟨h, run⟩ := @letter_lines_run 12 (by decide)
  obtain ⟨r, s, returned, byEnter, left, third, text⟩ :=
    recall_returns_recent run 10 (by decide) (by decide) powerOn (Vector.replicate lineSize 0xCC)
      [0x78]
  cases third
  exact ⟨h, run, r, returned, byEnter, left, text⟩

end NexusOS.CommandHistory
