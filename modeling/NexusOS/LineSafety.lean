import NexusOS.LineDraft

/-!
Memory safety of `nexus_readline` over runs of calls that share the history.
A call that reaches its bound on `i` returns without writing a terminator, so
whether it is safe depends on the byte the caller left in `line[255]`; a row
stored without a terminator is what a later recall would run past.
-/

namespace NexusOS.LineSafety

open VgaConsole LineEditor LineDraft

structure Call where
  console : Console
  line : Buffer
  bytes : List UInt8

def invoke (h : History) (call : Call) : Outcome Return :=
  nexusReadline h call.console call.line lineSize call.bytes

/-- No access left an array, and a returned line is a printable C string that
`strlen` and the copy into `exec_buf` stay inside of. -/
def Safe : Outcome Return → Prop
  | .waiting _ => True
  | .done r => ∃ s, IsText r.line s ∧ strlenIn r.line.toList = some s.length ∧
      ∀ execBuf, ∃ filled, fillExecBuf r.line execBuf = some (filled, s.length + 1)
  | .fault => False

def RunSafe : History → List Call → Prop
  | _, [] => True
  | h, call :: rest => Safe (invoke h call) ∧
      ∀ r, invoke h call = .done r → RunSafe r.history rest

def Fills (past : Past) (slot : Slot) (bytes : List UInt8) : Prop :=
  ∃ d rest, editLoop past bytes (emptyDraft slot) = .full d rest

def Guarded (h : History) (call : Call) : Prop :=
  lastByte call.line = 0 ∨ ¬ Fills (pastOf h) h.historyCurrent call.bytes

def RunGuarded : History → List Call → Prop
  | _, [] => True
  | h, call :: rest => Guarded h call ∧
      ∀ r, invoke h call = .done r → RunGuarded r.history rest

theorem strlen_exact (s : Text) (tail : List UInt8) (nonzero : ∀ c ∈ s, c ≠ 0) :
    strlenIn (s ++ 0 :: tail) = some s.length := by
  induction s with
  | nil => rfl
  | cons c s ih =>
      have visible := nonzero c List.mem_cons_self
      have rest := ih (fun b member => nonzero b (List.mem_cons_of_mem c member))
      simp [strlenIn, visible, rest]

theorem copy_exec_fits (s : Text) (tail : List UInt8) (execBuf : Vector UInt8 execSize) (len : Nat)
    (nonzero : ∀ c ∈ s, c ≠ 0) (fits : len + s.length ≤ execSize) :
    ∃ filled, copyExec (s ++ 0 :: tail) execBuf len = some (filled, len + s.length) := by
  induction s generalizing execBuf len with
  | nil => exact ⟨execBuf, rfl⟩
  | cons c s ih =>
      have visible := nonzero c List.mem_cons_self
      rw [List.length_cons] at fits
      obtain ⟨filled, copied⟩ := ih (execBuf.set len c (by omega)) (len + 1)
        (fun b member => nonzero b (List.mem_cons_of_mem c member)) (by omega)
      refine ⟨filled, ?_⟩
      simp only [List.cons_append, copyExec, visible, if_false,
        store_inside execBuf len c (by omega), Option.bind_some, copied, List.length_cons]
      congr 2
      omega

theorem fill_exec_fits {line : Buffer} {s : Text} (holds : IsText line s)
    (execBuf : Vector UInt8 execSize) :
    ∃ filled, fillExecBuf line execBuf = some (filled, s.length + 1) := by
  have short := text_length_lt holds
  obtain ⟨printable, tail, split⟩ := holds
  have room : s.length + 1 < execSize := by
    simp only [lineSize, execSize] at *
    omega
  obtain ⟨filled, copied⟩ := copy_exec_fits s tail execBuf 0 (text_nonzero printable) (by omega)
  rw [Nat.zero_add] at copied
  refine ⟨(filled.set s.length 0x0A).set (s.length + 1) 0, ?_⟩
  simp [fillExecBuf, split, copied, store_inside _ _ _ room,
    store_inside filled s.length 0x0A (by omega)]

theorem text_safe {r : Return} {s : Text} (holds : IsText r.line s) : Safe (.done r) := by
  refine ⟨s, holds, ?_, fill_exec_fits holds⟩
  obtain ⟨printable, tail, split⟩ := holds
  rw [split]
  exact strlen_exact s tail (text_nonzero printable)

theorem full_safe_iff {last : UInt8} {r : Return} {s : Text} (printable : ∀ c ∈ s, Printable c)
    (buffer : r.line.toList = s ++ [last]) : Safe (.done r) ↔ last = 0 := by
  constructor
  · rintro ⟨t, ⟨_, tail, split⟩, _⟩
    have nul : (0 : UInt8) ∈ s ++ [last] := by
      rw [← buffer, split]
      simp
    -- the text has no NUL, so the terminator can only be the last byte
    rcases List.mem_append.mp nul with inText | atEnd
    · exact absurd rfl (text_nonzero printable 0 inText)
    · exact (List.mem_singleton.mp atEnd).symm
  · intro nul
    exact text_safe ⟨printable, [], by rw [buffer, nul]⟩

theorem call_safe_iff {h : History} (sound : Sound h) (call : Call) :
    (Safe (invoke h call) ↔ Guarded h call) ∧
      ∀ r, invoke h call = .done r → Safe (.done r) → Sound r.history := by
  have ends := readline_refines unseen_mirrors sound call.console trivial call.line call.bytes
  unfold Guarded Fills invoke
  generalize nexusReadline h call.console call.line lineSize call.bytes = outcome at ends ⊢
  generalize editLoop (pastOf h) call.bytes (emptyDraft h.historyCurrent) = drafted at ends ⊢
  constructor
  · cases ends with
    | waiting rep room => simp [Safe]
    | entered byEnter text room kept => simp [text_safe text]
    | full byBound printable length line kept => simp [full_safe_iff printable line]
  · intro r returned safe
    subst returned
    cases ends with
    | entered byEnter drafted room kept => exact kept ▸ holds_sound (remember_holds sound drafted)
    | full byBound printable length line kept =>
        -- the stored row has no terminator but the one the caller left
        have nul := (full_safe_iff printable line).mp safe
        rw [kept, ← length]
        exact holds_sound (remember_holds sound ⟨printable, [], by rw [line, nul]⟩)

theorem run_safe_iff (calls : List Call) (h : History) (sound : Sound h) :
    RunSafe h calls ↔ RunGuarded h calls := by
  induction calls generalizing h with
  | nil => exact Iff.rfl
  | cons call rest ih =>
      obtain ⟨here, next⟩ := call_safe_iff sound call
      simp only [RunSafe, RunGuarded]
      constructor
      · rintro ⟨safe, later⟩
        refine ⟨here.mp safe, fun r returned => ?_⟩
        exact (ih r.history (next r returned (returned ▸ safe))).mp (later r returned)
      · rintro ⟨guarded, later⟩
        -- a safe call leaves a sound history, from which the rest starts
        have safe := here.mpr guarded
        refine ⟨safe, fun r returned => ?_⟩
        exact (ih r.history (next r returned (returned ▸ safe))).mpr (later r returned)

/-- Over every run of calls from the zeroed history, every call stays in its
arrays and returns a printable C string exactly if each call either finds a NUL
in `line[255]` or reads a text that never reaches 255 characters. -/
theorem readline_safe_iff_guarded (calls : List Call) :
    RunSafe zeroHistory calls ↔ RunGuarded zeroHistory calls :=
  run_safe_iff calls zeroHistory (holds_sound zero_holds)

-- The way a run goes wrong: a text of 255 characters in front of a byte that
-- is not NUL.
theorem filled_call_unsafe (call : Call) (rest : List Call) (unended : lastByte call.line ≠ 0)
    (fills : Fills (pastOf zeroHistory) zeroHistory.historyCurrent call.bytes) :
    ¬ RunSafe zeroHistory (call :: rest) := by
  intro run
  rw [RunSafe] at run
  rcases (call_safe_iff (holds_sound zero_holds) call).1.mp run.1 with nul | short
  · exact unended nul
  · exact short fills

theorem typing_fills (past : Past) (slot : Slot) (c : UInt8) (visible : Printable c) :
    Fills past slot (List.replicate textLimit c) := by
  have printable : ∀ b ∈ List.replicate textLimit c, Printable b := by
    intro b member
    rw [List.eq_of_mem_replicate member]
    exact visible
  have typed := typed_run past (List.replicate textLimit c) [] [] slot printable (by simp)
  rw [List.append_nil] at typed
  refine ⟨⟨List.replicate textLimit c, .text, slot⟩, [], ?_⟩
  rw [emptyDraft, typed]
  simp [editLoop]

def overlongCall : Call where
  console := powerOn
  line := Vector.replicate lineSize 0xCC
  bytes := List.replicate textLimit 0x61

/-- The first call already returns a line with no terminator. -/
theorem overlong_call_unsafe : ¬ RunSafe zeroHistory [overlongCall] := by
  have byte : lastByte (Vector.replicate lineSize 0xCC) = 0xCC :=
    Vector.getElem_replicate _
  apply filled_call_unsafe
  · change lastByte (Vector.replicate lineSize 0xCC) ≠ 0
    rw [byte]
    decide
  · exact typing_fills _ _ 0x61 (by decide)

end NexusOS.LineSafety
