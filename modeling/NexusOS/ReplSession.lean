import NexusOS.LineSafety
import NexusOS.CookedOutput

/-!
The prompt loop of `start_nexus_python` around everything it calls, with
`input()` reading from the same devices, and the script of the disk before it.
What the interpreter makes of a source is a parameter. Beside the loop stands
what a user sees of it: texts edited and submitted, and nothing of buffers.
-/

namespace NexusOS.ReplSession

open VgaConsole LineEditor LineDraft LineSafety CookedOutput

/-- A run of the interpreter that ends, as its input and output show it; one that
computes for ever is not covered. `raised` is an exception that reaches the loop,
with the report printed for it. -/
inductive Program (Env : Type) where
  | finished (env : Env)
  | raised (env : Env) (report : Text)
  | print (str : Text) (next : Program Env)
  | input (next : Text → Program Env)

/-- What all readers and writers share; `calls` counts the calls of `readline`. -/
structure Io where
  history : History
  console : Console
  bytes : List UInt8
  calls : Nat

/-- `readline`; `stack k` is what the stack held at the array of its `k`-th call. -/
def readline (stack : Nat → Buffer) (p : Text) (io : Io) : Outcome (Text × Io) :=
  let console := if p ≠ [] then mpHalStdoutTxStrnCooked p io.console else io.console
  match nexusReadline io.history console (stack io.calls) lineSize io.bytes with
  | .waiting e => .waiting e
  | .fault => .fault
  | .done r =>
      -- `vstr_add_str` measures the line
      match strlenIn r.line.toList with
      | none => .fault
      | some len => .done (r.line.toList.take len, ⟨r.history, r.console, r.rest, io.calls + 1⟩)

section Loop
variable {Env : Type}

/-- `heading` is written before the report of an exception. -/
def execute (stack : Nat → Buffer) (heading : Text) : Program Env → Io → Outcome (Env × Io)
  | .finished env, io => .done (env, io)
  | .raised env report, io =>
      let console := terminalWrite heading io.console
      .done (env, { io with console := mpHalStdoutTxStrnCooked report console })
  | .print str next, io =>
      execute stack heading next { io with console := mpHalStdoutTxStrnCooked str io.console }
  | .input next, io =>
      match readline stack [] io with
      | .waiting e => .waiting e
      | .fault => .fault
      | .done (text, io) => execute stack heading (next text) io

structure Shell (Env : Type) where
  line : Buffer
  execBuf : Vector UInt8 execSize
  env : Env
  io : Io

inductive Stop where
  | waiting
  | fault
  | running
  deriving DecidableEq

def firstByte (buffer : Buffer) : UInt8 := buffer.toList.headD 0

def prompt : Text := [0x3E, 0x3E, 0x3E, 0x20]

/-- The loop for as many passes as there is fuel: the sources handed to the
interpreter, and what the loop came to. -/
def replLoop (interpret : Env → Text → Program Env) (stack : Nat → Buffer) :
    Nat → Shell Env → List Text × Stop
  | 0, _ => ([], .running)
  | fuel + 1, s =>
      match nexusReadline s.io.history (terminalWrite prompt s.io.console) s.line lineSize
        s.io.bytes with
      | .waiting _ => ([], .waiting)
      | .fault => ([], .fault)
      | .done r =>
          let io : Io := ⟨r.history, r.console, r.rest, s.io.calls⟩
          if firstByte r.line = 0 then replLoop interpret stack fuel { s with line := r.line, io }
          else
            match fillExecBuf r.line s.execBuf with
            | none => ([], .fault)
            | some (execBuf, len) =>
                let source := execBuf.toList.take len
                match execute stack [] (interpret s.env source) io with
                | .waiting _ => ([source], .waiting)
                | .fault => ([source], .fault)
                | .done (env, io) =>
                    let later := replLoop interpret stack fuel ⟨r.line, execBuf, env, io⟩
                    (source :: later.1, later.2)

def textOf (str : String) : Text := str.toList.map fun c => UInt8.ofNat c.toNat

def launching : Text := textOf "\n Launching Nexus AI Persona...\n"
def scriptError : Text := textOf " AI Script Error:\n"
def banner : Text := textOf "\n--- Nexus Python v0.1.0 ---\n"
def hint : Text := textOf "Type 'help()' for more info.\n"

def enterLoop (interpret : Env → Text → Program Env) (stack : Nat → Buffer) (fuel : Nat)
    (s : Shell Env) : List Text × Stop :=
  let console := terminalWrite hint (terminalWrite banner s.io.console)
  replLoop interpret stack fuel { s with io := { s.io with console } }

/-- `start_nexus_python` behind its look-up: `script` is what the interpreter makes of
nexus_ai.py, if the disk has one. -/
def startNexusPython (interpret : Env → Text → Program Env) (script : Option (Program Env))
    (stack : Nat → Buffer) (fuel : Nat) (s : Shell Env) : List Text × Stop :=
  match script with
  | none => enterLoop interpret stack fuel s
  | some program =>
      let console := terminalWrite launching s.io.console
      match execute stack scriptError program { s.io with console } with
      | .waiting _ => ([], .waiting)
      | .fault => ([], .fault)
      | .done (env, io) => enterLoop interpret stack fuel { s with env, io }

/-- The user's side: the texts entered before, the bytes to come, the calls of
`readline` so far. -/
structure Desk where
  past : Past
  slot : Slot
  bytes : List UInt8
  calls : Nat

inductive Taken (Result : Type) where
  | waiting
  | taken (result : Result)
  | overrun

/-- One text from the desk. A text of 255 characters is taken without Enter, if the
array happens to end in a NUL. -/
def takeText (last : UInt8) (desk : Desk) : Taken (Text × Desk) :=
  let keep := fun (d : Draft) rest =>
    Taken.taken (d.text, { desk with
      past := desk.past.remember desk.slot d.text
      slot := if d.text = [] then desk.slot else slotAfter desk.slot
      bytes := rest })
  match editLoop desk.past desk.bytes (emptyDraft desk.slot) with
  | .waiting _ => .waiting
  | .entered d rest => keep d rest
  | .full d rest => if last = 0 then keep d rest else .overrun

def converse (lasts : Nat → UInt8) : Program Env → Desk → Taken (Env × Desk)
  | .finished env, desk => .taken (env, desk)
  | .raised env _, desk => .taken (env, desk)
  | .print _ next, desk => converse lasts next desk
  | .input next, desk =>
      match takeText (lasts desk.calls) desk with
      | .waiting => .waiting
      | .overrun => .overrun
      | .taken (text, desk) => converse lasts (next text) { desk with calls := desk.calls + 1 }

def session (interpret : Env → Text → Program Env) (last : UInt8) (lasts : Nat → UInt8) :
    Nat → Env → Desk → List Text × Stop
  | 0, _, _ => ([], .running)
  | fuel + 1, env, desk =>
      match takeText last desk with
      | .waiting => ([], .waiting)
      | .overrun => ([], .fault)
      | .taken (text, desk) =>
          if text = [] then session interpret last lasts fuel env desk
          else
            match converse lasts (interpret env (text ++ [0x0A])) desk with
            | .waiting => ([text ++ [0x0A]], .waiting)
            | .overrun => ([text ++ [0x0A]], .fault)
            | .taken (env, desk) =>
                let later := session interpret last lasts fuel env desk
                ((text ++ [0x0A]) :: later.1, later.2)

def sessionAfter (script : Option (Program Env)) (interpret : Env → Text → Program Env)
    (last : UInt8) (lasts : Nat → UInt8) (fuel : Nat) (env : Env) (desk : Desk) :
    List Text × Stop :=
  match script with
  | none => session interpret last lasts fuel env desk
  | some program =>
      match converse lasts program desk with
      | .waiting => ([], .waiting)
      | .overrun => ([], .fault)
      | .taken (env, desk) => session interpret last lasts fuel env desk

end Loop

section Texts

theorem strlen_open {row : List UInt8} (nonzero : ∀ c ∈ row, c ≠ 0) : strlenIn row = none := by
  induction row with
  | nil => rfl
  | cons c rest ih =>
      have visible := nonzero c List.mem_cons_self
      have tail := ih fun b member => nonzero b (List.mem_cons_of_mem c member)
      rw [strlenIn, if_neg visible, tail]
      rfl

theorem copy_exec_open {row : List UInt8} (nonzero : ∀ c ∈ row, c ≠ 0)
    (execBuf : Vector UInt8 execSize) (len : Nat) : copyExec row execBuf len = none := by
  induction row generalizing execBuf len with
  | nil => rfl
  | cons c rest ih =>
      have visible := nonzero c List.mem_cons_self
      rw [copyExec, if_neg visible]
      cases storeAt execBuf len c with
      | none => rfl
      | some stored => exact ih (fun b member => nonzero b (List.mem_cons_of_mem c member)) stored _

-- What lies below the place the copy has reached stays.
theorem copy_exec_holds {s tail : List UInt8} {execBuf filled : Vector UInt8 execSize}
    {len reached : Nat} (nonzero : ∀ c ∈ s, c ≠ 0) (fits : len + s.length ≤ execSize)
    (copied : copyExec (s ++ 0 :: tail) execBuf len = some (filled, reached)) :
    reached = len + s.length ∧
      filled.toList.take (len + s.length) = execBuf.toList.take len ++ s := by
  induction s generalizing execBuf len with
  | nil =>
      simp only [List.nil_append, copyExec, ↓reduceIte, Option.some.injEq, Prod.mk.injEq] at copied
      rcases copied with ⟨rfl, rfl⟩
      exact ⟨rfl, (List.append_nil _).symm⟩
  | cons c s ih =>
      have visible := nonzero c List.mem_cons_self
      rw [List.length_cons] at fits ⊢
      have inside : len < execSize := by omega
      simp only [List.cons_append, copyExec, visible, ↓reduceIte, store_inside _ _ _ inside,
        Option.bind_some] at copied
      rcases ih (fun b member => nonzero b (List.mem_cons_of_mem c member)) (by omega) copied with
        ⟨length, held⟩
      have whole : len + (s.length + 1) = len + 1 + s.length := by omega
      rw [whole]
      refine ⟨length, held.trans ?_⟩
      rw [Vector.toList_set, take_set_self _ _ _ (by simpa using inside), List.append_assoc,
        List.singleton_append]

theorem fill_exec_source {line : Buffer} {s : Text} (text : IsText line s)
    (execBuf : Vector UInt8 execSize) :
    ∃ filled, fillExecBuf line execBuf = some (filled, s.length + 1) ∧
      filled.toList.take (s.length + 1) = s ++ [0x0A] := by
  have short := text_length_lt text
  obtain ⟨printable, tail, split⟩ := text
  have room : s.length + 1 < execSize := by
    simp only [lineSize, execSize] at *
    omega
  have nonzero := text_nonzero printable
  rcases copy_exec_fits s tail execBuf 0 nonzero (by omega) with ⟨filled, copied⟩
  rcases copy_exec_holds nonzero (by omega) copied with ⟨_, held⟩
  simp only [Nat.zero_add] at copied held
  refine ⟨(filled.set s.length 0x0A).set (s.length + 1) 0, ?_, ?_⟩
  · simp [fillExecBuf, split, copied, store_inside _ _ _ room,
      store_inside filled s.length 0x0A (by omega)]
  · have inside : s.length < filled.toList.length := by
      rw [Vector.length_toList]
      omega
    rw [Vector.toList_set, List.take_set_of_le (Nat.le_refl _), Vector.toList_set,
      take_set_self _ _ _ inside, held, List.take_zero, List.nil_append]

theorem fill_exec_open {line : Buffer} (nonzero : ∀ c ∈ line.toList, c ≠ 0)
    (execBuf : Vector UInt8 execSize) : fillExecBuf line execBuf = none := by
  rw [fillExecBuf, copy_exec_open nonzero]
  rfl

theorem strlen_text {line : Buffer} {s : Text} (text : IsText line s) :
    strlenIn line.toList = some s.length ∧ line.toList.take s.length = s := by
  obtain ⟨printable, tail, split⟩ := text
  rw [split]
  exact ⟨strlen_exact s tail (text_nonzero printable), List.take_left⟩

theorem first_byte_iff {row : Buffer} {s : Text} (text : IsText row s) :
    firstByte row = 0 ↔ s = [] := by
  obtain ⟨printable, tail, split⟩ := text
  rw [firstByte, split]
  cases s with
  | nil => simp
  | cons c rest =>
      have visible := text_nonzero printable c List.mem_cons_self
      simp [visible]

theorem first_byte_open {row : Buffer} (nonzero : ∀ c ∈ row.toList, c ≠ 0) :
    firstByte row ≠ 0 := by
  have nonempty : row.toList ≠ [] :=
    List.ne_nil_of_length_pos (by rw [Vector.length_toList]; decide)
  rcases List.exists_cons_of_ne_nil nonempty with ⟨c, rest, split⟩
  rw [firstByte, split]
  exact nonzero c (split ▸ List.mem_cons_self)

theorem stop_submits {h : History} {e after : Editor} {c : UInt8}
    (stops : onByte h e c = .stop after) : submit e = some after := by
  have goes : ∀ next : Option Editor, Turn.goOn next ≠ .stop after := by
    intro next
    cases next <;> nofun
  cases esc : e.escState with
  | text =>
      simp only [onByte, esc] at stops
      split at stops
      · cases stops
      split at stops
      · cases stored : submit e with
        | none => simp [stored, Turn.breakOut] at stops
        | some e' => simpa [stored, Turn.breakOut] using stops
      split at stops
      · cases stops
      split at stops
      · exact absurd stops (goes _)
      · cases stops
  | escape =>
      simp only [onByte, esc] at stops
      split at stops <;> cases stops
  | bracket =>
      simp only [onByte, esc] at stops
      split at stops
      · split at stops
        · exact absurd stops (goes _)
        · cases stops
      split at stops
      · split at stops
        · exact absurd stops (goes _)
        · cases stops
      · cases stops

-- Submitting writes below the bound too, so the last byte outlives every call.
theorem loop_last {last : UInt8} {h : History} {past : Past} (holds : Holds h past)
    {bytes : List UInt8} {e : Editor} {d : Draft} {exit : Exit}
    (rep : Represents unseen last e d) (ends : readLoop h lineSize bytes e = .done exit) :
    exit.editor.line.toList[textLimit]? = some last := by
  induction bytes generalizing e d with
  | nil =>
      rw [readLoop] at ends
      split at ends
      · cases ends
      · cases ends
        exact rep.last
  | cons c rest ih =>
      rw [readLoop] at ends
      split at ends
      case isFalse =>
        cases ends
        exact rep.last
      case isTrue room =>
        have turn := edit_refines unseen_mirrors rep holds ((loop_bound rep).mp room) c
        cases edited : edit past d c with
        | some d' =>
            rw [edited] at turn
            rcases turn with ⟨e', went, after⟩
            rw [went] at ends
            exact ih after ends
        | none =>
            rw [edited] at turn
            rcases turn with ⟨e', stopped, _⟩
            rw [stopped] at ends
            cases ends
            have submitted := stop_submits stopped
            have inside : e.i < lineSize := by
              simp only [lineSize] at room ⊢
              omega
            simp only [submit, store_inside _ _ _ inside, Option.map_some, Option.some.injEq]
              at submitted
            subst submitted
            have elsewhere : e.i ≠ textLimit := by
              simp only [textLimit]
              omega
            simp only [Vector.toList_set]
            rw [List.getElem?_set_ne elsewhere]
            exact rep.last

theorem readline_last {h : History} {past : Past} (holds : Holds h past) {console : Console}
    {line : Buffer} {bytes : List UInt8} {r : Return}
    (returned : nexusReadline h console line lineSize bytes = .done r) :
    lastByte r.line = lastByte line := by
  rw [nexusReadline] at returned
  split at returned
  case h_1 => cases returned
  case h_2 => cases returned
  case h_3 exit ended =>
    cases returned
    have kept := loop_last holds (enter_represents h console trivial line) ended
    have inside : textLimit < exit.editor.line.toList.length := by
      rw [Vector.length_toList]
      decide
    rw [List.getElem?_eq_getElem inside] at kept
    exact Option.some.inj kept

end Texts

section Refinement

/-- The history of the machine holds the past of the desk. -/
structure Matches (h : History) (desk : Desk) : Prop where
  holds : Holds h desk.past
  slot : h.historyCurrent = desk.slot

/-- What a call of `nexus_readline` comes to, for one who takes the text. -/
inductive Takes (last : UInt8) (desk : Desk) : Outcome Return → Taken (Text × Desk) → Prop where
  | waiting {e : Editor} : Takes last desk (.waiting e) .waiting
  | taken {r : Return} {text : Text} {after : Desk} (agrees : IsText r.line text)
      (fits : text.length ≤ textLimit) (same : lastByte r.line = last)
      (kept : Matches r.history after) (left : after.bytes = r.rest)
      (fewer : r.rest.length < desk.bytes.length) (calls : after.calls = desk.calls) :
      Takes last desk (.done r) (.taken (text, after))
  | overrun {r : Return} (nonzero : ∀ c ∈ r.line.toList, c ≠ 0) :
      Takes last desk (.done r) .overrun

theorem remember_matches {h : History} {desk : Desk} {line : Buffer} {text : Text}
    (same : Matches h desk) (agrees : IsText line text) (rest : List UInt8) :
    Matches (remember h line text.length)
      { desk with
        past := desk.past.remember desk.slot text
        slot := if text = [] then desk.slot else slotAfter desk.slot
        bytes := rest } := by
  refine ⟨same.slot ▸ remember_holds same.holds agrees, ?_⟩
  by_cases empty : text = []
  · subst empty
    exact same.slot
  · have typed : text.length > 0 := List.length_pos_iff.mpr empty
    simp only [remember, typed, if_true, empty, if_false, same.slot]

theorem edit_loop_reads {past : Past} {bytes rest : List UInt8} {d after : Draft}
    (room : d.text.length < textLimit)
    (ends : editLoop past bytes d = .entered after rest ∨
      editLoop past bytes d = .full after rest) :
    rest.length < bytes.length := by
  induction bytes generalizing d with
  | nil => simp [editLoop, room] at ends
  | cons c tail ih =>
      simp only [editLoop, room, if_true] at ends
      cases edited : edit past d c with
      | none =>
          simp only [edited, DraftEnd.entered.injEq, reduceCtorEq, or_false] at ends
          rw [← ends.2]
          exact Nat.lt_succ_self _
      | some next =>
          simp only [edited] at ends
          by_cases more : next.text.length < textLimit
          · exact Nat.lt_succ_of_lt (ih more ends)
          · have stopped : editLoop past tail next = .full next tail := by
              cases tail <;> simp [editLoop, more]
            simp only [stopped, DraftEnd.full.injEq, reduceCtorEq, false_or] at ends
            rw [← ends.2]
            exact Nat.lt_succ_self _

theorem take_refines {h : History} {desk : Desk} (same : Matches h desk) (console : Console)
    (line : Buffer) : Takes (lastByte line) desk
      (nexusReadline h console line lineSize desk.bytes) (takeText (lastByte line) desk) := by
  have ends := readline_refines unseen_mirrors same.holds console trivial line desk.bytes
  have last : ∀ {r}, nexusReadline h console line lineSize desk.bytes = .done r →
      lastByte r.line = lastByte line := fun returned => readline_last same.holds returned
  have reads : ∀ {after rest},
      editLoop desk.past desk.bytes (emptyDraft desk.slot) = .entered after rest ∨
        editLoop desk.past desk.bytes (emptyDraft desk.slot) = .full after rest →
      rest.length < desk.bytes.length := by
    have room : (emptyDraft desk.slot).text.length < textLimit := Nat.zero_lt_succ 254
    intro after rest ends
    exact edit_loop_reads room ends
  rw [takeText]
  rw [same.slot] at ends
  generalize nexusReadline h console line lineSize desk.bytes = outcome at ends last ⊢
  generalize editLoop desk.past desk.bytes (emptyDraft desk.slot) = drafted at ends reads ⊢
  cases ends with
  | waiting rep room => exact .waiting
  | entered byEnter text room kept =>
      exact .taken text (Nat.le_of_lt room) (last rfl) (kept ▸ remember_matches same text _) rfl
        (reads (Or.inl rfl)) rfl
  | full byBound printable length line' kept =>
      by_cases nul : lastByte line = 0
      · have text : IsText _ _ := ⟨printable, [], by rw [line', nul]⟩
        simp only [if_pos nul]
        exact .taken text (Nat.le_of_eq length) (last rfl)
          (kept ▸ length ▸ remember_matches same text _) rfl (reads (Or.inr rfl)) rfl
      · simp only [if_neg nul]
        refine .overrun fun c member => ?_
        rw [line'] at member
        rcases List.mem_append.mp member with inText | atEnd
        · exact text_nonzero printable c inText
        · exact List.mem_singleton.mp atEnd ▸ nul

inductive Agree {Left Right : Type} (related : Left → Right → Prop) :
    Outcome Left → Taken Right → Prop where
  | waiting {e : Editor} : Agree related (.waiting e) .waiting
  | overrun : Agree related .fault .overrun
  | taken {left : Left} {right : Right} (agrees : related left right) :
      Agree related (.done left) (.taken right)

/-- The machine's devices and the desk show the same, with at most `n` bytes to come. -/
structure Shows (n : Nat) (io : Io) (desk : Desk) : Prop where
  same : Matches io.history desk
  bytes : io.bytes = desk.bytes
  calls : io.calls = desk.calls
  most : desk.bytes.length ≤ n

theorem Shows.drawn {n : Nat} {io : Io} {desk : Desk} (shows : Shows n io desk)
    (console : Console) : Shows n { io with console } desk :=
  ⟨shows.same, shows.bytes, shows.calls, shows.most⟩

theorem readline_refines {n : Nat} {io : Io} {desk : Desk} (shows : Shows n io desk)
    (stack : Nat → Buffer) :
    Agree (fun left right => left.1 = right.1 ∧
        Shows n left.2 { right.2 with calls := right.2.calls + 1 })
      (readline stack [] io) (takeText (lastByte (stack desk.calls)) desk) := by
  have took := take_refines shows.same io.console (stack io.calls)
  rw [← shows.bytes] at took
  simp only [readline, ne_eq, not_true_eq_false, ↓reduceIte]
  rw [← shows.calls]
  generalize nexusReadline io.history io.console (stack io.calls) lineSize io.bytes = outcome
    at took ⊢
  generalize takeText (lastByte (stack io.calls)) desk = taken at took ⊢
  cases took with
  | waiting => exact .waiting
  | taken agrees fits last kept left fewer calls =>
      rcases strlen_text agrees with ⟨measured, text⟩
      simp only [measured]
      refine .taken ⟨text, ⟨kept.holds, kept.slot⟩, left.symm, ?_, ?_⟩
      · simp only [calls, shows.calls]
      · rw [left]
        exact Nat.le_trans (Nat.le_of_lt fewer) shows.most
  | overrun nonzero =>
      simp only [strlen_open nonzero]
      exact .overrun

variable {Env : Type}

theorem execute_refines {n : Nat} (stack : Nat → Buffer) (heading : Text)
    (program : Program Env) {io : Io} {desk : Desk} (shows : Shows n io desk) :
    Agree (fun left right => left.1 = right.1 ∧ Shows n left.2 right.2)
      (execute stack heading program io) (converse (fun k => lastByte (stack k)) program desk) := by
  induction program generalizing io desk with
  | finished env => exact .taken ⟨rfl, shows⟩
  | raised env report => exact .taken ⟨rfl, shows.drawn _⟩
  | print str next ih => exact ih (shows.drawn _)
  | input next ih =>
      have read := readline_refines shows stack
      rw [execute, converse]
      generalize readline stack [] io = outcome at read ⊢
      generalize takeText (lastByte (stack desk.calls)) desk = taken at read ⊢
      cases read with
      | waiting => exact .waiting
      | overrun => exact .overrun
      | @taken left right agrees =>
          rcases left with ⟨text, after⟩
          rcases right with ⟨same, later⟩
          rcases agrees with ⟨rfl, kept⟩
          exact ih text kept

/-- A source the loop may hand over: a line of text and its newline. -/
def Source (source : Text) : Prop :=
  ∃ text, source = text ++ [0x0A] ∧ text ≠ [] ∧ text.length ≤ textLimit ∧ ∀ c ∈ text, Printable c

structure LoopExact (n fuel : Nat) (ran told : List Text × Stop) : Prop where
  same : ran = told
  sources : ∀ source ∈ ran.1, Source source
  stops : n < fuel → ran.2 ≠ .running

theorem exact_nothing {n fuel : Nat} {stop : Stop} (stopped : stop ≠ .running) :
    LoopExact n fuel ([], stop) ([], stop) :=
  ⟨rfl, nofun, fun _ => stopped⟩

theorem exact_source {n fuel : Nat} {source : Text} {stop : Stop} (agrees : Source source)
    (stopped : stop ≠ .running) : LoopExact n fuel ([source], stop) ([source], stop) :=
  ⟨rfl, fun _ member => List.mem_singleton.mp member ▸ agrees, fun _ => stopped⟩

-- By induction on the passes: each takes one text, and with it at least one byte.
theorem loop_exact (interpret : Env → Text → Program Env) (stack : Nat → Buffer) (fuel : Nat)
    {n : Nat} {s : Shell Env} {desk : Desk} (shows : Shows n s.io desk) :
    LoopExact n fuel (replLoop interpret stack fuel s)
      (session interpret (lastByte s.line) (fun k => lastByte (stack k)) fuel s.env desk) := by
  induction fuel generalizing n s desk with
  | zero => exact ⟨rfl, nofun, fun less => absurd less (Nat.not_lt_zero n)⟩
  | succ fuel ih =>
      have took := take_refines shows.same (terminalWrite prompt s.io.console) s.line
      rw [← shows.bytes] at took
      rw [replLoop, session]
      generalize nexusReadline s.io.history (terminalWrite prompt s.io.console) s.line lineSize
        s.io.bytes = outcome at took ⊢
      generalize takeText (lastByte s.line) desk = taken at took ⊢
      cases took with
      | waiting => exact exact_nothing nofun
      | @overrun r nonzero =>
          have first := first_byte_open nonzero
          simp only [if_neg first, fill_exec_open nonzero]
          exact exact_nothing nofun
      | @taken r text after agrees fits last kept left fewer calls =>
          have next : Shows r.rest.length ⟨r.history, r.console, r.rest, s.io.calls⟩ after :=
            ⟨kept, left.symm, shows.calls.trans calls.symm, Nat.le_of_eq (congrArg _ left)⟩
          have less : n < fuel + 1 → r.rest.length < fuel := fun enough =>
            Nat.lt_of_lt_of_le (Nat.lt_of_lt_of_le fewer shows.most) (Nat.le_of_lt_succ enough)
          by_cases empty : text = []
          · simp only [(first_byte_iff agrees).mpr empty, if_pos empty, if_true]
            have later := ih (s := { s with line := r.line, io := _ }) next
            simp only [last] at later
            exact ⟨later.same, later.sources, fun enough => later.stops (less enough)⟩
          · have first : firstByte r.line ≠ 0 := fun zero => empty ((first_byte_iff agrees).mp zero)
            have legal : Source (text ++ [0x0A]) := ⟨text, rfl, empty, fits, agrees.1⟩
            rcases fill_exec_source agrees s.execBuf with ⟨filled, copied, source⟩
            simp only [if_neg first, if_neg empty, copied, source]
            have ran := execute_refines stack [] (interpret s.env (text ++ [0x0A])) next
            generalize execute stack [] (interpret s.env (text ++ [0x0A]))
              ⟨r.history, r.console, r.rest, s.io.calls⟩ = outcome at ran ⊢
            generalize converse (fun k => lastByte (stack k)) (interpret s.env (text ++ [0x0A]))
              after = talked at ran ⊢
            cases ran with
            | waiting => exact exact_source legal nofun
            | overrun => exact exact_source legal nofun
            | @taken left right agrees =>
                rcases left with ⟨env, io⟩
                rcases right with ⟨reached, desk⟩
                rcases agrees with ⟨rfl, shown⟩
                have later := ih (s := ⟨r.line, filled, env, io⟩) shown
                simp only [last] at later
                refine ⟨?_, fun source member => ?_, fun enough => later.stops (less enough)⟩
                · simp only [later.same]
                · rcases List.mem_cons.mp member with rfl | more
                  · exact legal
                  · exact later.sources source more

theorem enter_exact (interpret : Env → Text → Program Env) (stack : Nat → Buffer) (fuel : Nat)
    {n : Nat} {s : Shell Env} {desk : Desk} (shows : Shows n s.io desk) :
    LoopExact n fuel (enterLoop interpret stack fuel s)
      (session interpret (lastByte s.line) (fun k => lastByte (stack k)) fuel s.env desk) :=
  loop_exact interpret stack fuel (s := { s with io := { s.io with console := _ } })
    (shows.drawn _)

/-- Whatever the script of the disk reads first, whatever is typed and whatever the
interpreter does with it, the loop hands over the texts that a user at an editor with
a history of ten lines submits, and stops only to wait for more, or at a text of 255
characters in an array without a NUL. -/
theorem repl_exact (interpret : Env → Text → Program Env) (script : Option (Program Env))
    (stack : Nat → Buffer) (line : Buffer) (execBuf : Vector UInt8 execSize) (env : Env)
    (console : Console) (bytes : List UInt8) (extra : Nat) :
    let ran := startNexusPython interpret script stack (bytes.length + 1 + extra)
      ⟨line, execBuf, env, ⟨zeroHistory, console, bytes, 0⟩⟩
    ran = sessionAfter script interpret (lastByte line) (fun k => lastByte (stack k))
        (bytes.length + 1 + extra) env ⟨⟨fun _ => [], 0⟩, zeroHistory.historyCurrent, bytes, 0⟩ ∧
      ran.2 ≠ .running ∧ ∀ source ∈ ran.1, Source source := by
  have shows : Shows bytes.length ⟨zeroHistory, console, bytes, 0⟩
      ⟨⟨fun _ => [], 0⟩, zeroHistory.historyCurrent, bytes, 0⟩ :=
    ⟨⟨zero_holds, rfl⟩, rfl, rfl, Nat.le_refl _⟩
  have enough : bytes.length < bytes.length + 1 + extra := by omega
  cases script with
  | none =>
      have looped := enter_exact interpret stack (bytes.length + 1 + extra)
        (s := ⟨line, execBuf, env, ⟨zeroHistory, console, bytes, 0⟩⟩) shows
      exact ⟨looped.same, looped.stops enough, looped.sources⟩
  | some program =>
      have ran := execute_refines stack scriptError program
        (shows.drawn (terminalWrite launching console))
      simp only [startNexusPython, sessionAfter]
      generalize execute stack scriptError program _ = outcome at ran ⊢
      generalize converse _ program _ = talked at ran ⊢
      cases ran with
      | waiting => exact ⟨rfl, nofun, nofun⟩
      | overrun => exact ⟨rfl, nofun, nofun⟩
      | @taken left right agrees =>
          rcases left with ⟨env, io⟩
          rcases right with ⟨reached, desk⟩
          rcases agrees with ⟨rfl, shown⟩
          have looped := enter_exact interpret stack (bytes.length + 1 + extra)
            (s := ⟨line, execBuf, env, io⟩) shown
          exact ⟨looped.same, looped.stops enough, looped.sources⟩

end Refinement

end NexusOS.ReplSession
