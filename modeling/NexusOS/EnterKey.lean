import NexusOS.EscapeSyntax
import NexusOS.KeyboardRing
import NexusOS.ScancodeDecoder

/-!
From the Enter key to the end of a `nexus_readline` call: the interrupt handler
decodes scan codes and puts bytes in the ring at any moment, the consumer takes
them out access by access, and successive calls read what it took. The Enter key
ends the call that reads its byte exactly when the keys before it left no escape
sequence open; a bare Esc does, and its sequence swallows the newline.
-/

namespace NexusOS.EnterKey

open VgaConsole LineEditor LineDraft EscapeSyntax KeyboardRing ScancodeDecoder

structure Machine where
  keyboard : Keyboard
  system : System

def boot : Machine := ⟨ScancodeDecoder.powerOn, start⟩

inductive Consumption where
  | callHasData
  | callGetc
  | access

def Consumption.action : Consumption → Action
  | .callHasData => .callHasData
  | .callGetc => .callGetc
  | .access => .access

inductive Happening where
  | scan (code : UInt8)
  | consume (consumption : Consumption)

def putAll (bytes : List UInt8) (s : System) : System := run (bytes.map Action.put) s

def happen (m : Machine) : Happening → Machine
  | .scan code =>
      ⟨(keyboardHandler m.keyboard code).1, putAll (keyboardHandler m.keyboard code).2 m.system⟩
  | .consume consumption => { m with system := step m.system consumption.action }

def happenAll : List Happening → Machine → Machine
  | [], m => m
  | h :: rest, m => happenAll rest (happen m h)

def codesOf : List Happening → List UInt8
  | [] => []
  | .scan code :: rest => code :: codesOf rest
  | .consume _ :: rest => codesOf rest

def RoomFor : List UInt8 → System → Prop
  | [], _ => True
  | c :: rest, s => hasRoom s.ring ∧ RoomFor rest (step s (.put c))

def NeverFull : List Happening → Machine → Prop
  | [], _ => True
  | .scan code :: rest, m =>
      RoomFor (keyboardHandler m.keyboard code).2 m.system ∧ NeverFull rest (happen m (.scan code))
  | .consume consumption :: rest, m => NeverFull rest (happen m (.consume consumption))

def keyBytes (events : List KeyEvent) : List UInt8 :=
  emitted ScancodeDecoder.powerOn (events.flatMap KeyEvent.codes)

/-- Calls ended by Enter, one after another, with any consoles and buffers. -/
inductive Calls : History → List UInt8 → History → List UInt8 → Prop where
  | none (h : History) (bytes : List UInt8) : Calls h bytes h bytes
  | call {h last : History} {bytes rest : List UInt8} {r : Return} (console : Console)
      (line : Buffer) (returned : nexusReadline h console line lineSize bytes = .done r)
      (entered : r.entered = true) (later : Calls r.history r.rest last rest) :
      Calls h bytes last rest

/-- Enter is pressed after the key events `events`, and a call on the history
`h` that has read `typed` and still waits takes the byte `c` it put. -/
structure EnterRead (happenings : List Happening) (events : List KeyEvent) (h : History)
    (console : Console) (line : Buffer) (typed : List UInt8) (c : UInt8) (after : List UInt8) :
    Prop where
  pressed : ∃ later, codesOf happenings =
    events.flatMap KeyEvent.codes ++ enterKey.val :: later
  neverFull : NeverFull happenings boot
  calls : Calls zeroHistory (happenAll happenings boot).system.returned h (typed ++ c :: after)
  place : (happenAll happenings boot).system.returned.length =
    (keyBytes events).length + (c :: after).length
  waits : ∃ e, nexusReadline h console line lineSize typed = .waiting e

def EndsBefore (h : History) (console : Console) (line : Buffer) (bytes after : List UInt8) :
    Prop :=
  ∃ r, nexusReadline h console line lineSize bytes = .done r ∧ r.entered = true ∧ r.rest = after

theorem put_all_accepted (bytes : List UInt8) (s : System) (room : RoomFor bytes s) :
    (putAll bytes s).accepted = s.accepted ++ bytes := by
  induction bytes generalizing s with
  | nil => exact (List.append_nil _).symm
  | cons c rest ih =>
      rcases room with ⟨free, room⟩
      have first : (step s (.put c)).accepted = s.accepted ++ [c] := by
        simp only [step, if_pos free]
      have others := ih (step s (.put c)) room
      rw [first, List.append_assoc, List.singleton_append] at others
      exact others

theorem access_accepted (s : System) : (access s).accepted = s.accepted := by
  rcases s with ⟨ring, consumer, answer, accepted, returned⟩
  cases consumer with
  | waitTail head =>
      simp only [access]
      split_ifs <;> rfl
  | _ => rfl

theorem consume_accepted (s : System) (consumption : Consumption) :
    (step s consumption.action).accepted = s.accepted := by
  cases consumption with
  | access => exact access_accepted s
  | _ =>
      rcases s with ⟨ring, consumer, answer, accepted, returned⟩
      cases consumer <;> rfl

theorem accepts_emitted (happenings : List Happening) (m : Machine)
    (neverFull : NeverFull happenings m) :
    (happenAll happenings m).system.accepted =
      m.system.accepted ++ emitted m.keyboard (codesOf happenings) := by
  induction happenings generalizing m with
  | nil => exact (List.append_nil _).symm
  | cons happening rest ih =>
      cases happening with
      | scan code =>
          rcases neverFull with ⟨room, neverFull⟩
          rw [happenAll, ih _ neverFull, codesOf, emitted, ← List.append_assoc]
          exact congrArg (· ++ _) (put_all_accepted _ _ room)
      | consume consumption =>
          rw [happenAll, ih _ neverFull, codesOf]
          exact congrArg (· ++ _) (consume_accepted _ _)

theorem happen_invariant {m : Machine} (inv : Invariant m.system) (happening : Happening) :
    Invariant (happen m happening).system := by
  cases happening with
  | scan code => exact run_invariant _ inv
  | consume consumption => exact step_invariant inv consumption.action

theorem happen_all_invariant (happenings : List Happening) {m : Machine}
    (inv : Invariant m.system) : Invariant (happenAll happenings m).system := by
  induction happenings generalizing m with
  | nil => exact inv
  | cons happening rest ih => exact ih (happen_invariant inv happening)

theorem returns_emitted (happenings : List Happening) (neverFull : NeverFull happenings boot) :
    (happenAll happenings boot).system.returned <+:
      emitted ScancodeDecoder.powerOn (codesOf happenings) := by
  have inv := happen_all_invariant happenings (m := boot) start_invariant
  have order := inv.order
  rw [accepts_emitted happenings boot neverFull] at order
  exact order

theorem calls_read {h last : History} {bytes rest : List UInt8}
    (calls : Calls h bytes last rest) (sound : Sound h) :
    Sound last ∧ ∃ read, bytes = read ++ rest ∧ escAfter .text read = .text := by
  induction calls with
  | none h bytes => exact ⟨sound, [], rfl, rfl⟩
  | call console line returned entered later ih =>
      rename_i h last bytes rest r
      rcases entered_draft sound console line bytes returned entered with
        ⟨d, drafted, text, _, kept⟩
      rcases ih (kept ▸ holds_sound (remember_holds sound text)) with ⟨after, read, split, closed⟩
      rcases loop_entered drafted with ⟨first, whole, _, firstClosed⟩
      refine ⟨after, first ++ read, by rw [whole, split, List.append_assoc], ?_⟩
      have start : escAfter .text first = .text := firstClosed
      rw [esc_after_append, start, closed]

theorem ends_before_iff {h : History} (sound : Sound h) (console : Console) (line : Buffer)
    (bytes after : List UInt8) : EndsBefore h console line bytes after ↔
      ∃ d, editLoop (pastOf h) bytes (emptyDraft h.historyCurrent) = .entered d after := by
  constructor
  · rintro ⟨r, returned, byEnter, rfl⟩
    rcases entered_draft sound console line bytes returned byEnter with ⟨d, drafted, _⟩
    exact ⟨d, drafted⟩
  · rintro ⟨d, submitted⟩
    rcases draft_entered sound console line bytes submitted with ⟨r, returned, byEnter, rest, _⟩
    exact ⟨r, returned, byEnter, rest⟩

-- What a waiting call read is the bytes of the keys, from the last call's end.
theorem enter_read_split {happenings : List Happening} {events : List KeyEvent} {h : History}
    {console : Console} {line : Buffer} {typed after : List UInt8} {c : UInt8}
    (enter : EnterRead happenings events h console line typed c after) :
    c = 0x0A ∧ escAfter .text typed = escAfter .text (keyBytes events) := by
  rcases enter.pressed with ⟨later, codes⟩
  rcases enter_emitted events later with ⟨k, put⟩
  rcases calls_read enter.calls (holds_sound zero_holds) with ⟨_, read, split, closed⟩
  have place := enter.place
  rcases returns_emitted happenings enter.neverFull with ⟨unread, taken⟩
  rw [codes, put, ← keyBytes, split] at taken
  rw [split, ← List.append_assoc, List.length_append] at place
  have before : (read ++ typed).length = (keyBytes events).length := Nat.add_right_cancel place
  have same : (read ++ typed) ++ c :: (after ++ unread) =
      keyBytes events ++ 0x0A :: emitted k later := by
    rw [← taken]
    simp
  -- the call is the only one that can be inside a sequence: those before it were closed
  rcases List.append_inj same before with ⟨keys, rest⟩
  refine ⟨(List.cons.inj rest).1, ?_⟩
  rw [← keys, esc_after_append, closed]

/-- Every press of Enter ends the call that reads its byte, unless the keys
before it left an escape sequence open, and then it never does. -/
theorem enter_ends_call_iff {happenings : List Happening} {events : List KeyEvent} {h : History}
    {console : Console} {line : Buffer} {typed after : List UInt8} {c : UInt8}
    (enter : EnterRead happenings events h console line typed c after) :
    EndsBefore h console line (typed ++ c :: after) after ↔ ¬ OpenEscape (keyBytes events) := by
  rcases enter_read_split enter with ⟨rfl, state⟩
  rcases calls_read enter.calls (holds_sound zero_holds) with ⟨sound, _⟩
  rw [open_escape_iff, not_not, ← state]
  rcases enter.waits with ⟨e, waiting⟩
  rcases waiting_draft sound console line typed waiting with ⟨d, drafted⟩
  exact (ends_before_iff sound console line _ after).trans (newline_submits_iff after drafted)

def getcRun : List Happening :=
  .consume .callGetc :: List.replicate 6 (.consume .access)

def hKey : Key := ⟨0x23, by decide⟩
def upArrow : Key := ⟨0x48, by decide⟩

/-- The line h, and the Up arrow on the next. -/
def lineThenArrow : List KeyEvent :=
  [.press hKey, .release hKey, .press enterKey, .release enterKey, .pressExtended upArrow]

/-- The bytes taken while the keys come, the last one after the second Enter. -/
def twoEnters : List Happening :=
  .scan 0x23 :: getcRun ++ [.scan 0xA3, .scan 0x1C, .scan 0x9C] ++ getcRun ++
    [.scan 0xE0, .scan 0x48] ++ getcRun ++ getcRun ++ getcRun ++ [.scan 0x1C] ++ getcRun

theorem second_enter_ends_call : ∃ h,
    EnterRead twoEnters lineThenArrow h VgaConsole.powerOn (Vector.replicate lineSize 0xCC)
        [0x1B, 0x5B, 0x41] 0x0A [] ∧
      ¬ OpenEscape (keyBytes lineThenArrow) ∧
      EndsBefore h VgaConsole.powerOn (Vector.replicate lineSize 0xCC)
        ([0x1B, 0x5B, 0x41] ++ 0x0A :: []) [] := by
  have first : ∃ r, nexusReadline zeroHistory VgaConsole.powerOn (Vector.replicate lineSize 0xCC)
        lineSize (happenAll twoEnters boot).system.returned = .done r ∧ r.entered = true ∧
      r.rest = [0x1B, 0x5B, 0x41, 0x0A] ∧
      ∃ e, nexusReadline r.history VgaConsole.powerOn (Vector.replicate lineSize 0xCC) lineSize
        [0x1B, 0x5B, 0x41] = .waiting e := ⟨_, rfl, rfl, rfl, _, rfl⟩
  rcases first with ⟨r, returned, byEnter, rest, waits⟩
  have enter : EnterRead twoEnters lineThenArrow r.history VgaConsole.powerOn
      (Vector.replicate lineSize 0xCC) [0x1B, 0x5B, 0x41] 0x0A [] := by
    constructor
    · exact ⟨[], rfl⟩
    · exact ⟨⟨by decide, trivial⟩, trivial, ⟨by decide, trivial⟩, trivial, trivial,
        ⟨by decide, by decide, by decide, trivial⟩, ⟨by decide, trivial⟩, trivial⟩
    · refine .call _ _ returned byEnter ?_
      rw [rest]
      exact .none _ _
    · rfl
    · exact waits
  have closed : ¬ OpenEscape (keyBytes lineThenArrow) := by
    rw [open_escape_iff, not_not]
    rfl
  exact ⟨r.history, enter, closed, (enter_ends_call_iff enter).mpr closed⟩

def escTapped : List KeyEvent := [.press escKey, .release escKey]

/-- Esc tapped, then Enter, and both their bytes taken. -/
def escThenEnter : List Happening :=
  [.scan 0x01, .scan 0x81, .scan 0x1C] ++ getcRun ++ getcRun

theorem esc_then_enter_read :
    EnterRead escThenEnter escTapped zeroHistory VgaConsole.powerOn
      (Vector.replicate lineSize 0xCC) [0x1B] 0x0A [] := by
  constructor
  · exact ⟨[], rfl⟩
  · exact ⟨⟨by decide, trivial⟩, trivial, ⟨by decide, trivial⟩, trivial⟩
  · exact .none _ _
  · rfl
  · exact ⟨_, rfl⟩

/-- The newline after a bare Esc is swallowed: the call goes on waiting. -/
theorem esc_swallows_enter :
    ¬ ∀ happenings events h console line typed c after,
      EnterRead happenings events h console line typed c after →
        EndsBefore h console line (typed ++ c :: after) after := by
  intro always
  rcases always _ _ _ _ _ _ _ _ esc_then_enter_read with ⟨r, returned, _⟩
  have waits : ∃ e, nexusReadline zeroHistory VgaConsole.powerOn
      (Vector.replicate lineSize 0xCC) lineSize [0x1B, 0x0A] = .waiting e := ⟨_, rfl⟩
  rcases waits with ⟨e, waiting⟩
  cases waiting.symm.trans returned

end NexusOS.EnterKey
