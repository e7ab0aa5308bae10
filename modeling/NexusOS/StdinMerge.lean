import NexusOS.EnterKey
import NexusOS.KeyPuts

/-!
`mp_hal_stdin_rx_chr` of `kernel/python/nexus_hal.c`, called again and again,
between keyboard interrupts and arriving serial bytes. The reader is a program
counter over the steps of the keyboard's consumer and the port reads of
`serial_has_data` and `serial_getc`; `uart` holds what COM1 has received and
nobody has read. `returned` is what the calls gave back, with the device each
value came from. The `hlt` at the loop's end may be left at any step.
-/

namespace NexusOS.StdinMerge

open KeyboardRing ScancodeDecoder EnterKey KeyPuts

inductive Source where
  | keyboard
  | serial
  deriving DecidableEq

/-- An `int` returned by a call. -/
structure Returned where
  source : Source
  value : Int

/-- A `char` as an `int`: bytes from 128 up are negative. -/
def charValue (c : UInt8) : Int := if c.toNat < 128 then c.toNat else c.toNat - 256

/-- What the caller's `(char)` makes of it again. -/
def Returned.byte (r : Returned) : UInt8 := UInt8.ofInt r.value

inductive Reader where
  | poll
  | polling
  | fetch
  | fetching
  | askSerial
  | waitSerial
  | readSerial
  | halted

structure Terminal where
  keys : Machine
  uart : List UInt8
  reader : Reader
  returned : List Returned

def boot : Terminal := ⟨EnterKey.boot, [], .poll, []⟩

def fromKeyboard (c : UInt8) : Returned := ⟨.keyboard, c.toNat⟩

def fromSerial (c : UInt8) : Returned := ⟨.serial, charValue (if c = 0x0D then 0x0A else c)⟩

def consume (t : Terminal) (consumption : Consumption) : Machine :=
  happen t.keys (.consume consumption)

/-- The next step of the call in progress, or the first one of the next call. -/
def advance (t : Terminal) : Terminal :=
  match t.reader with
  | .poll => { t with keys := consume t .callHasData, reader := .polling }
  | .polling =>
      match t.keys.system.consumer with
      | .testTail head =>
          { t with
            keys := consume t .access
            reader := if head ≠ t.keys.system.ring.kbdBufferTail then .fetch else .askSerial }
      | _ => { t with keys := consume t .access }
  | .fetch => { t with keys := consume t .callGetc, reader := .fetching }
  | .fetching =>
      match t.keys.system.consumer with
      | .storeTail c _ =>
          { t with
            keys := consume t .access
            reader := .poll
            returned := t.returned ++ [fromKeyboard c] }
      | _ => { t with keys := consume t .access }
  | .askSerial => { t with reader := if t.uart ≠ [] then .waitSerial else .halted }
  -- `serial_getc` looks for data once more
  | .waitSerial => { t with reader := if t.uart ≠ [] then .readSerial else .waitSerial }
  | .readSerial =>
      { t with
        uart := t.uart.tail
        reader := .poll
        returned := t.returned ++ [fromSerial (t.uart.headD 0)] }
  | .halted => { t with reader := .poll }

inductive Event where
  | scan (code : UInt8)
  | arrive (c : UInt8)
  | advance

def occur (t : Terminal) : Event → Terminal
  | .scan code => { t with keys := happen t.keys (.scan code) }
  | .arrive c => { t with uart := t.uart ++ [c] }
  | .advance => StdinMerge.advance t

def occurAll : List Event → Terminal → Terminal
  | [], t => t
  | event :: rest, t => occurAll rest (occur t event)

def codesIn : List Event → List UInt8
  | [] => []
  | .scan code :: rest => code :: codesIn rest
  | _ :: rest => codesIn rest

def arrivals : List Event → List UInt8
  | [] => []
  | .arrive c :: rest => c :: arrivals rest
  | _ :: rest => arrivals rest

/-- No byte of a key finds the ring full. -/
def NeverFull : List Event → Terminal → Prop
  | [], _ => True
  | .scan code :: rest, t =>
      RoomFor (keyboardHandler t.keys.keyboard code).2 t.keys.system ∧
        NeverFull rest (occur t (.scan code))
  | event :: rest, t => NeverFull rest (occur t event)

def received (source : Source) (returned : List Returned) : List UInt8 :=
  (returned.filter fun r => r.source = source).map Returned.byte

def lineFeed (c : UInt8) : UInt8 := if c = 0x0D then 0x0A else c

theorem keyboard_byte (c : UInt8) : (fromKeyboard c).byte = c := by
  have bound := c.toNat_lt
  apply UInt8.toNat_inj.mp
  simp only [Returned.byte, fromKeyboard, UInt8.ofInt, UInt8.toNat_ofNat']
  omega

theorem char_byte (c : UInt8) : UInt8.ofInt (charValue c) = c := by
  have bound := c.toNat_lt
  apply UInt8.toNat_inj.mp
  simp only [charValue, UInt8.ofInt, UInt8.toNat_ofNat']
  split_ifs <;> omega

theorem serial_byte (c : UInt8) : (fromSerial c).byte = lineFeed c := char_byte _

theorem received_append (source : Source) (returned more : List Returned) :
    received source (returned ++ more) = received source returned ++ received source more := by
  rw [received, List.filter_append, List.map_append]
  rfl

/-- Where the consumer is when the reader is at a step. -/
def InStep : Reader → Consumer → Prop
  | .polling, .testHead | .polling, .testTail _ => True
  | .polling, _ => False
  | .fetching, .idle | .fetching, .testHead | .fetching, .testTail _ => False
  | .fetching, _ => True
  | _, .idle => True
  | _, _ => False

/-- A device that was found to have data still has it: nobody else reads. -/
def Supplied (uart : List UInt8) (s : System) : Reader → Prop
  | .fetch | .fetching => Unread s
  | .waitSerial | .readSerial => uart ≠ []
  | _ => True

structure Coherent (t : Terminal) : Prop where
  ring : Invariant t.keys.system
  inStep : InStep t.reader t.keys.system.consumer
  supplied : Supplied t.uart t.keys.system t.reader
  keyboard : received .keyboard t.returned = t.keys.system.returned

theorem boot_coherent : Coherent boot :=
  ⟨start_invariant, trivial, trivial, rfl⟩

theorem put_all_frame (bytes : List UInt8) (s : System) :
    (putAll bytes s).consumer = s.consumer ∧ (putAll bytes s).returned = s.returned ∧
      (putAll bytes s).ring.kbdBufferTail = s.ring.kbdBufferTail ∧
      s.accepted <+: (putAll bytes s).accepted := by
  induction bytes generalizing s with
  | nil => exact ⟨rfl, rfl, rfl, List.prefix_refl _⟩
  | cons c rest ih =>
      rcases ih (step s (.put c)) with ⟨consumer, returned, tail, accepted⟩
      rcases put_frame s c with ⟨_, _, firstTail, firstAccepted⟩
      exact ⟨consumer, returned, tail.trans firstTail, firstAccepted.trans accepted⟩

-- Bytes that a device gets in between do not take away what it has.
theorem supplied_grows {uart more : List UInt8} {s later : System}
    (kept : later.returned = s.returned) (grown : s.accepted <+: later.accepted)
    {reader : Reader} (supplied : Supplied uart s reader) :
    Supplied (uart ++ more) later reader := by
  have unread : Unread s → Unread later := by
    intro waiting
    rw [Unread, kept]
    exact Nat.lt_of_lt_of_le waiting grown.length_le
  cases reader with
  | fetch => exact unread supplied
  | fetching => exact unread supplied
  | waitSerial => exact List.append_ne_nil_of_left_ne_nil supplied _
  | readSerial => exact List.append_ne_nil_of_left_ne_nil supplied _
  | _ => trivial

theorem scan_coherent {t : Terminal} (coherent : Coherent t) (code : UInt8) :
    Coherent (occur t (.scan code)) := by
  rcases put_all_frame (keyboardHandler t.keys.keyboard code).2 t.keys.system with
    ⟨consumer, returned, _, accepted⟩
  constructor
  · exact happen_invariant coherent.ring (.scan code)
  · change InStep t.reader (putAll _ _).consumer
    rw [consumer]
    exact coherent.inStep
  · have supplied := @supplied_grows _ [] _ _ returned accepted _ coherent.supplied
    rw [List.append_nil] at supplied
    exact supplied
  · exact coherent.keyboard.trans returned.symm

theorem arrive_coherent {t : Terminal} (coherent : Coherent t) (c : UInt8) :
    Coherent (occur t (.arrive c)) :=
  ⟨coherent.ring, coherent.inStep, supplied_grows rfl (List.prefix_refl _) coherent.supplied,
    coherent.keyboard⟩

theorem advance_keys (t : Terminal) : (advance t).keys = t.keys ∨
    ∃ consumption, (advance t).keys = consume t consumption := by
  rcases t with ⟨⟨k, ring, consumer, answer, accepted, gone⟩, uart, reader, returned⟩
  cases reader with
  | poll => exact .inr ⟨.callHasData, rfl⟩
  | polling => cases consumer <;> exact .inr ⟨.access, rfl⟩
  | fetch => exact .inr ⟨.callGetc, rfl⟩
  | fetching => cases consumer <;> exact .inr ⟨.access, rfl⟩
  | _ => exact .inl rfl

theorem advance_ring {t : Terminal} (ring : Invariant t.keys.system) :
    Invariant (advance t).keys.system := by
  rcases advance_keys t with same | ⟨consumption, consumed⟩
  · exact same.symm ▸ ring
  · rw [consumed]
    exact step_invariant ring consumption.action

theorem advance_in_step {t : Terminal} (inStep : InStep t.reader t.keys.system.consumer) :
    InStep (advance t).reader (advance t).keys.system.consumer := by
  rcases t with ⟨⟨k, buffer, consumer, answer, accepted, gone⟩, uart, reader, returned⟩
  cases reader with
  | polling =>
      cases consumer with
      | testHead => trivial
      | testTail head =>
          simp only [advance, ne_eq]
          split_ifs <;> trivial
      | _ => exact inStep.elim
  | fetching =>
      cases consumer with
      | waitTail head =>
          simp only [advance, consume, happen, step, Consumption.action, access, ne_eq]
          split_ifs <;> trivial
      | idle => exact inStep.elim
      | testHead => exact inStep.elim
      | testTail head => exact inStep.elim
      | _ => trivial
  | askSerial =>
      cases consumer with
      | idle =>
          simp only [advance]
          split_ifs <;> trivial
      | _ => exact inStep.elim
  | waitSerial =>
      cases consumer with
      | idle =>
          simp only [advance]
          split_ifs <;> trivial
      | _ => exact inStep.elim
  | _ =>
      cases consumer with
      | idle => trivial
      | _ => exact inStep.elim

theorem advance_supplied {t : Terminal} (ring : Invariant t.keys.system)
    (supplied : Supplied t.uart t.keys.system t.reader) :
    Supplied (advance t).uart (advance t).keys.system (advance t).reader := by
  rcases t with ⟨⟨k, buffer, consumer, answer, accepted, gone⟩, uart, reader, returned⟩
  cases reader with
  | polling =>
      cases consumer with
      | testTail head =>
          by_cases differ : head ≠ buffer.kbdBufferTail
          · have there : Unread ⟨buffer, .idle, true, accepted, gone⟩ :=
              unread_of_snapshot ring.tail ring.consumer differ
            simp only [advance, if_pos differ]
            exact there
          · simp only [advance, if_neg differ]
            trivial
      | _ => trivial
  | fetch => cases consumer <;> exact supplied
  | fetching =>
      cases consumer with
      | waitTail head =>
          simp only [advance, consume, happen, step, Consumption.action, access, ne_eq]
          split_ifs <;> exact supplied
      | storeTail c tail => trivial
      | _ => exact supplied
  | askSerial =>
      by_cases nonempty : uart ≠ []
      · simp only [advance, if_pos nonempty]
        exact nonempty
      · simp only [advance, if_neg nonempty]
        trivial
  | waitSerial =>
      have nonempty : uart ≠ [] := supplied
      simp only [advance, if_pos nonempty]
      exact nonempty
  | _ => trivial

/-- What a step does to the bytes: it returns the oldest key byte, or the oldest
serial byte, or none. -/
inductive Moves (t after : Terminal) : Prop where
  | quiet (returned : after.returned = t.returned) (uart : after.uart = t.uart)
      (gone : after.keys.system.returned = t.keys.system.returned)
  | key (c : UInt8) (returned : after.returned = t.returned ++ [fromKeyboard c])
      (uart : after.uart = t.uart)
      (gone : after.keys.system.returned = t.keys.system.returned ++ [c])
      (oldest : t.keys.system.accepted[t.keys.system.returned.length]? = some c)
  | serial (c : UInt8) (reader : t.reader = .readSerial) (waiting : t.uart = c :: after.uart)
      (returned : after.returned = t.returned ++ [fromSerial c])
      (gone : after.keys.system.returned = t.keys.system.returned)

theorem advance_moves {t : Terminal} (coherent : Coherent t) : Moves t (advance t) := by
  rcases coherent with ⟨ring, inStep, supplied, _⟩
  rcases t with ⟨⟨k, buffer, consumer, answer, accepted, gone⟩, uart, reader, returned⟩
  cases reader with
  | polling =>
      cases consumer with
      | testHead => exact .quiet rfl rfl rfl
      | testTail head => exact .quiet rfl rfl rfl
      | _ => exact inStep.elim
  | fetching =>
      cases consumer with
      | storeTail c tail => exact .key c rfl rfl rfl ring.consumer.1
      | waitTail head =>
          refine .quiet rfl rfl ?_
          simp only [advance, consume, happen, step, Consumption.action, access, ne_eq]
          split_ifs <;> rfl
      | idle => exact inStep.elim
      | testHead => exact inStep.elim
      | testTail head => exact inStep.elim
      | _ => exact .quiet rfl rfl rfl
  | readSerial =>
      cases uart with
      | nil => exact absurd rfl supplied
      | cons c rest => exact .serial c rfl rfl rfl rfl
  | poll =>
      cases consumer with
      | idle => exact .quiet rfl rfl rfl
      | _ => exact inStep.elim
  | fetch =>
      cases consumer with
      | idle => exact .quiet rfl rfl rfl
      | _ => exact inStep.elim
  | _ => exact .quiet rfl rfl rfl

theorem advance_coherent {t : Terminal} (coherent : Coherent t) :
    Coherent (occur t .advance) := by
  have keyboard := coherent.keyboard
  refine ⟨advance_ring coherent.ring, advance_in_step coherent.inStep,
    advance_supplied coherent.ring coherent.supplied, ?_⟩
  change received .keyboard (advance t).returned = (advance t).keys.system.returned
  cases advance_moves coherent with
  | quiet returned _ gone => rw [returned, gone, keyboard]
  | key c returned _ gone _ =>
      rw [returned, gone, received_append, keyboard]
      exact congrArg (_ ++ [·]) (keyboard_byte c)
  | serial c _ _ returned gone =>
      rw [returned, gone, received_append, keyboard]
      exact List.append_nil _

theorem occur_coherent {t : Terminal} (coherent : Coherent t) (event : Event) :
    Coherent (occur t event) := by
  cases event with
  | scan code => exact scan_coherent coherent code
  | arrive c => exact arrive_coherent coherent c
  | advance => exact advance_coherent coherent

-- The serial bytes are either returned or still in the UART, in their order.
theorem occur_serial {t : Terminal} (coherent : Coherent t) (event : Event) :
    received .serial (occur t event).returned ++ (occur t event).uart.map lineFeed =
      received .serial t.returned ++ (t.uart ++ arrivals [event]).map lineFeed := by
  cases event with
  | scan code => simp [occur, arrivals]
  | arrive c => simp [occur, arrivals]
  | advance =>
      change received .serial (advance t).returned ++ (advance t).uart.map lineFeed =
        received .serial t.returned ++ (t.uart ++ []).map lineFeed
      rw [List.append_nil]
      cases advance_moves coherent with
      | quiet returned uart _ => rw [returned, uart]
      | key c returned uart _ _ =>
          rw [returned, uart, received_append]
          exact congrArg (· ++ _) (List.append_nil _)
      | serial c _ waiting returned _ =>
          rw [returned, waiting, received_append, List.append_assoc, List.map_cons, ← serial_byte]
          rfl

theorem occur_all_coherent (events : List Event) {t : Terminal} (coherent : Coherent t) :
    Coherent (occurAll events t) := by
  induction events generalizing t with
  | nil => exact coherent
  | cons event rest ih => exact ih (occur_coherent coherent event)

theorem arrivals_cons (event : Event) (rest : List Event) :
    arrivals (event :: rest) = arrivals [event] ++ arrivals rest := by
  cases event <;> rfl

theorem serial_conserved (events : List Event) {t : Terminal} (coherent : Coherent t) :
    received .serial (occurAll events t).returned ++ (occurAll events t).uart.map lineFeed =
      received .serial t.returned ++ (t.uart ++ arrivals events).map lineFeed := by
  induction events generalizing t with
  | nil => simp [occurAll, arrivals]
  | cons event rest ih =>
      have here := occur_serial coherent event
      have later := ih (occur_coherent coherent event)
      rw [occurAll, later, List.map_append, ← List.append_assoc, here, arrivals_cons event rest]
      simp only [List.map_append, List.append_assoc]

theorem advance_accepted (t : Terminal) :
    (advance t).keys.system.accepted = t.keys.system.accepted ∧
      (advance t).keys.keyboard = t.keys.keyboard := by
  rcases advance_keys t with same | ⟨consumption, consumed⟩
  · rw [same]
    exact ⟨rfl, rfl⟩
  · rw [consumed]
    exact ⟨consume_accepted t.keys.system consumption, rfl⟩

theorem keys_accepted (events : List Event) (t : Terminal) (neverFull : NeverFull events t) :
    (occurAll events t).keys.system.accepted =
        t.keys.system.accepted ++ emitted t.keys.keyboard (codesIn events) ∧
      (occurAll events t).keys.keyboard = afterCodes t.keys.keyboard (codesIn events) := by
  induction events generalizing t with
  | nil => exact ⟨(List.append_nil _).symm, rfl⟩
  | cons event rest ih =>
      cases event with
      | scan code =>
          rcases neverFull with ⟨room, neverFull⟩
          rcases ih _ neverFull with ⟨accepted, keyboard⟩
          refine ⟨?_, keyboard⟩
          rw [occurAll, accepted, codesIn, emitted, ← List.append_assoc]
          exact congrArg (· ++ _) (put_all_accepted _ _ room)
      | arrive c => exact ih (occur t (.arrive c)) neverFull
      | advance =>
          rcases ih (advance t) neverFull with ⟨accepted, keyboard⟩
          rcases advance_accepted t with ⟨same, sameKeyboard⟩
          rw [same, sameKeyboard] at accepted
          rw [sameKeyboard] at keyboard
          exact ⟨accepted, keyboard⟩

theorem contents_exact {s : System} (inv : Invariant s) :
    s.accepted = s.returned ++ contents s.ring := by
  rcases inv with ⟨head, tail, ⟨rest, split⟩, room, window, _⟩
  have length := congrArg List.length split
  rw [List.length_append] at length
  have size : unread s.ring = rest.length := by
    simp only [unread, head, tail, kbdBufferSize] at *
    omega
  rw [← split]
  congr 1
  apply List.ext_getElem
  · rw [contents_length, size]
  · intro k inRest inContents
    have found : s.accepted[s.returned.length + k]? = some rest[k] := by
      rw [← split, List.getElem?_append_right (Nat.le_add_right _ _), Nat.add_sub_cancel_left]
      exact List.getElem?_eq_getElem inRest
    have cell := window.cell _ _ (Nat.le_add_right _ _) found
    simp only [contents, List.getElem_map, List.getElem_range, tail, Nat.mod_add_mod]
    exact cell.symm

/-- How far the calls have come with the bytes of one key, put behind `earlier`:
they return them one right after the other. -/
inductive ReturnedTogether (earlier sequence : List UInt8) : List Returned → Prop where
  | notYet {returned : List Returned} (before : received .keyboard returned <+: earlier) :
      ReturnedTogether earlier sequence returned
  | underway {returned : List Returned} {n : Nat} (reached : received .keyboard returned = earlier)
      (begun : 0 < n) (more : n < sequence.length) :
      ReturnedTogether earlier sequence (returned ++ (sequence.take n).map fromKeyboard)
  | complete {returned later : List Returned} (reached : received .keyboard returned = earlier) :
      ReturnedTogether earlier sequence (returned ++ sequence.map fromKeyboard ++ later)

/-- The reader is at a step that cannot lead to the serial port. -/
def Alert (tail : Nat) : Reader → Consumer → Prop
  | .poll, _ | .fetch, _ | .fetching, _ => True
  | .polling, .testTail head => head ≠ tail
  | .polling, _ => True
  | _, _ => False

structure Following (earlier sequence : List UInt8) (t : Terminal) : Prop where
  coherent : Coherent t
  accepted : earlier ++ sequence <+: t.keys.system.accepted
  together : ReturnedTogether earlier sequence t.returned
  alert : earlier.length < t.keys.system.returned.length →
    t.keys.system.returned.length < (earlier ++ sequence).length →
      Alert t.keys.system.ring.kbdBufferTail t.reader t.keys.system.consumer

theorem received_keys (bytes : List UInt8) :
    received .keyboard (bytes.map fromKeyboard) = bytes := by
  induction bytes with
  | nil => rfl
  | cons c rest ih =>
      change (fromKeyboard c).byte :: received .keyboard (rest.map fromKeyboard) = c :: rest
      rw [keyboard_byte, ih]

theorem received_key (returned : List Returned) (c : UInt8) :
    received .keyboard (returned ++ [fromKeyboard c]) = received .keyboard returned ++ [c] := by
  rw [received_append]
  exact congrArg (_ ++ ·) (received_keys [c])

section Together
variable {earlier sequence accepted : List UInt8} {returned : List Returned}

theorem together_grows (reached : received .keyboard returned = earlier) {n : Nat} {c : UInt8}
    (here : sequence[n]? = some c) :
    ReturnedTogether earlier sequence
      (returned ++ (sequence.take n).map fromKeyboard ++ [fromKeyboard c]) := by
  rcases List.getElem?_eq_some_iff.mp here with ⟨inside, rfl⟩
  have longer : (sequence.take n).map fromKeyboard ++ [fromKeyboard sequence[n]] =
      (sequence.take (n + 1)).map fromKeyboard := by
    rw [← List.take_concat_get' sequence n inside, List.map_append, List.map_singleton]
  rw [List.append_assoc, longer]
  rcases Nat.lt_or_eq_of_le (Nat.succ_le_of_lt inside) with more | last
  · exact .underway reached (Nat.succ_pos n) more
  · have whole : sequence.take (n + 1) = sequence := List.take_of_length_le (Nat.le_of_eq last.symm)
    rw [whole, ← List.append_nil (returned ++ _)]
    exact .complete reached

-- The next byte out of the ring goes on with the sequence.
theorem together_key (together : ReturnedTogether earlier sequence returned)
    (order : earlier ++ sequence <+: accepted) {c : UInt8}
    (oldest : accepted[(received .keyboard returned).length]? = some c) :
    ReturnedTogether earlier sequence (returned ++ [fromKeyboard c]) := by
  rcases order with ⟨rest, rfl⟩
  rw [List.append_assoc] at oldest
  cases together with
  | notYet before =>
      rcases Nat.lt_or_eq_of_le before.length_le with short | whole
      · apply ReturnedTogether.notYet
        rw [received_key]
        rw [List.getElem?_append_left short] at oldest
        exact release_order before oldest
      · have reached := before.eq_of_length whole
        cases sequence with
        | nil => simpa using @ReturnedTogether.complete _ [] _ [fromKeyboard c] reached
        | cons d sequence =>
            rw [whole, List.getElem?_append_right (Nat.le_refl _), Nat.sub_self] at oldest
            have first := @together_grows _ (d :: sequence) _ reached 0 c oldest
            simpa using first
  | underway reached some more =>
      rw [received_append, received_keys, reached, List.length_append,
        List.length_take_of_le (Nat.le_of_lt more),
        List.getElem?_append_right (Nat.le_add_right _ _), Nat.add_sub_cancel_left,
        List.getElem?_append_left more] at oldest
      exact together_grows reached oldest
  | complete reached =>
      rw [List.append_assoc]
      exact .complete reached

theorem together_serial (together : ReturnedTogether earlier sequence returned) (c : UInt8)
    (outside : ¬ (earlier.length < (received .keyboard returned).length ∧
      (received .keyboard returned).length < (earlier ++ sequence).length)) :
    ReturnedTogether earlier sequence (returned ++ [fromSerial c]) := by
  cases together with
  | notYet before =>
      apply ReturnedTogether.notYet
      rw [received_append]
      exact (List.append_nil _).symm ▸ before
  | underway reached some more =>
      rw [received_append, received_keys, reached, List.length_append, List.length_append,
        List.length_take_of_le (Nat.le_of_lt more)] at outside
      omega
  | complete reached =>
      rw [List.append_assoc]
      exact .complete reached

end Together

section Follow
variable {earlier sequence : List UInt8} {t : Terminal}

theorem scan_following (following : Following earlier sequence t) (code : UInt8) :
    Following earlier sequence (occur t (.scan code)) := by
  rcases put_all_frame (keyboardHandler t.keys.keyboard code).2 t.keys.system with
    ⟨consumer, returned, tail, accepted⟩
  constructor
  · exact scan_coherent following.coherent code
  · exact following.accepted.trans accepted
  · exact following.together
  · change earlier.length < (putAll _ _).returned.length → (putAll _ _).returned.length < _ →
      Alert (putAll _ _).ring.kbdBufferTail t.reader (putAll _ _).consumer
    rw [returned, consumer, tail]
    exact following.alert

theorem arrive_following (following : Following earlier sequence t) (c : UInt8) :
    Following earlier sequence (occur t (.arrive c)) :=
  ⟨arrive_coherent following.coherent c, following.accepted, following.together, following.alert⟩

theorem advance_together (following : Following earlier sequence t) :
    ReturnedTogether earlier sequence (advance t).returned := by
  have keyboard := following.coherent.keyboard
  cases advance_moves following.coherent with
  | quiet returned _ _ => exact returned ▸ following.together
  | key c returned _ _ oldest =>
      rw [returned]
      rw [← keyboard] at oldest
      exact together_key following.together following.accepted oldest
  | serial c reader _ returned _ =>
      rw [returned]
      apply together_serial following.together
      rintro ⟨after, before⟩
      rw [keyboard] at after before
      have awake := following.alert after before
      rw [reader] at awake
      exact awake

theorem advance_alert (following : Following earlier sequence t)
    (after : earlier.length < (advance t).keys.system.returned.length)
    (before : (advance t).keys.system.returned.length < (earlier ++ sequence).length) :
    Alert (advance t).keys.system.ring.kbdBufferTail (advance t).reader
      (advance t).keys.system.consumer := by
  rcases following with ⟨⟨ring, inStep, _, _⟩, accepted, _, alert⟩
  rcases t with ⟨⟨k, buffer, consumer, answer, taken, gone⟩, uart, reader, returned⟩
  cases reader with
  | polling =>
      cases consumer with
      | testHead =>
          -- a byte of the sequence is still in the ring, so the test will find data
          exact (unread_iff ring).mpr (Nat.lt_of_lt_of_le before accepted.length_le)
      | testTail head =>
          have differ : head ≠ buffer.kbdBufferTail := alert after before
          simp only [advance, if_pos differ]
          trivial
      | _ => exact inStep.elim
  | fetching => cases consumer <;> trivial
  | askSerial => exact (alert after before).elim
  | waitSerial => exact (alert after before).elim
  | poll =>
      cases consumer with
      | idle => trivial
      | _ => exact inStep.elim
  | _ => trivial

theorem advance_following (following : Following earlier sequence t) :
    Following earlier sequence (occur t .advance) :=
  ⟨advance_coherent following.coherent, (advance_accepted t).1 ▸ following.accepted,
    advance_together following, advance_alert following⟩

theorem occur_all_following (events : List Event) (following : Following earlier sequence t) :
    Following earlier sequence (occurAll events t) := by
  induction events generalizing t with
  | nil => exact following
  | cons event rest ih =>
      cases event with
      | scan code => exact ih (scan_following following code)
      | arrive c => exact ih (arrive_following following c)
      | advance => exact ih (advance_following following)

end Follow

theorem scanned_following {t : Terminal} (coherent : Coherent t) (code : UInt8)
    (room : RoomFor (keyboardHandler t.keys.keyboard code).2 t.keys.system) :
    Following t.keys.system.accepted (keyboardHandler t.keys.keyboard code).2
      (occur t (.scan code)) := by
  have order := coherent.ring.order
  constructor
  · exact scan_coherent coherent code
  · exact (put_all_accepted _ _ room).symm ▸ List.prefix_refl _
  · apply ReturnedTogether.notYet
    exact coherent.keyboard ▸ order
  · intro after
    have kept := (put_all_frame (keyboardHandler t.keys.keyboard code).2 t.keys.system).2.1
    change _ < (putAll _ _).returned.length at after
    rw [kept] at after
    exact absurd order.length_le (Nat.not_le.mpr after)

theorem occur_all_append (events more : List Event) (t : Terminal) :
    occurAll (events ++ more) t = occurAll more (occurAll events t) := by
  induction events generalizing t with
  | nil => rfl
  | cons event rest ih => exact ih (occur t event)

theorem never_full_append (events more : List Event) (t : Terminal) :
    NeverFull (events ++ more) t ↔ NeverFull events t ∧ NeverFull more (occurAll events t) := by
  induction events generalizing t with
  | nil => exact (iff_of_eq (true_and _)).symm
  | cons event rest ih =>
      cases event with
      | scan code =>
          simp only [List.cons_append, NeverFull, ih, and_assoc]
          rfl
      | arrive c => exact ih _
      | advance => exact ih _

end NexusOS.StdinMerge
