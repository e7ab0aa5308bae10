import NexusOS.StdinMerge

/-!
The reader of the two devices comes on: while a byte waits in the ring or in the
UART, thirteen of its steps return one, whatever interrupts and serial bytes
come between them. `advancesLeft` bounds the steps to the next byte from every
place of the reader.
-/

namespace NexusOS.StdinProgress

open KeyboardRing ScancodeDecoder EnterKey KeyPuts StdinMerge

/-- The bytes that no call has returned yet. -/
def waiting (t : Terminal) : Nat := (contents t.keys.system.ring).length + t.uart.length

/-- While a byte waits. A test of the ring that came too early, or a serial port
asked too early, costs one more round. -/
def advancesLeft (t : Terminal) : Nat :=
  match t.reader, t.keys.system.consumer with
  | .poll, _ => 10
  | .polling, .testTail head =>
      if head ≠ t.keys.system.ring.kbdBufferTail then 8 else if t.uart ≠ [] then 4 else 13
  | .polling, _ => 9
  | .fetch, _ => 7
  | .fetching, consumer => accessesLeft t.keys.system.ring consumer
  | .askSerial, _ => if t.uart ≠ [] then 3 else 12
  | .waitSerial, _ => 2
  | .readSerial, _ => 1
  | .halted, _ => 11

def advances : List Event → Nat
  | [] => 0
  | .advance :: rest => advances rest + 1
  | _ :: rest => advances rest

section Progress
variable {t : Terminal}

theorem contents_count (coherent : Coherent t) :
    t.keys.system.accepted.length =
      t.keys.system.returned.length + (contents t.keys.system.ring).length := by
  rw [← List.length_append, ← contents_exact coherent.ring]

theorem left_bounded (t : Terminal) : advancesLeft t ≤ 13 := by
  rcases t with ⟨⟨k, ring, consumer, answer, accepted, gone⟩, uart, reader, returned⟩
  cases reader with
  | polling =>
      cases consumer with
      | testTail head =>
          simp only [advancesLeft]
          split_ifs <;> decide
      | _ => exact Nat.le_of_ble_eq_true rfl
  | fetching =>
      cases consumer with
      | waitTail head =>
          simp only [advancesLeft, accessesLeft]
          split_ifs <;> decide
      | _ => exact Nat.le_of_ble_eq_true rfl
  | askSerial =>
      simp only [advancesLeft]
      split_ifs <;> decide
  | _ => exact Nat.le_of_ble_eq_true rfl

-- A step returns one of the waiting bytes or leaves them all.
theorem advance_conserves (coherent : Coherent t) :
    (advance t).returned.length + waiting (advance t) = t.returned.length + waiting t := by
  have before := contents_count coherent
  have after := contents_count (advance_coherent coherent)
  change (advance t).keys.system.accepted.length =
    (advance t).keys.system.returned.length + (contents (advance t).keys.system.ring).length
    at after
  rw [(advance_accepted t).1, before] at after
  simp only [waiting]
  cases advance_moves coherent with
  | quiet returned uart gone =>
      rw [gone] at after
      rw [returned, uart]
      omega
  | key c returned uart gone _ =>
      rw [gone, List.length_append, List.length_singleton] at after
      rw [returned, uart, List.length_append, List.length_singleton]
      omega
  | serial c _ there returned gone =>
      rw [gone] at after
      rw [returned, there, List.length_append, List.length_singleton, List.length_cons]
      omega

theorem unread_or_serial (coherent : Coherent t) (nonempty : 0 < waiting t) :
    Unread t.keys.system ∨ t.uart ≠ [] := by
  have count := contents_count coherent
  rw [waiting] at nonempty
  by_cases serial : t.uart = []
  · rw [serial, List.length_nil] at nonempty
    rw [Unread]
    omega
  · exact .inr serial

theorem fetching_left (coherent : Coherent t) (fetching : t.reader = .fetching) :
    t.returned.length < (advance t).returned.length ∨
      advancesLeft (advance t) < advancesLeft t := by
  rcases coherent with ⟨ring, inStep, supplied, _⟩
  rcases t with ⟨⟨k, buffer, consumer, answer, accepted, gone⟩, uart, reader, returned⟩
  cases fetching
  cases consumer with
  | idle => exact inStep.elim
  | testHead => exact inStep.elim
  | testTail head => exact inStep.elim
  | waitHead =>
      right
      change accessesLeft buffer (.waitTail buffer.kbdBufferHead) < 6
      rw [accessesLeft, if_pos ((unread_iff ring).mpr supplied)]
      decide
  | waitTail head =>
      right
      by_cases differ : head ≠ buffer.kbdBufferTail
      · simp only [advance, consume, happen, step, Consumption.action, access, advancesLeft,
          accessesLeft, if_pos differ]
        decide
      · simp only [advance, consume, happen, step, Consumption.action, access, advancesLeft,
          accessesLeft, if_neg differ]
        decide
  | fetchTail => exact .inr (by decide : 3 < 4)
  | fetchSlot tail => exact .inr (by decide : 2 < 3)
  | stepTail c => exact .inr (by decide : 1 < 2)
  | storeTail c tail =>
      left
      simp [advance]

theorem advance_left (coherent : Coherent t) (nonempty : 0 < waiting t) :
    t.returned.length < (advance t).returned.length ∨
      advancesLeft (advance t) < advancesLeft t := by
  by_cases fetching : t.reader = .fetching
  · exact fetching_left coherent fetching
  have found := unread_or_serial coherent nonempty
  rcases coherent with ⟨ring, inStep, supplied, _⟩
  rcases t with ⟨⟨k, buffer, consumer, answer, accepted, gone⟩, uart, reader, returned⟩
  cases reader with
  | fetching => exact absurd rfl fetching
  | polling =>
      cases consumer with
      | testHead =>
          right
          have head := unread_iff ring
          change (if buffer.kbdBufferHead ≠ buffer.kbdBufferTail then 8
            else if uart ≠ [] then 4 else 13) < 9
          rcases found with key | serial
          · rw [if_pos (head.mpr key)]
            decide
          · rw [if_pos serial]
            split_ifs <;> decide
      | testTail head =>
          right
          by_cases differ : head ≠ buffer.kbdBufferTail
          · simp only [advance, advancesLeft, if_pos differ]
            decide
          · simp only [advance, advancesLeft, if_neg differ]
            split_ifs <;> decide
      | _ => exact inStep.elim
  | askSerial =>
      right
      by_cases serial : uart ≠ []
      · simp only [advance, advancesLeft, if_pos serial]
        decide
      · simp only [advance, advancesLeft, if_neg serial]
        decide
  | waitSerial =>
      right
      have serial : uart ≠ [] := supplied
      simp only [advance, advancesLeft, if_pos serial]
      decide
  | readSerial =>
      left
      simp [advance]
  | halted => exact .inr (by decide : 10 < 11)
  | fetch =>
      cases consumer with
      | idle => exact .inr (by decide : 6 < 7)
      | _ => exact inStep.elim
  | poll =>
      cases consumer with
      | idle => exact .inr (by decide : 9 < 10)
      | _ => exact inStep.elim

theorem left_positive (inStep : InStep t.reader t.keys.system.consumer) : 0 < advancesLeft t := by
  rcases t with ⟨⟨k, ring, consumer, answer, accepted, gone⟩, uart, reader, returned⟩
  cases reader with
  | polling =>
      cases consumer with
      | testTail head =>
          simp only [advancesLeft]
          split_ifs <;> decide
      | _ => exact Nat.succ_pos _
  | fetching =>
      cases consumer with
      | idle => exact inStep.elim
      | testHead => exact inStep.elim
      | testTail head => exact inStep.elim
      | waitTail head =>
          simp only [advancesLeft, accessesLeft]
          split_ifs <;> decide
      | _ => exact Nat.succ_pos _
  | askSerial =>
      simp only [advancesLeft]
      split_ifs <;> decide
  | _ => exact Nat.succ_pos _

-- Of the ring only the tail counts, so bytes put there do not delay the reader.
theorem left_same {later : Terminal} (reader : later.reader = t.reader)
    (consumer : later.keys.system.consumer = t.keys.system.consumer)
    (tail : later.keys.system.ring.kbdBufferTail = t.keys.system.ring.kbdBufferTail)
    (uart : later.uart = t.uart) : advancesLeft later = advancesLeft t := by
  rcases t with ⟨⟨k, ⟨buffer, head, last⟩, place, answer, accepted, gone⟩, serial, step, returned⟩
  rcases later with ⟨⟨k', ⟨buffer', head', end'⟩, place', answer', accepted', gone'⟩, serial',
    step', returned'⟩
  cases reader
  cases consumer
  cases tail
  cases uart
  cases step with
  | polling => cases place <;> rfl
  | fetching => cases place <;> rfl
  | _ => rfl

theorem scan_left (coherent : Coherent t) (code : UInt8) :
    waiting t ≤ waiting (occur t (.scan code)) ∧
      advancesLeft (occur t (.scan code)) = advancesLeft t := by
  rcases put_all_frame (keyboardHandler t.keys.keyboard code).2 t.keys.system with
    ⟨consumer, returned, tail, accepted⟩
  have before := contents_count coherent
  have after := contents_count (scan_coherent coherent code)
  have longer := accepted.length_le
  constructor
  · change (putAll _ t.keys.system).accepted.length =
      (putAll _ t.keys.system).returned.length + _ at after
    rw [returned] at after
    change _ + t.uart.length ≤ _ + t.uart.length
    omega
  · exact left_same rfl consumer tail rfl

theorem arrive_left (t : Terminal) (c : UInt8) :
    waiting t ≤ waiting (occur t (.arrive c)) ∧
      advancesLeft (occur t (.arrive c)) ≤ advancesLeft t := by
  have there (uart : List UInt8) : uart ++ [c] ≠ [] :=
    List.append_ne_nil_of_right_ne_nil _ (List.cons_ne_nil _ _)
  constructor
  · apply Nat.add_le_add_left
    change t.uart.length ≤ (t.uart ++ [c]).length
    rw [List.length_append]
    exact Nat.le_add_right _ _
  · rcases t with ⟨⟨k, ring, consumer, answer, accepted, gone⟩, uart, reader, returned⟩
    cases reader with
    | polling =>
        cases consumer with
        | testTail head =>
            change (if head ≠ ring.kbdBufferTail then 8 else if uart ++ [c] ≠ [] then 4 else 13) ≤
              if head ≠ ring.kbdBufferTail then 8 else if uart ≠ [] then 4 else 13
            rw [if_pos (there uart)]
            split_ifs <;> decide
        | _ => exact Nat.le_refl _
    | fetching => cases consumer <;> exact Nat.le_refl _
    | askSerial =>
        change (if uart ++ [c] ≠ [] then 3 else 12) ≤ if uart ≠ [] then 3 else 12
        rw [if_pos (there uart)]
        split_ifs <;> decide
    | _ => exact Nat.le_refl _

theorem occur_returned (coherent : Coherent t) (event : Event) :
    t.returned.length ≤ (occur t event).returned.length := by
  cases event with
  | scan code => exact Nat.le_refl _
  | arrive c => exact Nat.le_refl _
  | advance =>
      change t.returned.length ≤ (advance t).returned.length
      cases advance_moves coherent with
      | quiet returned _ _ => rw [returned]
      | key c returned _ _ _ => simp [returned]
      | serial c _ _ returned _ => simp [returned]

theorem occur_all_returned (events : List Event) (coherent : Coherent t) :
    t.returned.length ≤ (occurAll events t).returned.length := by
  induction events generalizing t with
  | nil => exact Nat.le_refl _
  | cons event rest ih =>
      exact Nat.le_trans (occur_returned coherent event) (ih (occur_coherent coherent event))

theorem byte_returned (events : List Event) (coherent : Coherent t) (nonempty : 0 < waiting t)
    (enough : advancesLeft t ≤ advances events) :
    t.returned.length < (occurAll events t).returned.length := by
  induction events generalizing t with
  | nil => exact absurd (left_positive coherent.inStep) (Nat.not_lt.mpr enough)
  | cons event rest ih =>
      have kept := occur_coherent coherent event
      have more := occur_all_returned rest kept
      cases event with
      | scan code =>
          rcases scan_left coherent code with ⟨some', left⟩
          exact ih kept (Nat.lt_of_lt_of_le nonempty some') (left ▸ enough)
      | arrive c =>
          rcases arrive_left t c with ⟨some', left⟩
          exact ih kept (Nat.lt_of_lt_of_le nonempty some') (Nat.le_trans left enough)
      | advance =>
          have conserved := advance_conserves coherent
          have here := occur_returned coherent .advance
          change t.returned.length < (occurAll rest (advance t)).returned.length
          change _ ≤ advances rest + 1 at enough
          change t.returned.length ≤ (advance t).returned.length at here
          change (advance t).returned.length ≤ _ at more
          rcases Nat.lt_or_eq_of_le here with one | nothing
          · exact Nat.lt_of_lt_of_le one more
          · rcases advance_left coherent nonempty with one | nearer
            · exact Nat.lt_of_lt_of_le one more
            · exact nothing ▸ ih kept (by omega) (by omega)

theorem advances_replicate (n : Nat) : advances (List.replicate n .advance) = n := by
  induction n with
  | zero => rfl
  | succ n ih => exact congrArg (· + 1) ih

theorem replicate_conserves (n : Nat) (coherent : Coherent t) :
    (occurAll (List.replicate n .advance) t).returned.length +
        waiting (occurAll (List.replicate n .advance) t) =
      t.returned.length + waiting t := by
  induction n generalizing t with
  | zero => rfl
  | succ n ih =>
      have first : (occurAll (List.replicate n .advance) (advance t)).returned.length +
          waiting (occurAll (List.replicate n .advance) (advance t)) =
          (advance t).returned.length + waiting (advance t) :=
        ih (advance_coherent coherent)
      exact first.trans (advance_conserves coherent)

/-- With no more events both devices are read empty, thirteen steps at most a byte. -/
theorem all_returned (bytes : Nat) {n : Nat} (coherent : Coherent t)
    (bound : waiting t ≤ bytes) (enough : 13 * bytes ≤ n) :
    waiting (occurAll (List.replicate n .advance) t) = 0 := by
  induction bytes generalizing n t with
  | zero =>
      have conserved := replicate_conserves n coherent
      have more := occur_all_returned (List.replicate n .advance) coherent
      omega
  | succ bytes ih =>
      have split : List.replicate n Event.advance =
          List.replicate 13 .advance ++ List.replicate (n - 13) .advance := by
        rw [List.replicate_append_replicate]
        congr 1
        omega
      rw [split, occur_all_append]
      have kept := occur_all_coherent (List.replicate 13 .advance) coherent
      have conserved := replicate_conserves 13 coherent
      refine ih kept ?_ (by omega)
      rcases Nat.eq_zero_or_pos (waiting t) with nothing | nonempty
      · have more := occur_all_returned (List.replicate 13 .advance) coherent
        omega
      · have one := byte_returned (List.replicate 13 .advance) coherent nonempty
          (advances_replicate 13 ▸ left_bounded t)
        omega

theorem key_next {c : UInt8} {rest : List UInt8} (coherent : Coherent t)
    (reader : t.reader = .poll) (there : contents t.keys.system.ring = c :: rest) :
    (occurAll (List.replicate 10 .advance) t).returned = t.returned ++ [fromKeyboard c] ∧
      (occurAll (List.replicate 10 .advance) t).reader = .poll := by
  have accepted := contents_exact coherent.ring
  have inv := coherent.ring
  have inStep := coherent.inStep
  rw [there] at accepted
  rcases t with ⟨⟨k, ring, consumer, answer, taken, gone⟩, uart, step, returned⟩
  cases reader
  cases consumer with
  | idle =>
      change taken = gone ++ c :: rest at accepted
      have oldest : taken[gone.length]? = some c := by
        rw [accepted, List.getElem?_append_right (Nat.le_refl _), Nat.sub_self]
        rfl
      have differ : ¬ ring.kbdBufferHead = ring.kbdBufferTail :=
        (unread_iff inv).mpr (List.getElem?_eq_some_iff.mp oldest).1
      have cell := inv.window.cell _ _ (Nat.le_refl _) oldest
      rw [← inv.tail] at cell
      simp only [List.replicate, occurAll, occur, advance, consume, happen, Consumption.action,
        step, access, differ, ne_eq, not_false_eq_true, if_true]
      exact ⟨congrArg (fun d => returned ++ [fromKeyboard d]) cell, trivial⟩
  | _ => exact inStep.elim

theorem serial_next {c : UInt8} {rest : List UInt8} (coherent : Coherent t)
    (reader : t.reader = .poll) (empty : contents t.keys.system.ring = [])
    (there : t.uart = c :: rest) :
    (occurAll (List.replicate 6 .advance) t).returned = t.returned ++ [fromSerial c] ∧
      (occurAll (List.replicate 6 .advance) t).reader = .poll := by
  have accepted := contents_exact coherent.ring
  have inv := coherent.ring
  have inStep := coherent.inStep
  rw [empty, List.append_nil] at accepted
  rcases t with ⟨⟨k, ring, consumer, answer, taken, gone⟩, uart, step, returned⟩
  cases reader
  cases there
  cases consumer with
  | idle =>
      have nothing : ¬ Unread ⟨ring, .idle, answer, taken, gone⟩ := by
        rw [Unread, accepted]
        exact Nat.lt_irrefl _
      have same : ring.kbdBufferHead = ring.kbdBufferTail :=
        Decidable.of_not_not (mt (unread_iff inv).mp nothing)
      simp only [List.replicate, occurAll, occur, advance, consume, happen, Consumption.action,
        step, access, same, ne_eq, not_true_eq_false, if_false, reduceCtorEq, not_false_eq_true,
        if_true, List.headD_cons]
      exact ⟨trivial, trivial⟩
  | _ => exact inStep.elim

end Progress

/-- What merging the two devices into one stream must not do to their bytes, and
that it goes on: with no more events a poll returns the ring's oldest byte, with
the ring empty the UART's, until both are empty. -/
structure Merged (events : List Event) (t : Terminal) : Prop where
  keyboard : emitted powerOn (codesIn events) =
    received .keyboard t.returned ++ contents t.keys.system.ring
  serial : (arrivals events).map lineFeed =
    received .serial t.returned ++ t.uart.map lineFeed
  together : ∀ before code after, events = before ++ .scan code :: after →
    ReturnedTogether (emitted powerOn (codesIn before))
      (keyboardHandler (afterCodes powerOn (codesIn before)) code).2 t.returned
  keyNext : ∀ c rest, t.reader = .poll → contents t.keys.system.ring = c :: rest →
    (occurAll (List.replicate 10 .advance) t).returned = t.returned ++ [fromKeyboard c] ∧
      (occurAll (List.replicate 10 .advance) t).reader = .poll
  serialNext : ∀ c rest, t.reader = .poll → contents t.keys.system.ring = [] →
    t.uart = c :: rest →
      (occurAll (List.replicate 6 .advance) t).returned = t.returned ++ [fromSerial c] ∧
        (occurAll (List.replicate 6 .advance) t).reader = .poll
  prompt : ∀ more, 0 < waiting t → 13 ≤ advances more →
    t.returned.length < (occurAll more t).returned.length
  drained : ∀ n, 13 * waiting t ≤ n → waiting (occurAll (List.replicate n .advance) t) = 0

theorem devices_merged (events : List Event) (neverFull : NeverFull events boot) :
    Merged events (occurAll events boot) := by
  have coherent := occur_all_coherent events boot_coherent
  constructor
  · have accepted := (keys_accepted events boot neverFull).1
    rw [coherent.keyboard, ← contents_exact coherent.ring, accepted]
    rfl
  · exact (serial_conserved events boot_coherent).symm
  · rintro before code after rfl
    rcases (never_full_append before _ boot).mp neverFull with ⟨fits, room, _⟩
    rcases keys_accepted before boot fits with ⟨accepted, keyboard⟩
    have scanned := scanned_following (occur_all_coherent before boot_coherent) code room
    rw [accepted, keyboard] at scanned
    rw [occur_all_append]
    exact (occur_all_following after scanned).together
  · exact fun c rest reader there => key_next coherent reader there
  · exact fun c rest reader empty there => serial_next coherent reader empty there
  · exact fun more nonempty enough =>
      byte_returned more coherent nonempty (Nat.le_trans (left_bounded _) enough)
  · exact fun n enough => all_returned _ coherent (Nat.le_refl _) enough

/-- An arrow, a serial Enter that arrives while its bytes are read, and a letter. -/
def arrowAndEnter : List Event :=
  .scan 0x48 :: List.replicate 12 .advance ++ .arrive 0x0D :: .scan 0x1E ::
    List.replicate 34 .advance

theorem arrow_and_enter_merged :
    (occurAll arrowAndEnter boot).returned =
        [fromKeyboard 0x1B, fromKeyboard 0x5B, fromKeyboard 0x41, fromKeyboard 0x61,
          fromSerial 0x0D] ∧
      Merged arrowAndEnter (occurAll arrowAndEnter boot) := by
  have fits : NeverFull arrowAndEnter boot :=
    ⟨⟨by decide, by decide, by decide, trivial⟩, ⟨by decide, trivial⟩, trivial⟩
  exact ⟨rfl, devices_merged _ fits⟩

end NexusOS.StdinProgress
