import NexusOS.KeyboardRing
import NexusOS.ScancodeDecoder

/-!
What one run of `keyboard_handler` does to the ring. `contents` reads the ring
as the list of its unread bytes, a queue of at most 255. `kbd_buffer_puts`
checks for room byte by byte, so a sequence that meets one or two free slots is
cut short; the handler's other bytes come one at a time.
-/

namespace NexusOS.KeyPuts

open KeyboardRing ScancodeDecoder

def kbdBufferPuts (ring : Ring) (s : List UInt8) : Ring := s.foldl kbdBufferPut ring

/-- The ring after one run of the handler. -/
def handled (k : Keyboard) (ring : Ring) (scancode : UInt8) : Ring :=
  kbdBufferPuts ring (keyboardHandler k scancode).2

def unread (ring : Ring) : Nat :=
  (ring.kbdBufferHead + kbdBufferSize - ring.kbdBufferTail) % kbdBufferSize

def contents (ring : Ring) : List UInt8 :=
  (List.range (unread ring)).map fun k => ring.kbdBuffer ((ring.kbdBufferTail + k) % kbdBufferSize)

def free (ring : Ring) : Nat := 255 - (contents ring).length

structure InRange (ring : Ring) : Prop where
  head : ring.kbdBufferHead < kbdBufferSize
  tail : ring.kbdBufferTail < kbdBufferSize

/-- All of the key's bytes are appended, or none. -/
def AllOrNothing (k : Keyboard) (ring : Ring) (scancode : UInt8) : Prop :=
  contents (handled k ring scancode) = contents ring ++ (keyboardHandler k scancode).2 ∨
    contents (handled k ring scancode) = contents ring

/-- The codes of the keys that send `ESC [` and a letter. -/
def SendsSequence (k : Keyboard) (scancode : UInt8) : Prop :=
  scancode ∈ [0x48, 0x50, 0x4D, 0x4B] ∨ k.extScancode = true ∧ scancode ∈ [0x47, 0x4F]

instance (k : Keyboard) (scancode : UInt8) : Decidable (SendsSequence k scancode) :=
  inferInstanceAs (Decidable (_ ∨ _))

theorem contents_length (ring : Ring) : (contents ring).length = unread ring := by
  rw [contents, List.length_map, List.length_range]

theorem room_iff {ring : Ring} (inRange : InRange ring) :
    hasRoom ring ↔ (contents ring).length < 255 := by
  rcases inRange with ⟨head, tail⟩
  rw [contents_length, hasRoom, unread]
  simp only [kbdBufferSize] at *
  omega

theorem put_in_range {ring : Ring} (inRange : InRange ring) (c : UInt8) :
    InRange (kbdBufferPut ring c) := by
  unfold kbdBufferPut
  by_cases room : hasRoom ring
  · rw [if_pos room]
    exact ⟨Nat.mod_lt _ (by decide), inRange.tail⟩
  · rw [if_neg room]
    exact inRange

theorem contents_put {ring : Ring} (inRange : InRange ring) (c : UInt8)
    (room : (contents ring).length < 255) :
    contents (kbdBufferPut ring c) = contents ring ++ [c] := by
  have free := (room_iff inRange).mpr room
  rw [contents_length] at room
  rcases inRange with ⟨head, tail⟩
  have longer : unread (kbdBufferPut ring c) = unread ring + 1 := by
    simp only [kbdBufferPut, if_pos free, unread, kbdBufferSize] at *
    omega
  have last : (ring.kbdBufferTail + unread ring) % kbdBufferSize = ring.kbdBufferHead := by
    simp only [unread, kbdBufferSize] at *
    omega
  rw [contents, longer, List.range_succ, List.map_append, List.map_singleton]
  simp only [kbdBufferPut, if_pos free]
  congr 1
  · apply List.map_congr_left
    intro k member
    have below := List.mem_range.mp member
    apply Function.update_of_ne
    simp only [unread, kbdBufferSize] at *
    omega
  · rw [last, Function.update_self]

theorem contents_puts {ring : Ring} (inRange : InRange ring) (s : List UInt8) :
    contents (kbdBufferPuts ring s) = contents ring ++ s.take (free ring) := by
  induction s generalizing ring with
  | nil => simp [kbdBufferPuts]
  | cons c rest ih =>
      have later := ih (put_in_range inRange c)
      change contents (kbdBufferPuts (kbdBufferPut ring c) rest) = _
      rw [later]
      by_cases room : (contents ring).length < 255
      · have pushed := contents_put inRange c room
        have one : free ring = free (kbdBufferPut ring c) + 1 := by
          rw [free, free, pushed, List.length_append, List.length_singleton]
          omega
        rw [pushed, one, List.take_succ_cons, List.append_assoc, List.singleton_append]
      · have full : free ring = 0 := by
          rw [free]
          omega
        have same : kbdBufferPut ring c = ring := if_neg (mt (room_iff inRange).mp room)
        rw [same, full, List.take_zero, List.take_zero]

theorem character_short (k : Keyboard) (scancode : UInt8) :
    (character k scancode).length ≤ 1 := by
  simp only [character]
  split_ifs <;> simp

theorem sequence_length {k : Keyboard} {scancode : UInt8} (sends : SendsSequence k scancode) :
    (keyboardHandler k scancode).2.length = 3 := by
  rcases k with ⟨shift, lock, control, ext⟩
  rcases sends with arrow | ⟨pending, corner⟩
  · simp only [List.mem_cons, List.not_mem_nil, or_false] at arrow
    cases ext <;> rcases arrow with rfl | rfl | rfl | rfl <;> rfl
  · cases pending
    simp only [List.mem_cons, List.not_mem_nil, or_false] at corner
    rcases corner with rfl | rfl <;> rfl

theorem other_length {k : Keyboard} {scancode : UInt8} (other : ¬ SendsSequence k scancode) :
    (keyboardHandler k scancode).2.length ≤ 1 := by
  simp only [SendsSequence, List.mem_cons, List.not_mem_nil, or_false, not_or, not_and] at other
  rcases other with ⟨⟨up, down, right, left⟩, corner⟩
  by_cases pending : k.extScancode = true
  · have others := corner pending
    simp only [keyboardHandler, pending, extendedKey, up, down, right, left, others, if_true,
      if_false]
    split_ifs <;> simp
  · simp only [keyboardHandler, pending, up, down, right, left, Bool.false_eq_true, if_false]
    split_ifs
    all_goals first
      | exact character_short k scancode
      | simp

theorem reachable_in_range (actions : List Action) : InRange (run actions start).ring := by
  have inv := run_invariant actions start_invariant
  exact ⟨inv.head ▸ Nat.mod_lt _ (by decide), inv.tail ▸ Nat.mod_lt _ (by decide)⟩

theorem append_take_self_iff (xs ys : List UInt8) (n : Nat) :
    xs ++ ys.take n = xs ++ ys ↔ ys.length ≤ n := by
  rw [List.append_cancel_left_eq, List.take_eq_self_iff]

theorem append_take_nil_iff (xs ys : List UInt8) (n : Nat) :
    xs ++ ys.take n = xs ↔ n = 0 ∨ ys = [] := by
  rw [List.append_right_eq_self, List.take_eq_nil_iff]

theorem whole_iff {ring : Ring} (inRange : InRange ring) (k : Keyboard) (scancode : UInt8) :
    AllOrNothing k ring scancode ↔
      ¬ (SendsSequence k scancode ∧ (free ring = 1 ∨ free ring = 2)) := by
  rw [AllOrNothing, handled, contents_puts inRange, append_take_self_iff, append_take_nil_iff]
  by_cases sends : SendsSequence k scancode
  · have three := sequence_length sends
    have nonempty : (keyboardHandler k scancode).2 ≠ [] := List.ne_nil_of_length_pos (by omega)
    simp only [three, sends, nonempty, or_false, true_and]
    omega
  · have short := other_length sends
    refine iff_of_true ?_ (fun both => sends both.1)
    by_cases full : free ring = 0
    · exact .inr (.inl full)
    · exact .inl (Nat.le_trans short (Nat.pos_of_ne_zero full))

/-- One run of the handler puts a key's bytes as a whole or not at all, except
that a sequence is cut short where one or two slots are free. -/
theorem all_or_nothing_iff (actions : List Action) (k : Keyboard) (scancode : UInt8) :
    AllOrNothing k (run actions start).ring scancode ↔
      ¬ (SendsSequence k scancode ∧
        (free (run actions start).ring = 1 ∨ free (run actions start).ring = 2)) :=
  whole_iff (reachable_in_range actions) k scancode

theorem puts_run (s : List UInt8) (system : System) :
    (run (s.map Action.put) system).ring = kbdBufferPuts system.ring s := by
  induction s generalizing system with
  | nil => rfl
  | cons c rest ih => exact ih (step system (.put c))

theorem letters_fill (n : Nat) (fits : n ≤ 255) :
    free (run ((List.replicate n 0x61).map Action.put) start).ring = 255 - n := by
  have filled := @contents_puts start.ring ⟨by decide, by decide⟩ (List.replicate n 0x61)
  have all : (List.replicate n (0x61 : UInt8)).take (free start.ring) = List.replicate n 0x61 := by
    rw [List.take_replicate]
    exact congrArg (List.replicate · 0x61) (Nat.min_eq_right fits)
  have empty : contents start.ring = [] := rfl
  rw [puts_run, free, filled, all, empty, List.nil_append, List.length_replicate]

/-- With 254 bytes unread the Up arrow leaves a lone ESC. -/
theorem arrow_cut_short :
    ¬ ∀ (actions : List Action) (k : Keyboard) (scancode : UInt8),
      AllOrNothing k (run actions start).ring scancode := by
  intro always
  have whole := always ((List.replicate 254 0x61).map .put) ScancodeDecoder.powerOn 0x48
  apply (whole_iff (reachable_in_range _) _ _).mp whole
  exact ⟨by decide, .inl (letters_fill 254 (by decide))⟩

end NexusOS.KeyPuts
