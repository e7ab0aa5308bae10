import NexusOS.RingWindow

/-!
The keyboard ring of `kernel/drivers/keyboard.c` under interrupts. The consumer
is a program counter that makes one memory access a step; `kbd_buffer_put` runs
to completion between any two of them. `accepted` and `returned` observe the
bytes the ring took and the bytes `keyboard_getc` gave back; the code reads
neither. `hlt` waits for an interrupt and is no step of its own.
-/

namespace NexusOS.KeyboardRing

open RingWindow

def kbdBufferSize : Nat := 256

structure Ring where
  kbdBuffer : Nat → UInt8
  kbdBufferHead : Nat
  kbdBufferTail : Nat

def zeroRing : Ring := ⟨fun _ => 0, 0, 0⟩

/-- The test `next != kbd_buffer_tail` of `kbd_buffer_put`. -/
def hasRoom (ring : Ring) : Prop :=
  (ring.kbdBufferHead + 1) % kbdBufferSize ≠ ring.kbdBufferTail

instance (ring : Ring) : Decidable (hasRoom ring) := inferInstanceAs (Decidable (_ ≠ _))

def kbdBufferPut (ring : Ring) (c : UInt8) : Ring :=
  if hasRoom ring then
    { ring with
      kbdBuffer := Function.update ring.kbdBuffer ring.kbdBufferHead c
      kbdBufferHead := (ring.kbdBufferHead + 1) % kbdBufferSize }
  else ring

/-- Where the consumer is: the memory access it makes next, with what the
earlier ones loaded. `test` is a call of `keyboard_has_data`, the others are the
statements of `keyboard_getc`. -/
inductive Consumer where
  | idle
  | testHead
  | testTail (head : Nat)
  | waitHead
  | waitTail (head : Nat)
  | fetchTail
  | fetchSlot (tail : Nat)
  | stepTail (c : UInt8)
  | storeTail (c : UInt8) (tail : Nat)

structure System where
  ring : Ring
  consumer : Consumer
  answer : Bool
  accepted : List UInt8
  returned : List UInt8

def start : System := ⟨zeroRing, .idle, false, [], []⟩

inductive Action where
  | put (c : UInt8)
  | callHasData
  | callGetc
  | access

def access (s : System) : System :=
  match s.consumer with
  | .idle => s
  | .testHead => { s with consumer := .testTail s.ring.kbdBufferHead }
  | .testTail head =>
      { s with consumer := .idle, answer := decide (head ≠ s.ring.kbdBufferTail) }
  | .waitHead => { s with consumer := .waitTail s.ring.kbdBufferHead }
  | .waitTail head =>
      if head ≠ s.ring.kbdBufferTail then { s with consumer := .fetchTail }
      else { s with consumer := .waitHead }
  | .fetchTail => { s with consumer := .fetchSlot s.ring.kbdBufferTail }
  | .fetchSlot tail => { s with consumer := .stepTail (s.ring.kbdBuffer tail) }
  | .stepTail c => { s with consumer := .storeTail c s.ring.kbdBufferTail }
  | .storeTail c tail =>
      { s with
        ring := { s.ring with kbdBufferTail := (tail + 1) % kbdBufferSize }
        consumer := .idle
        returned := s.returned ++ [c] }

def step (s : System) : Action → System
  | .put c =>
      { s with
        ring := kbdBufferPut s.ring c
        accepted := if hasRoom s.ring then s.accepted ++ [c] else s.accepted }
  | .callHasData => match s.consumer with
      | .idle => { s with consumer := .testHead }
      | _ => s
  | .callGetc => match s.consumer with
      | .idle => { s with consumer := .waitHead }
      | _ => s
  | .access => access s

def run : List Action → System → System
  | [], s => s
  | action :: rest, s => run rest (step s action)

/-- A loaded head is the head as some prefix of the accepted bytes left it, and
that prefix holds every returned byte. -/
def Snapshot (s : System) (head : Nat) : Prop :=
  ∃ n, head = n % kbdBufferSize ∧ s.returned.length ≤ n ∧ n ≤ s.accepted.length

def Unread (s : System) : Prop := s.returned.length < s.accepted.length

def Oldest (s : System) (c : UInt8) : Prop := s.accepted[s.returned.length]? = some c

def Consistent (s : System) : Consumer → Prop
  | .idle | .testHead | .waitHead => True
  | .testTail head | .waitTail head => Snapshot s head
  | .fetchTail => Unread s
  | .fetchSlot tail => Unread s ∧ tail = s.ring.kbdBufferTail
  | .stepTail c => Oldest s c
  | .storeTail c tail => Oldest s c ∧ tail = s.ring.kbdBufferTail

structure Invariant (s : System) : Prop where
  head : s.ring.kbdBufferHead = s.accepted.length % kbdBufferSize
  tail : s.ring.kbdBufferTail = s.returned.length % kbdBufferSize
  order : s.returned <+: s.accepted
  room : s.accepted.length < s.returned.length + kbdBufferSize
  window : Window kbdBufferSize s.ring.kbdBuffer s.accepted s.returned.length
  consumer : Consistent s s.consumer

theorem start_invariant : Invariant start :=
  ⟨rfl, rfl, List.prefix_refl [], by decide, window_empty _ _, trivial⟩

-- The ring has no room exactly when 255 accepted bytes are not released.
theorem has_room_iff {s : System} (inv : Invariant s) :
    ¬ hasRoom s.ring ↔ s.accepted.length = s.returned.length + 255 := by
  have behind := inv.order.length_le
  have room := inv.room
  rw [hasRoom, inv.head, inv.tail]
  simp only [kbdBufferSize] at *
  omega

theorem put_refused_iff (ring : Ring) (c : UInt8) :
    kbdBufferPut ring c = ring ↔ ¬ hasRoom ring := by
  constructor
  · intro same free
    have moved := congrArg Ring.kbdBufferHead same
    simp only [kbdBufferPut, if_pos free, kbdBufferSize] at moved
    omega
  · intro full
    exact if_neg full

theorem oldest_grows {s later : System} (kept : later.returned = s.returned)
    (grown : s.accepted <+: later.accepted) {c : UInt8} (found : Oldest s c) :
    Oldest later c := by
  rw [Oldest, kept]
  rcases grown with ⟨rest, same⟩
  rw [← same, List.getElem?_append_left (List.getElem?_eq_some_iff.mp found).1, found]

theorem consistent_put {s later : System} (kept : later.returned = s.returned)
    (grown : s.accepted <+: later.accepted)
    (tail : later.ring.kbdBufferTail = s.ring.kbdBufferTail) (consumer : Consumer)
    (good : Consistent s consumer) : Consistent later consumer := by
  have snapshot : ∀ head, Snapshot s head → Snapshot later head := by
    rintro head ⟨n, same, low, high⟩
    exact ⟨n, same, kept ▸ low, Nat.le_trans high grown.length_le⟩
  have unread : Unread s → Unread later := by
    intro waiting
    rw [Unread, kept]
    exact Nat.lt_of_lt_of_le waiting grown.length_le
  have oldest : ∀ c, Oldest s c → Oldest later c := fun _ => oldest_grows kept grown
  cases consumer with
  | idle => trivial
  | testHead => trivial
  | waitHead => trivial
  | testTail head => exact snapshot head good
  | waitTail head => exact snapshot head good
  | fetchTail => exact unread good
  | fetchSlot index => exact ⟨unread good.1, good.2.trans tail.symm⟩
  | stepTail c => exact oldest c good
  | storeTail c index => exact ⟨oldest c good.1, good.2.trans tail.symm⟩

theorem put_invariant {s : System} (inv : Invariant s) (c : UInt8) :
    Invariant (step s (.put c)) := by
  have full := has_room_iff inv
  have room := inv.room
  by_cases free : hasRoom s.ring
  · have space := mt full.mpr (not_not_intro free)
    simp only [step, kbdBufferPut, if_pos free]
    have grown : s.accepted <+: s.accepted ++ [c] := List.prefix_append _ _
    constructor
    · rw [inv.head, List.length_append, List.length_singleton, Nat.mod_add_mod]
    · exact inv.tail
    · exact inv.order.trans grown
    · simp only [List.length_append, List.length_singleton, kbdBufferSize] at *
      omega
    · rw [inv.head]
      exact window_push inv.window c _ (Nat.le_refl _) inv.room
    · let later : System := { s with
        ring := { s.ring with
          kbdBuffer := Function.update s.ring.kbdBuffer s.ring.kbdBufferHead c
          kbdBufferHead := (s.ring.kbdBufferHead + 1) % kbdBufferSize }
        accepted := s.accepted ++ [c] }
      exact @consistent_put s later rfl grown rfl s.consumer inv.consumer
  · simp only [step, kbdBufferPut, if_neg free]
    exact inv

theorem release_order {returned accepted : List UInt8} {c : UInt8}
    (order : returned <+: accepted) (oldest : accepted[returned.length]? = some c) :
    returned ++ [c] <+: accepted := by
  rcases order with ⟨rest, rfl⟩
  rw [List.getElem?_append_right (Nat.le_refl _), Nat.sub_self] at oldest
  cases rest with
  | nil => cases oldest
  | cons d rest =>
      cases oldest
      exact ⟨rest, by simp⟩

theorem unread_of_snapshot {s : System} {head : Nat}
    (tail : s.ring.kbdBufferTail = s.returned.length % kbdBufferSize) (loaded : Snapshot s head)
    (differ : head ≠ s.ring.kbdBufferTail) : Unread s := by
  rcases loaded with ⟨n, rfl, low, high⟩
  rcases Nat.lt_or_eq_of_le low with more | drained
  · exact Nat.lt_of_lt_of_le more high
  · exact absurd (drained ▸ tail.symm) differ

theorem access_invariant {s : System} (inv : Invariant s) : Invariant (access s) := by
  rcases s with ⟨ring, consumer, answer, accepted, returned⟩
  rcases inv with ⟨head, tail, order, room, window, program⟩
  cases consumer with
  | idle => exact ⟨head, tail, order, room, window, trivial⟩
  | testHead => exact ⟨head, tail, order, room, window, _, head, order.length_le, Nat.le_refl _⟩
  | waitHead => exact ⟨head, tail, order, room, window, _, head, order.length_le, Nat.le_refl _⟩
  | testTail loaded => exact ⟨head, tail, order, room, window, trivial⟩
  | waitTail loaded =>
      by_cases same : loaded = ring.kbdBufferTail
      · simp only [access, same, ne_eq, not_true_eq_false, if_false]
        exact ⟨head, tail, order, room, window, trivial⟩
      · simp only [access, ne_eq, same, not_false_eq_true, if_true]
        refine ⟨head, tail, order, room, window, ?_⟩
        exact unread_of_snapshot tail program same
  | fetchTail => exact ⟨head, tail, order, room, window, program, rfl⟩
  | fetchSlot loaded =>
      rcases program with ⟨unread, same⟩
      refine ⟨head, tail, order, room, window, ?_⟩
      -- the producer cannot have reached this slot: it stops one short of the tail
      have found := List.getElem?_eq_getElem unread
      have cell := window.cell _ _ (Nat.le_refl _) found
      change accepted[returned.length]? = some (ring.kbdBuffer loaded)
      rw [same.trans tail]
      exact found.trans (congrArg some cell.symm)
  | stepTail c => exact ⟨head, tail, order, room, window, program, rfl⟩
  | storeTail c loaded =>
      rcases program with ⟨oldest, same⟩
      have longer : (returned ++ [c]).length = returned.length + 1 := by simp
      constructor
      · exact head
      · change (loaded + 1) % kbdBufferSize = (returned ++ [c]).length % kbdBufferSize
        rw [longer, same.trans tail, Nat.mod_add_mod]
      · exact release_order order oldest
      · change accepted.length < (returned ++ [c]).length + kbdBufferSize
        rw [longer]
        exact Nat.lt_of_lt_of_le room (Nat.add_le_add_right (Nat.le_succ _) _)
      · exact window_release window _ (longer ▸ Nat.le_succ _)
      · trivial

theorem step_invariant {s : System} (inv : Invariant s) (action : Action) :
    Invariant (step s action) := by
  cases action with
  | put c => exact put_invariant inv c
  | access => exact access_invariant inv
  -- a call begins only where the consumer is idle
  | callHasData =>
      rcases s with ⟨ring, consumer, answer, accepted, returned⟩
      cases consumer with
      | idle => exact ⟨inv.head, inv.tail, inv.order, inv.room, inv.window, trivial⟩
      | _ => exact inv
  | callGetc =>
      rcases s with ⟨ring, consumer, answer, accepted, returned⟩
      cases consumer with
      | idle => exact ⟨inv.head, inv.tail, inv.order, inv.room, inv.window, trivial⟩
      | _ => exact inv

theorem run_invariant (actions : List Action) {s : System} (inv : Invariant s) :
    Invariant (run actions s) := by
  induction actions generalizing s with
  | nil => exact inv
  | cons action rest ih => exact ih (step_invariant inv action)

/-- The accesses of a `keyboard_getc` up to the store of the tail, once a byte is
there. A head loaded before it came sends the call round its loop once more. -/
def accessesLeft (ring : Ring) : Consumer → Nat
  | .idle | .testHead | .testTail _ => 0
  | .waitHead => 6
  | .waitTail head => if head ≠ ring.kbdBufferTail then 5 else 7
  | .fetchTail => 4
  | .fetchSlot _ => 3
  | .stepTail _ => 2
  | .storeTail _ _ => 1

def accesses : List Action → Nat
  | [] => 0
  | .access :: rest => accesses rest + 1
  | _ :: rest => accesses rest

/-- A call of `keyboard_getc` is under way and the ring holds `c` for it. -/
structure Getting (c : UInt8) (s : System) : Prop where
  invariant : Invariant s
  oldest : Oldest s c
  underway : 0 < accessesLeft s.ring s.consumer

theorem unread_iff {s : System} (inv : Invariant s) :
    s.ring.kbdBufferHead ≠ s.ring.kbdBufferTail ↔ Unread s := by
  have behind := inv.order.length_le
  have room := inv.room
  rw [inv.head, inv.tail, Unread]
  simp only [kbdBufferSize] at *
  omega

theorem run_append (actions more : List Action) (s : System) :
    run (actions ++ more) s = run more (run actions s) := by
  induction actions generalizing s with
  | nil => rfl
  | cons action rest ih => exact ih (step s action)

theorem put_frame (s : System) (c : UInt8) :
    (step s (.put c)).consumer = s.consumer ∧ (step s (.put c)).returned = s.returned ∧
      (step s (.put c)).ring.kbdBufferTail = s.ring.kbdBufferTail ∧
      s.accepted <+: (step s (.put c)).accepted := by
  refine ⟨rfl, rfl, ?_, ?_⟩
  · change (kbdBufferPut s.ring c).kbdBufferTail = _
    unfold kbdBufferPut
    split <;> rfl
  · change s.accepted <+: if hasRoom s.ring then s.accepted ++ [c] else s.accepted
    split
    · exact List.prefix_append _ _
    · exact List.prefix_refl _

-- Whatever is no access leaves the consumer its place and its byte.
theorem getting_other {c : UInt8} {s : System} (getting : Getting c s) {action : Action}
    (other : accesses [action] = 0) :
    Getting c (step s action) ∧ (step s action).returned = s.returned ∧
      accessesLeft (step s action).ring (step s action).consumer =
        accessesLeft s.ring s.consumer := by
  have kept := step_invariant getting.invariant action
  cases action with
  | access => cases other
  | put d =>
      rcases put_frame s d with ⟨consumer, returned, tail, accepted⟩
      have left : accessesLeft (step s (.put d)).ring (step s (.put d)).consumer =
          accessesLeft s.ring s.consumer := by
        rw [consumer]
        cases s.consumer <;> simp only [accessesLeft, tail]
      refine ⟨⟨kept, ?_, left ▸ getting.underway⟩, returned, left⟩
      exact oldest_grows returned accepted getting.oldest
  | callHasData =>
      rcases s with ⟨ring, consumer, answer, accepted, returned⟩
      cases consumer with
      | idle => exact absurd getting.underway (Nat.lt_irrefl 0)
      | _ => exact ⟨getting, rfl, rfl⟩
  | callGetc =>
      rcases s with ⟨ring, consumer, answer, accepted, returned⟩
      cases consumer with
      | idle => exact absurd getting.underway (Nat.lt_irrefl 0)
      | _ => exact ⟨getting, rfl, rfl⟩

theorem getting_access {c : UInt8} {s : System} (getting : Getting c s) :
    (accessesLeft s.ring s.consumer = 1 ∧ (access s).consumer = .idle ∧
        (access s).returned = s.returned ++ [c]) ∨
      (Getting c (access s) ∧ (access s).returned = s.returned ∧
        accessesLeft (access s).ring (access s).consumer + 1 =
          accessesLeft s.ring s.consumer) := by
  rcases getting with ⟨inv, oldest, underway⟩
  have kept := access_invariant inv
  rcases s with ⟨ring, consumer, answer, accepted, returned⟩
  cases consumer with
  | idle => exact absurd underway (Nat.lt_irrefl 0)
  | testHead => exact absurd underway (Nat.lt_irrefl 0)
  | testTail head => exact absurd underway (Nat.lt_irrefl 0)
  | waitHead =>
      have there := (unread_iff inv).mpr (List.getElem?_eq_some_iff.mp oldest).1
      have left : accessesLeft ring (.waitTail ring.kbdBufferHead) = 5 := if_pos there
      exact .inr ⟨⟨kept, oldest, left.symm ▸ Nat.succ_pos _⟩, rfl, congrArg (· + 1) left⟩
  | waitTail head =>
      by_cases same : head = ring.kbdBufferTail
      · have left : accessesLeft ring (.waitTail head) = 7 := if_neg (not_not_intro same)
        simp only [access, same, ne_eq, not_true_eq_false, if_false] at kept ⊢
        exact .inr ⟨⟨kept, oldest, Nat.succ_pos _⟩, trivial, same ▸ left.symm⟩
      · have left : accessesLeft ring (.waitTail head) = 5 := if_pos same
        simp only [access, same, ne_eq, not_false_eq_true, if_true] at kept ⊢
        exact .inr ⟨⟨kept, oldest, Nat.succ_pos _⟩, trivial, left.symm⟩
  | fetchTail => exact .inr ⟨⟨kept, oldest, Nat.succ_pos _⟩, rfl, rfl⟩
  | fetchSlot tail => exact .inr ⟨⟨kept, oldest, Nat.succ_pos _⟩, rfl, rfl⟩
  | stepTail d => exact .inr ⟨⟨kept, oldest, Nat.succ_pos _⟩, rfl, rfl⟩
  | storeTail d tail =>
      have found : accepted[returned.length]? = some d := inv.consumer.1
      cases found.symm.trans oldest
      exact .inl ⟨rfl, rfl, rfl⟩

theorem getting_run {c : UInt8} (actions : List Action) {s : System} (getting : Getting c s)
    (few : accesses actions < accessesLeft s.ring s.consumer) :
    Getting c (run actions s) ∧ (run actions s).returned = s.returned ∧
      accesses actions + accessesLeft (run actions s).ring (run actions s).consumer =
        accessesLeft s.ring s.consumer := by
  induction actions generalizing s with
  | nil => exact ⟨getting, rfl, Nat.zero_add _⟩
  | cons action rest ih =>
      by_cases moves : action = .access
      · subst moves
        change accesses rest + 1 < _ at few
        rcases getting_access getting with ⟨last, _⟩ | ⟨going, returned, left⟩
        · omega
        · rcases ih going (by omega) with ⟨later, same, count⟩
          refine ⟨later, same.trans returned, ?_⟩
          change accesses rest + 1 + accessesLeft (run rest (access s)).ring _ = _
          rw [← left, ← count]
          exact Nat.add_right_comm _ _ _
      · have without : accesses [action] = 0 := by cases action <;> trivial
        have skip : accesses (action :: rest) = accesses rest := by
          cases action <;> trivial
        rcases getting_other getting without with ⟨going, returned, left⟩
        rw [skip, ← left] at few
        rcases ih going few with ⟨later, same, count⟩
        exact ⟨later, same.trans returned, by rw [skip, ← left, ← count]; rfl⟩

/-- The call returns the oldest byte at the last of its accesses, and no byte before. -/
theorem getc_returns {c : UInt8} {s : System} (getting : Getting c s) {before : List Action}
    (count : accesses before + 1 = accessesLeft s.ring s.consumer) :
    (run before s).returned = s.returned ∧
      (run (before ++ [.access]) s).returned = s.returned ++ [c] ∧
      (run (before ++ [.access]) s).consumer = .idle := by
  rcases getting_run before getting (Nat.lt_of_succ_le (Nat.le_of_eq count)) with
    ⟨going, returned, left⟩
  have last : accessesLeft (run before s).ring (run before s).consumer = 1 := by omega
  rw [run_append]
  change _ ∧ (access (run before s)).returned = _ ∧ (access (run before s)).consumer = _
  rcases getting_access going with ⟨_, idle, done⟩ | ⟨more, _, fewer⟩
  · exact ⟨returned, returned ▸ done, idle⟩
  · have positive := more.underway
    omega

theorem test_waits (head : Nat) {puts : List Action} (quiet : accesses puts = 0) {s : System}
    (testing : s.consumer = .testTail head) :
    (run puts s).consumer = .testTail head ∧ (run puts s).returned = s.returned ∧
      (run puts s).ring.kbdBufferTail = s.ring.kbdBufferTail := by
  induction puts generalizing s with
  | nil => exact ⟨testing, rfl, rfl⟩
  | cons action rest ih =>
      cases action with
      | access => cases quiet
      | put c =>
          rcases put_frame s c with ⟨consumer, returned, tail, _⟩
          rcases ih quiet (consumer.trans testing) with ⟨later, same, sameTail⟩
          exact ⟨later, same.trans returned, sameTail.trans tail⟩
      | callHasData =>
          have still : step s .callHasData = s := by simp only [step, testing]
          rw [run, still]
          exact ih quiet testing
      | callGetc =>
          have still : step s .callGetc = s := by simp only [step, testing]
          rw [run, still]
          exact ih quiet testing

theorem access_test_tail {s : System} {head : Nat} (testing : s.consumer = .testTail head) :
    access s = { s with
      consumer := .idle
      answer := decide (head ≠ s.ring.kbdBufferTail) } := by
  rcases s with ⟨ring, consumer, answer, accepted, returned⟩
  cases testing
  rfl

/-- The answer is whether a byte was unread when the head was loaded, bytes put
between the two loads or not. -/
theorem has_data_answers {s : System} (inv : Invariant s) (testing : s.consumer = .testHead)
    {puts : List Action} (quiet : accesses puts = 0) :
    ((run (.access :: puts ++ [.access]) s).answer = true ↔ Unread s) ∧
      (run (.access :: puts ++ [.access]) s).consumer = .idle ∧
      (run (.access :: puts ++ [.access]) s).returned = s.returned := by
  have loaded : access s = { s with consumer := .testTail s.ring.kbdBufferHead } := by
    simp only [access, testing]
  rcases test_waits s.ring.kbdBufferHead quiet (congrArg System.consumer loaded) with
    ⟨waiting, returned, tail⟩
  have same : run (.access :: puts ++ [.access]) s = access (run puts (access s)) :=
    run_append puts [.access] (access s)
  have kept : (access s).returned = s.returned := by rw [loaded]
  have unmoved : (run puts (access s)).ring.kbdBufferTail = s.ring.kbdBufferTail :=
    tail.trans (congrArg (fun now => now.ring.kbdBufferTail) loaded)
  rw [same, access_test_tail waiting, unmoved, decide_eq_true_eq]
  exact ⟨unread_iff inv, rfl, returned.trans kept⟩

/-- What a lossless FIFO of 255 bytes shows at any moment: what came out is what
went in first, every byte not yet released stands untouched in its slot, the next
put is refused exactly when 255 bytes are unreleased, and the calls do come back
with what is there. -/
structure Lossless (s : System) : Prop where
  order : s.returned <+: s.accepted
  drained : s.ring.kbdBufferHead = s.ring.kbdBufferTail → s.returned = s.accepted
  headInRange : s.ring.kbdBufferHead < kbdBufferSize
  tailInRange : s.ring.kbdBufferTail < kbdBufferSize
  slot : ∀ k c, s.returned.length ≤ k → s.accepted[k]? = some c →
    s.ring.kbdBuffer (k % kbdBufferSize) = c
  refused : ∀ c, kbdBufferPut s.ring c = s.ring ↔ s.accepted.length = s.returned.length + 255
  taken : ∀ c, (step s (.put c)).accepted =
    if s.accepted.length = s.returned.length + 255 then s.accepted else s.accepted ++ [c]
  returns : ∀ c before, Oldest s c →
    accesses before + 1 = accessesLeft s.ring s.consumer →
      (run before s).returned = s.returned ∧
        (run (before ++ [.access]) s).returned = s.returned ++ [c] ∧
        (run (before ++ [.access]) s).consumer = .idle
  called : s.consumer = .idle →
    (step s .callHasData).consumer = .testHead ∧
      accessesLeft s.ring (step s .callGetc).consumer = 6
  answers : s.consumer = .testHead → ∀ puts, accesses puts = 0 →
    ((run (.access :: puts ++ [.access]) s).answer = true ↔ Unread s) ∧
      (run (.access :: puts ++ [.access]) s).consumer = .idle ∧
      (run (.access :: puts ++ [.access]) s).returned = s.returned

theorem invariant_lossless {s : System} (inv : Invariant s) : Lossless s := by
  have behind := inv.order.length_le
  have room := inv.room
  have full := has_room_iff inv
  constructor
  · exact inv.order
  · intro same
    rw [inv.head, inv.tail] at same
    -- fewer than 256 bytes are unread, so equal indices leave none
    refine inv.order.eq_of_length_le ?_
    simp only [kbdBufferSize] at *
    omega
  · exact inv.head ▸ Nat.mod_lt _ (by decide)
  · exact inv.tail ▸ Nat.mod_lt _ (by decide)
  · exact inv.window.cell
  · exact fun c => (put_refused_iff s.ring c).trans full
  · intro c
    by_cases filled : s.accepted.length = s.returned.length + 255
    · rw [if_pos filled]
      simp only [step, if_neg (full.mpr filled)]
    · rw [if_neg filled]
      simp only [step, if_pos (Decidable.of_not_not (mt full.mp filled))]
  · intro c before oldest count
    have underway : 0 < accessesLeft s.ring s.consumer := count ▸ Nat.succ_pos _
    exact getc_returns ⟨inv, oldest, underway⟩ count
  · intro idle
    simp only [step, idle]
    exact ⟨trivial, rfl⟩
  · exact fun testing puts quiet => has_data_answers inv testing quiet

theorem ring_lossless_fifo (actions : List Action) : Lossless (run actions start) :=
  invariant_lossless (run_invariant actions start_invariant)

/-- Two bytes are put, the second one inside the call that returns the first, and
the call after it is about to store its tail. -/
def twoKeys : List Action :=
  [.put 0x61, .callGetc, .access, .access, .put 0x62, .access, .access, .access, .access,
    .callGetc, .access, .access, .access, .access, .access]

theorem second_key_returned : (run twoKeys start).returned = [0x61] ∧
    (run (twoKeys ++ [.access]) start).returned = [0x61, 0x62] := by
  refine ⟨rfl, ?_⟩
  rw [run_append]
  exact ((ring_lossless_fifo twoKeys).returns 0x62 [] rfl rfl).2.1

end NexusOS.KeyboardRing
