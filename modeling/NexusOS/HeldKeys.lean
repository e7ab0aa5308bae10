import NexusOS.ScancodeDecoder
import Mathlib.Data.List.Induction

/-!
The modifier flags of `keyboard_handler` against the keys that are really down.
`Physical` knows no flag: it follows the key events of the stream. One flag
stands for both Shift keys, a repeated Caps Lock code toggles again, and the
Ctrl codes inside the Pause sequence are taken for the Ctrl key; apart from
these three the flags always match.
-/

namespace NexusOS.HeldKeys

open ScancodeDecoder

def leftShift : Key := ⟨0x2A, by decide⟩
def rightShift : Key := ⟨0x36, by decide⟩
def leftCtrl : Key := ⟨0x1D, by decide⟩
def capsKey : Key := ⟨0x3A, by decide⟩

/-- The unprefixed keys that are down, and how often Caps Lock was pressed. -/
structure Physical where
  held : Key → Bool
  capsPresses : Nat

def untouched : Physical := ⟨fun _ => false, 0⟩

/-- A make code while its key is down is a typematic repeat. -/
def Physical.after (p : Physical) : KeyEvent → Physical
  | .press key =>
      { held := Function.update p.held key true
        capsPresses := if key = capsKey ∧ p.held key = false then p.capsPresses + 1
          else p.capsPresses }
  | .release key => { p with held := Function.update p.held key false }
  | .pressExtended _ | .releaseExtended _ | .pause => p

def physical (events : List KeyEvent) : Physical := events.foldl Physical.after untouched

def decoded (events : List KeyEvent) : Keyboard :=
  afterCodes powerOn (events.flatMap KeyEvent.codes)

structure Tracks (k : Keyboard) (p : Physical) : Prop where
  shift : k.shiftPressed = (p.held leftShift || p.held rightShift)
  ctrl : k.ctrlPressed = p.held leftCtrl
  caps : k.capsLock = decide (p.capsPresses % 2 = 1)
  ext : k.extScancode = false

/-- No Shift key is released while the other is down, Caps Lock does not repeat,
and Pause is not pressed with Ctrl down. -/
def Unambiguous (p : Physical) : KeyEvent → Prop
  | .press key => key = capsKey → p.held key = false
  | .release key =>
      (key = leftShift → p.held rightShift = false) ∧ (key = rightShift → p.held leftShift = false)
  | .pressExtended _ | .releaseExtended _ => True
  | .pause => p.held leftCtrl = false

theorem every_key {P : UInt8 → Prop} (all : ∀ n < 128, P (UInt8.ofNat n)) (key : Key) :
    P key.val := by
  have here := all key.val.toNat (UInt8.lt_iff_toNat_lt.mp key.property.1)
  rwa [UInt8.ofNat_toNat] at here

theorem make_bits (key : Key) : key.val &&& 0x80 = 0 := by
  have all : ∀ n < 128, (UInt8.ofNat n) &&& 0x80 = 0 := by decide
  exact every_key (P := fun code => code &&& 0x80 = 0) all key

theorem break_bits (key : Key) :
    (key.val + 0x80) &&& 0x80 ≠ 0 ∧ (key.val + 0x80) &&& 0x7F = key.val := by
  have all : ∀ n < 128, (UInt8.ofNat n + 0x80) &&& 0x80 ≠ 0 ∧
      (UInt8.ofNat n + 0x80) &&& 0x7F = UInt8.ofNat n := by decide
  exact every_key (P := fun code => (code + 0x80) &&& 0x80 ≠ 0 ∧ (code + 0x80) &&& 0x7F = code)
    all key

/-- What a make code does to the flags. -/
def pressed (k : Keyboard) (key : Key) : Keyboard :=
  { k with
    shiftPressed := k.shiftPressed || decide (key = leftShift ∨ key = rightShift)
    ctrlPressed := k.ctrlPressed || decide (key = leftCtrl)
    capsLock := k.capsLock ^^ decide (key = capsKey) }

theorem key_val_iff (key other : Key) : key.val = other.val ↔ key = other := Subtype.ext_iff.symm

theorem modifier_codes (key : Key) :
    (key.val = 0x2A ↔ key = leftShift) ∧ (key.val = 0x36 ↔ key = rightShift) ∧
      (key.val = 0x1D ↔ key = leftCtrl) ∧ (key.val = 0x3A ↔ key = capsKey) :=
  ⟨key_val_iff key leftShift, key_val_iff key rightShift, key_val_iff key leftCtrl,
    key_val_iff key capsKey⟩

theorem press_handled (k : Keyboard) (plain : k.extScancode = false) (key : Key) :
    (keyboardHandler k key.val).1 = pressed k key := by
  have other := make_not_prefix key
  obtain ⟨left, right, ctrl, caps⟩ := modifier_codes key
  rcases k with ⟨shift, lock, control, ext⟩
  cases plain
  simp only [keyboardHandler, other, make_bits key, left, right, ctrl, caps, if_false,
    Bool.false_eq_true, ne_eq, not_true_eq_false]
  by_cases isShift : key = leftShift ∨ key = rightShift
  · have others : key ≠ leftCtrl ∧ key ≠ capsKey := by
      rcases isShift with rfl | rfl <;> decide
    simp only [isShift, pressed, others, decide_true, decide_false, Bool.or_true, Bool.or_false,
      Bool.xor_false, if_true]
  by_cases isCtrl : key = leftCtrl
  · subst isCtrl
    simp [pressed, leftShift, rightShift, leftCtrl, capsKey]
  by_cases isCaps : key = capsKey
  · subst isCaps
    simp [pressed, leftShift, rightShift, leftCtrl, capsKey]
  · have same : pressed ⟨shift, lock, control, false⟩ key = ⟨shift, lock, control, false⟩ := by
      simp [pressed, isShift, isCtrl, isCaps]
    simp only [isShift, isCtrl, isCaps, if_false, same]
    split_ifs <;> rfl

/-- What a break code does to the flags. -/
def released (k : Keyboard) (key : Key) : Keyboard :=
  { k with
    shiftPressed := k.shiftPressed && !decide (key = leftShift ∨ key = rightShift)
    ctrlPressed := k.ctrlPressed && !decide (key = leftCtrl) }

theorem release_handled (k : Keyboard) (plain : k.extScancode = false) (key : Key) :
    (keyboardHandler k (key.val + 0x80)).1 = released k key := by
  obtain ⟨left, right, ctrl, _⟩ := modifier_codes key
  rcases k with ⟨shift, lock, control, ext⟩
  cases plain
  rcases break_bits key with ⟨high, low⟩
  simp only [keyboardHandler, break_not_prefix key, high, low, release, left, right, ctrl, if_false,
    if_true, Bool.false_eq_true, ne_eq, not_false_eq_true]
  by_cases isShift : key = leftShift ∨ key = rightShift
  · have other : key ≠ leftCtrl := by
      rcases isShift with rfl | rfl <;> decide
    simp [isShift, released, other]
  by_cases isCtrl : key = leftCtrl
  · subst isCtrl
    simp [released, leftShift, rightShift, leftCtrl]
  · simp [isShift, isCtrl, released]

theorem extended_handled (k : Keyboard) (code : UInt8) (other : code ≠ 0xE0) :
    afterCodes k [0xE0, code] = { k with extScancode := false } := by
  change (keyboardHandler (keyboardHandler k 0xE0).1 code).1 = _
  have pending : keyboardHandler k 0xE0 = ({ k with extScancode := true }, []) := if_pos rfl
  rw [pending, keyboardHandler, if_neg other, if_pos rfl]

theorem pause_handled (k : Keyboard) (plain : k.extScancode = false) :
    afterCodes k KeyEvent.pause.codes = { k with ctrlPressed := false } := by
  rcases k with ⟨shift, lock, control, ext⟩
  cases plain
  rfl

theorem held_after_press (p : Physical) (key other : Key) :
    (p.after (.press key)).held other = (p.held other || decide (key = other)) := by
  change Function.update p.held key true other = _
  by_cases same : key = other
  · subst same
    simp
  · simp [same, Ne.symm same]

theorem held_after_release (p : Physical) (key other : Key) :
    (p.after (.release key)).held other = (p.held other && !decide (key = other)) := by
  change Function.update p.held key false other = _
  by_cases same : key = other
  · subst same
    simp
  · simp [same, Ne.symm same]

section Step
variable {k : Keyboard} {p : Physical}

theorem press_caps_iff (p : Physical) (key : Key) :
    (decide (p.capsPresses % 2 = 1) ^^ decide (key = capsKey)) =
        decide ((p.after (.press key)).capsPresses % 2 = 1) ↔
      (key = capsKey → p.held key = false) := by
  by_cases caps : key = capsKey
  · subst caps
    cases held : p.held capsKey with
    -- a repeat: the flag toggles, the count of presses stays
    | true => simp [Physical.after, held]
    | false =>
        have next : decide ((p.capsPresses + 1) % 2 = 1) = !decide (p.capsPresses % 2 = 1) := by
          rw [← decide_not]
          exact decide_eq_decide.mpr (by omega)
        simp [Physical.after, held, next]
  · simp [Physical.after, caps]

theorem press_tracks_iff (tracks : Tracks k p) (key : Key) :
    Tracks (afterCodes k (KeyEvent.press key).codes) (p.after (.press key)) ↔
      Unambiguous p (.press key) := by
  have handled : afterCodes k (KeyEvent.press key).codes = pressed k key :=
    press_handled k tracks.ext key
  rw [handled]
  constructor
  · rintro ⟨_, _, caps, _⟩
    rw [pressed, tracks.caps] at caps
    exact (press_caps_iff p key).mp caps
  · intro clear
    constructor
    · rw [held_after_press, held_after_press, pressed, tracks.shift, Bool.decide_or]
      ac_rfl
    · rw [held_after_press, pressed, tracks.ctrl]
    · rw [pressed, tracks.caps]
      exact (press_caps_iff p key).mpr clear
    · exact tracks.ext

-- One flag for two keys: it goes with the first of them that is released.
theorem release_shift_iff (p : Physical) (key : Key) :
    ((p.held leftShift || p.held rightShift) && !decide (key = leftShift ∨ key = rightShift)) =
        ((p.after (.release key)).held leftShift || (p.after (.release key)).held rightShift) ↔
      Unambiguous p (.release key) := by
  rw [held_after_release, held_after_release, Unambiguous]
  by_cases left : key = leftShift
  · subst left
    simp [leftShift, rightShift]
  by_cases right : key = rightShift
  · subst right
    simp [leftShift, rightShift]
  · simp [left, right]

theorem release_tracks_iff (tracks : Tracks k p) (key : Key) :
    Tracks (afterCodes k (KeyEvent.release key).codes) (p.after (.release key)) ↔
      Unambiguous p (.release key) := by
  have handled : afterCodes k (KeyEvent.release key).codes = released k key :=
    release_handled k tracks.ext key
  rw [handled]
  constructor
  · rintro ⟨shift, _, _, _⟩
    rw [released, tracks.shift] at shift
    exact (release_shift_iff p key).mp shift
  · intro clear
    constructor
    · rw [released, tracks.shift]
      exact (release_shift_iff p key).mpr clear
    · rw [held_after_release, released, tracks.ctrl]
    · exact tracks.caps
    · exact tracks.ext

theorem extended_tracks (tracks : Tracks k p) {code : UInt8} (other : code ≠ 0xE0) :
    Tracks (afterCodes k [0xE0, code]) p := by
  rw [extended_handled k code other]
  exact ⟨tracks.shift, tracks.ctrl, tracks.caps, rfl⟩

theorem event_tracks_iff (tracks : Tracks k p) (event : KeyEvent) :
    Tracks (afterCodes k event.codes) (p.after event) ↔ Unambiguous p event := by
  cases event with
  | press key => exact press_tracks_iff tracks key
  | release key => exact release_tracks_iff tracks key
  | pressExtended key =>
      have other := make_not_prefix key
      exact iff_of_true (extended_tracks tracks other) trivial
  | releaseExtended key =>
      have other := break_not_prefix key
      exact iff_of_true (extended_tracks tracks other) trivial
  | pause =>
      rw [pause_handled k tracks.ext]
      constructor
      · exact fun after => after.ctrl.symm
      · exact fun up => ⟨tracks.shift, up.symm, tracks.caps, tracks.ext⟩

end Step

theorem untouched_tracks : Tracks powerOn untouched := ⟨rfl, rfl, rfl, rfl⟩

theorem decoded_concat (events : List KeyEvent) (last : KeyEvent) :
    decoded (events ++ [last]) = afterCodes (decoded events) last.codes := by
  rw [decoded, List.flatMap_append, after_append, List.flatMap_singleton]
  rfl

theorem physical_concat (events : List KeyEvent) (last : KeyEvent) :
    physical (events ++ [last]) = (physical events).after last := by
  rw [physical, List.foldl_append]
  rfl

/-- The flags match the keys after every complete sequence of a stream exactly
if no sequence in it is one the flags cannot follow. -/
theorem modifiers_track_iff (events : List KeyEvent) :
    (∀ done, done <+: events → Tracks (decoded done) (physical done)) ↔
      ∀ before event, before ++ [event] <+: events → Unambiguous (physical before) event := by
  constructor
  · intro always before event within
    have earlier := always before ((List.prefix_append before [event]).trans within)
    have later := always (before ++ [event]) within
    rw [decoded_concat, physical_concat] at later
    exact (event_tracks_iff earlier event).mp later
  · intro clear done within
    induction done using List.reverseRecOn with
    | nil => exact untouched_tracks
    | append_singleton before event ih =>
        have earlier := ih ((List.prefix_append before [event]).trans within)
        rw [decoded_concat, physical_concat]
        exact (event_tracks_iff earlier event).mpr (clear before event within)

/-- Left Shift released while Right Shift stays down clears the flag. -/
theorem held_shift_lost :
    ¬ ∀ events, Tracks (decoded events) (physical events) := by
  intro always
  have shift := (always [.press leftShift, .press rightShift, .release leftShift]).shift
  exact absurd shift (by decide)

end NexusOS.HeldKeys
