import Mathlib.Data.Nat.ModEq
import Mathlib.Logic.Function.Basic

/-!
Open addressing with linear probing. A key stands at the first vacant place met
when walking round the table from its hash. A key taken out leaves a mark, since
walks for other keys may have passed over it. Keys count as one when `same` says
so, and `same` keys have one hash.
-/

namespace NexusOS.OpenAddressing

inductive Slot (K : Type) where
  | empty
  | deleted
  | filled (key : K)
  deriving DecidableEq

variable {K : Type} {same : K → K → Prop} {hash : K → Nat} {slots : Nat → Slot K} {size : Nat}

/-- The place a walk from `start` has reached after `d` steps. -/
def place (size start d : Nat) : Nat := (start + d) % size

theorem place_lt (pos : 0 < size) (start d : Nat) : place size start d < size :=
  Nat.mod_lt _ pos

theorem place_succ (size start d : Nat) :
    place size start (d + 1) = (place size start d + 1) % size := by
  rw [place, place, Nat.mod_add_mod, Nat.add_assoc]

theorem place_mod (size start d : Nat) : place size (start % size) d = place size start d := by
  rw [place, place, Nat.mod_add_mod]

theorem place_size (size start : Nat) : place size start size = place size start 0 := by
  rw [place, place, Nat.add_mod_right, Nat.add_zero]

-- Two steps of one lap never meet, so a lap visits every place.
theorem place_inj {start d e : Nat} (left : d < size) (right : e < size)
    (meet : place size start d = place size start e) : d = e := by
  have congruent : d ≡ e [MOD size] := Nat.ModEq.add_left_cancel' start meet
  exact Nat.ModEq.eq_of_lt_of_lt congruent left right

theorem place_onto {p : Nat} (below : p < size) (start : Nat) :
    ∃ d < size, place size start d = p := by
  have pos : 0 < size := Nat.lt_of_le_of_lt (Nat.zero_le p) below
  have start_lt := Nat.mod_lt start pos
  refine ⟨(p + (size - start % size)) % size, Nat.mod_lt _ pos, ?_⟩
  rw [← place_mod, place, Nat.add_mod_mod]
  have round : start % size + (p + (size - start % size)) = p + size := by omega
  rw [round, Nat.add_mod_right, Nat.mod_eq_of_lt below]

def Clear (slots : Nat → Slot K) (size start d : Nat) : Prop :=
  ∀ e < d, slots (place size start e) ≠ .empty

/-- Every key is met on the walk from its hash, and no two places hold one key. -/
structure Sound (same : K → K → Prop) (hash : K → Nat) (slots : Nat → Slot K) (size : Nat) :
    Prop where
  reached : ∀ p < size, ∀ key, slots p = .filled key →
    ∃ d < size, place size (hash key) d = p ∧ Clear slots size (hash key) d
  distinct : ∀ p < size, ∀ q < size, ∀ a b, slots p = .filled a → slots q = .filled b →
    same a b → p = q

def Absent (same : K → K → Prop) (slots : Nat → Slot K) (size : Nat) (key : K) : Prop :=
  ∀ p < size, ∀ other, slots p = .filled other → ¬ same other key

/-- The first `d` places of the walk hold other keys, or none. -/
def Passed (same : K → K → Prop) (slots : Nat → Slot K) (size start : Nat) (key : K) (d : Nat) :
    Prop :=
  ∀ e < d, ∀ other, slots (place size start e) = .filled other → ¬ same other key

theorem sound_none (empty : ∀ p < size, slots p = .empty) : Sound same hash slots size := by
  constructor
  · intro p below key filled
    rw [empty p below] at filled
    cases filled
  · intro p below q _ a b filled
    rw [empty p below] at filled
    cases filled

theorem absent_of_empty {key : K} {d : Nat} (sound : Sound same hash slots size)
    (hashes : ∀ other, same other key → hash other = hash key)
    (passed : Passed same slots size (hash key) key d)
    (empty : slots (place size (hash key) d) = .empty) : Absent same slots size key := by
  intro p below other filled present
  rcases sound.reached p below other filled with ⟨e, _, rfl, clear⟩
  rw [hashes other present] at filled clear
  rcases Nat.lt_trichotomy e d with early | rfl | late
  · exact passed e early other filled present
  · rw [empty] at filled
    cases filled
  · exact clear d late empty

theorem absent_of_lap {key : K} {start : Nat} (passed : Passed same slots size start key size) :
    Absent same slots size key := by
  intro p below other filled
  rcases place_onto below start with ⟨d, within, rfl⟩
  exact passed d within other filled

theorem clear_update {p d start : Nat} {s : Slot K} (clear : Clear slots size start d)
    (occupied : s ≠ .empty) : Clear (Function.update slots p s) size start d := by
  intro e below
  by_cases here : place size start e = p
  · rw [here, Function.update_self]
    exact occupied
  · rw [Function.update_of_ne here]
    exact clear e below

-- A key that is nowhere may go to any vacant place its walk reaches.
theorem sound_fill {key : K} {d : Nat} (sound : Sound same hash slots size)
    (symm : ∀ a b, same a b → same b a) (within : d < size)
    (clear : Clear slots size (hash key) d) (absent : Absent same slots size key) :
    Sound same hash (Function.update slots (place size (hash key) d) (.filled key)) size := by
  constructor
  · intro p below other filled
    by_cases here : p = place size (hash key) d
    · subst here
      rw [Function.update_self] at filled
      cases filled
      exact ⟨d, within, rfl, clear_update clear (by simp)⟩
    · rw [Function.update_of_ne here] at filled
      rcases sound.reached p below other filled with ⟨e, lt, at_p, free⟩
      exact ⟨e, lt, at_p, clear_update free (by simp)⟩
  · intro p left q right a b first second present
    by_cases atP : p = place size (hash key) d <;> by_cases atQ : q = place size (hash key) d
    · exact atP.trans atQ.symm
    · subst atP
      rw [Function.update_self] at first
      rw [Function.update_of_ne atQ] at second
      cases first
      exact absurd (symm _ _ present) (absent q right b second)
    · subst atQ
      rw [Function.update_self] at second
      rw [Function.update_of_ne atP] at first
      cases second
      exact absurd present (absent p left a first)
    · rw [Function.update_of_ne atP] at first
      rw [Function.update_of_ne atQ] at second
      exact sound.distinct p left q right a b first second present

theorem filled_of_update {p q : Nat} {s : Slot K} {key : K} (vacant : ∀ k, s ≠ .filled k)
    (filled : Function.update slots q s p = .filled key) : p ≠ q ∧ slots p = .filled key := by
  by_cases here : p = q
  · subst here
    rw [Function.update_self] at filled
    exact absurd filled (vacant key)
  · rw [Function.update_of_ne here] at filled
    exact ⟨here, filled⟩

-- A mark in place of a key keeps every walk going.
theorem sound_delete (sound : Sound same hash slots size) (q : Nat) :
    Sound same hash (Function.update slots q .deleted) size := by
  constructor
  · intro p below key filled
    rcases filled_of_update (by simp) filled with ⟨_, was⟩
    rcases sound.reached p below key was with ⟨d, lt, at_p, clear⟩
    exact ⟨d, lt, at_p, clear_update clear (by simp)⟩
  · intro p left r right a b first second
    exact sound.distinct p left r right a b (filled_of_update (by simp) first).2
      (filled_of_update (by simp) second).2

-- No walk goes over a place that an empty one follows, so it needs no mark.
theorem sound_clear (sound : Sound same hash slots size) {q : Nat}
    (follows : slots ((q + 1) % size) = .empty) :
    Sound same hash (Function.update slots q .empty) size := by
  constructor
  · intro p below key filled
    rcases filled_of_update (by simp) filled with ⟨away, was⟩
    rcases sound.reached p below key was with ⟨d, lt, at_p, clear⟩
    refine ⟨d, lt, at_p, fun e early => ?_⟩
    by_cases here : place size (hash key) e = q
    · have next := place_succ size (hash key) e
      rw [here] at next
      rcases Nat.lt_or_eq_of_le (Nat.succ_le_of_lt early) with more | last
      · exact absurd (next ▸ follows) (clear (e + 1) more)
      · rw [← at_p, ← last, next, follows] at was
        cases was
    · rw [Function.update_of_ne here]
      exact clear e early
  · intro p left r right a b first second
    exact sound.distinct p left r right a b (filled_of_update (by simp) first).2
      (filled_of_update (by simp) second).2

/-- A walk that passed `d` places and met no empty one. It remembers the first mark
it met, and with no mark to remember all it met were keys. -/
structure Walked (same : K → K → Prop) (slots : Nat → Slot K) (size start : Nat) (key : K) (d : Nat)
    (mark : Option Nat) : Prop where
  clear : Clear slots size start d
  passed : Passed same slots size start key d
  marked : ∀ p, mark = some p → ∃ e < d, place size start e = p ∧ slots p = .deleted
  unmarked : mark = none → ∀ e < d, ∃ other, slots (place size start e) = .filled other

variable {start d : Nat} {key : K} {mark : Option Nat}

theorem walked_start : Walked same slots size start key 0 none := by
  constructor
  · exact fun e before => absurd before (Nat.not_lt_zero e)
  · exact fun e before => absurd before (Nat.not_lt_zero e)
  · nofun
  · exact fun _ e before => absurd before (Nat.not_lt_zero e)

theorem walked_deleted (walked : Walked same slots size start key d mark)
    (here : slots (place size start d) = .deleted) :
    Walked same slots size start key (d + 1) (mark.or (some (place size start d))) := by
  constructor
  · intro e early
    rcases Nat.lt_succ_iff_lt_or_eq.mp early with before | rfl
    · exact walked.clear e before
    · rw [here]
      nofun
  · intro e early other filled
    rcases Nat.lt_succ_iff_lt_or_eq.mp early with before | rfl
    · exact walked.passed e before other filled
    · rw [here] at filled
      cases filled
  · intro p present
    cases mark with
    | some first =>
        rcases walked.marked p present with ⟨e, early, at_p, deleted⟩
        exact ⟨e, Nat.lt_succ_of_lt early, at_p, deleted⟩
    | none =>
        cases present
        exact ⟨d, Nat.lt_succ_self d, rfl, here⟩
  · intro unmarked
    cases mark <;> cases unmarked

theorem walked_filled {other : K} (walked : Walked same slots size start key d mark)
    (here : slots (place size start d) = .filled other) (apart : ¬ same other key) :
    Walked same slots size start key (d + 1) mark := by
  constructor
  · intro e early
    rcases Nat.lt_succ_iff_lt_or_eq.mp early with before | rfl
    · exact walked.clear e before
    · rw [here]
      nofun
  · intro e early held filled
    rcases Nat.lt_succ_iff_lt_or_eq.mp early with before | rfl
    · exact walked.passed e before held filled
    · rw [here] at filled
      cases filled
      exact apart
  · intro p present
    rcases walked.marked p present with ⟨e, early, at_p, deleted⟩
    exact ⟨e, Nat.lt_succ_of_lt early, at_p, deleted⟩
  · intro unmarked e early
    rcases Nat.lt_succ_iff_lt_or_eq.mp early with before | rfl
    · exact walked.unmarked unmarked e before
    · exact ⟨other, here⟩

theorem sound_mark {p : Nat} (sound : Sound same hash slots size)
    (symm : ∀ a b, same a b → same b a) (within : d ≤ size)
    (walked : Walked same slots size (hash key) key d (some p))
    (absent : Absent same slots size key) :
    Sound same hash (Function.update slots p (.filled key)) size := by
  rcases walked.marked p rfl with ⟨e, early, rfl, _⟩
  exact sound_fill sound symm (Nat.lt_of_lt_of_le early within)
    (fun before lt => walked.clear before (Nat.lt_trans lt early)) absent

-- A lap that met neither an empty place nor a mark has seen a full table.
theorem full_of_walked (walked : Walked same slots size start key size none) :
    ∀ p < size, ∃ other, slots p = .filled other := by
  intro p below
  rcases place_onto below start with ⟨e, within, rfl⟩
  exact walked.unmarked rfl e within

end NexusOS.OpenAddressing
