import Mathlib.Order.Basic

/-!
Looking for the first run of `n` free places with one counter: the counter goes
up at a free place, back to zero at a used one, and the search ends when it
reaches `n`. Places below `base` are not looked at.
-/

namespace NexusOS.FirstFit

inductive Search where
  | found (last count : Nat)
  | on (count : Nat)
  deriving DecidableEq

def visit (n place : Nat) (isFree : Bool) : Search → Search
  | .found last count => .found last count
  | .on count =>
      if isFree then
        if n ≤ count + 1 then .found place (count + 1) else .on (count + 1)
      else .on 0

variable {free : Nat → Prop} {base n : Nat}

/-- The places from `start` on can be taken, and those from any earlier one cannot. -/
structure First (free : Nat → Prop) (base n start : Nat) : Prop where
  above : base ≤ start
  run : ∀ place, start ≤ place → place < start + n → free place
  first : ∀ earlier, base ≤ earlier → earlier < start →
    ∃ place, earlier ≤ place ∧ place < earlier + n ∧ ¬ free place

def NoRun (free : Nat → Prop) (base n upto : Nat) : Prop :=
  ∀ start, base ≤ start → start + n ≤ upto →
    ∃ place, start ≤ place ∧ place < start + n ∧ ¬ free place

/-- The `count` places before `upto` are free, no more than that, and no run of
`n` has been passed over. -/
structure Counting (free : Nat → Prop) (base n upto count : Nat) : Prop where
  short : count < n
  within : base + count ≤ upto
  run : ∀ place, upto ≤ place + count → place < upto → free place
  stopped : upto = base + count ∨ ∃ before, upto = before + 1 + count ∧ ¬ free before
  passed : NoRun free base n upto

def Searched (free : Nat → Prop) (base n upto : Nat) : Search → Prop
  | .found last count =>
      count = n ∧ last < upto ∧ ∃ start, last + 1 = start + n ∧ First free base n start
  | .on count => Counting free base n upto count

theorem searched_start (pos : 0 < n) : Searched free base n base (.on 0) := by
  refine ⟨pos, Nat.le_refl _, fun place above below => ?_, Or.inl rfl, fun start above fits => ?_⟩
  · exact absurd below (Nat.not_lt.mpr above)
  · omega

theorem searched_visit {upto : Nat} {isFree : Bool} {s : Search} (same : isFree = true ↔ free upto)
    (searched : Searched free base n upto s) :
    Searched free base n (upto + 1) (visit n upto isFree s) := by
  cases s with
  | found last count =>
      rcases searched with ⟨full, below, first⟩
      exact ⟨full, Nat.lt_succ_of_lt below, first⟩
  | on count =>
      rcases searched with ⟨short, within, run, stopped, passed⟩
      rw [visit]
      split
      case isTrue isFree =>
        have here := same.mp isFree
        have longer : ∀ place, upto + 1 ≤ place + (count + 1) → place < upto + 1 → free place := by
          intro place above below
          rcases Nat.lt_succ_iff_lt_or_eq.mp below with old | rfl
          · exact run place (Nat.le_of_succ_le_succ above) old
          · exact here
        split
        case isTrue enough =>
          have full : count + 1 = n := Nat.le_antisymm short enough
          refine ⟨full, Nat.lt_succ_self upto, upto - count, by omega, by omega,
            fun place above below => ?_, fun earlier above below => passed earlier above (by omega)⟩
          exact longer place (by omega) (by omega)
        case isFalse shorter =>
          refine ⟨Nat.lt_of_not_le shorter, by omega, longer, ?_, fun start above fits => ?_⟩
          · rcases stopped with edge | ⟨before, edge, used⟩
            · exact Or.inl (by omega)
            · exact Or.inr ⟨before, by omega, used⟩
          · rcases Nat.lt_or_eq_of_le fits with old | last
            · exact passed start above (Nat.le_of_lt_succ old)
            · rcases stopped with edge | ⟨before, edge, used⟩
              · omega
              · exact ⟨before, by omega, by omega, used⟩
      case isFalse isUsed =>
        have used : ¬ free upto := fun here => isUsed (same.mpr here)
        refine ⟨by omega, by omega, fun place above below => ?_, Or.inr ⟨upto, rfl, used⟩,
          fun start above fits => ?_⟩
        · exact absurd below (Nat.not_lt.mpr above)
        · rcases Nat.lt_or_eq_of_le fits with old | last
          · exact passed start above (Nat.le_of_lt_succ old)
          · exact ⟨upto, by omega, by omega, used⟩

-- Where everything below `base` is used, the search misses nothing there.
theorem first_from_zero {start : Nat} (first : First free base n start) (pos : 0 < n)
    (full : ∀ place, place < base → ¬ free place) : First free 0 n start := by
  refine ⟨Nat.zero_le _, first.run, fun earlier _ below => ?_⟩
  rcases Nat.lt_or_ge earlier base with skipped | seen
  · exact ⟨earlier, Nat.le_refl _, by omega, full earlier skipped⟩
  · exact first.first earlier seen below

theorem no_run_from_zero {upto : Nat} (passed : NoRun free base n upto) (pos : 0 < n)
    (full : ∀ place, place < base → ¬ free place) : NoRun free 0 n upto := by
  intro start _ fits
  rcases Nat.lt_or_ge start base with skipped | seen
  · exact ⟨start, Nat.le_refl _, by omega, full start skipped⟩
  · exact passed start seen fits

end NexusOS.FirstFit
