import Mathlib.Logic.Function.Basic

/-!
Counted loops over an explicit state. `countUp` is the C loop
`for (i = 0; i < count; i++) body`; the two rules below are what every proof
about such a loop uses. Nothing here depends on the program being modelled.
-/

namespace NexusOS.CountedLoop

variable {State : Type}

def countUp : Nat → (Nat → State → State) → State → State
  | 0, _, state => state
  | count + 1, body, state => body count (countUp count body state)

/-- An indexed invariant that each pass carries from `i` to `i + 1` holds of
the final state at `count`. -/
theorem count_up_invariant (holds : Nat → State → Prop) (count : Nat)
    (body : Nat → State → State) (state : State) (start : holds 0 state)
    (next : ∀ i before, i < count → holds i before → holds (i + 1) (body i before)) :
    holds count (countUp count body state) := by
  induction count with
  | zero => exact start
  | succ count ih =>
      have reached := ih (fun i before bound => next i before (Nat.lt_succ_of_lt bound))
      exact next count _ (Nat.lt_succ_self count) reached

theorem count_up_closed (form : Nat → State) (count : Nat)
    (body : Nat → State → State)
    (next : ∀ i, i < count → body i (form i) = form (i + 1)) :
    countUp count body (form 0) = form count := by
  apply count_up_invariant (fun i state => state = form i) count body (form 0) rfl
  intro i before bound same
  rw [same, next i bound]

theorem count_up_add (first second : Nat) (body : Nat → State → State) (state : State) :
    countUp (first + second) body state =
      countUp second (fun i => body (first + i)) (countUp first body state) := by
  induction second with
  | zero => rfl
  | succ second ih =>
      change body (first + second) (countUp (first + second) body state) = _
      rw [ih]
      rfl

/-- A row-major double loop is one loop over the flat index. -/
theorem count_up_row_major (height width : Nat) (body : Nat → State → State) (state : State) :
    countUp height (fun y s => countUp width (fun x => body (y * width + x)) s) state =
      countUp (height * width) body state := by
  induction height with
  | zero => simp [countUp]
  | succ height ih => rw [countUp, ih, Nat.succ_mul, count_up_add]

end NexusOS.CountedLoop
