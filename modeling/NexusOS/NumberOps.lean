import NexusOS.IntegerOps

/-!
`mp_binary_op` and `mp_unary_op` on the objects themselves: a bool asks its type,
which asks again with the int in its place.
-/

namespace NexusOS.NumberOps

open SignedWords SmallInt IntegerOps

/-- `mp_obj_is_true` of an int, a bool or None. -/
def isTrue (arg : Obj) : Bool :=
  if arg = mpConstFalse then false
  else if arg = mpConstTrue then true
  else if arg = mpConstNone then false
  else decide (arg ≠ newSmallInt 0)

/-- The `binary_op` slot of the type of `lhs`: `bool_binary_op`, or
`mp_obj_int_binary_op_extra_cases`. -/
def typeBinaryOpWith (again : BinaryOp → Obj → Obj → Outcome) (op : BinaryOp) (lhs rhs : Obj) :
    Outcome :=
  if lhs = mpConstFalse then again op (newSmallInt 0) rhs
  else if lhs = mpConstTrue then again op (newSmallInt 1) rhs
  else if ¬ isSmallInt lhs then .elsewhere
  else if rhs = mpConstFalse then again op lhs (newSmallInt 0)
  else if rhs = mpConstTrue then again op lhs (newSmallInt 1)
  else .elsewhere

/-- `mp_obj_equal_not_equal`, which asks the type of the bool, in its second pass
where the bool is on the right. -/
def equalNotEqualWith (again : BinaryOp → Obj → Obj → Outcome) (op : BinaryOp) (o1 o2 : Obj) :
    Outcome :=
  let localTrue := newBool (decide (op ≠ .notEqual))
  let localFalse := newBool (decide (op = .notEqual))
  if o1 = o2 then .value localTrue
  else if isSmallInt o1 && isSmallInt o2 then .value localFalse
  else
    let first := if isSmallInt o1 then o2 else o1
    let second := if isSmallInt o1 then o1 else o2
    match typeBinaryOpWith again .equal first second with
    | .value r =>
      if op = .equal then .value r else .value (if isTrue r then localTrue else localFalse)
    | other => other

def binaryOpWith (again : BinaryOp → Obj → Obj → Outcome) (op : BinaryOp) (lhs rhs : Obj) :
    Outcome :=
  if op = .opIs then .value (newBool (lhs = rhs))
  else if op = .equal ∨ op = .notEqual then equalNotEqualWith again op lhs rhs
  else if op = .exceptionMatch then
    match numOf lhs, numOf rhs with
    | some x, some y => .raised (unsupported op x.typeName y.typeName)
    | _, _ => .elsewhere
  else if isSmallInt lhs && isSmallInt rhs then
    smallBinaryOp op (smallIntValue lhs) (smallIntValue rhs)
  else if op = .opIn then typeBinaryOpWith again .contains rhs lhs
  else typeBinaryOpWith again op lhs rhs

/-- Each call from a type's `binary_op` back to `mp_binary_op` has an int where there
was a bool, so they nest twice at most. -/
def binaryOpAt : Nat → BinaryOp → Obj → Obj → Outcome
  | 0 => binaryOpWith fun _ _ _ => .elsewhere
  | bools + 1 => binaryOpWith (binaryOpAt bools)

def binaryOp : BinaryOp → Obj → Obj → Outcome := binaryOpAt 2

/-- The `switch` of `mp_unary_op`: what has no case of its own is an inversion. -/
def smallUnaryOp (op : UnaryOp) (arg : Obj) : Outcome :=
  let val := smallIntValue arg
  match op with
  | .bool => .value (newBool (val ≠ 0))
  | .hash | .positive | .intMaybe => .value arg
  | .negative => if val = smallIntMin then newInt (-val) else .value (newSmallInt (-val))
  | .abs =>
    if val ≥ 0 then .value arg
    else if val = smallIntMin then newInt (-val) else .value (newSmallInt (-val))
  | .invert | .not => .value (newSmallInt (~~~val))

def unaryOp (op : UnaryOp) (arg : Obj) : Outcome :=
  if op = .not then .value (newBool (isTrue arg = false))
  else if isSmallInt arg then smallUnaryOp op arg
  else if arg = mpConstFalse then smallUnaryOp op (newSmallInt 0)
  else if arg = mpConstTrue then smallUnaryOp op (newSmallInt 1)
  else .elsewhere

def unaryAnswer (op : UnaryOp) (x : Number) : Answer :=
  match op with
  | .not => .bool (x.val = 0)
  | .bool => .bool (x.val ≠ 0)
  | .hash | .positive | .intMaybe => .int x.val
  | .negative => .int (-x.val)
  | .abs => .int x.val.natAbs
  | .invert => .int (-x.val - 1)

section Dispatch
variable {o : Obj} {x y : Number}

theorem num_cases (read : numOf o = some x) :
    isSmallInt o = true ∧ x = .int (smallIntValue o).toInt ∨
      o = mpConstFalse ∧ x = .bool false ∨ o = mpConstTrue ∧ x = .bool true := by
  rw [numOf] at read
  split at read
  case isTrue small => exact .inl ⟨small, (Option.some.inj read).symm⟩
  split at read
  case isTrue same => exact .inr (.inl ⟨same, (Option.some.inj read).symm⟩)
  split at read
  case isTrue same => exact .inr (.inr ⟨same, (Option.some.inj read).symm⟩)
  contradiction

theorem num_of_small (small : isSmallInt o = true) :
    numOf o = some (.int (smallIntValue o).toInt) :=
  if_pos small

theorem num_small (read : numOf o = some x) : isSmallInt o = true ↔ x = .int x.val := by
  rcases num_cases read with ⟨small, rfl⟩ | ⟨rfl, rfl⟩ | ⟨rfl, rfl⟩
  · exact iff_of_true small rfl
  · exact iff_of_false (by decide) (by decide)
  · exact iff_of_false (by decide) (by decide)

theorem bools_some {p : Obj} (first : numOf o = some x) (second : numOf p = some y)
    (notBoth : ¬ (isSmallInt o && isSmallInt p) = true) : 0 < x.bools + y.bools := by
  rw [Bool.and_eq_true, num_small first, num_small second] at notBoth
  cases x with
  | bool b => exact Nat.add_pos_left Nat.one_pos _
  | int n =>
    cases y with
    | bool b => exact Nat.add_pos_right _ Nat.one_pos
    | int m => exact absurd ⟨rfl, rfl⟩ notBoth

theorem num_injective {p : Obj} (first : numOf o = some x) (second : numOf p = some y) :
    o = p ↔ x = y := by
  constructor
  · rintro rfl
    exact Option.some.inj (first.symm.trans second)
  · rintro rfl
    rcases num_cases first with ⟨small, value⟩ | ⟨rfl, rfl⟩ | ⟨rfl, rfl⟩ <;>
      rcases num_cases second with ⟨other, same⟩ | ⟨rfl, same⟩ | ⟨rfl, same⟩
    · exact value_injective small other (Number.int.inj (value.symm.trans same))
    all_goals simp_all

-- All but three operators look at their operands as integers.
theorem response_val {op : BinaryOp} (plain : op ≠ .opIs ∧ op ≠ .opIn ∧ op ≠ .exceptionMatch) :
    response op (.int x.val) (.int y.val) = response op x y := by
  cases op <;> first | rfl | simp at plain

theorem false_num : numOf (newSmallInt 0) = some (.int (Number.bool false).val) := by decide

theorem true_num : numOf (newSmallInt 1) = some (.int (Number.bool true).val) := by decide

section Types
variable {again : BinaryOp → Obj → Obj → Outcome} {depth : Nat}
  (settled : ∀ op (a b : Obj) (x y : Number), numOf a = some x → numOf b = some y →
    x.bools + y.bools < depth → again op a b = response op x y)
include settled

theorem type_response {op : BinaryOp} {a b : Obj} (first : numOf a = some x)
    (second : numOf b = some y) (mixed : 0 < x.bools + y.bools)
    (few : x.bools + y.bools ≤ depth)
    (plain : op ≠ .opIs ∧ op ≠ .opIn ∧ op ≠ .exceptionMatch) :
    typeBinaryOpWith again op a b = response op x y := by
  rw [← response_val plain]
  rcases num_cases first with ⟨small, rfl⟩ | ⟨rfl, rfl⟩ | ⟨rfl, rfl⟩
  · rcases num_cases second with ⟨other, rfl⟩ | ⟨rfl, rfl⟩ | ⟨rfl, rfl⟩
    · exact absurd mixed (Nat.lt_irrefl 0)
    · rw [typeBinaryOpWith, if_neg (by rintro rfl; exact absurd small (by decide)),
        if_neg (by rintro rfl; exact absurd small (by decide)), if_neg (not_not.mpr small),
        if_pos rfl, settled op _ _ _ _ first false_num few]
      rfl
    · rw [typeBinaryOpWith, if_neg (by rintro rfl; exact absurd small (by decide)),
        if_neg (by rintro rfl; exact absurd small (by decide)), if_neg (not_not.mpr small),
        if_neg (by decide), if_pos rfl, settled op _ _ _ _ first true_num few]
      rfl
  · change 1 + y.bools ≤ _ at few
    change again op (newSmallInt 0) b = _
    rw [settled op _ _ _ _ false_num second (by change 0 + _ < _; omega), ← response_val plain]
    rfl
  · change 1 + y.bools ≤ _ at few
    change again op (newSmallInt 1) b = _
    rw [settled op _ _ _ _ true_num second (by change 0 + _ < _; omega), ← response_val plain]
    rfl

theorem equal_response {op : BinaryOp} {a b : Obj} (first : numOf a = some x)
    (second : numOf b = some y) (few : x.bools + y.bools ≤ depth)
    (equality : op = .equal ∨ op = .notEqual) :
    equalNotEqualWith again op a b = response op x y := by
  have both : response op x y = .value (if x.val = y.val then newBool (decide (op ≠ .notEqual))
      else newBool (decide (op = .notEqual))) := by
    rcases equality with rfl | rfl <;>
      by_cases same : x.val = y.val <;> simp [response, ShiftedOut, answer, settle, same]
  have asked : ∀ {c d : Obj} {u v : Number}, numOf c = some u → numOf d = some v →
      0 < u.bools + v.bools → u.bools + v.bools ≤ depth →
      typeBinaryOpWith again .equal c d = .value (newBool (u.val = v.val)) :=
    fun left right mixed few =>
      (type_response settled left right mixed few ⟨by decide, by decide, by decide⟩).trans rfl
  rw [both, equalNotEqualWith]
  split
  case isTrue same => rw [if_pos (congrArg Number.val ((num_injective first second).mp same))]
  case isFalse other =>
    split
    case isTrue small =>
      rw [Bool.and_eq_true, num_small first, num_small second] at small
      have apart : x.val ≠ y.val := fun same => other ((num_injective first second).mpr
        (small.1.trans ((congrArg Number.int same).trans small.2.symm)))
      rw [if_neg apart]
    case isFalse notBoth =>
      have mixed := bools_some first second notBoth
      have answered : ∀ b : Bool, (if op = .equal then Outcome.value (newBool b)
          else .value (if isTrue (newBool b) then newBool (decide (op ≠ .notEqual))
            else newBool (decide (op = .notEqual)))) =
          .value (if b then newBool (decide (op ≠ .notEqual))
            else newBool (decide (op = .notEqual))) := by
        rcases equality with rfl | rfl <;> decide
      by_cases small : isSmallInt a = true
      · rw [if_pos small, if_pos small]
        dsimp only
        rw [asked second first (by omega) (by omega)]
        refine (answered _).trans ?_
        rw [if_congr (decide_eq_true_iff.trans eq_comm) rfl rfl]
      · rw [if_neg small, if_neg small]
        dsimp only
        rw [asked first second mixed few]
        refine (answered _).trans ?_
        rw [if_congr decide_eq_true_iff rfl rfl]

theorem step_response {op : BinaryOp} {a b : Obj} (first : numOf a = some x)
    (second : numOf b = some y) (few : x.bools + y.bools ≤ depth) :
    binaryOpWith again op a b = response op x y := by
  rw [binaryOpWith]
  split
  case isTrue same =>
    subst same
    exact congrArg _ (congrArg _ (decide_eq_decide.mpr (num_injective first second)))
  split
  case isTrue equality => exact equal_response settled first second few equality
  split
  case isTrue matching =>
    subst matching
    rw [first, second]
    rfl
  split
  case isTrue small =>
    rw [Bool.and_eq_true] at small
    have left := Option.some.inj ((num_of_small small.1).symm.trans first)
    have right := Option.some.inj ((num_of_small small.2).symm.trans second)
    rw [← left, ← right]
    refine small_response (value_small a) (value_small b) ?_
    cases op <;> first | exact trivial | simp_all
  case isFalse notSame notEquality notMatching notBoth =>
    have mixed := bools_some first second notBoth
    split
    case isTrue membership =>
      subst membership
      have notInts : ¬ (x = .int x.val ∧ y = .int y.val) := fun ints => by
        rw [ints.1, ints.2] at mixed
        exact absurd mixed (Nat.lt_irrefl 0)
      rw [type_response settled second first (by omega) (by omega)
        ⟨by decide, by decide, by decide⟩]
      refine Eq.trans (b := settle (answer .opIn x y)) ?_ rfl
      rw [answer, if_neg notInts]
      rfl
    case isFalse notMember =>
      exact type_response settled first second mixed few ⟨notSame, notMember, notMatching⟩

end Types

theorem at_response (depth : Nat) (op : BinaryOp) (a b : Obj) (x y : Number)
    (first : numOf a = some x) (second : numOf b = some y) (few : x.bools + y.bools ≤ depth) :
    binaryOpAt depth op a b = response op x y := by
  induction depth generalizing op a b x y with
  | zero =>
    exact step_response (fun _ _ _ _ _ _ _ below => absurd below (Nat.not_lt_zero _)) first second
      few
  | succ depth ih =>
    exact step_response (fun op a b x y first second less =>
      ih op a b x y first second (Nat.le_of_lt_succ less)) first second few

/-- Ints and bools are the integers they stand for: an operator gives what the language
says, or an error where the result has no word of its own. -/
theorem binary_exact (op : BinaryOp) (a b : Obj) (x y : Number) (first : numOf a = some x)
    (second : numOf b = some y) : binaryOp op a b = response op x y := by
  refine at_response 2 op a b x y first second ?_
  cases x <;> cases y <;> simp [Number.bools]

theorem is_true_exact (read : numOf o = some x) : isTrue o = decide (x.val ≠ 0) := by
  rcases num_cases read with ⟨small, rfl⟩ | ⟨rfl, rfl⟩ | ⟨rfl, rfl⟩
  · rw [isTrue, if_neg (by rintro rfl; exact absurd small (by decide)),
      if_neg (by rintro rfl; exact absurd small (by decide)),
      if_neg (by rintro rfl; exact absurd small (by decide)), decide_eq_decide]
    exact not_congr (num_injective read false_num |>.trans ⟨Number.int.inj, congrArg Number.int⟩)
  · rfl
  · rfl

theorem small_word (o : Obj) :
    settle (.int (smallIntValue o).toInt) = .value (newSmallInt (smallIntValue o)) := by
  rw [settle, if_pos (value_small o), Int32.ofInt_toInt]

theorem negate_exact (o : Obj) :
    (if smallIntValue o = smallIntMin then newInt (-smallIntValue o)
      else .value (newSmallInt (-smallIntValue o))) = settle (.int (-(smallIntValue o).toInt)) := by
  have range := value_small o
  rw [Fits] at range
  have negated := neg_exact (x := smallIntValue o) (by omega)
  split
  case isTrue => exact new_int_of negated
  case isFalse other =>
    rw [← Int32.toInt_inj, min_value] at other
    rw [settle, if_pos (by rw [Fits]; omega), ← negated, Int32.ofInt_toInt]

theorem small_unary_exact (op : UnaryOp) (other : op ≠ .not) (small : isSmallInt o = true) :
    smallUnaryOp op o = settle (unaryAnswer op (.int (smallIntValue o).toInt)) := by
  have kept := small_word o
  rw [new_value small] at kept
  have range := value_small o
  rw [Fits] at range
  cases op
  case not => exact absurd rfl other
  case bool =>
    refine congrArg _ (congrArg _ (decide_eq_decide.mpr (not_congr ?_)))
    exact Int32.toInt_inj.symm
  case hash => exact kept.symm
  case positive => exact kept.symm
  case intMaybe => exact kept.symm
  case negative => exact negate_exact o
  case abs =>
    rw [smallUnaryOp, unaryAnswer, if_congr Int32.le_iff_toInt_le rfl rfl]
    change ite (0 ≤ _) _ _ = settle (.int (smallIntValue o).toInt.natAbs)
    split
    · rw [Int.natAbs_of_nonneg ‹_›]
      exact kept.symm
    · rw [negate_exact,
        show ((smallIntValue o).toInt.natAbs : Int) = -(smallIntValue o).toInt by omega]
  case invert =>
    rw [unaryAnswer, settle, Number.val, if_pos (by rw [Fits]; omega), ← not_exact,
      Int32.ofInt_toInt]
    rfl

theorem unary_exact (op : UnaryOp) (read : numOf o = some x) :
    unaryOp op o = settle (unaryAnswer op x) := by
  by_cases negation : op = .not
  · subst negation
    rw [unaryOp, if_pos rfl, is_true_exact read, unaryAnswer, settle]
    by_cases zero : x.val = 0 <;> simp [zero]
  · rw [unaryOp, if_neg negation]
    rcases num_cases read with ⟨small, rfl⟩ | ⟨rfl, rfl⟩ | ⟨rfl, rfl⟩
    · rw [if_pos small]
      exact small_unary_exact op negation small
    · refine (small_unary_exact (o := newSmallInt 0) op negation (by decide)).trans ?_
      cases op <;> rfl
    · refine (small_unary_exact (o := newSmallInt 1) op negation (by decide)).trans ?_
      cases op <;> rfl

end Dispatch

end NexusOS.NumberOps
