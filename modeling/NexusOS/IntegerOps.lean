import NexusOS.SmallInt

/-!
`mp_unary_op` and `mp_binary_op` of `py/runtime.c` for ints and bools, in a build
without long integers and floats: an int beyond 31 bits is an `OverflowError`.
Operands of other types are left to their own code.
-/

namespace NexusOS.IntegerOps

open SignedWords SmallInt

def newImmediateObj (val : UInt32) : Obj := val <<< 3 ||| 6

def mpConstNone : Obj := newImmediateObj 0
def mpConstFalse : Obj := newImmediateObj 1
def mpConstTrue : Obj := newImmediateObj 3

def newBool (x : Bool) : Obj := if x then mpConstTrue else mpConstFalse

inductive ExcType where
  | overflowError
  | typeError
  | valueError
  | zeroDivisionError
deriving DecidableEq

structure Exc where
  type : ExcType
  text : String
deriving DecidableEq

inductive Outcome where
  | value (o : Obj)
  | tuple (items : List Obj)
  | raised (e : Exc)
  | elsewhere
deriving DecidableEq

inductive UnaryOp where
  | positive | negative | invert | not | bool | hash | abs | intMaybe
deriving DecidableEq

inductive Arith where
  | or | xor | and | lshift | rshift | add | subtract | multiply | matMultiply | floorDivide
  | trueDivide | modulo | power
deriving DecidableEq

inductive BinaryOp where
  | less | more | equal | lessEqual | moreEqual | notEqual | opIn | opIs | exceptionMatch
  | inplace (a : Arith)
  | normal (a : Arith)
  | divmod | contains
deriving DecidableEq

/-- `mp_binary_op_method_name`: the operators without a special method of their own
have no name in this build. -/
def methodName : BinaryOp → String
  | .less => "__lt__"
  | .more => "__gt__"
  | .equal => "__eq__"
  | .lessEqual => "__le__"
  | .moreEqual => "__ge__"
  | .notEqual => "__ne__"
  | .contains => "__contains__"
  | .inplace .add => "__iadd__"
  | .inplace .subtract => "__isub__"
  | .normal .add => "__add__"
  | .normal .subtract => "__sub__"
  | _ => ""

def smallIntOverflow : Exc := ⟨.overflowError, "small int overflow"⟩
def negativeShiftCount : Exc := ⟨.valueError, "negative shift count"⟩
def negativePower : Exc := ⟨.valueError, "negative power with no float support"⟩
def divideByZero : Exc := ⟨.zeroDivisionError, "divide by zero"⟩

def unsupported (op : BinaryOp) (lhs rhs : String) : Exc :=
  ⟨.typeError, "unsupported types for " ++ methodName op ++ ": '" ++ lhs ++ "', '" ++ rhs ++ "'"⟩

def newInt (value : Int32) : Outcome :=
  if smallIntFits value then .value (newSmallInt value) else .raised smallIntOverflow

theorem half_less {rhs : Int32} (positive : rhs > 0) :
    (rhs / 2).toInt.toNat < rhs.toInt.toNat := by
  have above : 0 < rhs.toInt := Int32.lt_iff_toInt_lt.mp positive
  rw [div_exact (by omega)]
  change (rhs.toInt.tdiv 2).toNat < _
  rw [Int.tdiv_eq_ediv_of_nonneg (by omega)]
  omega

/-- `none` is the jump to `power_overflow`. -/
def powerLoop (ans lhs rhs : Int32) : Option Int32 :=
  if rhs > 0 then
    let odd := rhs &&& 1 != 0
    if odd && smallIntMulOverflow ans lhs then none
    else
      let ans := if odd then ans * lhs else ans
      if rhs = 1 then some ans
      else if smallIntMulOverflow lhs lhs then none
      else powerLoop ans (lhs * lhs) (rhs / 2)
  else some ans
termination_by rhs.toInt.toNat
decreasing_by exact half_less ‹_›

def arithOp (op : BinaryOp) (a : Arith) (lhs rhs : Int32) : Outcome :=
  match a with
  | .or => newInt (lhs ||| rhs)
  | .xor => newInt (lhs ^^^ rhs)
  | .and => newInt (lhs &&& rhs)
  | .lshift =>
    if rhs < 0 then .raised negativeShiftCount
    else if rhs ≥ 4 * 8 ∨ lhs > smallIntMax >>> rhs ∨ lhs < smallIntMin >>> rhs then
      .raised smallIntOverflow
    else newInt (lhs.toUInt32 <<< rhs.toUInt32).toInt32
  | .rshift =>
    if rhs < 0 then .raised negativeShiftCount
    else newInt (lhs >>> (if rhs ≥ 4 * 8 then 4 * 8 - 1 else rhs))
  | .add => newInt (lhs + rhs)
  | .subtract => newInt (lhs - rhs)
  | .multiply =>
    if smallIntMulOverflow lhs rhs then .raised smallIntOverflow
    else .value (newSmallInt (lhs * rhs))
  | .floorDivide =>
    if rhs = 0 then .raised divideByZero else newInt (smallIntFloorDivide lhs rhs)
  | .modulo => if rhs = 0 then .raised divideByZero else newInt (smallIntModulo lhs rhs)
  | .power =>
    if rhs < 0 then .raised negativePower
    else match powerLoop 1 lhs rhs with
      | some ans => newInt ans
      | none => .raised smallIntOverflow
  | .matMultiply | .trueDivide => .raised (unsupported op "int" "int")

/-- The `switch` of `mp_binary_op` on two small ints. -/
def smallBinaryOp (op : BinaryOp) (lhs rhs : Int32) : Outcome :=
  match op with
  | .inplace a | .normal a => arithOp op a lhs rhs
  | .divmod =>
    if rhs = 0 then .raised divideByZero
    else .tuple [newSmallInt (smallIntFloorDivide lhs rhs), newSmallInt (smallIntModulo lhs rhs)]
  | .less => .value (newBool (lhs < rhs))
  | .more => .value (newBool (lhs > rhs))
  | .lessEqual => .value (newBool (lhs ≤ rhs))
  | .moreEqual => .value (newBool (lhs ≥ rhs))
  | .equal | .notEqual | .opIn | .opIs | .exceptionMatch | .contains =>
    .raised (unsupported op "int" "int")

inductive Number where
  | int (n : Int)
  | bool (b : Bool)
deriving DecidableEq

def Number.val : Number → Int
  | .int n => n
  | .bool b => if b then 1 else 0

def Number.typeName : Number → String
  | .int _ => "int"
  | .bool _ => "bool"

def numOf (o : Obj) : Option Number :=
  if isSmallInt o then some (.int (smallIntValue o).toInt)
  else if o = mpConstFalse then some (.bool false)
  else if o = mpConstTrue then some (.bool true)
  else none

/-- What an operator of the language gives on integers. -/
inductive Answer where
  | int (n : Int)
  | bool (b : Bool)
  | pair (q r : Int)
  | error (e : Exc)

def integer (op : BinaryOp) (a : Arith) (m n : Int) : Answer :=
  match a with
  | .or => .int (Int.lor m n)
  | .xor => .int (Int.xor m n)
  | .and => .int (Int.land m n)
  | .lshift => if n < 0 then .error negativeShiftCount else .int (m * 2 ^ n.toNat)
  | .rshift => if n < 0 then .error negativeShiftCount else .int (m / 2 ^ n.toNat)
  | .add => .int (m + n)
  | .subtract => .int (m - n)
  | .multiply => .int (m * n)
  | .floorDivide => if n = 0 then .error divideByZero else .int (m.fdiv n)
  | .modulo => if n = 0 then .error divideByZero else .int (m.fmod n)
  | .power => if n < 0 then .error negativePower else .int (m ^ n.toNat)
  | .matMultiply | .trueDivide => .error (unsupported op "int" "int")

def answer (op : BinaryOp) (x y : Number) : Answer :=
  match op with
  | .inplace a | .normal a => integer op a x.val y.val
  | .divmod =>
    if y.val = 0 then .error divideByZero else .pair (x.val.fdiv y.val) (x.val.fmod y.val)
  | .less => .bool (x.val < y.val)
  | .more => .bool (x.val > y.val)
  | .lessEqual => .bool (x.val ≤ y.val)
  | .moreEqual => .bool (x.val ≥ y.val)
  | .equal => .bool (x.val = y.val)
  | .notEqual => .bool (x.val ≠ y.val)
  | .opIs => .bool (x = y)
  | .opIn =>
    .error (unsupported (if x = .int x.val ∧ y = .int y.val then .opIn else .contains) "int" "int")
  | .exceptionMatch => .error (unsupported op x.typeName y.typeName)
  | .contains => .error (unsupported op "int" "int")

def Number.bools : Number → Nat
  | .int _ => 0
  | .bool _ => 1

/-- How an answer comes back: an integer without a word of its own is an error, but the
two items of `divmod` are stored unchecked. -/
def settle : Answer → Outcome
  | .int n => if Fits n then .value (newSmallInt (Int32.ofInt n)) else .raised smallIntOverflow
  | .bool b => .value (newBool b)
  | .pair q r => .tuple [newSmallInt (Int32.ofInt q), newSmallInt (Int32.ofInt r)]
  | .error e => .raised e

def ShiftedOut (op : BinaryOp) (m n : Int) : Prop :=
  (op = .normal .lshift ∨ op = .inplace .lshift) ∧ 32 ≤ n ∧ m = 0

instance (op : BinaryOp) (m n : Int) : Decidable (ShiftedOut op m n) :=
  inferInstanceAs (Decidable (_ ∧ _))

/-- The answer on two numbers, but for a zero shifted by the width of a word. -/
def response (op : BinaryOp) (x y : Number) : Outcome :=
  if ShiftedOut op x.val y.val then .raised smallIntOverflow else settle (answer op x y)

section Arithmetic
variable {x y : Int32}

theorem new_int_exact (value : Int32) : newInt value = settle (.int value.toInt) := by
  rw [newInt, settle, Int32.ofInt_toInt]
  exact if_congr (fits_exact value) rfl rfl

theorem new_int_of {value : Int32} {n : Int} (same : value.toInt = n) :
    newInt value = settle (.int n) := by
  rw [new_int_exact, same]

theorem shift_exact {n : Nat} (small : n < 32) (count : y.toInt = n) :
    (x >>> y).toInt = x.toInt / 2 ^ n := by
  have bits : (y.toBitVec.smod 32).toNat = n := by
    have value : y.toBitVec.toNat = n := by
      have whole := signed_value y.toUInt32
      rw [show y.toUInt32.toInt32 = y from rfl, count] at whole
      change y.toUInt32.toNat = n
      have bound := y.toUInt32.toNat_lt
      split at whole <;> omega
    have low : y.toBitVec.msb = false := by
      rw [BitVec.msb_eq_decide, value]
      exact decide_eq_false (by omega)
    rw [BitVec.smod_eq, low]
    change (y.toBitVec % 32#32).toNat = n
    rw [BitVec.toNat_umod, value]
    exact Nat.mod_eq_of_lt small
  change (x.toBitVec.sshiftRight' _).toInt = _
  rw [BitVec.toInt_sshiftRight', bits, Int.shiftRight_eq_div_pow]
  push_cast
  rfl

theorem left_shift_word {n : Nat} (count : y.toInt = n) (small : n < 32) :
    (x.toUInt32 <<< y.toUInt32).toInt32.toInt = (x.toInt * 2 ^ n).bmod (2 ^ 32) := by
  have value : y.toUInt32.toNat = n := by
    have whole := signed_value y.toUInt32
    rw [show y.toUInt32.toInt32 = y from rfl, count] at whole
    have bound := y.toUInt32.toNat_lt
    split at whole <;> omega
  have bits : (y.toUInt32.toBitVec % 32#32).toNat = n := by
    rw [BitVec.toNat_umod]
    change y.toUInt32.toNat % 32 = n
    rw [value]
    exact Nat.mod_eq_of_lt small
  have whole := signed_value x.toUInt32
  rw [show x.toUInt32.toInt32 = x from rfl] at whole
  change (x.toUInt32.toBitVec <<< (y.toUInt32.toBitVec % 32#32)).toInt = _
  rw [BitVec.shiftLeft_eq', bits, BitVec.toInt_shiftLeft, whole, Nat.shiftLeft_eq]
  change (((x.toUInt32.toNat * 2 ^ n : Nat) : Int)).bmod _ = _
  push_cast
  split
  · rfl
  · rw [Int.sub_mul, Int.mul_comm 4294967296 (2 ^ n)]
    exact (Int.sub_mul_bmod_self_right ..).symm

theorem small_ne {a n : Int} (nonzero : a ≠ 0) (large : 2 ^ 32 ≤ n) : ¬ Fits (a * n) := by
  rw [Fits]
  rcases Int.lt_or_gt_of_ne nonzero with negative | positive
  · have less := Int.mul_le_mul_of_nonneg_right (c := n) (show a ≤ -1 by omega) (by omega)
    omega
  · have more := Int.mul_le_mul_of_nonneg_right (c := n) (show 1 ≤ a by omega) (by omega)
    omega

theorem shift_low {n : Nat} {a : Int} (below : n < 32) (least : -2 ^ 30 / 2 ^ n ≤ a) :
    -2 ^ 31 ≤ a * 2 ^ n := by
  have power : (0 : Int) < 2 ^ n := Int.pow_pos (by decide)
  have floor := Int.mul_ediv_add_emod (-2 ^ 30) (2 ^ n)
  have rest := Int.emod_lt_of_pos (-2 ^ 30) power
  have scaled := Int.mul_le_mul_of_nonneg_right least (Int.le_of_lt power)
  rw [Int.mul_comm _ (2 ^ n)] at scaled
  by_cases top : n = 31
  · subst top
    omega
  · have limit : (2 : Int) ^ n ≤ 2 ^ 30 := by
      exact_mod_cast Nat.pow_le_pow_right (by decide) (show n ≤ 30 by omega)
    omega

-- A left shift answers with `OverflowError` where the product does not fit, and for a
-- zero shifted by the width of a word.
theorem left_shift_exact (op : BinaryOp) :
    arithOp op .lshift x y = if 32 ≤ y.toInt ∧ x.toInt = 0 then .raised smallIntOverflow
      else settle (integer op .lshift x.toInt y.toInt) := by
  have zero : (0 : Int32).toInt = 0 := rfl
  have width : (4 * 8 : Int32).toInt = 32 := rfl
  have most := max_value
  have least := min_value
  simp only [arithOp, integer, Int32.lt_iff_toInt_lt, Int32.le_iff_toInt_le, ge_iff_le, gt_iff_lt,
    zero, width]
  by_cases negative : y.toInt < 0
  · rw [if_pos negative, if_neg (by omega), if_pos negative]
    rfl
  rw [if_neg negative, if_neg negative]
  obtain ⟨n, count⟩ := Int.eq_ofNat_of_zero_le (Int.not_lt.mp negative)
  rw [show y.toInt.toNat = n by omega]
  by_cases wide : 32 ≤ y.toInt
  · rw [if_pos (.inl wide)]
    by_cases nothing : x.toInt = 0
    · rw [if_pos ⟨wide, nothing⟩]
    · have large : (2 : Int) ^ 32 ≤ 2 ^ n := by
        exact_mod_cast Nat.pow_le_pow_right (by decide) (show 32 ≤ n by omega)
      rw [if_neg (fun both => nothing both.2), settle, if_neg (small_ne nothing large)]
  · have below : n < 32 := by omega
    have narrow : ¬ (32 ≤ y.toInt ∧ x.toInt = 0) := fun both => wide both.1
    rw [if_neg narrow, shift_exact below count,
      shift_exact below count, most, least]
    have power : (0 : Int) < 2 ^ n := Int.pow_pos (by decide)
    split
    case isTrue guard =>
      have beyond : ¬ Fits (x.toInt * 2 ^ n) := by
        rw [Fits]
        rcases guard with far | above | under
        · exact absurd far wide
        · rw [Int.ediv_lt_iff_lt_mul power] at above
          omega
        · have next := (Int.le_ediv_iff_mul_le power).mp (Int.add_one_le_of_lt under)
          rw [Int.add_mul] at next
          omega
      rw [settle, if_neg beyond]
    case isFalse guard =>
      rw [not_or, not_or, Int.not_lt, Int.not_lt, Int.le_ediv_iff_mul_le power] at guard
      refine new_int_of ?_
      rw [left_shift_word count below]
      exact Int.bmod_eq_of_le (shift_low below guard.2.2) (by omega)

theorem right_shift_exact (op : BinaryOp) :
    arithOp op .rshift x y = settle (integer op .rshift x.toInt y.toInt) := by
  have zero : (0 : Int32).toInt = 0 := rfl
  have width : (4 * 8 : Int32).toInt = 32 := rfl
  simp only [arithOp, integer, Int32.lt_iff_toInt_lt, Int32.le_iff_toInt_le, ge_iff_le, zero, width]
  by_cases negative : y.toInt < 0
  · rw [if_pos negative, if_pos negative]
    rfl
  rw [if_neg negative, if_neg negative]
  refine new_int_of ?_
  obtain ⟨n, count⟩ := Int.eq_ofNat_of_zero_le (Int.not_lt.mp negative)
  rw [show y.toInt.toNat = n by omega]
  split
  case isTrue wide =>
    -- every further shift leaves the sign
    have large : (2 : Int) ^ 32 ≤ 2 ^ n := by
      exact_mod_cast Nat.pow_le_pow_right (by decide) (show 32 ≤ n by omega)
    have high := x.toInt_lt
    have low := x.le_toInt
    rw [shift_exact (n := 31) (by decide) rfl]
    rcases lt_or_ge x.toInt 0 with below | above
    · rw [Int.ediv_eq_neg_one_of_neg_of_le below (by omega)]
      exact (Int.ediv_eq_neg_one_of_neg_of_le below (by omega)).symm
    · rw [Int.ediv_eq_zero_of_lt above (by omega), Int.ediv_eq_zero_of_lt above (by omega)]
  case isFalse narrow => exact shift_exact (by omega) count

theorem power_split (a m : Int) (n : Nat) : a * m ^ n = a * m ^ (n % 2) * (m * m) ^ (n / 2) := by
  rw [Int.mul_assoc, ← pow_two, ← pow_mul, ← pow_add, Nat.mod_add_div]

theorem scaled_apart {p s : Int} (apart : ¬ Fits p) (positive : 0 < s) : ¬ Fits (p * s) := by
  rw [Fits] at apart ⊢
  by_cases negative : p < 0
  · have less := Int.mul_le_mul_of_nonpos_left (a := p) (show p ≤ 0 by omega)
      (show (1 : Int) ≤ s by omega)
    omega
  · have more := Int.mul_le_mul_of_nonneg_left (show (1 : Int) ≤ s by omega) (show 0 ≤ p by omega)
    omega

/-- The part of the power there is already: it is 1 or has left the unit interval, unless
the base cannot leave it. -/
def Away (part base : Int) : Prop := base.natAbs ≤ 1 ∨ part = 1 ∨ 2 ≤ part.natAbs

theorem away_step {part base : Int} (away : Away part base) (n : Nat) :
    Away (part * base ^ (n % 2)) (base * base) := by
  rcases away with low | away
  · refine Or.inl ?_
    rw [Int.natAbs_mul]
    exact Nat.mul_le_mul low low
  by_cases low : base.natAbs ≤ 1
  · refine Or.inl ?_
    rw [Int.natAbs_mul]
    exact Nat.mul_le_mul low low
  rcases Nat.mod_two_eq_zero_or_one n with even | odd
  · rw [even, pow_zero, Int.mul_one]
    exact Or.inr away
  · rw [odd, pow_one]
    refine Or.inr (Or.inr ?_)
    rw [Int.natAbs_mul]
    have one : 1 ≤ part.natAbs := by omega
    exact Nat.le_trans (by omega) (Nat.mul_le_mul one (Nat.not_le.mp low))

theorem square_apart {part base : Int} {k : Nat} (away : Away part (base * base))
    (large : ¬ Fits (base * base)) (positive : 0 < k) : ¬ Fits (part * (base * base) ^ k) := by
  have square := mul_self_nonneg base
  have power : base * base ≤ (base * base) ^ k := by
    obtain ⟨j, rfl⟩ := Nat.exists_eq_succ_of_ne_zero (Nat.ne_of_gt positive)
    have rest : (0 : Int) < (base * base) ^ j := by
      refine Int.pow_pos ?_
      rw [Fits] at large
      omega
    rw [pow_succ]
    exact le_mul_of_one_le_left square rest
  rw [Fits] at large ⊢
  rcases away with low | one | two
  · omega
  · rw [one, Int.one_mul]
    omega
  · rcases Int.lt_trichotomy part 0 with negative | zero | positive
    · have less := Int.mul_le_mul_of_nonneg_right (c := (base * base) ^ k)
        (show part ≤ -2 by omega) (by omega)
      omega
    · omega
    · have more := Int.mul_le_mul_of_nonneg_right (c := (base * base) ^ k)
        (show 2 ≤ part by omega) (by omega)
      omega

theorem odd_exact {rhs : Int32} (low : 0 ≤ rhs.toInt) :
    (rhs &&& 1 != 0) = decide (rhs.toInt.toNat % 2 = 1) := by
  have whole := signed_value rhs.toUInt32
  rw [show rhs.toUInt32.toInt32 = rhs from rfl] at whole
  have bound := rhs.toUInt32.toNat_lt
  have word : (rhs &&& 1 != 0) = isSmallInt rhs.toUInt32 := by
    rw [Bool.eq_iff_iff, isSmallInt, bne_iff_ne, bne_iff_ne]
    exact not_congr ⟨congrArg Int32.toUInt32, congrArg UInt32.toInt32⟩
  rw [word, Bool.eq_iff_iff, is_small_iff, decide_eq_true_iff]
  split at whole <;> omega

section Powers
variable {ans lhs rhs : Int32} (small : Fits ans.toInt) (low : 0 ≤ rhs.toInt)
include low

theorem part_apart (beyond : (rhs &&& 1 != 0 && smallIntMulOverflow ans lhs) = true) :
    ¬ Fits (ans.toInt * lhs.toInt ^ rhs.toInt.toNat) := by
  rw [Bool.and_eq_true, odd_exact low, decide_eq_true_iff, mul_overflow_exact] at beyond
  rw [power_split, beyond.1, pow_one]
  refine scaled_apart beyond.2 (pow_pos (mul_self_pos.mpr fun zero => beyond.2 ?_) _)
  rw [zero, Int.mul_zero]
  decide

include small

theorem part_exact (fits : ¬ (rhs &&& 1 != 0 && smallIntMulOverflow ans lhs) = true) :
    (if rhs &&& 1 != 0 then ans * lhs else ans).toInt =
      ans.toInt * lhs.toInt ^ (rhs.toInt.toNat % 2) ∧
    Fits (if rhs &&& 1 != 0 then ans * lhs else ans).toInt := by
  rw [odd_exact low] at fits ⊢
  by_cases odd : rhs.toInt.toNat % 2 = 1
  · rw [decide_eq_true odd, Bool.true_and] at fits
    rcases mul_small fits with ⟨product, range⟩
    rw [decide_eq_true odd, if_pos rfl, odd, pow_one, product]
    exact ⟨rfl, range⟩
  · rw [decide_eq_false odd, if_neg (by decide), show rhs.toInt.toNat % 2 = 0 by omega, pow_zero,
      Int.mul_one]
    exact ⟨rfl, small⟩

end Powers

/-- A power overflows exactly when its value does: the base is squared only for a bit
of the exponent that is still to come. -/
theorem power_exact (ans lhs rhs : Int32) (small : Fits ans.toInt)
    (away : Away ans.toInt lhs.toInt) (low : 0 ≤ rhs.toInt) :
    match powerLoop ans lhs rhs with
    | some r => r.toInt = ans.toInt * lhs.toInt ^ rhs.toInt.toNat ∧ Fits r.toInt
    | none => ¬ Fits (ans.toInt * lhs.toInt ^ rhs.toInt.toNat) := by
  have one : (1 : Int32).toInt = 1 := rfl
  have two : (2 : Int32).toInt = 2 := rfl
  fun_induction powerLoop ans lhs rhs with
  | case1 ans lhs rhs positive odd beyond => exact part_apart low beyond
  | case2 ans lhs positive odd fits part =>
    have set : odd = true := by decide
    have same : part = ans * lhs := dif_pos set
    rw [set, Bool.true_and] at fits
    rw [same, one]
    rcases mul_small fits with ⟨value, range⟩
    exact ⟨by rw [value, Int.toNat_one, pow_one], value ▸ range⟩
  | case3 ans lhs rhs positive odd fits more beyond =>
    rw [power_split]
    rw [mul_overflow_exact] at beyond
    rw [gt_iff_lt, Int32.lt_iff_toInt_lt] at positive
    rw [← Int32.toInt_inj, one] at more
    change 0 < rhs.toInt at positive
    exact square_apart (away_step away _) beyond (by omega)
  | case4 ans lhs rhs positive odd fits part more free ih =>
    obtain ⟨value, range⟩ : part.toInt = ans.toInt * lhs.toInt ^ (rhs.toInt.toNat % 2) ∧
        Fits part.toInt := part_exact small low fits
    rcases mul_small free with ⟨square, _⟩
    have half : (rhs / 2).toInt.toNat = rhs.toInt.toNat / 2 := by
      rw [div_exact (by omega), two, Int.tdiv_eq_ediv_of_nonneg low]
      omega
    have next := ih range (by rw [square, value]; exact away_step away _) (by
      rw [div_exact (by omega), two, Int.tdiv_eq_ediv_of_nonneg low]
      omega)
    rw [square, value, half, ← power_split] at next
    exact next
  | case5 ans lhs rhs none =>
    have zero : rhs.toInt = 0 := by
      rw [gt_iff_lt, Int32.lt_iff_toInt_lt] at none
      change ¬ 0 < _ at none
      omega
    rw [zero, Int.toNat_zero, pow_zero, Int.mul_one]
    exact ⟨rfl, small⟩

theorem zero_iff : y = 0 ↔ y.toInt = 0 := Int32.toInt_inj.symm

theorem arith_exact (op : BinaryOp) (a : Arith) (first : Fits x.toInt) (second : Fits y.toInt)
    (kept : a = .lshift → ¬ (32 ≤ y.toInt ∧ x.toInt = 0)) :
    arithOp op a x y = settle (integer op a x.toInt y.toInt) := by
  have range := first
  have limits := second
  rw [Fits] at range limits
  cases a
  case lshift => rw [left_shift_exact, if_neg (kept rfl)]
  case rshift => exact right_shift_exact op
  case or => exact new_int_of (lor_value x y)
  case xor => exact new_int_of (xor_value x y)
  case and => exact new_int_of (land_value x y)
  case add => exact new_int_of (add_exact (by omega) (by omega))
  case subtract => exact new_int_of (sub_exact (by omega) (by omega))
  case multiply =>
    rw [arithOp, integer, settle]
    split
    case isTrue beyond => rw [if_neg ((mul_overflow_exact x y).mp beyond)]
    case isFalse fits =>
      rcases mul_small fits with ⟨value, small⟩
      rw [if_pos small, ← value, Int32.ofInt_toInt]
  case floorDivide =>
    rw [arithOp, integer]
    by_cases zero : y.toInt = 0
    · rw [if_pos (zero_iff.mpr zero), if_pos zero]
      rfl
    · rw [if_neg (mt zero_iff.mp zero), if_neg zero]
      exact new_int_of (floor_divide_exact first second zero)
  case modulo =>
    rw [arithOp, integer]
    by_cases zero : y.toInt = 0
    · rw [if_pos (zero_iff.mpr zero), if_pos zero]
      rfl
    · rw [if_neg (mt zero_iff.mp zero), if_neg zero]
      exact new_int_of (modulo_exact first second zero)
  case power =>
    rw [arithOp, integer, if_congr Int32.lt_iff_toInt_lt rfl rfl]
    change ite (y.toInt < 0) _ _ = _
    by_cases negative : y.toInt < 0
    · rw [if_pos negative, if_pos negative]
      rfl
    · rw [if_neg negative, if_neg negative]
      have done := power_exact 1 x y (by decide) (.inr (.inl rfl)) (by omega)
      rw [show (1 : Int32).toInt = 1 from rfl, Int.one_mul] at done
      cases result : powerLoop 1 x y with
      | some r =>
        rw [result] at done
        exact new_int_of done.1
      | none =>
        rw [result] at done
        rw [settle, if_neg done]
  case matMultiply => rfl
  case trueDivide => rfl

/-- What reaches the `switch`. -/
def Switched : BinaryOp → Prop
  | .equal | .notEqual | .opIs | .exceptionMatch => False
  | _ => True

theorem small_exact {op : BinaryOp} (first : Fits x.toInt) (second : Fits y.toInt)
    (switched : Switched op) (kept : ¬ ShiftedOut op x.toInt y.toInt) :
    smallBinaryOp op x y = settle (answer op (.int x.toInt) (.int y.toInt)) := by
  cases op
  case inplace a =>
    exact arith_exact _ a first second fun shift out => kept ⟨.inr (by rw [shift]), out⟩
  case normal a =>
    exact arith_exact _ a first second fun shift out => kept ⟨.inl (by rw [shift]), out⟩
  case divmod =>
    rw [smallBinaryOp, answer]
    by_cases zero : y.toInt = 0
    · rw [if_pos (zero_iff.mpr zero), if_pos (show (Number.int y.toInt).val = 0 from zero)]
      rfl
    · rw [if_neg (mt zero_iff.mp zero), if_neg (show ¬ (Number.int y.toInt).val = 0 from zero),
        settle]
      change _ = Outcome.tuple [newSmallInt (Int32.ofInt (x.toInt.fdiv y.toInt)),
        newSmallInt (Int32.ofInt (x.toInt.fmod y.toInt))]
      rw [← floor_divide_exact first second zero, ← modulo_exact first second zero,
        Int32.ofInt_toInt, Int32.ofInt_toInt]
  case less => exact congrArg _ (congrArg _ (decide_eq_decide.mpr Int32.lt_iff_toInt_lt))
  case more => exact congrArg _ (congrArg _ (decide_eq_decide.mpr Int32.lt_iff_toInt_lt))
  case lessEqual => exact congrArg _ (congrArg _ (decide_eq_decide.mpr Int32.le_iff_toInt_le))
  case moreEqual => exact congrArg _ (congrArg _ (decide_eq_decide.mpr Int32.le_iff_toInt_le))
  case opIn =>
    rw [smallBinaryOp, answer, if_pos ⟨rfl, rfl⟩]
    rfl
  case contains => rfl
  all_goals exact switched.elim

theorem small_response {op : BinaryOp} (first : Fits x.toInt) (second : Fits y.toInt)
    (switched : Switched op) :
    smallBinaryOp op x y = response op (.int x.toInt) (.int y.toInt) := by
  rw [response]
  split
  case isTrue out =>
    rcases out with ⟨shift, out⟩
    have shifted : smallBinaryOp op x y = arithOp op .lshift x y := by
      rcases shift with rfl | rfl <;> rfl
    rw [shifted, left_shift_exact]
    exact if_pos out
  case isFalse kept => exact small_exact first second switched kept

end Arithmetic

end NexusOS.IntegerOps
