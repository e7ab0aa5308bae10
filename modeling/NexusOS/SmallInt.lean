import NexusOS.SignedWords
import Mathlib.Tactic.Linarith

/-!
Fits integers: the tagged words of `py/obj.h` (representation A) and the checks
of `py/smallint.h` and `py/smallint.c`.
-/

namespace NexusOS.SmallInt

open SignedWords

/-- `mp_obj_t`. -/
abbrev Obj := UInt32

def isSmallInt (o : Obj) : Bool := o &&& 1 != 0

def smallIntValue (o : Obj) : Int32 := o.toInt32 >>> 1

def newSmallInt (smallInt : Int32) : Obj := smallInt.toUInt32 <<< 1 ||| 1

def wordMsbitHigh : UInt32 := (1 : UInt32) <<< (4 * 8 - 1 : UInt32)

def smallIntMin : Int32 := wordMsbitHigh.toInt32 >>> 1

def smallIntMax : Int32 := ~~~smallIntMin

def smallIntFits (n : Int32) : Bool := (n.toUInt32 ^^^ n.toUInt32 <<< 1) &&& wordMsbitHigh == 0

def smallIntMulOverflow (x y : Int32) : Bool :=
  if x > 0 then
    if y > 0 then decide (x > smallIntMax / y) else decide (y < smallIntMin / x)
  else
    if y > 0 then decide (x < smallIntMin / y) else decide (x ≠ 0 ∧ y < smallIntMax / x)

def smallIntModulo (dividend divisor : Int32) : Int32 :=
  let rest := dividend % divisor
  if rest < 0 ∧ divisor > 0 ∨ rest > 0 ∧ divisor < 0 then rest + divisor else rest

def smallIntFloorDivide (num denom : Int32) : Int32 :=
  let shifted :=
    if num ≥ 0 then if denom < 0 then num + (-denom - 1) else num
    else if denom ≥ 0 then num + (-denom + 1) else num
  shifted / denom

/-- The integers that have a word of their own. -/
def Fits (n : Int) : Prop := -2 ^ 30 ≤ n ∧ n < 2 ^ 30

instance (n : Int) : Decidable (Fits n) := inferInstanceAs (Decidable (_ ∧ _))

section Words

theorem min_value : smallIntMin.toInt = -2 ^ 30 := by decide

theorem max_value : smallIntMax.toInt = 2 ^ 30 - 1 := by decide

theorem is_small_iff (o : Obj) : isSmallInt o = true ↔ o.toNat % 2 = 1 := by
  rw [isSmallInt, bne_iff_ne, Ne, ← UInt32.toNat_inj, UInt32.toNat_and]
  change ¬ o.toNat &&& 1 = 0 ↔ _
  rw [Nat.and_one_is_mod]
  omega

theorem value_floor (o : Obj) : (smallIntValue o).toInt = o.toInt32.toInt / 2 := by
  change (o.toBitVec.sshiftRight' _).toInt = _
  rw [BitVec.toInt_sshiftRight', Int.shiftRight_eq_div_pow]
  rfl

theorem value_small (o : Obj) : Fits (smallIntValue o).toInt := by
  have high := o.toInt32.toInt_lt
  have low := o.toInt32.le_toInt
  rw [value_floor, Fits]
  omega

theorem new_nat (x : Int32) : (newSmallInt x).toNat = 2 * x.toUInt32.toNat % 2 ^ 32 + 1 := by
  rw [newSmallInt, UInt32.toNat_or, UInt32.toNat_shiftLeft]
  have even : x.toUInt32.toNat <<< ((1 : UInt32).toNat % 32) % 2 ^ 32 =
      2 ^ 1 * (x.toUInt32.toNat % 2 ^ 31) := by
    change x.toUInt32.toNat <<< 1 % 2 ^ 32 = _
    rw [Nat.shiftLeft_eq]
    omega
  rw [even, UInt32.toNat_one, ← Nat.two_pow_add_eq_or_of_lt (by decide)]
  omega

theorem new_is_small (x : Int32) : isSmallInt (newSmallInt x) = true := by
  rw [is_small_iff, new_nat]
  omega

theorem signed_value (o : Obj) :
    o.toInt32.toInt = if 2 * o.toNat < 2 ^ 32 then (o.toNat : Int) else o.toNat - 2 ^ 32 :=
  BitVec.toInt_eq_toNat_cond o.toBitVec

-- Storing a word keeps 31 of its bits.
theorem value_new (x : Int32) : (smallIntValue (newSmallInt x)).toInt = x.toInt.bmod (2 ^ 31) := by
  have whole := signed_value x.toUInt32
  have bound := x.toUInt32.toNat_lt
  rw [show x.toUInt32.toInt32 = x from rfl] at whole
  rw [value_floor, signed_value, new_nat, whole, Int.bmod_def]
  split <;> split <;> split <;> omega

theorem value_new_small {x : Int32} (small : Fits x.toInt) :
    (smallIntValue (newSmallInt x)).toInt = x.toInt := by
  rw [value_new]
  exact Int.bmod_eq_of_le small.1 small.2

theorem value_injective {o p : Obj} (first : isSmallInt o = true) (second : isSmallInt p = true)
    (same : (smallIntValue o).toInt = (smallIntValue p).toInt) : o = p := by
  rw [is_small_iff] at first second
  rw [value_floor, value_floor, signed_value, signed_value] at same
  refine UInt32.toNat_inj.mp ?_
  have low := o.toNat_lt
  have high := p.toNat_lt
  split at same <;> split at same <;> omega

theorem new_value {o : Obj} (small : isSmallInt o = true) : newSmallInt (smallIntValue o) = o :=
  value_injective (new_is_small _) small (value_new_small (value_small o))

theorem fits_exact (n : Int32) : smallIntFits n = true ↔ Fits n.toInt := by
  have mask : wordMsbitHigh.toBitVec = BitVec.twoPow 32 31 := by decide
  have whole := signed_value n.toUInt32
  have bound := n.toUInt32.toNat_lt
  have top : n.toBitVec.getLsbD 31 = decide (n.toUInt32.toNat / 2 ^ 31 % 2 = 1) :=
    Nat.testBit_eq_decide_div_mod_eq
  have next : n.toBitVec.getLsbD 30 = decide (n.toUInt32.toNat / 2 ^ 30 % 2 = 1) :=
    Nat.testBit_eq_decide_div_mod_eq
  rw [show n.toUInt32.toInt32 = n from rfl] at whole
  rw [smallIntFits, beq_iff_eq, ← UInt32.toBitVec_inj, UInt32.toBitVec_and, mask, BitVec.and_twoPow,
    whole, Fits]
  have bit : (n.toUInt32 ^^^ n.toUInt32 <<< 1).toBitVec.getLsbD 31 =
      (n.toBitVec.getLsbD 31 ^^ n.toBitVec.getLsbD 30) := by
    change (n.toBitVec ^^^ n.toBitVec <<< (1 : BitVec 32)).getLsbD 31 = _
    rw [BitVec.getLsbD_xor, BitVec.shiftLeft_eq', BitVec.getLsbD_shiftLeft]
    rfl
  rw [bit, top, next]
  have differ : (decide (n.toUInt32.toNat / 2 ^ 31 % 2 = 1) ^^
      decide (n.toUInt32.toNat / 2 ^ 30 % 2 = 1)) = true ↔
      ¬ (n.toUInt32.toNat / 2 ^ 31 % 2 = 1 ↔ n.toUInt32.toNat / 2 ^ 30 % 2 = 1) := by
    rw [bne_iff_ne, Ne, decide_eq_decide]
  split
  case isTrue bits =>
    have other := differ.mp bits
    refine iff_of_false (by decide) ?_
    split <;> omega
  case isFalse bits =>
    have equal := not_not.mp (mt differ.mpr bits)
    refine iff_of_true rfl ?_
    split <;> omega

/-- Each of the four branches divides the bound that the sign of the product faces. -/
theorem mul_overflow_exact (x y : Int32) :
    smallIntMulOverflow x y = true ↔ ¬ Fits (x.toInt * y.toInt) := by
  have most := max_value
  have least := min_value
  have quotients : ∀ z : Int32, (smallIntMax / z).toInt = (2 ^ 30 - 1 : Int).tdiv z.toInt ∧
      (smallIntMin / z).toInt = (-2 ^ 30 : Int).tdiv z.toInt := fun z => by
    rw [div_exact (by omega), div_exact (by omega), most, least]
    exact ⟨rfl, rfl⟩
  have zero : (0 : Int32).toInt = 0 := rfl
  simp only [smallIntMulOverflow, Int32.lt_iff_toInt_lt, gt_iff_lt, ne_eq, ← Int32.toInt_inj, zero,
    quotients, Fits]
  generalize x.toInt = a at *
  generalize y.toInt = b at *
  by_cases positive : 0 < a
  · by_cases other : 0 < b
    · rw [if_pos positive, if_pos other, decide_eq_true_iff,
        Int.tdiv_eq_ediv_of_nonneg (by decide), Int.ediv_lt_iff_lt_mul other]
      have sign := Int.mul_pos positive other
      omega
    · have sign := Int.mul_nonneg (Int.le_of_lt positive) (b := -b) (by omega)
      rw [Int.mul_neg] at sign
      rw [if_pos positive, if_neg other, decide_eq_true_iff, Int.neg_tdiv,
        Int.tdiv_eq_ediv_of_nonneg (by decide), lt_neg, Int.ediv_lt_iff_lt_mul positive,
        Int.neg_mul, Int.mul_comm b a]
      omega
  · by_cases other : 0 < b
    · have sign := Int.mul_nonneg (a := -a) (by omega) (Int.le_of_lt other)
      rw [Int.neg_mul] at sign
      rw [if_neg positive, if_pos other, decide_eq_true_iff, Int.neg_tdiv,
        Int.tdiv_eq_ediv_of_nonneg (by decide), lt_neg, Int.ediv_lt_iff_lt_mul other,
        Int.neg_mul]
      omega
    · have sign := Int.mul_nonneg (a := -a) (b := -b) (by omega) (by omega)
      rw [if_neg positive, if_neg other, decide_eq_true_iff]
      by_cases nothing : a = 0
      · simp [nothing]
      · have quotient : (2 ^ 30 - 1 : Int).tdiv a = -((2 ^ 30 - 1 : Int) / -a) := by
          rw [← Int.tdiv_eq_ediv_of_nonneg (by decide), Int.tdiv_neg, Int.neg_neg]
        rw [quotient, lt_neg, Int.ediv_lt_iff_lt_mul (by omega)]
        rw [Int.neg_mul_neg] at sign ⊢
        rw [Int.mul_comm b a]
        omega

theorem mul_small {x y : Int32} (fits : ¬ smallIntMulOverflow x y = true) :
    (x * y).toInt = x.toInt * y.toInt ∧ Fits (x.toInt * y.toInt) := by
  rw [mul_overflow_exact, not_not] at fits
  have range := fits
  rw [Fits] at range
  exact ⟨mul_exact (by omega) (by omega), fits⟩

end Words

section Arithmetic
variable {x y : Int32} (first : Fits x.toInt) (second : Fits y.toInt)
include first second

theorem modulo_exact (nonzero : y.toInt ≠ 0) :
    (smallIntModulo x y).toInt = x.toInt.fmod y.toInt := by
  rcases truncated x.toInt nonzero with ⟨whole, below, _, _⟩
  have zero : (0 : Int32).toInt = 0 := rfl
  rw [Fits] at first second
  simp only [smallIntModulo, Int32.lt_iff_toInt_lt, gt_iff_lt, zero, Int32.toInt_mod]
  split
  · rw [add_exact (by rw [Int32.toInt_mod]; omega) (by rw [Int32.toInt_mod]; omega),
      Int32.toInt_mod]
    refine (floor_unique (q := x.toInt.tdiv y.toInt - 1) ?_ (by omega)).2
    rw [Int.mul_sub, Int.mul_one]
    omega
  · rw [Int32.toInt_mod]
    exact (floor_unique whole (by omega)).2

theorem floor_divide_exact (nonzero : y.toInt ≠ 0) :
    (smallIntFloorDivide x y).toInt = x.toInt.fdiv y.toInt := by
  have zero : (0 : Int32).toInt = 0 := rfl
  have one : (1 : Int32).toInt = 1 := rfl
  have negated := neg_exact (x := y) (by rw [Fits] at second; omega)
  rw [Fits] at first second
  simp only [smallIntFloorDivide, Int32.lt_iff_toInt_lt, Int32.le_iff_toInt_le, ge_iff_le, zero]
  split
  · split
    · have far : (-y - 1).toInt = -y.toInt - 1 := by
        rw [sub_exact (by omega) (by omega), negated, one]
      have shifted : (x + (-y - 1)).toInt = x.toInt + (-y.toInt - 1) := by
        rw [add_exact (by omega) (by omega), far]
      rcases truncated (x.toInt + (-y.toInt - 1)) nonzero with ⟨whole, below, sign, _⟩
      rw [div_exact (by omega), shifted]
      exact (floor_unique (r := (x.toInt + (-y.toInt - 1)).tmod y.toInt + y.toInt + 1)
        (by omega) (by omega)).1
    · rcases truncated x.toInt nonzero with ⟨whole, below, sign, _⟩
      rw [div_exact (by omega)]
      exact (floor_unique whole (by omega)).1
  · split
    · have far : (-y + 1).toInt = -y.toInt + 1 := by
        rw [add_exact (by omega) (by omega), negated, one]
      have shifted : (x + (-y + 1)).toInt = x.toInt + (-y.toInt + 1) := by
        rw [add_exact (by omega) (by omega), far]
      rcases truncated (x.toInt + (-y.toInt + 1)) nonzero with ⟨whole, below, _, sign⟩
      rw [div_exact (by omega), shifted]
      exact (floor_unique (r := (x.toInt + (-y.toInt + 1)).tmod y.toInt + y.toInt - 1)
        (by omega) (by omega)).1
    · rcases truncated x.toInt nonzero with ⟨whole, below, _, sign⟩
      rw [div_exact (by omega)]
      exact (floor_unique whole (by omega)).1

end Arithmetic

end NexusOS.SmallInt
