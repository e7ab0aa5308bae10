import Mathlib.Data.Int.Bitwise

/-!
The signed machine word of C over the integers: which operations are exact, what
the bits of a word say about its value, and how the quotient that rounds towards
zero gives the one that rounds down.
-/

namespace NexusOS.SignedWords

section Words
variable {x y : Int32}

theorem add_exact (low : -2 ^ 31 ≤ x.toInt + y.toInt) (high : x.toInt + y.toInt < 2 ^ 31) :
    (x + y).toInt = x.toInt + y.toInt := by
  rw [Int32.toInt_add]
  exact Int.bmod_eq_of_le low high

theorem sub_exact (low : -2 ^ 31 ≤ x.toInt - y.toInt) (high : x.toInt - y.toInt < 2 ^ 31) :
    (x - y).toInt = x.toInt - y.toInt := by
  rw [Int32.toInt_sub]
  exact Int.bmod_eq_of_le low high

theorem mul_exact (low : -2 ^ 31 ≤ x.toInt * y.toInt) (high : x.toInt * y.toInt < 2 ^ 31) :
    (x * y).toInt = x.toInt * y.toInt := by
  rw [Int32.toInt_mul]
  exact Int.bmod_eq_of_le low high

theorem neg_exact (low : -2 ^ 31 < x.toInt) : (-x).toInt = -x.toInt := by
  have high := x.toInt_lt
  have bottom := x.le_toInt
  rw [Int32.toInt_neg]
  exact Int.bmod_eq_of_le (by omega) (by omega)

theorem not_exact : (~~~x).toInt = -x.toInt - 1 := by
  have high := x.toInt_lt
  have low := x.le_toInt
  rw [Int32.toInt_not]
  exact Int.bmod_eq_of_le (by omega) (by omega)

theorem div_exact (low : -2 ^ 31 < x.toInt) : (x / y).toInt = x.toInt.tdiv y.toInt := by
  refine Int32.toInt_div_of_ne_left x y fun least => ?_
  rw [least] at low
  exact absurd low (by decide)

end Words

section Bits

theorem test_bit_word {w : Nat} (v : BitVec w) (k : Nat) :
    v.toInt.testBit k = if k < w then v.getLsbD k else v.msb := by
  cases negative : v.msb
  case false =>
    rw [BitVec.toInt_eq_msb_cond, negative, if_neg (by decide)]
    change Nat.testBit v.toNat k = _
    split
    · rfl
    · exact BitVec.getLsbD_of_ge v k (by omega)
  case true =>
    have bound := v.isLt
    have complement : (v.toNat : Int) - (2 ^ w : Nat) = Int.negSucc (~~~v).toNat := by
      rw [BitVec.toNat_not, Int.negSucc_eq]
      omega
    rw [BitVec.toInt_eq_msb_cond, negative, if_pos rfl, complement]
    change (!(~~~v).getLsbD k) = _
    rw [BitVec.getLsbD_not]
    by_cases inside : k < w
    · simp [inside]
    · simp [inside]

theorem eq_of_test_bit : ∀ {m n : Int}, (∀ k, m.testBit k = n.testBit k) → m = n
  | .ofNat m, .ofNat n, same => congrArg _ (Nat.eq_of_testBit_eq same)
  | .negSucc m, .negSucc n, same =>
    congrArg _ (Nat.eq_of_testBit_eq fun k => Bool.not_inj (same k))
  | .ofNat m, .negSucc n, same => by
    have above := same (m + n)
    change m.testBit (m + n) = !n.testBit (m + n) at above
    have first := Nat.lt_of_lt_of_le (Nat.lt_two_pow_self (n := m))
      (Nat.pow_le_pow_right (by decide) (Nat.le_add_right m n))
    have second := Nat.lt_of_lt_of_le (Nat.lt_two_pow_self (n := n))
      (Nat.pow_le_pow_right (by decide) (Nat.le_add_left n m))
    rw [Nat.testBit_lt_two_pow first, Nat.testBit_lt_two_pow second] at above
    contradiction
  | .negSucc m, .ofNat n, same => by
    have above := same (m + n)
    change (!m.testBit (m + n)) = n.testBit (m + n) at above
    have first := Nat.lt_of_lt_of_le (Nat.lt_two_pow_self (n := m))
      (Nat.pow_le_pow_right (by decide) (Nat.le_add_right m n))
    have second := Nat.lt_of_lt_of_le (Nat.lt_two_pow_self (n := n))
      (Nat.pow_le_pow_right (by decide) (Nat.le_add_left n m))
    rw [Nat.testBit_lt_two_pow first, Nat.testBit_lt_two_pow second] at above
    contradiction

variable (x y : Int32)

theorem land_value : (x &&& y).toInt = Int.land x.toInt y.toInt := by
  refine eq_of_test_bit fun k => ?_
  change (x.toBitVec &&& y.toBitVec).toInt.testBit k = _
  rw [Int.testBit_land, ← x.toInt_toBitVec, ← y.toInt_toBitVec]
  simp only [test_bit_word, BitVec.getLsbD_and, BitVec.msb_and]
  split <;> rfl

theorem lor_value : (x ||| y).toInt = Int.lor x.toInt y.toInt := by
  refine eq_of_test_bit fun k => ?_
  change (x.toBitVec ||| y.toBitVec).toInt.testBit k = _
  rw [Int.testBit_lor, ← x.toInt_toBitVec, ← y.toInt_toBitVec]
  simp only [test_bit_word, BitVec.getLsbD_or, BitVec.msb_or]
  split <;> rfl

theorem xor_value : (x ^^^ y).toInt = Int.xor x.toInt y.toInt := by
  refine eq_of_test_bit fun k => ?_
  change (x.toBitVec ^^^ y.toBitVec).toInt.testBit k = _
  rw [Int.testBit_lxor, ← x.toInt_toBitVec, ← y.toInt_toBitVec]
  simp only [test_bit_word, BitVec.getLsbD_xor, BitVec.msb_xor]
  split <;> rfl

end Bits

section Division

/-- The remainder takes the sign of the divisor: this is what rounding down means. -/
theorem floor_unique {a b q r : Int} (split : a = b * q + r)
    (sign : 0 ≤ r ∧ r < b ∨ b < r ∧ r ≤ 0) : q = a.fdiv b ∧ r = a.fmod b := by
  have below : r.fdiv b = 0 := by
    rcases sign with ⟨low, high⟩ | ⟨low, high⟩
    · exact Int.fdiv_eq_zero_of_lt low high
    · rw [← Int.neg_fdiv_neg]
      exact Int.fdiv_eq_zero_of_lt (by omega) (by omega)
  have quotient : a.fdiv b = q := by
    rw [split, Int.add_comm, Int.add_mul_fdiv_left _ _ (by omega), below, Int.zero_add]
  have whole := Int.mul_fdiv_add_fmod a b
  rw [quotient] at whole
  exact ⟨quotient.symm, by omega⟩

-- The remainder of C takes the sign of the dividend.
theorem truncated (a : Int) {b : Int} (nonzero : b ≠ 0) :
    a = b * a.tdiv b + a.tmod b ∧ (a.tmod b).natAbs < b.natAbs ∧
      (0 ≤ a → 0 ≤ a.tmod b) ∧ (a ≤ 0 → a.tmod b ≤ 0) := by
  refine ⟨(Int.mul_tdiv_add_tmod a b).symm, ?_, Int.tmod_nonneg b, fun negative => ?_⟩
  · rw [Int.natAbs_tmod]
    exact Nat.mod_lt _ (Int.natAbs_pos.mpr nonzero)
  · have opposite := Int.tmod_nonneg b (a := -a) (by omega)
    rw [Int.neg_tmod] at opposite
    omega

end Division

end NexusOS.SignedWords
