import Mathlib.Data.UInt
import Mathlib.Logic.Function.Basic

/-!
A table of two-bit fields, four to a byte from the low bits up, as a program
keeps it: a field is read by a shift and a mask, and changed by one `|=` or one
`&= ~` on its byte. Each change touches the field it is meant for and no other.
-/

namespace NexusOS.PackedTable

def shift (i : Nat) : UInt8 := UInt8.ofNat (2 * (i % 4))

def field (t : Nat → UInt8) (i : Nat) : UInt8 := (t (i / 4) >>> shift i) &&& 3

def setBits (t : Nat → UInt8) (i : Nat) (v : UInt8) : Nat → UInt8 :=
  Function.update t (i / 4) (t (i / 4) ||| (v <<< shift i))

def clearBits (t : Nat → UInt8) (i : Nat) (v : UInt8) : Nat → UInt8 :=
  Function.update t (i / 4) (t (i / 4) &&& ~~~(v <<< shift i))

theorem shift_range (i : Nat) : shift i = 0 ∨ shift i = 2 ∨ shift i = 4 ∨ shift i = 6 := by
  have below := Nat.mod_lt i (show 0 < 4 by decide)
  have slots : i % 4 = 0 ∨ i % 4 = 1 ∨ i % 4 = 2 ∨ i % 4 = 3 := by omega
  rcases slots with h | h | h | h <;> simp [shift, h]

theorem shift_ne {i j : Nat} (same : j / 4 = i / 4) (apart : j ≠ i) : shift j ≠ shift i := by
  intro equal
  have value := congrArg UInt8.toNat equal
  simp only [shift, UInt8.toNat_ofNat'] at value
  omega

theorem mask_bits (k : Nat) : (3#8).getLsbD k = decide (k < 2) := by
  rcases k with _ | _ | k
  · rfl
  · rfl
  · have high : 3 < 2 ^ (k + 2) :=
      Nat.lt_of_lt_of_le (by decide : 3 < 2 ^ 2) (Nat.pow_le_pow_right (by decide) (by omega))
    simp [BitVec.getLsbD_ofNat, Nat.testBit_lt_two_pow high]

section Slots

variable (a v s : UInt8)

theorem set_here (slot : s = 0 ∨ s = 2 ∨ s = 4 ∨ s = 6) :
    ((a ||| (v <<< s)) >>> s) &&& 3 = ((a >>> s) &&& 3) ||| (v &&& 3) := by
  apply UInt8.toBitVec_inj.mp
  apply BitVec.eq_of_getLsbD_eq
  intro k below
  rcases slot with rfl | rfl | rfl | rfl <;>
  · simp [mask_bits k]
    grind

theorem clear_here (slot : s = 0 ∨ s = 2 ∨ s = 4 ∨ s = 6) :
    ((a &&& ~~~(v <<< s)) >>> s) &&& 3 = ((a >>> s) &&& 3) &&& ~~~v := by
  apply UInt8.toBitVec_inj.mp
  apply BitVec.eq_of_getLsbD_eq
  intro k below
  rcases slot with rfl | rfl | rfl | rfl <;>
  · simp [mask_bits k]
    grind

-- A value of two bits, put into one slot, leaves every other alone.
theorem set_elsewhere {r : UInt8} (two : v &&& 3 = v) (slot : s = 0 ∨ s = 2 ∨ s = 4 ∨ s = 6)
    (other : r = 0 ∨ r = 2 ∨ r = 4 ∨ r = 6) (apart : r ≠ s) :
    ((a ||| (v <<< s)) >>> r) &&& 3 = (a >>> r) &&& 3 := by
  rw [← two]
  apply UInt8.toBitVec_inj.mp
  apply BitVec.eq_of_getLsbD_eq
  intro k below
  rcases slot with rfl | rfl | rfl | rfl <;> rcases other with rfl | rfl | rfl | rfl
  all_goals first
    | exact absurd rfl apart
    | simp [mask_bits]; done
    | simp [mask_bits]
      grind

theorem clear_elsewhere {r : UInt8} (two : v &&& 3 = v) (slot : s = 0 ∨ s = 2 ∨ s = 4 ∨ s = 6)
    (other : r = 0 ∨ r = 2 ∨ r = 4 ∨ r = 6) (apart : r ≠ s) :
    ((a &&& ~~~(v <<< s)) >>> r) &&& 3 = (a >>> r) &&& 3 := by
  rw [← two]
  apply UInt8.toBitVec_inj.mp
  apply BitVec.eq_of_getLsbD_eq
  intro k below
  rcases slot with rfl | rfl | rfl | rfl <;> rcases other with rfl | rfl | rfl | rfl
  all_goals first
    | exact absurd rfl apart
    | simp [mask_bits]; done
    | simp [mask_bits]
      grind

-- A field can be tested for zero in place.
theorem masked_zero (slot : s = 0 ∨ s = 2 ∨ s = 4 ∨ s = 6) :
    a &&& (v <<< s) = 0 ↔ (a >>> s) &&& v = 0 := by
  have back : (a &&& (v <<< s)) >>> s = (a >>> s) &&& v := by
    apply UInt8.toBitVec_inj.mp
    apply BitVec.eq_of_getLsbD_eq
    intro k below
    rcases slot with rfl | rfl | rfl | rfl <;> simp <;> grind
  have forth : a &&& (v <<< s) = ((a >>> s) &&& v) <<< s := by
    apply UInt8.toBitVec_inj.mp
    apply BitVec.eq_of_getLsbD_eq
    intro k below
    rcases slot with rfl | rfl | rfl | rfl <;> simp <;> grind
  constructor
  · intro zero
    rw [← back, zero, UInt8.zero_shiftRight]
  · intro zero
    rw [forth, zero, UInt8.zero_shiftLeft]

end Slots

theorem field_set (t : Nat → UInt8) (i j : Nat) {v : UInt8} (two : v &&& 3 = v) :
    field (setBits t i v) j = if j = i then field t i ||| v else field t j := by
  by_cases byte : j / 4 = i / 4
  · rw [field, setBits, byte, Function.update_self]
    by_cases same : j = i
    · subst same
      rw [if_pos rfl, set_here _ _ _ (shift_range j), two, field]
    · have apart := shift_ne byte same
      rw [if_neg same, set_elsewhere _ _ _ two (shift_range i) (shift_range j) apart, field, byte]
  · have same : j ≠ i := fun equal => byte (congrArg (· / 4) equal)
    rw [if_neg same, field, setBits, Function.update_of_ne byte, field]

theorem field_clear (t : Nat → UInt8) (i j : Nat) {v : UInt8} (two : v &&& 3 = v) :
    field (clearBits t i v) j = if j = i then field t i &&& ~~~v else field t j := by
  by_cases byte : j / 4 = i / 4
  · rw [field, clearBits, byte, Function.update_self]
    by_cases same : j = i
    · subst same
      rw [if_pos rfl, clear_here _ _ _ (shift_range j), field]
    · have apart := shift_ne byte same
      rw [if_neg same, clear_elsewhere _ _ _ two (shift_range i) (shift_range j) apart, field, byte]
  · have same : j ≠ i := fun equal => byte (congrArg (· / 4) equal)
    rw [if_neg same, field, clearBits, Function.update_of_ne byte, field]

end NexusOS.PackedTable
