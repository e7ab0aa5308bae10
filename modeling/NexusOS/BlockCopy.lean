import NexusOS.ByteMemory

/-!
Copying a block of bytes inside one memory: as a simultaneous assignment, and as
the two byte loops, up from the start and down from the end. Addresses wrap
around, so which loop is faithful is a bound on the distance between the blocks.
-/

namespace NexusOS.BlockCopy

open ByteMemory

variable {Byte : Type}

/-- How far `a` lies above `base`, around the address space. -/
def offset (base a : UInt32) : Nat := (a - base).toNat

/-- All `n` bytes at once, each as it was before. -/
def copied (m : UInt32 → Byte) (dest src : UInt32) (n : Nat) : UInt32 → Byte := fun a =>
  if offset dest a < n then m (src + UInt32.ofNat (offset dest a)) else m a

def move (m : UInt32 → Byte) (d s : UInt32) : UInt32 → Byte := Function.update m d (m s)

/-- The C loop `while (n--) *d++ = *s++;`. -/
def copyUp (m : UInt32 → Byte) (d s : UInt32) : Nat → UInt32 → Byte
  | 0 => m
  | n + 1 => copyUp (move m d s) (d + 1) (s + 1) n

/-- The C loop `while (n--) *--d = *--s;`. -/
def copyDown (m : UInt32 → Byte) (d s : UInt32) : Nat → UInt32 → Byte
  | 0 => m
  | n + 1 => copyDown (move m (d - 1) (s - 1)) (d - 1) (s - 1) n

theorem add_offset (base a : UInt32) : base + UInt32.ofNat (offset base a) = a := by
  rw [offset, UInt32.ofNat_toNat, UInt32.add_comm, UInt32.sub_add_cancel]

theorem offset_add (base : UInt32) (k : Nat) (small : k < 2 ^ 32) :
    offset base (base + UInt32.ofNat k) = k := distance_exact base k small

theorem offset_shift {base a : UInt32} {k : Nat} (fits : offset base a + k < 2 ^ 32) :
    offset base (a + UInt32.ofNat k) = offset base a + k := by
  rw [offset, add_sub_right_comm]
  exact address_exact (a - base) k fits

theorem offset_next {base a : UInt32} (apart : a ≠ base) :
    offset base a = offset (base + 1) a + 1 := by
  have differ : a.toNat ≠ base.toNat := fun same => apart (UInt32.toNat_inj.mp same)
  have low := base.toNat_lt
  have high := a.toNat_lt
  simp only [offset, UInt32.toNat_sub, UInt32.toNat_add, UInt32.toNat_one]
  omega

theorem offset_behind {base a : UInt32} {n : Nat} (fits : offset a base + n < 2 ^ 32) :
    n ≤ offset (base + 1) a := by
  have low := base.toNat_lt
  have high := a.toNat_lt
  simp only [offset, UInt32.toNat_sub, UInt32.toNat_add, UInt32.toNat_one] at fits ⊢
  omega

theorem copied_inside (m : UInt32 → Byte) (dest src : UInt32) {n k : Nat} (small : k < 2 ^ 32)
    (inside : k < n) : copied m dest src n (dest + UInt32.ofNat k) = m (src + UInt32.ofNat k) := by
  rw [copied, offset_add dest k small, if_pos inside]

theorem copied_outside (m : UInt32 → Byte) {dest a : UInt32} (src : UInt32) {n : Nat}
    (outside : n ≤ offset dest a) : copied m dest src n a = m a :=
  if_neg (Nat.not_lt.mpr outside)

theorem move_up (m : UInt32 → Byte) {dest src : UInt32} {n : Nat}
    (ahead : offset dest src + n < 2 ^ 32) :
    move (copied m dest src n) (dest + UInt32.ofNat n) (src + UInt32.ofNat n) =
      copied m dest src (n + 1) := by
  have unread : n ≤ offset dest (src + UInt32.ofNat n) := by
    rw [offset_shift ahead]
    exact Nat.le_add_left n _
  rw [move, copied_outside m src unread]
  funext a
  by_cases here : a = dest + UInt32.ofNat n
  · subst here
    rw [Function.update_self]
    exact (copied_inside m dest src (by omega) (Nat.lt_succ_self n)).symm
  · have elsewhere : offset dest a ≠ n := by
      rintro rfl
      exact here (add_offset dest a).symm
    have same : offset dest a < n + 1 ↔ offset dest a < n := by omega
    simp only [Function.update_of_ne here, copied, same]

theorem move_down (m : UInt32 → Byte) {dest src : UInt32} {n : Nat}
    (behind : offset src dest + n < 2 ^ 32) :
    move (copied m (dest + 1) (src + 1) n) dest src = copied m dest src (n + 1) := by
  rw [move, copied_outside m (src + 1) (offset_behind behind)]
  funext a
  by_cases here : a = dest
  · subst here
    have first : offset a a = 0 := by
      rw [offset, UInt32.sub_self]
      rfl
    rw [Function.update_self, copied, first, if_pos (Nat.succ_pos n)]
    exact congrArg m (first_address src).symm
  · rw [Function.update_of_ne here, copied, copied, offset_next here, next_address]
    simp only [Nat.add_lt_add_iff_right]

theorem previous_address (a : UInt32) (k : Nat) :
    a + UInt32.ofNat (k + 1) - 1 = a + UInt32.ofNat k := by
  rw [← next_address, UInt32.add_comm a 1, UInt32.add_assoc, UInt32.add_comm,
    UInt32.add_sub_cancel]

theorem copy_up_last (m : UInt32 → Byte) (d s : UInt32) (n : Nat) :
    copyUp m d s (n + 1) = move (copyUp m d s n) (d + UInt32.ofNat n) (s + UInt32.ofNat n) := by
  induction n generalizing m d s with
  | zero => simp [copyUp]
  | succ n ih => rw [copyUp, ih, next_address, next_address, copyUp]

-- The bytes above `dest` go first, so `src` must not come round from above.
theorem copy_up_copies (m : UInt32 → Byte) {dest src : UInt32} {n : Nat}
    (ahead : offset dest src + n ≤ 2 ^ 32) : copyUp m dest src n = copied m dest src n := by
  induction n with
  | zero => rfl
  | succ n ih =>
      rw [copy_up_last, ih (by omega)]
      exact move_up m ahead

theorem copy_down_last (m : UInt32 → Byte) (d s : UInt32) (n : Nat) :
    copyDown m (d + UInt32.ofNat (n + 1)) (s + UInt32.ofNat (n + 1)) (n + 1) =
      move (copyDown m (d + UInt32.ofNat (n + 1)) (s + UInt32.ofNat (n + 1)) n) d s := by
  induction n generalizing m with
  | zero => simp [copyDown]
  | succ n ih =>
      rw [copyDown, previous_address, previous_address, ih, copyDown, previous_address,
        previous_address]

-- From the upper ends down, `src` must not come round from below.
theorem copy_down_copies (m : UInt32 → Byte) {dest src : UInt32} {n : Nat}
    (behind : offset src dest + n ≤ 2 ^ 32) :
    copyDown m (dest + UInt32.ofNat n) (src + UInt32.ofNat n) n = copied m dest src n := by
  induction n generalizing dest src with
  | zero => rfl
  | succ n ih =>
      have shifted : offset (src + 1) (dest + 1) = offset src dest := by
        rw [offset, add_sub_add_right_eq_sub]
        rfl
      have rest : offset (src + 1) (dest + 1) + n ≤ 2 ^ 32 := by omega
      have above := ih rest
      rw [next_address, next_address] at above
      rw [copy_down_last, above]
      exact move_down m behind

end NexusOS.BlockCopy
