import NexusOS.BlockCopy

/-!
`memcpy` and `memmove` of `kernel/libc.c` over byte memory. `memmove` copies
faithfully however its blocks overlap; `memcpy` only when the destination does
not start inside the source.
-/

namespace NexusOS.MemoryMove

open ByteMemory BlockCopy

/-- The memory a copy leaves, and the pointer it returns. -/
structure Written where
  memory : Memory
  returned : UInt32

def memcpy (m : Memory) (dest src n : UInt32) : Written := ⟨copyUp m dest src n.toNat, dest⟩

def memmove (m : Memory) (dest src n : UInt32) : Written :=
  if dest < src then ⟨copyUp m dest src n.toNat, dest⟩
  else ⟨copyDown m (dest + n) (src + n) n.toNat, dest⟩

theorem offset_above {base a : UInt32} (above : base ≤ a) :
    offset base a = a.toNat - base.toNat := UInt32.toNat_sub_of_le a base above

theorem memmove_copies (m : Memory) {dest src n : UInt32}
    (destFits : dest.toNat + n.toNat ≤ 2 ^ 32) (srcFits : src.toNat + n.toNat ≤ 2 ^ 32) :
    memmove m dest src n = ⟨copied m dest src n.toNat, dest⟩ := by
  unfold memmove
  by_cases below : dest < src
  · have distance := offset_above (UInt32.le_of_lt below)
    rw [if_pos below, copy_up_copies m (by omega)]
  · have distance := offset_above (UInt32.not_lt.mp below)
    have behind : offset src dest + n.toNat ≤ 2 ^ 32 := by omega
    have down := copy_down_copies m behind
    rw [UInt32.ofNat_toNat] at down
    rw [if_neg below, down]

theorem outside_offset {dest a : UInt32} {n : Nat} (fits : dest.toNat + n ≤ 2 ^ 32)
    (outside : ¬ (dest.toNat ≤ a.toNat ∧ a.toNat < dest.toNat + n)) : n ≤ offset dest a := by
  by_contra inside
  have exactly := address_exact dest (offset dest a) (by omega)
  rw [add_offset] at exactly
  omega

/-- The block at `dest` becomes what the block at `src` was, and nothing else
changes, wherever the two lie. -/
theorem memmove_exact (m : Memory) (dest src n : UInt32)
    (destFits : dest.toNat + n.toNat ≤ 2 ^ 32) (srcFits : src.toNat + n.toNat ≤ 2 ^ 32) :
    (∀ k < n, (memmove m dest src n).memory (dest + k) = m (src + k)) ∧
      ∀ a : UInt32, ¬ (dest.toNat ≤ a.toNat ∧ a.toNat < dest.toNat + n.toNat) →
        (memmove m dest src n).memory a = m a := by
  rw [memmove_copies m destFits srcFits]
  constructor
  · intro k inside
    have moved := copied_inside m dest src k.toNat_lt (UInt32.lt_iff_toNat_lt.mp inside)
    rw [UInt32.ofNat_toNat] at moved
    exact moved
  · intro a outside
    exact copied_outside m src (outside_offset destFits outside)

/-- Three bytes up, into the last five bytes there are. -/
theorem overlapping_move_to_the_top :
    (memmove (fun a => UInt8.ofNat a.toNat) 0xFFFFFFFB 0xFFFFFFF8 5).memory 0xFFFFFFFF = 0xFC :=
  (memmove_exact (fun a => UInt8.ofNat a.toNat) 0xFFFFFFFB 0xFFFFFFF8 5 (by decide) (by decide)).1
    4 (by decide)

-- `memcpy` is as good as `memmove` unless `dest` is inside the source.
theorem memcpy_move (m : Memory) {dest src n : UInt32}
    (destFits : dest.toNat + n.toNat ≤ 2 ^ 32) (srcFits : src.toNat + n.toNat ≤ 2 ^ 32)
    (start : dest ≤ src ∨ src.toNat + n.toNat ≤ dest.toNat) :
    memcpy m dest src n = memmove m dest src n := by
  have ahead : offset dest src + n.toNat ≤ 2 ^ 32 := by
    rcases start with below | above
    · have distance := offset_above below
      omega
    · by_cases apart : dest ≤ src
      · have distance := offset_above apart
        omega
      · simp only [offset, UInt32.toNat_sub]
        omega
  rw [memmove_copies m destFits srcFits, memcpy, copy_up_copies m ahead]

/-- The C loop `while (n--) *p++ = c;`. -/
def fill (m : Memory) (p : UInt32) (c : UInt8) : Nat → Memory
  | 0 => m
  | n + 1 => fill (Function.update m p c) (p + 1) c n

def memset (m : Memory) (s : UInt32) (c : UInt8) (n : UInt32) : Written := ⟨fill m s c n.toNat, s⟩

theorem fill_exact (m : Memory) (p a : UInt32) (c : UInt8) {n : Nat} (fits : n ≤ 2 ^ 32) :
    fill m p c n a = if offset p a < n then c else m a := by
  induction n generalizing m p with
  | zero => exact (if_neg (Nat.not_lt_zero _)).symm
  | succ n ih =>
      rw [fill, ih (Function.update m p c) (p + 1) (Nat.le_of_succ_le fits)]
      by_cases here : a = p
      · have first : offset a a = 0 := by
          rw [offset, UInt32.sub_self]
          rfl
        subst here
        have behind : n ≤ offset (a + 1) a := offset_behind (by omega)
        rw [if_neg (Nat.not_lt.mpr behind), Function.update_self, first, if_pos (Nat.succ_pos n)]
      · rw [Function.update_of_ne here, offset_next here]
        simp only [Nat.add_lt_add_iff_right]

end NexusOS.MemoryMove
