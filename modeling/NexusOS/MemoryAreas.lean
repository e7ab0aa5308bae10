import NexusOS.BlockCopy

/-!
Areas of a byte memory: runs of addresses, possibly around its end. What a memory
holds in an area does not change while the area is kept, and areas that do not
meet can be written without regard to each other.
-/

namespace NexusOS.MemoryAreas

open ByteMemory BlockCopy

structure Area where
  start : UInt32
  size : Nat

def Inside (x : Area) (a : UInt32) : Prop := offset x.start a < x.size

instance (x : Area) (a : UInt32) : Decidable (Inside x a) := inferInstanceAs (Decidable (_ < _))

def Apart (x y : Area) : Prop := ∀ a, Inside x a → ¬ Inside y a

def Keeps (x : Area) (m other : Memory) : Prop := ∀ a, Inside x a → other a = m a

theorem inside_at {p : UInt32} {size k : Nat} (below : k < size) (small : k < 2 ^ 32) :
    Inside ⟨p, size⟩ (p + UInt32.ofNat k) := by
  rw [Inside, offset_add p k small]
  exact below

theorem holds_of_get {m : Memory} {a : UInt32} {bytes : List UInt8}
    (get : ∀ k (_ : k < bytes.length), m (a + UInt32.ofNat k) = bytes[k]) :
    Holds m a bytes := by
  induction bytes generalizing a with
  | nil => trivial
  | cons b rest ih =>
      have first := get 0 (Nat.zero_lt_succ _)
      rw [first_address] at first
      refine ⟨first, ih fun k inside => ?_⟩
      rw [next_address]
      exact get (k + 1) (Nat.succ_lt_succ inside)

theorem holds_keeps {m other : Memory} {p : UInt32} {bytes : List UInt8} (holds : Holds m p bytes)
    (small : bytes.length ≤ 2 ^ 32) (keeps : Keeps ⟨p, bytes.length⟩ m other) :
    Holds other p bytes :=
  holds_congr holds fun _ below => keeps _ (inside_at below (Nat.lt_of_lt_of_le below small))

theorem apart_symm {x y : Area} (apart : Apart x y) : Apart y x :=
  fun a second first => apart a first second

theorem offset_split {p a : UInt32} {k : Nat}
    (fits : k + offset (p + UInt32.ofNat k) a < 2 ^ 32) :
    offset p a = k + offset (p + UInt32.ofNat k) a := by
  have whole := add_offset (p + UInt32.ofNat k) a
  rw [UInt32.add_assoc, ← UInt32.ofNat_add] at whole
  rw [← whole, offset_add p _ fits, whole]

section Parts
variable {p a : UInt32} {k n size : Nat}

theorem inside_part (fits : k + n ≤ size) (room : size ≤ 2 ^ 32)
    (inside : Inside ⟨p + UInt32.ofNat k, n⟩ a) : Inside ⟨p, size⟩ a := by
  rw [Inside] at inside ⊢
  simp only at inside ⊢
  rw [offset_split (k := k) (by omega)]
  omega

theorem parts_apart (room : k + n ≤ 2 ^ 32) : Apart ⟨p, k⟩ ⟨p + UInt32.ofNat k, n⟩ := by
  intro a first second
  rw [Inside] at first second
  simp only at first second
  rw [offset_split (k := k) (by omega)] at first
  omega

theorem inside_parts (room : k + n ≤ 2 ^ 32) (inside : Inside ⟨p, k + n⟩ a) :
    Inside ⟨p, k⟩ a ∨ Inside ⟨p + UInt32.ofNat k, n⟩ a := by
  rw [Inside] at inside
  simp only at inside
  by_cases low : offset p a < k
  · exact Or.inl low
  · refine Or.inr ?_
    have whole := add_offset p a
    have split : offset p a = k + (offset p a - k) := by omega
    rw [split, UInt32.ofNat_add, ← UInt32.add_assoc] at whole
    rw [Inside, ← whole, offset_add _ _ (by omega)]
    simp only
    omega

end Parts

theorem apart_part {p : UInt32} {k n size : Nat} {y : Area} (apart : Apart ⟨p, size⟩ y)
    (fits : k + n ≤ size) (room : size ≤ 2 ^ 32) : Apart ⟨p + UInt32.ofNat k, n⟩ y :=
  fun a inside => apart a (inside_part fits room inside)

theorem apart_start {p : UInt32} {n size : Nat} {y : Area} (apart : Apart ⟨p, size⟩ y)
    (fits : n ≤ size) : Apart ⟨p, n⟩ y :=
  fun a inside => apart a (Nat.lt_of_lt_of_le inside fits)

theorem store_outside (m : Memory) {p a : UInt32} {bytes : List UInt8}
    (room : bytes.length ≤ 2 ^ 32) (outside : ¬ Inside ⟨p, bytes.length⟩ a) :
    storeBytes m p bytes a = m a := by
  induction bytes generalizing p with
  | nil => rfl
  | cons b rest ih =>
      rw [List.length_cons] at room outside
      have apart : a ≠ p := by
        rintro rfl
        rw [Inside, offset, UInt32.sub_self] at outside
        exact outside (Nat.succ_pos _)
      have later : ¬ Inside ⟨p + 1, rest.length⟩ a := fun inside =>
        outside (inside_part (k := 1) (Nat.le_of_eq (Nat.add_comm 1 _)) room inside)
      rw [storeBytes, Function.update_of_ne apart]
      exact ih (Nat.le_of_succ_le room) later

theorem store_keeps (m : Memory) {p : UInt32} {bytes : List UInt8} {y : Area}
    (room : bytes.length ≤ 2 ^ 32) (apart : Apart ⟨p, bytes.length⟩ y) :
    Keeps y m (storeBytes m p bytes) :=
  fun a inside => store_outside m room fun stored => apart a stored inside

theorem load_keeps {m other : Memory} {p : UInt32} (keeps : Keeps ⟨p, 4⟩ m other) :
    load32 other p = load32 m p := by
  have byte (k : Nat) (below : k < 4) : other (p + UInt32.ofNat k) = m (p + UInt32.ofNat k) :=
    keeps _ (inside_at below (by omega))
  have first := byte 0 (by decide)
  rw [first_address] at first
  rw [load32, load32, first]
  exact congr (congr (congrArg _ (byte 1 (by decide))) (byte 2 (by decide))) (byte 3 (by decide))

section Words
variable (m : Memory) (w : UInt32) {p a : UInt32}

theorem word_outside (outside : ¬ Inside ⟨p, 4⟩ a) : store32 m p w a = m a :=
  store_outside m (bytes_length w ▸ (by decide : 4 ≤ 2 ^ 32)) outside

theorem word_keeps {y : Area} (apart : Apart ⟨p, 4⟩ y) : Keeps y m (store32 m p w) :=
  fun a inside => word_outside m w fun stored => apart a stored inside

theorem load_store : load32 (store32 m p w) p = w := by
  have stored := @holds_store m p [] (bytes32 w) trivial
    (bytes_length w ▸ (by decide : 4 + 0 ≤ 2 ^ 32))
  rw [List.append_nil] at stored
  exact load_holds stored

end Words

theorem apart_join {p : UInt32} {k n : Nat} {y : Area} (first : Apart ⟨p, k⟩ y)
    (second : Apart ⟨p + UInt32.ofNat k, n⟩ y) (room : k + n ≤ 2 ^ 32) : Apart ⟨p, k + n⟩ y :=
  fun a inside => (inside_parts room inside).elim (first a) (second a)

theorem apart_above {p q : UInt32} {n k : Nat} (above : p.toNat + n ≤ q.toNat)
    (fits : q.toNat + k ≤ 2 ^ 32) : Apart ⟨q, k⟩ ⟨p, n⟩ := by
  intro a first second
  rw [Inside] at first second
  simp only at first second
  have limit := q.toNat_lt
  have high := address_exact q (offset q a) (by omega)
  have low := address_exact p (offset p a) (by omega)
  rw [add_offset] at high low
  omega

-- Into an area of its own a block is copied faithfully from anywhere.
theorem apart_ahead {dest src : UInt32} {n size : Nat} (apart : Apart ⟨dest, size⟩ ⟨src, n⟩)
    (positive : 0 < size) : offset dest src + n ≤ 2 ^ 32 := by
  by_contra around
  have distance : offset dest src < 2 ^ 32 := (src - dest).toNat_lt
  have here : Inside ⟨dest, size⟩ dest := by
    rw [Inside, offset, UInt32.sub_self]
    exact positive
  have back : src + UInt32.ofNat (2 ^ 32 - offset dest src) = dest := by
    have whole := add_offset dest src
    have turn : UInt32.ofNat (offset dest src) + UInt32.ofNat (2 ^ 32 - offset dest src) = 0 := by
      rw [← UInt32.ofNat_add, Nat.add_sub_cancel' (Nat.le_of_lt distance)]
      rfl
    rw [← whole, UInt32.add_assoc, whole, turn, UInt32.add_zero]
  refine apart dest here ?_
  by_cases same : offset dest src = 0
  · have met := add_offset dest src
    rw [same, first_address] at met
    have more : 0 < n := by omega
    rw [← met, Inside, offset, UInt32.sub_self]
    exact more
  · rw [← back]
    exact inside_at (by omega) (by omega)

theorem update_offset (m : Memory) (base a : UInt32) {j : Nat} (small : j < 2 ^ 32) (c : UInt8) :
    Function.update m (base + UInt32.ofNat j) c a = if offset base a = j then c else m a := by
  by_cases here : offset base a = j
  · rw [if_pos here, ← here, add_offset, Function.update_self]
  · have apart : a ≠ base + UInt32.ofNat j := fun same => here (same ▸ offset_add base j small)
    rw [if_neg here, Function.update_of_ne apart]

end NexusOS.MemoryAreas
