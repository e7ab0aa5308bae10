import Mathlib.Data.UInt
import Mathlib.Logic.Function.Basic

/-!
A byte-addressed memory of 2^32 bytes that wraps around, little-endian 32-bit
words in it, and a stack of such words that grows down. `Holds` is the only
thing said about a memory: which bytes stand from an address on.
-/

namespace NexusOS.ByteMemory

abbrev Memory := UInt32 → UInt8

def Holds (m : Memory) (a : UInt32) : List UInt8 → Prop
  | [] => True
  | b :: rest => m a = b ∧ Holds m (a + 1) rest

def word (b₀ b₁ b₂ b₃ : UInt8) : UInt32 :=
  UInt32.ofNat (b₀.toNat + 0x100 * b₁.toNat + 0x10000 * b₂.toNat + 0x1000000 * b₃.toNat)

def load32 (m : Memory) (a : UInt32) : UInt32 := word (m a) (m (a + 1)) (m (a + 2)) (m (a + 3))

def bytes32 (w : UInt32) : List UInt8 :=
  [UInt8.ofNat w.toNat, UInt8.ofNat (w.toNat / 0x100), UInt8.ofNat (w.toNat / 0x10000),
    UInt8.ofNat (w.toNat / 0x1000000)]

def storeBytes (m : Memory) (a : UInt32) : List UInt8 → Memory
  | [] => m
  | b :: rest => Function.update (storeBytes m (a + 1) rest) a b

def store32 (m : Memory) (a w : UInt32) : Memory := storeBytes m a (bytes32 w)

theorem bytes_length (w : UInt32) : (bytes32 w).length = 4 := rfl

theorem word_bytes (w : UInt32) :
    word (UInt8.ofNat w.toNat) (UInt8.ofNat (w.toNat / 0x100)) (UInt8.ofNat (w.toNat / 0x10000))
      (UInt8.ofNat (w.toNat / 0x1000000)) = w := by
  apply UInt32.toNat_inj.mp
  have bound := w.toNat_lt
  simp only [word, UInt32.toNat_ofNat', UInt8.toNat_ofNat']
  omega

theorem next_address (a : UInt32) (k : Nat) :
    a + 1 + UInt32.ofNat k = a + UInt32.ofNat (k + 1) := by
  rw [UInt32.ofNat_add, UInt32.add_assoc, UInt32.add_comm 1]
  rfl

theorem first_address (a : UInt32) : a + UInt32.ofNat 0 = a := UInt32.add_zero a

theorem holds_append (m : Memory) (a : UInt32) (xs ys : List UInt8) :
    Holds m a (xs ++ ys) ↔ Holds m a xs ∧ Holds m (a + UInt32.ofNat xs.length) ys := by
  induction xs generalizing a with
  | nil => simp [Holds]
  | cons b rest ih =>
      simp only [List.cons_append, Holds, ih, List.length_cons, next_address, and_assoc]

theorem load_holds {m : Memory} {a w : UInt32} (holds : Holds m a (bytes32 w)) :
    load32 m a = w := by
  rcases holds with ⟨b₀, b₁, b₂, b₃, _⟩
  have two : a + 1 + 1 = a + 2 := UInt32.add_assoc a 1 1
  have three : a + 2 + 1 = a + 3 := UInt32.add_assoc a 2 1
  rw [two] at b₂ b₃
  rw [three] at b₃
  rw [load32, b₀, b₁, b₂, b₃, word_bytes]

theorem holds_get {m : Memory} {a : UInt32} {bytes : List UInt8} (holds : Holds m a bytes) (k : Nat)
    (inside : k < bytes.length) : m (a + UInt32.ofNat k) = bytes[k] := by
  induction bytes generalizing a k with
  | nil => exact absurd inside (Nat.not_lt_zero k)
  | cons b rest ih =>
      cases k with
      | zero => exact (congrArg m (first_address a)).trans holds.1
      | succ k =>
          rw [← next_address]
          exact ih holds.2 k (Nat.lt_of_succ_lt_succ inside)

theorem holds_congr {m other : Memory} {a : UInt32} {bytes : List UInt8} (holds : Holds m a bytes)
    (same : ∀ k < bytes.length, other (a + UInt32.ofNat k) = m (a + UInt32.ofNat k)) :
    Holds other a bytes := by
  induction bytes generalizing a with
  | nil => trivial
  | cons b rest ih =>
      rcases holds with ⟨here, later⟩
      have first := same 0 (Nat.zero_lt_succ _)
      rw [first_address] at first
      refine ⟨first.trans here, ih later fun k below => ?_⟩
      rw [next_address]
      exact same (k + 1) (Nat.succ_lt_succ below)

theorem address_exact (a : UInt32) (k : Nat) (fits : a.toNat + k < 2 ^ 32) :
    (a + UInt32.ofNat k).toNat = a.toNat + k := by
  have small := Nat.lt_of_le_of_lt (Nat.le_add_left k a.toNat) fits
  rw [UInt32.toNat_add, UInt32.toNat_ofNat', Nat.mod_eq_of_lt small, Nat.mod_eq_of_lt fits]

theorem distance_exact (a : UInt32) (k : Nat) (small : k < 2 ^ 32) :
    (a + UInt32.ofNat k - a).toNat = k := by
  rw [UInt32.add_comm, UInt32.add_sub_cancel, UInt32.toNat_ofNat', Nat.mod_eq_of_lt small]

theorem address_ne (a : UInt32) (k : Nat) (pos : 0 < k) (small : k < 2 ^ 32) :
    a + UInt32.ofNat k ≠ a := by
  intro same
  have zero : UInt32.ofNat k = 0 := UInt32.add_eq_left.mp same
  have value := congrArg UInt32.toNat zero
  rw [UInt32.toNat_ofNat', Nat.mod_eq_of_lt small] at value
  exact absurd value (Nat.ne_of_gt pos)

theorem holds_update {m : Memory} {a : UInt32} {bytes : List UInt8} (b : UInt8)
    (holds : Holds m (a + 1) bytes) (room : bytes.length < 2 ^ 32) :
    Holds (Function.update m a b) (a + 1) bytes := by
  apply holds_congr holds
  intro k below
  rw [next_address]
  exact Function.update_of_ne (address_ne a (k + 1) (Nat.succ_pos k) (by omega)) _ _

theorem holds_store {m : Memory} {a : UInt32} {below : List UInt8} (bytes : List UInt8)
    (holds : Holds m (a + UInt32.ofNat bytes.length) below)
    (room : bytes.length + below.length ≤ 2 ^ 32) :
    Holds (storeBytes m a bytes) a (bytes ++ below) := by
  induction bytes generalizing a with
  | nil => simpa [storeBytes] using holds
  | cons b rest ih =>
      rw [List.length_cons] at room
      rw [List.length_cons, ← next_address] at holds
      have stored := ih holds (by omega)
      have size : (rest ++ below).length < 2 ^ 32 := by
        rw [List.length_append]
        omega
      exact ⟨Function.update_self .., holds_update b stored size⟩

/-- The words of a stack, from the top. -/
def Stack (m : Memory) (top : UInt32) (words : List UInt32) : Prop :=
  Holds m top (words.flatMap bytes32)

theorem words_length (words : List UInt32) : (words.flatMap bytes32).length = 4 * words.length := by
  induction words with
  | nil => rfl
  | cons w rest ih =>
      rw [List.flatMap_cons, List.length_append, ih, bytes_length, List.length_cons]
      omega

theorem stack_push {m : Memory} {top : UInt32} {words : List UInt32} (w : UInt32)
    (stack : Stack m top words) (room : words.length < 2 ^ 30) :
    Stack (store32 m (top - 4) w) (top - 4) (w :: words) := by
  have back : top - 4 + UInt32.ofNat (bytes32 w).length = top := UInt32.sub_add_cancel top 4
  have size : (bytes32 w).length + (words.flatMap bytes32).length ≤ 2 ^ 32 := by
    rw [words_length, bytes_length]
    omega
  have above : Holds m (top - 4 + UInt32.ofNat (bytes32 w).length) (words.flatMap bytes32) := by
    rw [back]
    exact stack
  exact holds_store (bytes32 w) above size

theorem stack_pop {m : Memory} {top w : UInt32} {words : List UInt32}
    (stack : Stack m top (w :: words)) : load32 m top = w ∧ Stack m (top + 4) words := by
  rcases (holds_append m top (bytes32 w) _).mp stack with ⟨here, rest⟩
  exact ⟨load_holds here, rest⟩

theorem stack_drop {m : Memory} {top : UInt32} {words : List UInt32} (stack : Stack m top words)
    (n : Nat) (fits : n ≤ words.length) :
    Stack m (top + UInt32.ofNat (4 * n)) (words.drop n) := by
  have size : (words.take n |>.flatMap bytes32).length = 4 * n := by
    rw [words_length, List.length_take_of_le fits]
  have split := stack
  rw [Stack, ← List.take_append_drop n words, List.flatMap_append, holds_append, size] at split
  exact split.2

theorem stack_word {m : Memory} {top w : UInt32} {words : List UInt32} (stack : Stack m top words)
    (i : Nat) (found : words[i]? = some w) : load32 m (top + UInt32.ofNat (4 * i)) = w := by
  rcases List.getElem?_eq_some_iff.mp found with ⟨inside, rfl⟩
  have rest := stack_drop stack i (Nat.le_of_lt inside)
  rw [List.drop_eq_getElem_cons inside] at rest
  exact (stack_pop rest).1

theorem stack_congr {m other : Memory} {top : UInt32} {words : List UInt32}
    (stack : Stack m top words) (same : ∀ k < 4 * words.length,
      other (top + UInt32.ofNat k) = m (top + UInt32.ofNat k)) : Stack other top words :=
  holds_congr stack (words_length words ▸ same)

end NexusOS.ByteMemory
