import NexusOS.ByteMemory

/-!
Strings in a byte memory and their order. A string of which only `n` bytes count
may go without its NUL when it is that long; the order is the lexicographic one
on unsigned bytes, with a proper prefix first.
-/

namespace NexusOS.StringOrder

open ByteMemory

structure StringAt (m : Memory) (a : UInt32) (s : List UInt8) : Prop where
  nonzero : ∀ c ∈ s, c ≠ 0
  holds : Holds m a (s ++ [0])

/-- A NUL-terminated string, or `n` bytes and more without a NUL. -/
structure FieldAt (m : Memory) (a : UInt32) (n : Nat) (s : List UInt8) : Prop where
  nonzero : ∀ c ∈ s, c ≠ 0
  holds : Holds m a s
  ends : s.length < n → m (a + UInt32.ofNat s.length) = 0

def order (s t : List UInt8) : Ordering := List.compareLex compare s t

def sign (difference : Int) : Ordering := compare difference 0

theorem StringAt.field {m : Memory} {a : UInt32} {s : List UInt8} (string : StringAt m a s)
    (n : Nat) : FieldAt m a n s := by
  have parts := (holds_append m a s [0]).mp string.holds
  exact ⟨string.nonzero, parts.1, fun _ => parts.2.1⟩

theorem FieldAt.string {m : Memory} {a : UInt32} {n : Nat} {s : List UInt8}
    (field : FieldAt m a n s) (short : s.length < n) : StringAt m a s :=
  ⟨field.nonzero, (holds_append m a s [0]).mpr ⟨field.holds, field.ends short, trivial⟩⟩

theorem FieldAt.cut {m : Memory} {a : UInt32} {n k : Nat} {s : List UInt8}
    (field : FieldAt m a n s) (fewer : k ≤ n) : FieldAt m a k s :=
  ⟨field.nonzero, field.holds, fun short => field.ends (Nat.lt_of_lt_of_le short fewer)⟩

theorem FieldAt.nil {m : Memory} {a : UInt32} {n : Nat} (field : FieldAt m a (n + 1) []) :
    m a = 0 := by
  have ended := field.ends (Nat.succ_pos n)
  rwa [List.length_nil, first_address] at ended

theorem FieldAt.cons {m : Memory} {a : UInt32} {n : Nat} {c : UInt8} {s : List UInt8}
    (field : FieldAt m a (n + 1) (c :: s)) : m a = c ∧ c ≠ 0 ∧ FieldAt m (a + 1) n s := by
  refine ⟨field.holds.1, field.nonzero c List.mem_cons_self, ?_, field.holds.2, ?_⟩
  · exact fun d member => field.nonzero d (List.mem_cons_of_mem c member)
  · intro short
    rw [next_address]
    exact field.ends (Nat.succ_lt_succ short)

theorem field_exists (m : Memory) (a : UInt32) (n : Nat) : ∃ s, FieldAt m a n s := by
  induction n generalizing a with
  | zero => exact ⟨[], by simp, trivial, nofun⟩
  | succ n ih =>
      by_cases ended : m a = 0
      · refine ⟨[], by simp, trivial, fun _ => ?_⟩
        exact (congrArg m (first_address a)).trans ended
      · obtain ⟨s, rest⟩ := ih (a + 1)
        refine ⟨m a :: s, ?_, ⟨rfl, rest.holds⟩, fun short => ?_⟩
        · simpa [ended] using rest.nonzero
        · rw [List.length_cons, ← next_address]
          exact rest.ends (Nat.lt_of_succ_lt_succ short)

-- The memory is too small for a string of 2^32 bytes before its NUL.
theorem StringAt.short {m : Memory} {a : UInt32} {s : List UInt8} (string : StringAt m a s) :
    s.length < 2 ^ 32 := by
  by_contra long
  have again : UInt32.ofNat s.length = UInt32.ofNat (s.length - 2 ^ 32) := by
    apply UInt32.toNat_inj.mp
    rw [UInt32.toNat_ofNat', UInt32.toNat_ofNat']
    omega
  have inside : s.length - 2 ^ 32 < s.length := by omega
  have parts := (holds_append m a s [0]).mp string.holds
  have ended := parts.2.1
  rw [again, holds_get parts.1 _ inside] at ended
  exact string.nonzero _ (List.getElem_mem inside) ended

theorem order_cons (x y : UInt8) (s t : List UInt8) :
    order (x :: s) (y :: t) = (compare x y).then (order s t) := List.compareLex_cons_cons

theorem order_same (x : UInt8) (s t : List UInt8) : order (x :: s) (x :: t) = order s t := by
  have equal : compare x x = .eq := Std.ReflOrd.compare_self
  rw [order_cons, equal, Ordering.eq_then]

theorem order_differ {x y : UInt8} (differ : x ≠ y) (s t : List UInt8) :
    order (x :: s) (y :: t) = compare x y := by
  rw [order_cons]
  cases decided : compare x y with
  | lt => rfl
  | eq => exact absurd (Std.LawfulEqOrd.eq_of_compare decided) differ
  | gt => rfl

theorem order_take {n : Nat} {s t : List UInt8} (longer : min s.length t.length < n) :
    order (s.take n) (t.take n) = order s t := by
  induction n generalizing s t with
  | zero => exact absurd longer (Nat.not_lt_zero _)
  | succ n ih =>
      cases s with
      | nil => cases t <;> rfl
      | cons x s =>
          cases t with
          | nil => rfl
          | cons y t =>
              have rest : min s.length t.length < n := by
                simp only [List.length_cons] at longer
                omega
              rw [List.take_succ_cons, List.take_succ_cons, order_cons, order_cons, ih rest]

instance : Std.TransCmp order := inferInstanceAs (Std.TransCmp (List.compareLex compare))

instance : Std.LawfulEqCmp order := inferInstanceAs (Std.LawfulEqCmp (List.compareLex compare))

theorem order_initial (n : Nat) (t : List UInt8) : (order (t.take n) t).isLE := by
  induction n generalizing t with
  | zero => cases t <;> rfl
  | succ n ih =>
      cases t with
      | nil => rfl
      | cons y t =>
          rw [List.take_succ_cons, order_same]
          exact ih t

-- Cut at the length of an earlier string, a later one still does not come before it.
theorem order_cut {s t : List UInt8} (before : order s t = .lt) :
    (order s (t.take s.length)).isLE := by
  induction s generalizing t with
  | nil => rfl
  | cons x s ih =>
      cases t with
      | nil => cases before
      | cons y t =>
          rw [List.length_cons, List.take_succ_cons]
          by_cases same : x = y
          · subst same
            rw [order_same] at before ⊢
            exact ih before
          · rw [order_differ same] at before ⊢
            rw [before]
            rfl

theorem sign_difference (x y : UInt8) : sign ((x.toNat : Int) - y.toNat) = compare x y := by
  have less : (x.toNat : Int) - y.toNat < 0 ↔ x < y := by
    rw [UInt8.lt_iff_toNat_lt]
    omega
  have same : (x.toNat : Int) - y.toNat = 0 ↔ x = y := by
    rw [← UInt8.toNat_inj]
    omega
  change compareOfLessAndEq _ _ = compareOfLessAndEq _ _
  simp only [compareOfLessAndEq, less, same]

theorem sign_eq (d : Int) : sign d = .eq ↔ d = 0 := Std.LawfulEqCmp.compare_eq_iff_eq

theorem sign_lt (d : Int) : sign d = .lt ↔ d < 0 := Std.LawfulCmp.eq_lt_iff_lt

theorem sign_le (d : Int) : (sign d).isLE ↔ d ≤ 0 := Std.LawfulBCmp.isLE_iff_le

theorem zero_compare {y : UInt8} (visible : y ≠ 0) : compare 0 y = .lt := by
  have positive := UInt8.lt_iff_toNat_lt.mp (UInt8.pos_iff_ne_zero.mpr visible)
  rw [← sign_difference, sign_lt]
  exact Int.sub_neg_of_lt (Int.ofNat_lt.mpr positive)

theorem compare_zero {x : UInt8} (visible : x ≠ 0) : compare x 0 = .gt := by
  have turned : compare x 0 = (compare 0 x).swap := Std.OrientedOrd.eq_swap
  rw [turned, zero_compare visible]
  rfl

end NexusOS.StringOrder
