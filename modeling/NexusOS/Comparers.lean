import NexusOS.DiskImage
import NexusOS.StringOrder

/-!
`strcmp` and `memcmp` of `kernel/libc.c` beside its `strncmp`, and what `strncmp`
reads. The loops compare plain chars for equality only; the sign of what they
return is that of the unsigned order.
-/

namespace NexusOS.Comparers

open ByteMemory StringOrder DiskImage

/-- The loop of `strcmp` for as many passes as there is fuel. -/
def strcmpFrom (m : Memory) (s₁ s₂ : UInt32) : Nat → Option Int
  | 0 => none
  | fuel + 1 =>
      if m s₁ ≠ 0 ∧ m s₁ = m s₂ then strcmpFrom m (s₁ + 1) (s₂ + 1) fuel
      else some ((m s₁).toNat - (m s₂).toNat)

/-- After 2^32 passes both pointers are back where they were: `none` is a loop
that never ends. -/
def strcmp (m : Memory) (s₁ s₂ : UInt32) : Option Int := strcmpFrom m s₁ s₂ (2 ^ 32)

def memcmp (m : Memory) (p₁ p₂ : UInt32) : Nat → Int
  | 0 => 0
  | n + 1 =>
      if m p₁ ≠ m p₂ then (m p₁).toNat - (m p₂).toNat else memcmp m (p₁ + 1) (p₂ + 1) n

/-- The bytes that `strncmp` reads, pass by pass; it reads none once `n` is 0. -/
def strncmpReads (m : Memory) (s₁ s₂ : UInt32) : Nat → List (UInt32 × UInt32)
  | 0 => []
  | n + 1 => (s₁, s₂) :: if m s₁ ≠ 0 ∧ m s₁ = m s₂ then strncmpReads m (s₁ + 1) (s₂ + 1) n else []

variable {m : Memory} {a b : UInt32} {s t : List UInt8}

theorem pass_goes_on {n : Nat} (left : FieldAt m a (n + 1) s) (right : FieldAt m b (n + 1) t)
    (visible : m a ≠ 0) (same : m a = m b) :
    ∃ c rest others, s = c :: rest ∧ t = c :: others ∧
      FieldAt m (a + 1) n rest ∧ FieldAt m (b + 1) n others := by
  cases s with
  | nil => exact absurd left.nil visible
  | cons c rest =>
      cases t with
      | nil => exact absurd (same.trans right.nil) visible
      | cons d others =>
          obtain ⟨here, _, later⟩ := left.cons
          obtain ⟨there, _, after⟩ := right.cons
          have equal : c = d := here.symm.trans (same.trans there)
          exact ⟨c, rest, others, rfl, equal ▸ rfl, later, after⟩

theorem pass_decides {n : Nat} (left : FieldAt m a (n + 1) s) (right : FieldAt m b (n + 1) t)
    (stops : ¬ (m a ≠ 0 ∧ m a = m b)) :
    order (s.take (n + 1)) (t.take (n + 1)) = compare (m a) (m b) := by
  cases s with
  | nil =>
      rw [left.nil]
      cases t with
      | nil =>
          rw [right.nil]
          rfl
      | cons d others =>
          obtain ⟨there, visible, _⟩ := right.cons
          rw [there, zero_compare visible]
          rfl
  | cons c rest =>
      obtain ⟨here, visible, _⟩ := left.cons
      cases t with
      | nil =>
          rw [here, right.nil, compare_zero visible]
          rfl
      | cons d others =>
          obtain ⟨there, _, _⟩ := right.cons
          rw [here, there] at stops ⊢
          exact order_differ (fun same => stops ⟨visible, same⟩) _ _

theorem strncmp_order {n : Nat} (left : FieldAt m a n s) (right : FieldAt m b n t) :
    sign (strncmp m a b n) = order (s.take n) (t.take n) := by
  induction n generalizing a b s t with
  | zero => rfl
  | succ n ih =>
      by_cases goesOn : m a ≠ 0 ∧ m a = m b
      · obtain ⟨c, rest, others, rfl, rfl, later, after⟩ :=
          pass_goes_on left right goesOn.1 goesOn.2
        rw [strncmp, if_pos goesOn, ih later after, List.take_succ_cons, List.take_succ_cons,
          order_same]
      · rw [strncmp, if_neg goesOn, sign_difference, pass_decides left right goesOn]

theorem strncmp_reads {n : Nat} (left : FieldAt m a n s) (right : FieldAt m b n t) :
    ∀ p ∈ strncmpReads m a b n, ∃ k < n, k ≤ s.length ∧ k ≤ t.length ∧
      p = (a + UInt32.ofNat k, b + UInt32.ofNat k) := by
  induction n generalizing a b s t with
  | zero => exact fun p member => absurd member List.not_mem_nil
  | succ n ih =>
      intro p member
      rcases List.mem_cons.mp member with rfl | member
      · refine ⟨0, Nat.succ_pos n, Nat.zero_le _, Nat.zero_le _, ?_⟩
        exact Prod.ext (first_address a).symm (first_address b).symm
      · split at member
        · rename_i goesOn
          obtain ⟨c, rest, others, rfl, rfl, later, after⟩ :=
            pass_goes_on left right goesOn.1 goesOn.2
          obtain ⟨k, inside, short, small, rfl⟩ := ih later after p member
          refine ⟨k + 1, Nat.succ_lt_succ inside, Nat.succ_le_succ short,
            Nat.succ_le_succ small, ?_⟩
          rw [next_address, next_address]
        · exact absurd member List.not_mem_nil

/-- Another memory that holds the same in these bytes is compared the same. -/
theorem strncmp_local {other : Memory} {n : Nat}
    (same : ∀ p ∈ strncmpReads m a b n, other p.1 = m p.1 ∧ other p.2 = m p.2) :
    strncmp other a b n = strncmp m a b n ∧ strncmpReads other a b n = strncmpReads m a b n := by
  induction n generalizing a b with
  | zero => exact ⟨rfl, rfl⟩
  | succ n ih =>
      obtain ⟨here, there⟩ := same (a, b) List.mem_cons_self
      simp only [strncmp, strncmpReads, here, there]
      split
      · rename_i goesOn
        rw [strncmpReads, if_pos goesOn] at same
        obtain ⟨result, reads⟩ := ih fun p member => same p (List.mem_cons_of_mem _ member)
        exact ⟨result, congrArg _ reads⟩
      · exact ⟨rfl, rfl⟩

theorem memcmp_order {n : Nat} (left : Holds m a s) (right : Holds m b t)
    (long : n ≤ s.length) (enough : n ≤ t.length) :
    sign (memcmp m a b n) = order (s.take n) (t.take n) := by
  induction n generalizing a b s t with
  | zero => rfl
  | succ n ih =>
      cases s with
      | nil => exact absurd long (Nat.not_succ_le_zero n)
      | cons c rest =>
          cases t with
          | nil => exact absurd enough (Nat.not_succ_le_zero n)
          | cons d others =>
              rw [memcmp, left.1, right.1, List.take_succ_cons, List.take_succ_cons]
              by_cases same : c = d
              · subst same
                rw [if_neg (not_not_intro rfl), order_same]
                exact ih left.2 right.2 (Nat.le_of_succ_le_succ long)
                  (Nat.le_of_succ_le_succ enough)
              · rw [if_pos same, sign_difference, order_differ same]

theorem strncmp_cut (m : Memory) (a b : UInt32) (n : Nat) :
    strncmp m a b n = (strcmpFrom m a b n).getD 0 := by
  induction n generalizing a b with
  | zero => rfl
  | succ n ih =>
      rw [strncmp, strcmpFrom]
      split
      · exact ih (a + 1) (b + 1)
      · rfl

theorem strcmp_from_swap (m : Memory) (a b : UInt32) (fuel : Nat) :
    strcmpFrom m b a fuel = (strcmpFrom m a b fuel).map fun d => -d := by
  induction fuel generalizing a b with
  | zero => rfl
  | succ fuel ih =>
      have turned : m b ≠ 0 ∧ m b = m a ↔ m a ≠ 0 ∧ m a = m b := by
        constructor
        · rintro ⟨visible, same⟩
          exact ⟨same ▸ visible, same.symm⟩
        · rintro ⟨visible, same⟩
          exact ⟨same ▸ visible, same.symm⟩
      simp only [strcmpFrom, turned]
      split
      · exact ih (a + 1) (b + 1)
      · rw [Option.map_some, Int.neg_sub]

theorem strcmp_from_more {d : Int} {fuel : Nat} (returns : strcmpFrom m a b fuel = some d)
    {more : Nat} (enough : fuel ≤ more) : strcmpFrom m a b more = some d := by
  induction fuel generalizing a b more with
  | zero => cases returns
  | succ fuel ih =>
      cases more with
      | zero => exact absurd enough (Nat.not_succ_le_zero fuel)
      | succ more =>
          rw [strcmpFrom] at returns ⊢
          split
          · rename_i goesOn
            rw [if_pos goesOn] at returns
            exact ih returns (Nat.le_of_succ_le_succ enough)
          · rename_i stops
            rwa [if_neg stops] at returns

theorem strcmp_from_none (m : Memory) (a b : UInt32) (fuel : Nat) :
    strcmpFrom m a b fuel = none ↔ ∀ k < fuel,
      m (a + UInt32.ofNat k) ≠ 0 ∧ m (a + UInt32.ofNat k) = m (b + UInt32.ofNat k) := by
  induction fuel generalizing a b with
  | zero => exact iff_of_true rfl nofun
  | succ fuel ih =>
      rw [strcmpFrom, Nat.forall_lt_succ_left, first_address, first_address]
      split
      · rename_i goesOn
        rw [and_iff_right goesOn, ih]
        simp only [next_address]
      · rename_i stops
        simp [stops]

-- What 2^32 passes do not end, no number of passes ends.
theorem strcmp_none (m : Memory) (a b : UInt32) :
    strcmp m a b = none ↔ ∀ fuel, strcmpFrom m a b fuel = none := by
  constructor
  · intro endless fuel
    have around := (strcmp_from_none m a b _).mp endless
    rw [strcmp_from_none]
    intro k _
    have again : UInt32.ofNat k = UInt32.ofNat (k % 2 ^ 32) := by
      apply UInt32.toNat_inj.mp
      rw [UInt32.toNat_ofNat', UInt32.toNat_ofNat', Nat.mod_mod]
    rw [again]
    exact around (k % 2 ^ 32) (Nat.mod_lt k (Nat.two_pow_pos 32))
  · exact fun endless => endless (2 ^ 32)

theorem strcmp_from_returns {n : Nat} (left : FieldAt m a n s) (right : FieldAt m b n t)
    (shorter : min s.length t.length < n) : ∃ d, strcmpFrom m a b n = some d := by
  induction n generalizing a b s t with
  | zero => exact absurd shorter (Nat.not_lt_zero _)
  | succ n ih =>
      rw [strcmpFrom]
      split
      · rename_i goesOn
        obtain ⟨c, rest, others, rfl, rfl, later, after⟩ :=
          pass_goes_on left right goesOn.1 goesOn.2
        apply ih later after
        simp only [List.length_cons] at shorter
        omega
      · exact ⟨_, rfl⟩

theorem strcmp_returns {n : Nat} (left : FieldAt m a n s) (right : FieldAt m b n t)
    (shorter : min s.length t.length < n) : strcmp m a b = some (strncmp m a b n) := by
  have room : min s.length t.length + 1 ≤ 2 ^ 32 := by
    rcases Nat.le_total s.length t.length with less | more
    · rw [Nat.min_eq_left less] at shorter ⊢
      exact (left.string shorter).short
    · rw [Nat.min_eq_right more] at shorter ⊢
      exact (right.string shorter).short
  obtain ⟨d, returns⟩ := strcmp_from_returns (left.cut shorter) (right.cut shorter)
    (Nat.lt_succ_self _)
  rw [strncmp_cut, strcmp_from_more returns shorter]
  exact strcmp_from_more returns room

theorem strcmp_order (left : StringAt m a s) (right : StringAt m b t) :
    ∃ d, strcmp m a b = some d ∧ sign d = order s t := by
  have behind := Nat.lt_succ_self (min s.length t.length)
  refine ⟨_, strcmp_returns (left.field _) (right.field _) behind, ?_⟩
  rw [strncmp_order (left.field _) (right.field _), order_take behind]

/-- The unsigned lexicographic order of strings is the one order that all three
comparers follow, each as far as it looks. -/
theorem comparers_agree (m : Memory) :
    (∀ a b n s t, FieldAt m a n s → FieldAt m b n t →
      sign (strncmp m a b n) = order (s.take n) (t.take n) ∧
      (∀ p ∈ strncmpReads m a b n, ∃ k < n, k ≤ s.length ∧ k ≤ t.length ∧
        p = (a + UInt32.ofNat k, b + UInt32.ofNat k)) ∧
      (∀ other : Memory, (∀ p ∈ strncmpReads m a b n, other p.1 = m p.1 ∧ other p.2 = m p.2) →
        strncmp other a b n = strncmp m a b n) ∧
      (min s.length t.length < n →
        ∃ d, strcmp m a b = some d ∧ sign (strncmp m a b n) = sign d) ∧
      (n ≤ s.length → n ≤ t.length → sign (strncmp m a b n) = sign (memcmp m a b n))) ∧
    (∀ a b s t, StringAt m a s → StringAt m b t →
      ∃ d, strcmp m a b = some d ∧ strcmp m b a = some (-d) ∧ (d = 0 ↔ s = t)) ∧
    ∀ a b c s t u, StringAt m a s → StringAt m b t → StringAt m c u →
      ∀ d e, strcmp m a b = some d → strcmp m b c = some e →
        ∃ f, strcmp m a c = some f ∧ (d ≤ 0 → e ≤ 0 → f ≤ 0) ∧ (d < 0 → e < 0 → f < 0) := by
  refine ⟨fun a b n s t left right => ⟨?_, ?_, ?_, ?_, ?_⟩, fun a b s t left right => ?_,
    fun a b c s t u first second third d e less more => ?_⟩
  · exact strncmp_order left right
  · exact strncmp_reads left right
  · exact fun other same => (strncmp_local same).1
  · exact fun shorter => ⟨_, strcmp_returns left right shorter, rfl⟩
  · intro long enough
    rw [strncmp_order left right, memcmp_order left.holds right.holds long enough]
  · obtain ⟨d, returns, decides⟩ := strcmp_order left right
    have turned := strcmp_from_swap m a b (2 ^ 32)
    refine ⟨d, returns, turned.trans (congrArg (Option.map _) returns), ?_⟩
    rw [← sign_eq, decides]
    exact Std.LawfulEqCmp.compare_eq_iff_eq
  · obtain ⟨d, returns, lower⟩ := strcmp_order first second
    obtain rfl := Option.some.inj (returns.symm.trans less)
    obtain ⟨e, returns, upper⟩ := strcmp_order second third
    obtain rfl := Option.some.inj (returns.symm.trans more)
    obtain ⟨f, returns, whole⟩ := strcmp_order first third
    refine ⟨f, returns, ?_, ?_⟩
    · simp only [← sign_le, lower, upper, whole]
      exact Std.TransCmp.isLE_trans
    · simp only [← sign_lt, lower, upper, whole]
      exact Std.TransCmp.lt_trans

/-- Behind the common first byte, 0xE9 is above 0x7A as an unsigned byte only. -/
theorem high_byte_is_greater :
    let m : Memory := fun a => [0x61, 0xE9, 0, 0x61, 0x7A, 0].getD (a - 16).toNat 0
    sign (strncmp m 16 19 2) = .gt ∧ ∃ d, strcmp m 16 19 = some d ∧ strcmp m 19 16 = some (-d) := by
  intro m
  have left : StringAt m 16 [0x61, 0xE9] := ⟨by simp, rfl, rfl, rfl, trivial⟩
  have right : StringAt m 19 [0x61, 0x7A] := ⟨by simp, rfl, rfl, rfl, trivial⟩
  have agree := comparers_agree m
  obtain ⟨d, returns, turned, _⟩ := agree.2.1 16 19 _ _ left right
  exact ⟨(agree.1 16 19 2 _ _ (left.field 2) (right.field 2)).1, d, returns, turned⟩

end NexusOS.Comparers
