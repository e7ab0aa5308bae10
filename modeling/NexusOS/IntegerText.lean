import NexusOS.NumberOps

/-!
Ints as text: `mp_obj_int_formatted` of `py/objint.c`, which fills its buffer from
the end, and `mp_parse_num_integer` of `py/parsenum.c`, called without a lexer, which
stops at the first value beyond the small ints.
-/

namespace NexusOS.IntegerText

open SignedWords SmallInt IntegerOps

abbrev Text := List UInt8

def logBase2Floor : List Nat := [0, 1, 1, 2, 2, 2, 2, 3, 3, 3, 3, 3, 3, 3, 3, 4]

/-- One byte more for the sign, and one for the NUL. -/
def mpIntFormatSize (numBits base : Nat) (prefixText : Option Text) (comma : UInt8) : Nat :=
  let numDigits := numBits / logBase2Floor.getD (base - 1) 0 + 1
  let numCommas := if comma ≠ 0 then numDigits / 3 else 0
  numDigits + numCommas + (prefixText.getD []).length + 2

def digitChar (c : Nat) (baseChar : UInt8) : UInt8 :=
  if c ≥ 10 then UInt8.ofNat (c + baseChar.toNat - 10) else UInt8.ofNat (c + 0x30)

/-- `room` is `b - str`, `width` is `last_comma - b`, and `out` is what stands from `b` on. -/
def digitLoop (base : Nat) (baseChar comma : UInt8) : Nat → Nat → Nat → Text → Nat × Text
  | 0, _, _, out => (0, out)
  -- both tests of `b > str` fail after the first byte
  | 1, num, _, out => (0, digitChar (num % base) baseChar :: out)
  | room + 2, num, width, out =>
      let out := digitChar (num % base) baseChar :: out
      let num := num / base
      if num = 0 then (room + 1, out)
      else if comma ≠ 0 ∧ width + 1 = 3 then
        digitLoop base baseChar comma room num 0 (comma :: out)
      else digitLoop base baseChar comma (room + 1) num (width + 1) out

def mpObjIntFormatted (self : Obj) (base : Nat) (prefixText : Option Text)
    (baseChar comma : UInt8) : Text :=
  let value := smallIntValue self
  let num := if value < 0 then -value else value
  let room := mpIntFormatSize 32 base prefixText comma - 1
  let digits :=
    if num = 0 then (room - 1, [0x30])
    else digitLoop base baseChar comma room num.toUInt32.toNat 0 []
  let text := prefixText.getD []
  let marked :=
    if digits.1 > text.length then (digits.1 - text.length, text ++ digits.2) else digits
  if value < 0 ∧ marked.1 > 0 then 0x2D :: marked.2 else marked.2

def isSpace (c : UInt8) : Bool := c == 0x20 || (0x09 ≤ c && c ≤ 0x0D)

/-- The bytes to skip, and the base. -/
def mpParseNumBase (str : Text) (base : Nat) : Nat × Nat :=
  let plain := (0, if base = 0 then 10 else base)
  match str with
  | c :: d :: _ =>
      if (base = 0 ∨ base = 16) ∧ c = 0x30 then
        if d ||| 32 = 0x78 then (2, 16)
        else if base = 0 ∧ d ||| 32 = 0x6F then (2, 8)
        else if base = 0 ∧ d ||| 32 = 0x62 then (2, 2)
        else plain
      else if base = 8 ∧ c = 0x30 then if d ||| 32 ≠ 0x6F then (0, 8) else (2, 8)
      else if base = 2 ∧ c = 0x30 then if d ||| 32 ≠ 0x62 then (0, 2) else (2, 2)
      else plain
  | _ => plain

def digitOf (c : UInt8) : Option Nat :=
  if 0x30 ≤ c ∧ c ≤ 0x39 then some (c.toNat - 0x30)
  else if 0x61 ≤ c ||| 0x20 ∧ c ||| 0x20 ≤ 0x7A then some ((c ||| 0x20).toNat - (0x61 - 10))
  else none

inductive Scan where
  | stopped (intVal : Int32) (rest : Text)
  | overflow

def scanDigits (base : Nat) : Text → Int32 → Scan
  | [], intVal => .stopped intVal []
  | c :: rest, intVal =>
      if c = 0x5F then scanDigits base rest intVal
      else
        match digitOf c with
        | none => .stopped intVal (c :: rest)
        | some dig =>
            if dig ≥ base then .stopped intVal (c :: rest)
            else if smallIntMulOverflow intVal (Int32.ofNat base) then .overflow
            else
              let next := intVal * Int32.ofNat base + Int32.ofNat dig
              if smallIntFits next then scanDigits base rest next else .overflow

def radixRefused : Exc := ⟨.valueError, "int() arg 2 must be >= 2 and <= 36"⟩

def longIntRefused : Exc := ⟨.overflowError, "long int not supported in this build"⟩

def invalidSyntax (base : Nat) (shown : String) : Exc :=
  ⟨.valueError, "invalid syntax for integer with base " ++ toString base ++ ": " ++ shown⟩

/-- From `str_val_start` on; `quoted` is what `mp_str_print_quoted` prints. -/
def parseDigits (quoted : Text → String) (base : Nat) (neg : Bool) (digits : Text) : Outcome :=
  match scanDigits base digits 0 with
  | .overflow => .raised longIntRefused
  | .stopped intVal rest =>
      if rest.length = digits.length ∨ rest.dropWhile isSpace ≠ [] then
        .raised (invalidSyntax base (quoted digits))
      else .value (newSmallInt (if neg then -intVal else intVal))

def mpParseNumInteger (quoted : Text → String) (str : Text) (base : Nat) : Outcome :=
  if base ≠ 0 ∧ base < 2 ∨ base > 36 then .raised radixRefused
  else
    let start := str.dropWhile isSpace
    let neg := start.head? == some 0x2D
    let unsigned := if start.head? == some 0x2B || neg then start.drop 1 else start
    let radix := mpParseNumBase unsigned base
    parseDigits quoted radix.2 neg (unsigned.drop radix.1)

/-- The scan over the unbounded numbers. -/
def readDigits (base : Nat) : Text → Nat → Nat × Text
  | [], n => (n, [])
  | c :: rest, n =>
      if c = 0x5F then readDigits base rest n
      else
        match digitOf c with
        | none => (n, c :: rest)
        | some dig => if dig ≥ base then (n, c :: rest) else readDigits base rest (n * base + dig)

/-- The scan gives up at the first value that is no small int. -/
def bounded (read : Nat × Text) : Scan :=
  if read.1 < 2 ^ 30 then .stopped (Int32.ofNat read.1) read.2 else .overflow

section Scanning
variable {base : Nat}

theorem read_grows (positive : 0 < base) (text : Text) (n : Nat) :
    n ≤ (readDigits base text n).1 := by
  induction text generalizing n with
  | nil => exact Nat.le_refl n
  | cons c rest ih =>
    rw [readDigits]
    split
    · exact ih n
    · split
      · exact Nat.le_refl n
      · split
        · exact Nat.le_refl n
        · exact (Nat.le_mul_of_pos_right n positive).trans
            ((Nat.le_add_right _ _).trans (ih _))

-- One digit: the product is checked before it is taken, the sum after.
theorem next_exact {n dig : Nat} (high : base ≤ 36) (below : n < 2 ^ 30) (digit : dig < base) :
    if n * base + dig < 2 ^ 30 then
      ¬ smallIntMulOverflow (Int32.ofNat n) (Int32.ofNat base) = true ∧
        Int32.ofNat n * Int32.ofNat base + Int32.ofNat dig = Int32.ofNat (n * base + dig) ∧
        smallIntFits (Int32.ofNat (n * base + dig)) = true
    else smallIntMulOverflow (Int32.ofNat n) (Int32.ofNat base) = true ∨
      ¬ smallIntFits (Int32.ofNat n * Int32.ofNat base + Int32.ofNat dig) = true := by
  have front : (Int32.ofNat n).toInt = n := Int32.toInt_ofNat_of_lt (by omega)
  have radix : (Int32.ofNat base).toInt = base := Int32.toInt_ofNat_of_lt (by omega)
  have last : (Int32.ofNat dig).toInt = dig := Int32.toInt_ofNat_of_lt (by omega)
  have product : (n : Int) * base = (n * base : Nat) := (Int.natCast_mul n base).symm
  have overflows : smallIntMulOverflow (Int32.ofNat n) (Int32.ofNat base) = true ↔
      ¬ Fits (n * base : Nat) := by
    rw [mul_overflow_exact, front, radix, product]
  have sum (small : n * base < 2 ^ 30) :
      (Int32.ofNat n * Int32.ofNat base + Int32.ofNat dig).toInt = (n * base + dig : Nat) := by
    have multiplied := mul_small (mt overflows.mp (not_not.mpr ⟨by omega, by omega⟩))
    rw [front, radix, product] at multiplied
    rw [add_exact (by rw [multiplied.1, last]; omega) (by rw [multiplied.1, last]; omega),
      multiplied.1, last, Nat.cast_add]
  split
  case isTrue top =>
    have whole : (Int32.ofNat (n * base + dig)).toInt = (n * base + dig : Nat) :=
      Int32.toInt_ofNat_of_lt (by omega)
    refine ⟨mt overflows.mp (not_not.mpr ⟨by omega, by omega⟩), ?_, ?_⟩
    · rw [← Int32.toInt_inj, sum (by omega), whole]
    · rw [fits_exact, whole]
      exact ⟨by omega, by omega⟩
  case isFalse top =>
    by_cases small : n * base < 2 ^ 30
    · refine .inr ?_
      rw [fits_exact, sum small, Fits]
      omega
    · refine .inl (overflows.mpr ?_)
      rw [Fits]
      omega

-- Nothing wraps.
theorem scan_exact (low : 0 < base) (high : base ≤ 36) (text : Text) (n : Nat)
    (below : n < 2 ^ 30) :
    scanDigits base text (Int32.ofNat n) = bounded (readDigits base text n) := by
  induction text generalizing n with
  | nil => exact (if_pos below).symm
  | cons c rest ih =>
    rw [scanDigits, readDigits]
    by_cases skipped : c = 0x5F
    · rw [if_pos skipped, if_pos skipped, ih n below]
    · rw [if_neg skipped, if_neg skipped]
      cases digitOf c with
      | none => exact (if_pos below).symm
      | some dig =>
        dsimp only
        by_cases large : dig ≥ base
        · rw [if_pos large, if_pos large]
          exact (if_pos below).symm
        · rw [if_neg large, if_neg large]
          have next := next_exact high below (Nat.lt_of_not_le large)
          split at next
          case isTrue top => rw [if_neg next.1, next.2.1, if_pos next.2.2, ih _ top]
          case isFalse top =>
            have grows := read_grows low rest (n * base + dig)
            have gone : bounded (readDigits base rest (n * base + dig)) = .overflow :=
              if_neg (by omega)
            rw [gone]
            rcases next with product | sum
            · exact if_pos product
            · rw [if_neg sum, ite_self]

end Scanning

/-- A byte that is read as the digit `c`, and as nothing else. -/
def ReadAs (c : Nat) (byte : UInt8) : Prop :=
  digitOf byte = some c ∧ byte ≠ 0x5F ∧ isSpace byte = false ∧ byte ≠ 0x2D ∧ byte ≠ 0x2B ∧
    (c = 0 ∨ byte ≠ 0x30)

instance (c : Nat) (byte : UInt8) : Decidable (ReadAs c byte) :=
  inferInstanceAs (Decidable (_ ∧ _))

section Digits
variable {base : Nat} {baseChar comma : UInt8} (low : 2 ≤ base) (high : base ≤ 16)
  (letters : base ≤ 10 ∨ baseChar = 0x61 ∨ baseChar = 0x41)

theorem lower_digits : ∀ c < 16, ReadAs c (digitChar c 0x61) := by decide

theorem upper_digits : ∀ c < 16, ReadAs c (digitChar c 0x41) := by decide

include high letters in
theorem digit_exact {c : Nat} (small : c < base) : ReadAs c (digitChar c baseChar) := by
  rcases letters with ten | rfl | rfl
  · have plain : digitChar c baseChar = digitChar c 0x61 := by
      rw [digitChar, digitChar, if_neg (by omega), if_neg (by omega)]
    rw [plain]
    exact lower_digits c (by omega)
  · exact lower_digits c (by omega)
  · exact upper_digits c (by omega)

include low high letters in
theorem read_digit (num : Nat) (rest : Text) :
    readDigits base (digitChar (num % base) baseChar :: rest) (num / base) =
      readDigits base rest num := by
  have digit := Nat.mod_lt num (show 0 < base by omega)
  rcases digit_exact high letters digit with ⟨value, notComma, _⟩
  rw [readDigits, if_neg notComma, value]
  dsimp only
  rw [if_neg (by omega), Nat.div_add_mod']

theorem read_separator (num : Nat) (rest : Text) :
    readDigits base (0x5F :: rest) num = readDigits base rest num := by
  rw [readDigits, if_pos rfl]

/-- A scan over `body` has read `num`, and `body` is neither signed nor marked. -/
structure Written (base num : Nat) (body : Text) : Prop where
  reads : ∀ rest, readDigits base (body ++ rest) 0 = readDigits base rest num
  leads : ∃ c more, body = c :: more ∧ isSpace c = false ∧ c ≠ 0x2D ∧ c ≠ 0x2B ∧
    (c ≠ 0x30 ∨ num = 0 ∧ more = [])

include low high letters in
theorem written_zero : Written base 0 [0x30] where
  reads rest := by
    have read := read_digit low high letters 0 rest
    rw [Nat.zero_div, Nat.zero_mod] at read
    exact read
  leads := ⟨0x30, [], rfl, by decide, by decide, by decide, .inr ⟨rfl, rfl⟩⟩

include low high letters in
theorem written_one {num : Nat} (positive : 0 < num) (one : num / base = 0) :
    Written base num [digitChar (num % base) baseChar] := by
  have whole := Nat.div_add_mod num base
  have last : num % base = num := by
    rw [one] at whole
    omega
  rcases digit_exact high letters (Nat.mod_lt num (by omega)) with
    ⟨_, _, space, minus, plus, zero⟩
  refine ⟨fun rest => ?_, _, [], rfl, space, minus, plus,
    .inl (zero.resolve_left (by omega))⟩
  have read := read_digit low high letters num rest
  rw [one] at read
  exact read

theorem Written.append {num next : Nat} {body more : Text} (written : Written base num body)
    (positive : num ≠ 0)
    (reads : ∀ rest, readDigits base (more ++ rest) num = readDigits base rest next) :
    Written base next (body ++ more) := by
  obtain ⟨c, others, rfl, space, minus, plus, zero⟩ := written.leads
  refine ⟨fun rest => ?_, c, others ++ more, rfl, space, minus, plus, .inl ?_⟩
  · rw [List.append_assoc, written.reads, reads]
  · exact zero.resolve_right fun digits => positive digits.1

theorem digit_loop_succ (room num width : Nat) (out : Text) :
    digitLoop base baseChar comma (room + 1) num width out =
      if num / base = 0 then (room, digitChar (num % base) baseChar :: out)
      else if comma ≠ 0 ∧ room > 0 ∧ width + 1 = 3 then
        digitLoop base baseChar comma (room - 1) (num / base) 0
          (comma :: digitChar (num % base) baseChar :: out)
      else
        digitLoop base baseChar comma room (num / base) (width + 1)
          (digitChar (num % base) baseChar :: out) := by
  cases room with
  | zero =>
    rw [if_neg (show ¬ (comma ≠ 0 ∧ 0 > 0 ∧ width + 1 = 3) by omega), digitLoop, ite_self]
    rfl
  | succ room =>
    have third : (comma ≠ 0 ∧ room + 1 > 0 ∧ width + 1 = 3) = (comma ≠ 0 ∧ width + 1 = 3) :=
      propext (and_congr_right fun _ => and_iff_right (Nat.succ_pos room))
    simp only [third]
    rw [digitLoop]
    rfl

/-- The bytes that `k` digits take. -/
def taken (comma : UInt8) (k width : Nat) : Nat :=
  k + if comma ≠ 0 then (k + width - 1) / 3 else 0

include low high letters in
/-- The buffer has room for the digits to come, so it is `num` that ends the loop. -/
theorem digit_loop_exact (separator : comma = 0 ∨ comma = 0x5F) (k : Nat) :
    ∀ (room num width : Nat) (out : Text), 0 < num → num < base ^ k →
      (comma ≠ 0 → width ≤ 2) → taken comma k width ≤ room →
      ∃ body, (digitLoop base baseChar comma room num width out).2 = body ++ out ∧
        Written base num body ∧
        room ≤ (digitLoop base baseChar comma room num width out).1 + taken comma k width := by
  induction k with
  | zero =>
    intro room num width out positive digits _ _
    rw [pow_zero] at digits
    omega
  | succ k ih =>
    intro room num width out positive digits short enough
    have front : num / base < base ^ k := by
      rw [pow_succ, Nat.mul_comm] at digits
      exact Nat.div_lt_of_lt_mul digits
    obtain ⟨room, rfl⟩ : ∃ left, room = left + 1 :=
      ⟨room - 1, by rw [taken] at enough; omega⟩
    rw [digit_loop_succ]
    by_cases last : num / base = 0
    · rw [if_pos last]
      refine ⟨_, rfl, written_one low high letters positive last, ?_⟩
      rw [taken]
      omega
    · have next : 0 < num / base := Nat.pos_of_ne_zero last
      have more : 0 < k := Nat.pos_of_ne_zero fun finished => by
        rw [finished, pow_zero] at front
        exact absurd next (by omega)
      rw [if_neg last]
      clear last
      by_cases third : comma ≠ 0 ∧ room > 0 ∧ width + 1 = 3
      · rw [if_pos third]
        rw [taken, if_pos third.1] at enough
        obtain ⟨body, same, written, left⟩ := ih (room - 1) (num / base) 0
          (comma :: digitChar (num % base) baseChar :: out) next front
          (fun _ => by omega) (by rw [taken, if_pos third.1]; omega)
        refine ⟨body ++ [comma, digitChar (num % base) baseChar], ?_, ?_, ?_⟩
        · rw [same, List.append_assoc]
          rfl
        · refine written.append next.ne' fun rest => ?_
          rw [separator.resolve_left third.1]
          exact (read_separator _ _).trans (read_digit low high letters num rest)
        · rw [taken, if_pos third.1] at left ⊢
          omega
      · rw [if_neg third]
        have width_le : comma ≠ 0 → width + 1 ≤ 2 := fun used => by
          have most := short used
          rw [taken, if_pos used] at enough
          by_contra beyond
          exact third ⟨used, by omega, by omega⟩
        have step : taken comma k (width + 1) + 1 = taken comma (k + 1) width := by
          rw [taken, taken]
          split <;> omega
        obtain ⟨body, same, written, left⟩ := ih room (num / base) (width + 1)
          (digitChar (num % base) baseChar :: out) next front width_le
          (by omega)
        refine ⟨body ++ [digitChar (num % base) baseChar], ?_, ?_, by omega⟩
        · rw [same, List.append_assoc]
          rfl
        · exact written.append next.ne' (read_digit low high letters num)

theorem power_checked : ∀ base < 17, 2 ≤ base →
    2 ^ 30 < base ^ (32 / logBase2Floor.getD (base - 1) 0 + 1) := by decide

theorem unsigned_value {x : Int32} (low : 0 ≤ x.toInt) : (x.toUInt32.toNat : Int) = x.toInt := by
  have whole := signed_value x.toUInt32
  rw [show x.toUInt32.toInt32 = x from rfl] at whole
  have bound := x.toUInt32.toNat_lt
  split at whole <;> omega

theorem magnitude_exact (o : Obj) :
    (if smallIntValue o < 0 then -smallIntValue o else smallIntValue o).toInt =
      (smallIntValue o).toInt.natAbs := by
  have range := value_small o
  rw [Fits] at range
  have sign : smallIntValue o < 0 ↔ (smallIntValue o).toInt < 0 := Int32.lt_iff_toInt_lt
  split
  case isTrue below =>
    have negative := sign.mp below
    rw [neg_exact (by omega)]
    omega
  case isFalse above =>
    have positive := mt sign.mpr above
    omega

include low high letters in
theorem digits_exact (separator : comma = 0 ∨ comma = 0x5F) (o : Obj) (room k : Nat)
    (digits : (smallIntValue o).toInt.natAbs < base ^ k) (more : 0 < k)
    (enough : taken comma k 0 ≤ room) :
    let value := smallIntValue o
    let num := if value < 0 then -value else value
    let written := if num = 0 then (room - 1, [0x30])
      else digitLoop base baseChar comma room num.toUInt32.toNat 0 []
    Written base value.toInt.natAbs written.2 ∧ room ≤ written.1 + taken comma k 0 := by
  intro value num written
  have size : num.toInt = value.toInt.natAbs := magnitude_exact o
  have range := value_small o
  rw [Fits] at range
  change _ ≤ value.toInt ∧ value.toInt < _ at range
  have zeroes : num = 0 ↔ value.toInt.natAbs = 0 := by
    rw [← Int32.toInt_inj, size]
    exact Int.natCast_eq_zero
  have same : num.toUInt32.toNat = value.toInt.natAbs := by
    have unsigned := unsigned_value (x := num) (by rw [size]; exact Int.natCast_nonneg _)
    rw [size] at unsigned
    exact Int.natCast_inj.mp unsigned
  by_cases zero : num = 0
  · have start : written = (room - 1, [0x30]) := if_pos zero
    rw [start, zeroes.mp zero]
    exact ⟨written_zero low high letters, by rw [taken]; omega⟩
  · have start : written = digitLoop base baseChar comma room value.toInt.natAbs 0 [] := by
      rw [← same]
      exact if_neg zero
    obtain ⟨body, out, reads, left⟩ := digit_loop_exact low high letters separator k room
      value.toInt.natAbs 0 [] (Nat.pos_of_ne_zero (mt zeroes.mpr zero)) digits
      (fun _ => by omega) enough
    rw [List.append_nil] at out
    rw [start, out]
    exact ⟨reads, left⟩

include low high letters in
-- The bytes reserved suffice for the digits, the separators, the prefix and the sign.
theorem formatted_exact (separator : comma = 0 ∨ comma = 0x5F) (o : Obj)
    (prefixText : Option Text) :
    ∃ body, Written base (smallIntValue o).toInt.natAbs body ∧
      mpObjIntFormatted o base prefixText baseChar comma =
        (if decide (smallIntValue o < 0) then [0x2D] else []) ++
          (prefixText.getD [] ++ body) := by
  have range := value_small o
  rw [Fits] at range
  have digits := power_checked base (by omega) low
  have size : taken comma (32 / logBase2Floor.getD (base - 1) 0 + 1) 0 +
      (prefixText.getD []).length + 1 ≤ mpIntFormatSize 32 base prefixText comma - 1 := by
    rw [taken, mpIntFormatSize]
    generalize 32 / logBase2Floor.getD (base - 1) 0 + 1 = k
    split <;> omega
  obtain ⟨written, left⟩ := digits_exact low high letters separator o
    (mpIntFormatSize 32 base prefixText comma - 1)
    (32 / logBase2Floor.getD (base - 1) 0 + 1) (by omega) (Nat.succ_pos _) (by omega)
  refine ⟨_, written, ?_⟩
  rw [mpObjIntFormatted, if_pos (show _ > _ by omega)]
  by_cases negative : smallIntValue o < 0
  · rw [decide_eq_true negative, if_pos ⟨negative, by omega⟩]
    rfl
  · rw [decide_eq_false negative, if_neg fun both => negative both.1]
    rfl

end Digits

/-- What the text of a number in `base` starts with, where the base `radix` finds it. -/
def Readable (base : Nat) (mark : Text) (radix : Nat) : Prop :=
  mark = [] ∧ (radix = base ∨ radix = 0 ∧ base = 10) ∨
    (radix = base ∨ radix = 0) ∧ ∃ letter, mark = [0x30, letter] ∧
      (letter ||| 32, base) ∈ [((0x78 : UInt8), 16), (0x6F, 8), (0x62, 2)]

section Reading
variable {base num radix : Nat} {mark body : Text}

theorem num_base_exact (low : 2 ≤ base) (written : Written base num body)
    (readable : Readable base mark radix) :
    mpParseNumBase (mark ++ body) radix = (mark.length, base) := by
  obtain ⟨c, more, rfl, _, _, _, zero⟩ := written.leads
  rcases readable with ⟨rfl, finds⟩ | ⟨finds, letter, rfl, known⟩
  · have plain : (if radix = 0 then 10 else radix) = base := by
      rcases finds with rfl | ⟨rfl, rfl⟩
      · exact if_neg (by omega)
      · rfl
    cases more with
    | nil => exact congrArg (Prod.mk 0) plain
    | cons d more =>
      have marked : c ≠ 0x30 := zero.resolve_right (by rintro ⟨_, ⟨⟩⟩)
      rw [List.nil_append, mpParseNumBase, if_neg fun both => marked both.2,
        if_neg fun both => marked both.2, if_neg fun both => marked both.2, plain]
      rfl
  · simp only [List.mem_cons, Prod.mk.injEq, List.not_mem_nil, or_false] at known
    rw [List.cons_append, List.cons_append, mpParseNumBase]
    rcases known with ⟨value, rfl⟩ | ⟨value, rfl⟩ | ⟨value, rfl⟩ <;>
      rcases finds with rfl | rfl <;> simp [value]

theorem start_exact (written : Written base num body) (readable : Readable base mark radix) :
    ∃ c more, mark ++ body = c :: more ∧ isSpace c = false ∧ c ≠ 0x2D ∧ c ≠ 0x2B := by
  rcases readable with ⟨rfl, _⟩ | ⟨_, letter, rfl, _⟩
  · obtain ⟨c, more, rfl, space, minus, plus, _⟩ := written.leads
    exact ⟨c, more, rfl, space, minus, plus⟩
  · exact ⟨0x30, letter :: body, rfl, by decide, by decide, by decide⟩

theorem parse_digits_exact (quoted : Text → String) (neg : Bool) (low : 0 < base)
    (high : base ≤ 36) (digits : Text) :
    parseDigits quoted base neg digits =
      if 2 ^ 30 ≤ (readDigits base digits 0).1 then .raised longIntRefused
      else if (readDigits base digits 0).2.length = digits.length ∨
          (readDigits base digits 0).2.dropWhile isSpace ≠ [] then
        .raised (invalidSyntax base (quoted digits))
      else .value (newSmallInt (if neg then -Int32.ofNat (readDigits base digits 0).1
        else Int32.ofNat (readDigits base digits 0).1)) := by
  have scanned := scan_exact low high digits 0 (by decide)
  change scanDigits base digits 0 = _ at scanned
  rw [parseDigits, scanned, bounded]
  by_cases top : (readDigits base digits 0).1 < 2 ^ 30
  · rw [if_pos top, if_neg (by omega)]
  · rw [if_neg top, if_pos (by omega)]

theorem parse_written (quoted : Text → String) (neg : Bool) (low : 0 < base) (high : base ≤ 36)
    (written : Written base num body) :
    parseDigits quoted base neg body =
      if num < 2 ^ 30 then
        .value (newSmallInt (if neg then -Int32.ofNat num else Int32.ofNat num))
      else .raised longIntRefused := by
  obtain ⟨c, more, rfl, _⟩ := written.leads
  have read := written.reads []
  rw [List.append_nil, readDigits] at read
  rw [parse_digits_exact quoted neg low high, read]
  by_cases top : num < 2 ^ 30
  · rw [if_pos top, if_neg (by omega)]
    exact if_neg (by rintro (short | spaces) <;> contradiction)
  · rw [if_neg top, if_pos (by omega)]

theorem parsed_exact (quoted : Text → String) (neg : Bool) (low : 2 ≤ base) (high : base ≤ 36)
    (written : Written base num body) (readable : Readable base mark radix) :
    mpParseNumInteger quoted ((if neg then [0x2D] else []) ++ (mark ++ body)) radix =
      if num < 2 ^ 30 then
        .value (newSmallInt (if neg then -Int32.ofNat num else Int32.ofNat num))
      else .raised longIntRefused := by
  obtain ⟨c, more, start, space, minus, plus⟩ := start_exact written readable
  have marked := num_base_exact low written readable
  have known : ¬ (radix ≠ 0 ∧ radix < 2 ∨ radix > 36) := by
    rcases readable with ⟨_, finds⟩ | ⟨finds, _⟩ <;> omega
  rw [mpParseNumInteger, if_neg known, ← parse_written quoted neg (by omega) high written]
  have rest : (mark ++ body).drop mark.length = body := List.drop_left
  cases neg with
  | true =>
    have trimmed : ([0x2D] ++ (mark ++ body)).dropWhile isSpace = 0x2D :: (mark ++ body) :=
      List.dropWhile_cons_of_neg (by decide)
    rw [if_pos rfl, trimmed]
    change parseDigits quoted (mpParseNumBase (mark ++ body) radix).2 true
      ((mark ++ body).drop (mpParseNumBase (mark ++ body) radix).1) = _
    rw [marked, rest]
  | false =>
    have trimmed : (mark ++ body).dropWhile isSpace = mark ++ body := by
      rw [start]
      exact List.dropWhile_cons_of_neg (by rw [space]; decide)
    have unmarked : ((mark ++ body).head? == some 0x2D) = false := by
      rw [start]
      exact beq_false_of_ne fun same => minus (Option.some.inj same)
    have unsigned : ((mark ++ body).head? == some 0x2B) = false := by
      rw [start]
      exact beq_false_of_ne fun same => plus (Option.some.inj same)
    rw [if_neg (by decide), List.nil_append, trimmed]
    dsimp only
    rw [unmarked, unsigned]
    change parseDigits quoted (mpParseNumBase (mark ++ body) radix).2 false
      ((mark ++ body).drop (mpParseNumBase (mark ++ body) radix).1) = _
    rw [marked, rest]

theorem signed_exact (o : Obj) (top : (smallIntValue o).toInt.natAbs < 2 ^ 30) :
    (if decide (smallIntValue o < 0) then -Int32.ofNat (smallIntValue o).toInt.natAbs
      else Int32.ofNat (smallIntValue o).toInt.natAbs) = smallIntValue o := by
  have size : (Int32.ofNat (smallIntValue o).toInt.natAbs).toInt = (smallIntValue o).toInt.natAbs :=
    Int32.toInt_ofNat_of_lt (by omega)
  have sign : smallIntValue o < 0 ↔ (smallIntValue o).toInt < 0 := Int32.lt_iff_toInt_lt
  rw [← Int32.toInt_inj]
  by_cases negative : smallIntValue o < 0
  · have below := sign.mp negative
    rw [decide_eq_true negative, if_pos rfl, neg_exact (by omega), size]
    omega
  · have above := mt sign.mpr negative
    rw [decide_eq_false negative, if_neg (by decide), size]
    omega

/-- The least small int is written out and refused when it is read. -/
theorem formatted_parses {baseChar comma : UInt8} (quoted : Text → String) {o : Obj}
    (small : isSmallInt o = true) (low : 2 ≤ base) (high : base ≤ 16)
    (letters : base ≤ 10 ∨ baseChar = 0x61 ∨ baseChar = 0x41)
    (separator : comma = 0 ∨ comma = 0x5F) (prefixText : Option Text)
    (readable : Readable base (prefixText.getD []) radix) :
    mpParseNumInteger quoted (mpObjIntFormatted o base prefixText baseChar comma) radix =
      if smallIntValue o = smallIntMin then .raised longIntRefused else .value o := by
  obtain ⟨body, written, text⟩ := formatted_exact low high letters separator o prefixText
  have range := value_small o
  rw [Fits] at range
  have least : smallIntValue o = smallIntMin ↔ ¬ (smallIntValue o).toInt.natAbs < 2 ^ 30 := by
    rw [← Int32.toInt_inj, min_value]
    omega
  rw [text, parsed_exact quoted _ low (by omega) written readable]
  by_cases top : (smallIntValue o).toInt.natAbs < 2 ^ 30
  · rw [if_pos top, if_neg fun same => least.mp same top, signed_exact o top, new_value small]
  · rw [if_neg top, if_pos (least.mpr top)]

theorem hex_formatted_parses :
    mpParseNumInteger (fun _ => "") (mpObjIntFormatted (newSmallInt (-31)) 16 (some [0x30, 0x78])
      0x61 0) 0 = .value (newSmallInt (-31)) := by
  rw [formatted_parses _ (by decide) (by decide) (by decide) (.inr (.inl rfl)) (.inl rfl) _
    (.inr ⟨.inr rfl, 0x78, rfl, by decide⟩), if_neg (by decide)]

example : mpObjIntFormatted (newSmallInt (-31)) 16 (some [0x30, 0x78]) 0x61 0 =
    [0x2D, 0x30, 0x78, 0x31, 0x66] := by decide

end Reading

end NexusOS.IntegerText
