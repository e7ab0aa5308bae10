import NexusOS.NumberOps

/-!
Whole expressions over ints and bools: what the interpreter's operators make of one,
against its value over the unbounded integers.
-/

namespace NexusOS.IntegerExpressions

open SignedWords SmallInt IntegerOps NumberOps

def InBytecode : BinaryOp → Prop
  | .divmod | .contains => False
  | _ => True

inductive Expr where
  | object (o : Obj) (x : Number) (read : numOf o = some x)
  | unary (op : UnaryOp) (e : Expr)
  | binary (op : BinaryOp) (inBytecode : InBytecode op) (lhs rhs : Expr)

/-- An operator meets only objects: any other outcome is that of the expression. -/
def andThen (first : Outcome) (next : Obj → Outcome) : Outcome :=
  match first with
  | .value o => next o
  | other => other

def evaluate : Expr → Outcome
  | .object o _ _ => .value o
  | .unary op e => andThen (evaluate e) (unaryOp op)
  | .binary op _ lhs rhs =>
    andThen (evaluate lhs) fun l => andThen (evaluate rhs) fun r => binaryOp op l r

/-- An answer as the operand of the next operator; no operator answers with a pair. -/
def operand : Answer → Except Exc Number
  | .int n => .ok (.int n)
  | .bool b => .ok (.bool b)
  | .pair q _ => .ok (.int q)
  | .error e => .error e

/-- The value of the language, whose integers have no bounds. -/
def python : Expr → Except Exc Number
  | .object _ x _ => .ok x
  | .unary op e => (python e).bind fun x => operand (unaryAnswer op x)
  | .binary op _ lhs rhs =>
    (python lhs).bind fun x => (python rhs).bind fun y => operand (answer op x y)

def Beyond : Answer → Prop
  | .int n => ¬ Fits n
  | _ => False

/-- Some operator that is reached gives an integer without a word of its own, or shifts
a zero by the width of a word. -/
def Overflows : Expr → Prop
  | .object _ _ _ => False
  | .unary op e => Overflows e ∨ ∃ x, python e = .ok x ∧ Beyond (unaryAnswer op x)
  | .binary op _ lhs rhs =>
    Overflows lhs ∨ ∃ x, python lhs = .ok x ∧ (Overflows rhs ∨
      ∃ y, python rhs = .ok y ∧ (ShiftedOut op x.val y.val ∨ Beyond (answer op x y)))

def Returns (value : Except Exc Number) (first : Outcome) : Prop :=
  match value with
  | .ok x => ∃ o, first = .value o ∧ numOf o = some x
  | .error e => first = .raised e

theorem word_of_int {n : Int} (fits : Fits n) :
    numOf (newSmallInt (Int32.ofInt n)) = some (.int n) := by
  have value : (Int32.ofInt n).toInt = n := by
    rw [Fits] at fits
    exact Int32.toInt_ofInt_of_le (by omega) (by omega)
  rw [num_of_small (new_is_small _), value_new_small (by rwa [value]), value]

theorem settle_returns {a : Answer} (inside : ¬ Beyond a) (single : ∀ q r, a ≠ .pair q r) :
    Returns (operand a) (settle a) := by
  cases a with
  | int n =>
    have fits : Fits n := not_not.mp inside
    exact ⟨_, if_pos fits, word_of_int fits⟩
  | bool b => exact ⟨_, rfl, by cases b <;> decide⟩
  | pair q r => exact absurd rfl (single q r)
  | error e => rfl

theorem settle_beyond {a : Answer} (beyond : Beyond a) : settle a = .raised smallIntOverflow := by
  cases a with
  | int n => exact if_neg beyond
  | bool b => exact beyond.elim
  | pair q r => exact beyond.elim
  | error e => exact beyond.elim

theorem unary_single (op : UnaryOp) (x : Number) (q r : Int) : unaryAnswer op x ≠ .pair q r := by
  cases op <;> exact Answer.noConfusion

theorem binary_single {op : BinaryOp} (inBytecode : InBytecode op) (x y : Number) (q r : Int) :
    answer op x y ≠ .pair q r := by
  have arith : ∀ a m n, integer op a m n ≠ .pair q r := fun a m n => by
    cases a <;> simp only [integer] <;> (try split) <;> exact Answer.noConfusion
  cases op
  case divmod => exact inBytecode.elim
  case inplace a => exact arith a _ _
  case normal a => exact arith a _ _
  all_goals exact Answer.noConfusion

def Agrees (beyond : Prop) (value : Except Exc Number) (out : Outcome) : Prop :=
  (beyond → out = .raised smallIntOverflow) ∧ (¬ beyond → Returns value out)

theorem agrees_then {before : Prop} {value : Except Exc Number} {out : Outcome}
    {beyond : Number → Prop} {meaning : Number → Except Exc Number} {next : Obj → Outcome}
    (first : Agrees before value out)
    (second : ∀ x o, numOf o = some x → Agrees (beyond x) (meaning x) (next o)) :
    Agrees (before ∨ ∃ x, value = .ok x ∧ beyond x) (value.bind meaning) (andThen out next) := by
  by_cases early : before
  · rw [first.1 early]
    exact ⟨fun _ => rfl, fun inside => absurd (.inl early) inside⟩
  have back := first.2 early
  cases value with
  | error e =>
    have raised : out = .raised e := back
    rw [raised]
    refine ⟨?_, fun _ => rfl⟩
    rintro (out | ⟨x, impossible, _⟩)
    · exact absurd out early
    · cases impossible
  | ok x =>
    obtain ⟨o, rfl, read⟩ := back
    have agrees := second x o read
    constructor
    · rintro (out | ⟨y, same, out⟩)
      · exact absurd out early
      · cases same
        exact agrees.1 out
    · intro inside
      exact agrees.2 fun out => inside (.inr ⟨x, rfl, out⟩)

theorem unary_agrees (op : UnaryOp) (x : Number) (o : Obj) (read : numOf o = some x) :
    Agrees (Beyond (unaryAnswer op x)) (operand (unaryAnswer op x)) (unaryOp op o) := by
  rw [unary_exact op read]
  exact ⟨settle_beyond, fun inside => settle_returns inside (unary_single op x)⟩

theorem binary_agrees {op : BinaryOp} (inBytecode : InBytecode op) (x y : Number) (l r : Obj)
    (first : numOf l = some x) (second : numOf r = some y) :
    Agrees (ShiftedOut op x.val y.val ∨ Beyond (answer op x y)) (operand (answer op x y))
      (binaryOp op l r) := by
  rw [binary_exact op l r x y first second, response]
  constructor
  · intro out
    split
    case isTrue => rfl
    case isFalse kept => exact settle_beyond (out.resolve_left kept)
  · intro inside
    rw [if_neg fun out => inside (.inl out)]
    exact settle_returns (fun out => inside (.inr out)) (binary_single inBytecode x y)

/-- No expression silently wraps: it comes back with the value of the language, or with
`OverflowError` exactly where an operator leaves the range. -/
theorem evaluation_exact (e : Expr) :
    (Overflows e → evaluate e = .raised smallIntOverflow) ∧
      (¬ Overflows e → Returns (python e) (evaluate e)) := by
  induction e with
  | object o x read => exact ⟨False.elim, fun _ => ⟨o, rfl, read⟩⟩
  | unary op e ih => exact agrees_then ih (unary_agrees op)
  | binary op inBytecode lhs rhs first second =>
    exact agrees_then first fun x l left =>
      agrees_then second fun y r right => binary_agrees inBytecode x y l r left right

def intLiteral (n : Int) (fits : Fits n) : Expr :=
  .object (newSmallInt (Int32.ofInt n)) (.int n) (word_of_int fits)

/-- `-7 // 2 % 5 - (True << 3)`. -/
def mixedSum : Expr :=
  .binary (.normal .subtract) trivial
    (.binary (.normal .modulo) trivial
      (.binary (.normal .floorDivide) trivial (intLiteral (-7) (by decide))
        (intLiteral 2 (by decide)))
      (intLiteral 5 (by decide)))
    (.binary (.normal .lshift) trivial (.object mpConstTrue (.bool true) (by decide))
      (intLiteral 3 (by decide)))

/-- `3 + abs(-1 << 30)`: the shift still fits, its absolute value does not. -/
def abovePowers : Expr :=
  .binary (.normal .add) trivial (intLiteral 3 (by decide))
    (.unary .abs (.binary (.normal .lshift) trivial (intLiteral (-1) (by decide))
      (intLiteral 30 (by decide))))

theorem nested_evaluated : Returns (.ok (.int (-7))) (evaluate mixedSum) ∧
    evaluate abovePowers = .raised smallIntOverflow := by
  have inside : ¬ Overflows mixedSum := by
    simp [mixedSum, Overflows, intLiteral, python, operand, answer, integer, Beyond, ShiftedOut,
      Number.val, Fits, Except.bind]
  have beyond : Overflows abovePowers :=
    .inr ⟨_, rfl, .inl (.inr ⟨_, rfl, by change ¬ Fits _; decide⟩)⟩
  exact ⟨(evaluation_exact mixedSum).2 inside, (evaluation_exact abovePowers).1 beyond⟩

end NexusOS.IntegerExpressions
