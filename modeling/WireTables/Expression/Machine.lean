import WireTables.Error

/-!
# Calculating

Expressions are calculated by a machine with two stacks, one of numbers and one of operators and
open parentheses. An operator first applies every operator above the last open parenthesis that
binds at least as tightly, so equal operators group to the left. Every result has to fit a signed
64-bit word.
-/

namespace WireTables

/-- Whether a number fits a signed 64-bit word. -/
def fitsWord (n : Int) : Bool :=
  -0x8000000000000000 ≤ n && n < 0x8000000000000000

/-- A number that fits a signed 64-bit word. -/
def checkedWord (n : Int) : Option Int :=
  if fitsWord n then some n else none

namespace Operator

/-- The value of an operator, where there is one. Division cuts towards zero; a shift count is at
least zero and below 63, and stands for a product with a power of two. -/
def value? (op : Operator) (lhs rhs : Int) : Option Int :=
  match op with
  | add => checkedWord (lhs + rhs)
  | sub => checkedWord (lhs - rhs)
  | mul => checkedWord (lhs * rhs)
  | div => if rhs == 0 then none else checkedWord (lhs.tdiv rhs)
  | shift => if 0 ≤ rhs && rhs < 63 then checkedWord (lhs * Nat.pow 2 rhs.toNat) else none

end Operator

namespace Expression

/-- A token whose names have been replaced by their values. -/
inductive Item where
  | number (value : Int)
  | operator (op : Operator)
  | openParen
  | closeParen
  deriving DecidableEq, Repr

/-- An entry of the operator stack. -/
inductive Pending where
  | operator (op : Operator)
  | openParen
  deriving DecidableEq, Repr

/-- The two stacks, each with its top first. -/
structure Machine where
  numbers : List Int := []
  pending : List Pending := []
  deriving DecidableEq, Repr

/-- Applies an operator to the two topmost numbers. -/
def applyTop (op : Operator) (numbers : List Int) : Except ExpressionFault (List Int) :=
  match numbers with
  | rhs :: lhs :: rest =>
    match op.value? lhs rhs with
    | some value => .ok (value :: rest)
    | none => .error (.noValue lhs op rhs)
  | _ => .error (.missingOperand op)

/-- Applies the pending operators down to the last open parenthesis and takes that off. -/
def close : List Pending → List Int → Except ExpressionFault Machine
  | [], _ => .error .unopened
  | .openParen :: pending, numbers => .ok ⟨numbers, pending⟩
  | .operator op :: pending, numbers => do close pending (← applyTop op numbers)

/-- Applies the pending operators that bind at least as tightly as `op`, then stacks `op`. -/
def push (op : Operator) : List Pending → List Int → Except ExpressionFault Machine
  | [], numbers => .ok ⟨numbers, [.operator op]⟩
  | .openParen :: pending, numbers => .ok ⟨numbers, .operator op :: .openParen :: pending⟩
  | .operator top :: pending, numbers =>
    if top.precedence < op.precedence then
      .ok ⟨numbers, .operator op :: .operator top :: pending⟩
    else do push op pending (← applyTop top numbers)

/-- Applies all pending operators and takes the one number that is left. -/
def finish : List Pending → List Int → Except ExpressionFault Int
  | [], [value] => .ok value
  | [], _ => .error .danglingOperand
  | .openParen :: _, _ => .error .unclosed
  | .operator op :: pending, numbers => do finish pending (← applyTop op numbers)

namespace Machine

/-- Takes in one item. -/
def step (m : Machine) : Item → Except ExpressionFault Machine
  | .number value => .ok { m with numbers := value :: m.numbers }
  | .openParen => .ok { m with pending := .openParen :: m.pending }
  | .closeParen => close m.pending m.numbers
  | .operator op => push op m.pending m.numbers

/-- The value of the whole expression once its items are taken in. -/
def result (m : Machine) : Except ExpressionFault Int :=
  finish m.pending m.numbers

end Machine

end Expression

end WireTables
