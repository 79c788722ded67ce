/-!
# Tokens of constant expressions

Expressions are written over a closed vocabulary: numbers, names of constants, the size of a type,
five binary operators and parentheses.
-/

namespace WireTables

/-- A binary operator. -/
inductive Operator where
  | shift
  | add
  | sub
  | mul
  | div
  deriving DecidableEq, Repr

namespace Operator

/-- How tightly an operator binds; a higher number binds tighter. -/
def precedence : Operator → Nat
  | shift => 1
  | add | sub => 2
  | mul | div => 3

/-- The written form. -/
def symbol : Operator → String
  | shift => "<<"
  | add => "+"
  | sub => "-"
  | mul => "*"
  | div => "/"

end Operator

/-- One token. A number keeps the spelling it was written with. -/
inductive Token where
  | number (value : Int) (text : String)
  | name (text : String)
  | sizeOf (type : String)
  | operator (op : Operator)
  | openParen
  | closeParen
  deriving DecidableEq, Repr

namespace Token

/-- The written form of a token. -/
def spelling : Token → String
  | number _ text => text
  | name text => text
  | sizeOf type => "sizeof(" ++ type ++ ")"
  | operator op => op.symbol
  | openParen => "("
  | closeParen => ")"

end Token

end WireTables
