import WireTables.Expression.Lexer
import WireTables.Expression.Machine
import WireTables.Schema.Resolve

/-!
# Values and sizes

The values of constants and the largest sizes of types ask for each other: an expression may name
constants and the size of a type, and a size depends on the lengths of arrays, which are
expressions. Both are answers to queries, and the answer to one query is found from the answers to
others. Constants may nest up to a limit, and so may types; but a size asked for inside an
expression starts to count anew, so the nesting as a whole is not limited by that: the size of a
type may even be asked for inside itself, and then there is no answer.

A value that has been found once is remembered, also when the calculation that asked for it fails.
-/

namespace WireTables

/-- The values of constants found so far, by the numbers of the constants. -/
abbrev Known := List (Nat × Int)

/-- A calculation that remembers the values of constants. -/
abbrev Eval := ExceptT Error (StateM Known)

namespace Eval

/-- A calculation that does not look at what is remembered. -/
def ofExcept (r : Except Error α) : Eval α :=
  ExceptT.mk (pure r)

/-- The remembered value of a constant. -/
def known? (number : Nat) : Eval (Option Int) := do
  return (← get).lookup number

/-- Remembers the value of a constant, unless there is one already. -/
def remember (number : Nat) (value : Int) : Eval Unit :=
  modify fun known => if (known.lookup number).isSome then known else (number, value) :: known

end Eval

/-- What can be asked of a schema: the value of a constant or the largest size of a type, and how
deep the question is nested in others of its kind. -/
inductive Query where
  | constant (name : String) (depth : Nat)
  | size (type : String) (depth : Nat)
  deriving DecidableEq, Repr

namespace Query

/-- The name that is asked about. -/
def subject : Query → String
  | constant name _ => name
  | size type _ => type

end Query

namespace Schema

/-- A size as a signed 64-bit word. -/
def sizeWord (n : Nat) : Int :=
  Int.bmod n 0x10000000000000000

/-- A token with its name replaced by its value. -/
def item (ask : Query → Eval Int) (depth : Nat) : Token → Eval Expression.Item
  | .number value _ => return .number value
  | .name name => return .number (← ask (.constant name (depth + 1)))
  | .sizeOf type => return .number (← ask (.size type 0))
  | .operator op => return .operator op
  | .openParen => return .openParen
  | .closeParen => return .closeParen

/-- A step of the machine, or the failure that quotes the expression. -/
def faulty (text : String) (r : Except ExpressionFault α) : Eval α :=
  Eval.ofExcept (r.mapError (Error.expression text))

/-- The value of an expression whose names `ask` answers. -/
def evaluateWith (ask : Query → Eval Int) (text : String) (depth : Nat) : Eval Int := do
  if maxDepth < depth then throw (.expression text .cycle)
  let tokens ← faulty text (Expression.tokens text)
  if tokens.isEmpty then throw (.expression text .empty)
  let machine ← tokens.foldlM
    (fun m token => do faulty text (m.step (← item ask depth token)))
    ({} : Expression.Machine)
  faulty text machine.result

/-- The value of a constant, from the answers to further queries. -/
def constantStep (s : Schema) (ask : Query → Eval Int) (name : String) (depth : Nat) :
    Eval Int := do
  match s.resolveConstant? name with
  | none => throw (.unresolvedConstant name)
  | some number =>
    match ← Eval.known? number, s.constants[number]? with
    | some value, _ => return value
    | none, none => throw (.unresolvedConstant name)
    | none, some c =>
      let value ← evaluateWith ask c.expr depth
      Eval.remember number value
      return value

/-- A product that has to fit a signed 64-bit word. -/
def product (a b : Int) (failure : Error) : Eval Int :=
  match checkedWord (a * b) with
  | some n => return n
  | none => throw failure

/-- The largest number of elements of a field. -/
def fieldCount (ask : Query → Eval Int) (owner : String) (f : Field) : Eval Int :=
  match f.marshal with
  | .fixedArray =>
    match f.arraySize with
    | some size => evaluateWith ask size 0
    | none => throw (.inconsistent owner (.noArraySize f.name))
  | .countedArray | .restArray =>
    match f.domain.maximum? with
    | some maximum => evaluateWith ask maximum 0
    | none => throw (.inconsistent owner (.noMaximum f.name))
  | _ => return 1

/-- The largest size of a field. -/
def fieldSizeWith (ask : Query → Eval Int) (owner : String) (depth : Nat) (f : Field) :
    Eval Int := do
  let element ← ask (.size f.typeName (depth + 1))
  let count ← fieldCount ask owner f
  product element count (.inconsistent owner (.fieldSizeOverflow f.name))

/-- The largest size of a union member. -/
def memberSizeWith (ask : Query → Eval Int) (owner : String) (depth : Nat) (m : UnionMember) :
    Eval Int := do
  let count ← match m.arraySize with
    | some size => evaluateWith ask size 0
    | none => pure 1
  let element ← ask (.size m.typeName (depth + 1))
  product element count (.inconsistent owner (.fieldSizeOverflow m.name))

/-- The largest size of a type, from the answers to further queries. -/
def sizeStep (s : Schema) (ask : Query → Eval Int) (name : String) (depth : Nat) : Eval Int := do
  if maxDepth < depth then throw (.inconsistent name .recursiveSize)
  match (← Eval.ofExcept (s.require name "sizeof")).kind with
  | .value v => return sizeWord v.size
  | .aliasOf a => ask (.size a.base (depth + 1))
  | .enum e => ask (.size e.underlying (depth + 1))
  | .bitfield b => ask (.size b.underlying (depth + 1))
  | .record _ =>
    (← Eval.ofExcept (s.allFields name)).foldlM
      (fun total f => do
        match checkedWord (total + (← fieldSizeWith ask name depth f)) with
        | some n => return n
        | none => throw (.inconsistent name .sizeOverflow))
      0
  | .union u =>
    u.present.foldlM (fun largest m => do return max largest (← memberSizeWith ask name depth m)) 0

/-- The answer to a query, from the answers to further queries. -/
def answerStep (s : Schema) (ask : Query → Eval Int) : Query → Eval Int
  | .constant name depth => s.constantStep ask name depth
  | .size type depth => s.sizeStep ask type depth

/-- The answer to a query with at most `nesting` queries inside each other. -/
def answer (s : Schema) : Nat → Query → Eval Int
  | 0, q => throw (.endless q.subject)
  | nesting + 1, q => s.answerStep (s.answer nesting) q

/-- More queries than can be inside each other unless the size of a type is asked for inside itself:
from one size that an expression asks for to the next, types and constants nest as deep as their
limits allow, and no more types than there are come first in that. -/
def nesting (s : Schema) : Nat :=
  (s.types.length + 1) * (2 * maxDepth + 1) + 1

/-- The answer to a query. -/
def ask (s : Schema) (q : Query) : Eval Int :=
  s.answer s.nesting q

/-- The value of an expression. -/
def evaluate (s : Schema) (text : String) : Eval Int :=
  evaluateWith s.ask text 0

/-- The value of a constant. -/
def constantValue (s : Schema) (name : String) : Eval Int :=
  s.ask (.constant name 0)

/-- The largest size of a type in bytes. -/
def wireSize (s : Schema) (name : String) : Eval Nat := do
  let size ← s.ask (.size name 0)
  if size < 0 then throw (.inconsistent name .negativeSize)
  return size.toNat

/-- The largest size of a field in bytes. -/
def fieldSize (s : Schema) (owner : String) (f : Field) : Eval Int :=
  fieldSizeWith s.ask owner 0 f

end Schema

end WireTables
