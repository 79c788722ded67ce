import WireTables.Schema.Evaluate
import WireTables.Text.Hex

/-!
# Constant values as text

How the value of a constant is written in a target language. A constant that has been written
before is named together with its type; any other one is written as a number.
-/

namespace WireTables.Target

/-- A number as source text, in base sixteen when it is above 255. -/
def literal (value : Int) : String :=
  if value > 0xFF then "0x" ++ Text.hexUpper value.toNat else toString value

/-- A text with the constants whose values it had to write out. -/
structure Rendering where
  text : String := ""
  inlined : List String := []
  deriving DecidableEq, Repr

namespace Rendering

/-- The rendering with more text at its end. -/
def add (r : Rendering) (text : String) : Rendering :=
  { r with text := r.text ++ text }

/-- The rendering with the value of a constant at its end. -/
def addValue (r : Rendering) (lang : Language) (name : String) (value : Int) : Rendering :=
  let note := if lang == .py then "" else " /*" ++ name ++ "*/"
  { text := r.text ++ literal value ++ note, inlined := r.inlined ++ [name] }

end Rendering

/-- An operator with the blanks around it. Division of whole numbers has a sign of its own in one
language. -/
def operatorText (lang : Language) (op : Operator) : String :=
  if op == .div && lang == .py then " // " else " " ++ op.symbol ++ " "

/-- The rendering with a constant at its end: by name if it has been written and has a type, else by
value. -/
def renderConstant (s : Schema) (lang : Language) (processed : List Nat) (r : Rendering)
    (name : String) : Eval Rendering :=
  match s.resolveConstant? name with
  | none => throw (.unresolvedConstant name)
  | some number => do
    let owner := (s.constants[number]?).bind fun c => (s.lookup? c.owner).map (·.name, c.name)
    match owner, processed.contains number with
    | some (owner, member), true => return r.add (owner ++ lang.scopeSeparator ++ member)
    | _, _ => return r.addValue lang name (← s.constantValue name)

/-- The rendering with one more token at its end. -/
def renderToken (s : Schema) (lang : Language) (processed : List Nat) (r : Rendering) :
    Token → Eval Rendering
  | .number _ text => return r.add text
  | .name name => renderConstant s lang processed r name
  | .sizeOf type => return r.add (toString (← s.wireSize type))
  | .operator op => return r.add (operatorText lang op)
  | .openParen => return r.add "("
  | .closeParen => return r.add ")"

/-- An expression in a target language, given the numbers of the constants written before. -/
def render (s : Schema) (lang : Language) (processed : List Nat) (expr : String) :
    Eval Rendering := do
  let tokens ← Schema.faulty expr (Expression.tokens expr)
  tokens.foldlM (renderToken s lang processed) {}

end WireTables.Target
