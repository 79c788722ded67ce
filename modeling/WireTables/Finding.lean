import WireTables.Marshal
import WireTables.Text.Quoted

/-!
# Findings

What a check of a schema can find wrong, where, and how it is said. A finding is an error except
for an enumeration without constants, which is worth a warning only.
-/

namespace WireTables

/-- Why a type was found wrong. -/
inductive FindingCause where
  /-- The only field that points back at a tag is of the wrong kind or not named by the tag. -/
  | wrongCounterpart (partner : String) (found expected : Marshal)
  /-- A tag has none or several fields that point back at it. -/
  | counterpartCount (found : Nat) (expected : Marshal)
  /-- A tagged field without its tag. -/
  | missingTag (expected : Marshal)
  /-- A union-typed field without a selector. -/
  | notSelector (named : Option String)
  /-- Two members of a union denote one type under different selectors. -/
  | typeUsedTwice (concrete otherSelector : String)
  /-- One structure is selected differently in two unions. -/
  | selectedTwice (selector union otherSelector otherUnion : String)
  /-- An enumeration without constants. -/
  | noConstants
  deriving DecidableEq, Repr

/-- One finding: the type, the field if there is one, and the cause. -/
structure Finding where
  typeName : String
  field : Option String
  cause : FindingCause
  deriving DecidableEq, Repr

namespace FindingCause

/-- The rule that a cause breaks. -/
def rule : FindingCause → String
  | wrongCounterpart .. | counterpartCount .. | missingTag .. => "tag-counterpart"
  | notSelector .. => "union-object-selector"
  | selectedTwice .. => "consistent-selector"
  | typeUsedTwice .. => "distinct-union-members"
  | noConstants => "empty-enum"

/-- The cause stops the run. -/
def isError : FindingCause → Bool
  | noConstants => false
  | _ => true

/-- The wording of a cause. -/
def message : FindingCause → String
  | wrongCounterpart partner found expected =>
    "counterpart " ++ partner ++ " is " ++ found.label ++ ", expected " ++ expected.label
  | counterpartCount found expected =>
    toString found ++ " counterparts, expected one " ++ expected.label
  | missingTag expected => "missing " ++ expected.label ++ " tag"
  | notSelector named => "selector " ++ Text.quotedOption named ++ " is not a union selector"
  | typeUsedTwice concrete other => "type " ++ concrete ++ " already used under selector " ++ other
  | selectedTwice selector union otherSelector otherUnion =>
    "selected by " ++ selector ++ " in " ++ union ++ " but by " ++ otherSelector ++ " in " ++
      otherUnion
  | noConstants => "no constants"

end FindingCause

namespace Finding

/-- The full line of a finding. -/
def text (f : Finding) : String :=
  let place := match f.field with
    | some field => f.typeName ++ "." ++ field
    | none => f.typeName
  let severity := if f.cause.isError then "error" else "warning"
  place ++ ": " ++ severity ++ ": " ++ f.cause.message ++ " [" ++ f.cause.rule ++ "]"

end Finding

end WireTables
