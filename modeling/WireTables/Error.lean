import WireTables.Expression.Token
import WireTables.Finding
import WireTables.Language

/-!
# Errors

Every way in which reading, rewriting or printing a schema can fail, as a cause, and the wording
of each cause.
-/

namespace WireTables

/-- What is wrong with an expression or domain text. -/
inductive ExpressionFault where
  /-- No sequence of tokens. -/
  | badTokens
  /-- No domain. -/
  | badDomain
  | hexOutOfRange (text : String)
  | literalOutOfRange (text : String)
  /-- Constants nested deeper than the limit. -/
  | cycle
  | empty
  | unopened
  | unclosed
  | missingOperand (op : Operator)
  | danglingOperand
  /-- A result outside the signed 64-bit range, a bad shift count or a division by zero. -/
  | noValue (lhs : Int) (op : Operator) (rhs : Int)
  deriving DecidableEq, Repr

namespace ExpressionFault

/-- The wording of a fault. -/
def message : ExpressionFault → String
  | badTokens => "syntax"
  | badDomain => "domain syntax"
  | hexOutOfRange text => "hex literal " ++ text ++ " out of range"
  | literalOutOfRange text => "literal " ++ text ++ " out of range"
  | cycle => "constant reference cycle"
  | empty => "empty expression"
  | unopened => "unbalanced ')'"
  | unclosed => "unbalanced '('"
  | missingOperand op => "missing operand for '" ++ op.symbol ++ "'"
  | danglingOperand => "dangling operand"
  | noValue lhs op rhs =>
    toString lhs ++ " " ++ op.symbol ++ " " ++ toString rhs ++ " overflows or divides by zero"

end ExpressionFault

/-- What is wrong with a structure, or with a type where a structure is wanted. -/
inductive StructureFault where
  | aliasCycle
  | baseCycle
  | baseNotStructure (base : String)
  | recursiveSize
  | negativeSize
  | sizeOverflow
  | fieldSizeOverflow (field : String)
  | noArraySize (field : String)
  | noMaximum (field : String)
  | missingPartner (field partner : String)
  | missingSelector (field selector : String)
  | duplicateField (field tag : String)
  | absentField (field : String)
  | notArray (field : String)
  | notUnionType (type : String)
  | noUnionField
  | notUnion
  | notScalar (field type : String)
  | noCounterpart (field : String)
  | missingSize (field : String)
  | noConstantValue (field : String)
  | noLength (field : String)
  | negativeLength (field : String)
  | invalidMemberSize (member : String)
  | invalidMemberArraySize (member : String)
  deriving DecidableEq, Repr

namespace StructureFault

/-- The wording of a fault. -/
def message : StructureFault → String
  | aliasCycle => "typedef chain does not terminate"
  | baseCycle => "base chain does not terminate"
  | baseNotStructure base => "base " ++ base ++ " is not a structure"
  | recursiveSize => "recursive type size"
  | negativeSize => "negative size"
  | sizeOverflow => "structure size overflows"
  | fieldSizeOverflow field => "size of " ++ field ++ " overflows"
  | noArraySize field => field ++ " has no array size"
  | noMaximum field => field ++ " has no maximum element count"
  | missingPartner field partner => field ++ " refers to missing field " ++ partner
  | missingSelector field selector => field ++ " selected by missing field " ++ selector
  | duplicateField field tag => "flattening " ++ field ++ " would duplicate field " ++ tag
  | absentField field => "implicit-length field " ++ field ++ " not present"
  | notArray field => field ++ " is not an array"
  | notUnionType type => type ++ " is not a union"
  | noUnionField => "no union-typed field behind a selector"
  | notUnion => "not a union"
  | notScalar field type => field ++ " (" ++ type ++ ") is not a scalar"
  | noCounterpart field => field ++ " has no counterpart"
  | missingSize field => "missing size of " ++ field
  | noConstantValue field => field ++ " has no constant value"
  | noLength field => field ++ " has no size"
  | negativeLength field => field ++ " has a negative size"
  | invalidMemberSize member => "member " ++ member ++ " has an invalid size"
  | invalidMemberArraySize member => "member " ++ member ++ " has an invalid array size"

end StructureFault

/-- What is wrong with the members of a union. -/
inductive UnionFault where
  | memberNotScalar (member : String)
  | mixedScalars (first second : String)
  | noMember
  /-- Members at the given positions share a type that is no structure. -/
  | sharedScalar (positions : List Nat) (type : String)
  deriving DecidableEq, Repr

namespace UnionFault

/-- The wording of a fault. -/
def message : UnionFault → String
  | memberNotScalar member => "member " ++ member ++ " is not a scalar"
  | mixedScalars first second =>
    "members disagree on value type (" ++ first ++ " vs " ++ second ++ ")"
  | noMember => "no non-null member"
  | sharedScalar positions type =>
    "members [" ++ ", ".intercalate (positions.map toString) ++ "] share non-structure type " ++
      type

end UnionFault

/-- A failure, with what a reader needs to find its place. -/
inductive Error where
  /-- A row that no pattern of its table kind matches. -/
  | unmatchedRow (caption kind : String) (row : Nat) (cells : List String)
  | unknownType (name referrer : String)
  | unresolvedConstant (name : String)
  | expression (text : String) (fault : ExpressionFault)
  | duplicateType (name : String)
  | duplicateConstant (name : String)
  | unionCollision (union : String) (fault : UnionFault)
  | inconsistent (structure_ : String) (fault : StructureFault)
  /-- The checks that follow normalization found errors. -/
  | invariant (findings : List Finding)
  | alreadyAdapted (lang : Language)
  | notAdapted (expected : Language) (found : Option Language)
  /-- A constant and a type size refer to each other in a circle, so no value exists. -/
  | endless (name : String)
  deriving DecidableEq, Repr

namespace Error

/-- The wording of a failure. -/
def message : Error → String
  | unmatchedRow caption kind row cells =>
    "table '" ++ caption ++ "': row " ++ toString row ++ " does not match any " ++ kind ++
      " row pattern: " ++ Text.quotedList cells
  | unknownType name referrer => "unknown type '" ++ name ++ "' referenced by " ++ referrer
  | unresolvedConstant name => "unresolved constant '" ++ name ++ "'"
  | expression text fault => "expression '" ++ text ++ "': " ++ fault.message
  | duplicateType name => "duplicate type '" ++ name ++ "'"
  | duplicateConstant name => "duplicate constant '" ++ name ++ "'"
  | unionCollision union fault => "union " ++ union ++ ": " ++ fault.message
  | inconsistent name fault => "structure " ++ name ++ ": " ++ fault.message
  | invariant findings =>
    "registry invariants violated:\n" ++ "\n".intercalate (findings.map Finding.text)
  | alreadyAdapted lang => "registry is already adapted for " ++ lang.name
  | notAdapted expected found =>
    let other := match found with
      | some lang => lang.name
      | none => "an unadapted registry"
    "backend for " ++ expected.name ++ " needs a registry adapted for it (found " ++ other ++ ")"
  | endless name => "value of '" ++ name ++ "' refers to itself through a type size"

end Error

end WireTables
