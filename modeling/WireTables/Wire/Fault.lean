import WireTables.Text.Search
import WireTables.Wire.Layout
import WireTables.Wire.ValueText

/-!
# Failures of encoding and decoding

Why a value cannot be written or bytes cannot be read, and how that is said. A message goes only
as far as the first structure value in it, because the fields of a structure have no order.
-/

namespace WireTables.Wire

/-- A value that is not what its place asks for. -/
inductive ValueFault where
  | notStructure (type : String)
  | notArray (type field : String)
  | notUnion (type field : String)
  | notInteger (type field : String) (value : Value)
  | wrongElements (element : Element) (value : Value)
  | noMemberFor (union : String) (value : Value)
  | noMemberSelected (union : String) (selector : Int)
  | tooMany (type field : String) (count : Nat) (maximum : Int)
  | notConstant (type field : String) (value : Value) (text : String)
  | negativeCount (type field : String)
  | tooLarge (value : Int) (size : Nat)
  | unsupportedSize (size : Nat)

/-- A length that does not fit what there is. -/
inductive LengthFault where
  | trailing (type : String) (count : Nat)
  | elementCount (type field : String) (found expected : Nat)
  | announced (type field : String) (size : Nat)
  | partlyUsed (type field : String) (used size : Nat)
  | tooShort (wanted left : Nat)
  | noProgress (index : Nat)
  deriving DecidableEq, Repr

/-- A failure of encoding or decoding. -/
inductive Fault where
  /-- The bytes end inside a number. -/
  | endOfInput
  | value (fault : ValueFault)
  | unknownType (name : String)
  | missingField (type field : String)
  /-- A selector names a union-typed field that does not exist. -/
  | missingObject (field : String)
  | length (fault : LengthFault)
  | schema (error : Error)
  /-- The end of an announced region is beyond what 64 bits can count. -/
  | regionOverflow (type field : String)
  /-- A structure holds itself without a byte in between. -/
  | endless (type : String)

namespace Element

/-- The short form of an element kind. -/
def short : Element → String
  | byte => "Byte"
  | scalar s =>
    "Scalar(Scalar \x7b size: " ++ toString s.size ++ ", signed: " ++ toString s.signed ++
      ", is_bool: " ++ toString s.isBool ++ " \x7d)"
  | object type => "Object(" ++ Text.quoted type ++ ")"

end Element

namespace ValueFault

/-- The wording of a fault with all of its values. -/
def fullMessage : ValueFault → String
  | notStructure type => type ++ " expects a structure value"
  | notArray type field => type ++ "." ++ field ++ " expects an array"
  | notUnion type field => type ++ "." ++ field ++ " expects a union value"
  | notInteger type field value =>
    type ++ "." ++ field ++ " expects an integer, got " ++ value.short
  | wrongElements element value => "array of " ++ element.short ++ " cannot hold " ++ value.short
  | noMemberFor union value => union ++ " has no member for " ++ value.short
  | noMemberSelected union selector =>
    union ++ ": no member for selector " ++ Text.hexWord selector
  | tooMany type field count maximum =>
    type ++ "." ++ field ++ ": " ++ toString count ++ " elements exceed maximum " ++
      toString maximum
  | notConstant type field value text =>
    type ++ "." ++ field ++ ": " ++ value.short ++ " is not the constant " ++ text
  | negativeCount type field => type ++ "." ++ field ++ ": negative count"
  | tooLarge value size => toString value ++ " does not fit in " ++ toString size ++ " bytes"
  | unsupportedSize size => "unsupported scalar size " ++ toString size

/-- The wording of a fault up to the first structure value in it. -/
def message (f : ValueFault) : String :=
  let start := "Struct(\x7b"
  match Text.beforeChars? start.toList f.fullMessage.toList with
  | some before => String.ofList before ++ start ++ "..."
  | none => f.fullMessage

end ValueFault

namespace LengthFault

/-- The wording of a fault. -/
def message : LengthFault → String
  | trailing type count => type ++ ": " ++ toString count ++ " trailing bytes"
  | elementCount type field found expected =>
    type ++ "." ++ field ++ ": " ++ toString found ++ " elements, expected " ++ toString expected
  | announced type field size => type ++ "." ++ field ++ ": " ++ toString size ++ " bytes announced"
  | partlyUsed type field used size =>
    type ++ "." ++ field ++ ": " ++ toString used ++ " of " ++ toString size ++ " bytes used"
  | tooShort wanted left => toString wanted ++ " bytes wanted, " ++ toString left ++ " left"
  | noProgress index =>
    "element " ++ toString index ++ " of an implicit-length array consumed no bytes"

end LengthFault

namespace Fault

/-- The wording of a failure. -/
def message : Fault → String
  | endOfInput => "IO: failed to fill whole buffer"
  | value fault => "Validation: " ++ fault.message
  | unknownType name => "Unknown type: " ++ name
  | missingField type field => "Missing field: " ++ type ++ "." ++ field
  | missingObject field => "Missing field: " ++ field
  | length fault => "Length/count mismatch: " ++ fault.message
  | schema error => "Registry: " ++ error.message
  | regionOverflow type field => "Region of " ++ type ++ "." ++ field ++ " has no end"
  | endless type => "Endless structure: " ++ type

end Fault

end WireTables.Wire
