/-!
# How a field travels

The ways in which one field of a structure is put on the wire. Some fields describe a sibling, such
as the count of an array; the two name each other.
-/

namespace WireTables

/-- The wire encoding of a field. -/
inductive Marshal where
  /-- A plain value or a nested structure. -/
  | plain
  /-- Always the single value of the field's domain. -/
  | constant
  /-- A structure whose length in bytes precedes it. -/
  | sizedBody
  /-- The length in bytes of the sized structure that follows. -/
  | bodySize
  /-- The element count of an array. -/
  | count
  /-- An array of constant length. -/
  | fixedArray
  /-- An array whose length its count gives. -/
  | countedArray
  /-- A byte array whose length a selector implies. -/
  | selectedArray
  /-- An array that fills the rest of the enclosing sized region. -/
  | restArray
  /-- The selector of a union. -/
  | selector
  /-- A union value that its selector picks. -/
  | unionBody
  deriving DecidableEq, Repr

namespace Marshal

/-- The name of an encoding in listings and messages. -/
def label : Marshal → String
  | plain => "Normal"
  | constant => "ConstantValue"
  | sizedBody => "SizedStruct"
  | bodySize => "LengthOfStruct"
  | count => "ArrayCount"
  | fixedArray => "FixedLengthArray"
  | countedArray => "VariableLengthArray"
  | selectedArray => "SpecialVariableLengthArray"
  | restArray => "ImplicitLengthArray"
  | selector => "UnionSelector"
  | unionBody => "UnionObject"

/-- All encodings. -/
def all : List Marshal :=
  [plain, constant, sizedBody, bodySize, count, fixedArray, countedArray, selectedArray, restArray,
    selector, unionBody]

/-- The encoding with a given name. -/
def ofLabel? (text : String) : Option Marshal :=
  all.find? (·.label == text)

/-- An encoding of several elements of one type. -/
def isArray : Marshal → Bool
  | fixedArray | countedArray | selectedArray | restArray => true
  | _ => false

/-- An encoding that describes a sibling and carries no data of its own. -/
def isTag : Marshal → Bool
  | count | bodySize | selector => true
  | _ => false

end Marshal

end WireTables
