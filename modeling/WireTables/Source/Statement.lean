import WireTables.Source.Reference
import WireTables.Target.Text

/-!
# Statements that write and read structures

The methods of a structure follow its layout, one statement for each step. The languages differ
only in how a statement is spelled, which a dialect tells.
-/

namespace WireTables.Source

/-- How statements are spelled in a language. -/
structure Dialect where
  /-- What a failure says about where a type was named. -/
  referrer : String
  /-- A field name, changed when it means something else in the language. -/
  fieldName : String → String
  /-- What ends a statement. -/
  statementEnd : String
  /-- What introduces a variable. -/
  declaration : String
  /-- The number of elements of an array that may be absent. -/
  lengthOf : String → String
  /-- Writes a union value. -/
  writeUnion : String → String
  /-- Reads a union value if there is one. -/
  readUnion : String → String
  /-- Ends a method when two values are equal. -/
  returnIfEqual : String → String → String

namespace Dialect

/-- The name of a type in the language. -/
def typeName (d : Dialect) (s : Schema) (type : String) : Except Error String := do
  return (← s.require type d.referrer).name

/-- A field of an object. -/
def member (d : Dialect) (object field : String) : String :=
  object ++ "." ++ d.fieldName field

/-- A call on the buffer. -/
def call (d : Dialect) (method : String) (arguments : List String) : String :=
  "buf." ++ method ++ "(" ++ ", ".intercalate arguments ++ ")" ++ d.statementEnd

/-- Writes a number or truth value. -/
def writeScalar (d : Dialect) (s : Scalar) (value : String) : String :=
  if s.isBool then d.call "writeBool" [value]
  else d.call (if s.signed then "writeInt" else "writeNum") [value, toString s.size]

/-- The value of a call that reads a number or truth value. -/
def readScalar (d : Dialect) (s : Scalar) : String :=
  if s.isBool then d.call "readBool" []
  else d.call (if s.signed then "readInt" else "readNum") [toString s.size]

/-- The statement that ends the methods of a structure after a field. -/
def stopAfter (d : Dialect) (s : Schema) (r : Record) (field value : String) :
    Except Error (List String) :=
  match r.nullTail with
  | some tail =>
    if tail.selector == field then do
      return [d.returnIfEqual value (← constantName s tail.nullValue)]
    else .ok []
  | none => .ok []

/-- The statement that writes one field of an object. -/
def writeStep (d : Dialect) (s : Schema) (object : String) (step : Wire.Step) : Eval String := do
  let value := d.member object step.field.name
  match step.op with
  | .scalar scalar => return d.writeScalar scalar value
  | .object _ => return value ++ ".toTpm(buf)" ++ d.statementEnd
  | .union _ _ => return d.writeUnion value
  | .constant scalar text => return d.writeScalar scalar (Target.literal (← s.evaluate text))
  | .count scalar array => return d.writeScalar scalar (d.lengthOf (d.member object array))
  | .array .byte _ => return d.call "writeByteBuf" [value]
  | .array (.scalar scalar) _ => return d.call "writeValArr" [value, toString scalar.size]
  | .array (.object _) _ => return d.call "writeObjArr" [value]
  | .sized size _ => return d.call "writeSizedObj" [value, toString size.size]
  | .selector scalar chosen true =>
    return d.writeScalar scalar (d.member object chosen ++ ".GetUnionSelector()")
  | .selector scalar _ false => return d.writeScalar scalar value

/-- The statements that write an object. -/
def writeStatements (d : Dialect) (s : Schema) (t : TypeEntry) (r : Record) (object : String) :
    Eval (List String) := do
  let statements ← (← Wire.layout s t.specName).mapM fun step => do
    let statement ← d.writeStep s object step
    let stop ← Eval.ofExcept
      (d.stopAfter s r step.field.name (d.member object step.field.name))
    return statement :: stop
  return statements.flatten

/-- Where the values of earlier fields are found. -/
abbrev Places := List (String × String)

/-- The value of an earlier field. -/
def place (d : Dialect) (object : String) (places : Places) (field : String) : String :=
  (places.lookup field).getD (d.member object field)

/-- The number of elements of an array that is being read. -/
def lengthText (d : Dialect) (s : Schema) (object : String) (places : Places) :
    Wire.ArrayLength → Except Error String
  | .tag field => .ok (d.place object places field)
  | .fixed n => .ok (toString n)
  | .rest => .ok "buf.sizedRemaining()"
  | .selected union selector => do
    return sizeFunction (← d.typeName s union) ++ "(" ++ d.place object places selector ++ ")"

/-- The value of a call that reads an array. -/
def readArray (d : Dialect) (s : Schema) (count : String) : Wire.Element → Except Error String
  | .byte => .ok (d.call "readByteBuf" [count])
  | .scalar scalar => .ok (d.call "readValArr" [toString scalar.size, count])
  | .object type => do return d.call "readObjArr" [← d.typeName s type, count]

/-- The statements that read one field of an object, and the places known after them. -/
def readStep (d : Dialect) (s : Schema) (object : String) (places : Places) (step : Wire.Step) :
    Eval (List String × Places) := do
  let name := step.field.name
  let target := d.member object name
  let assign (value : String) : List String := [target ++ " = " ++ value]
  match step.op with
  | .scalar scalar | .selector scalar _ false =>
    return (assign (d.readScalar scalar), (name, target) :: places)
  | .count scalar _ | .selector scalar _ true =>
    let local_ := "_" ++ name
    return ([d.declaration ++ local_ ++ " = " ++ d.readScalar scalar], (name, local_) :: places)
  | .object type =>
    let type ← Eval.ofExcept (d.typeName s type)
    return (assign (d.call "createObj" [type]), places)
  | .constant scalar text =>
    let value := Target.literal (← s.evaluate text)
    return ([d.call "expectNum" [value, toString scalar.size]], places)
  | .array element length =>
    let count ← Eval.ofExcept (d.lengthText s object places length)
    return (assign (← Eval.ofExcept (d.readArray s count element)), places)
  | .sized size type =>
    let type ← Eval.ofExcept (d.typeName s type)
    return (assign (d.call "createSizedObj" [type, toString size.size]), places)
  | .union union selector =>
    let make := factory (← Eval.ofExcept (d.typeName s union))
    let made := make ++ "(" ++ d.place object places selector ++ ")" ++ d.statementEnd
    return (assign made ++ [d.readUnion target], places)

/-- The statements that read the remaining fields of an object. -/
def readSteps (d : Dialect) (s : Schema) (r : Record) (object : String) :
    Places → List Wire.Step → Eval (List String)
  | _, [] => return []
  | places, step :: rest => do
    let (statements, places) ← d.readStep s object places step
    let stop ← Eval.ofExcept
      (d.stopAfter s r step.field.name (d.member object step.field.name))
    return statements ++ stop ++ (← d.readSteps s r object places rest)

/-- The statements that read an object. -/
def readStatements (d : Dialect) (s : Schema) (t : TypeEntry) (r : Record) (object : String) :
    Eval (List String) := do
  d.readSteps s r object [] (← Wire.layout s t.specName)

/-- The selectors of a union with the structures that they choose. -/
def factoryCases (d : Dialect) (s : Schema) (u : UnionType) :
    Except Error (List (String × String)) :=
  (u.members.filter fun m => s.isRecord m.typeName).mapM fun m => do
    return (← constantName s m.selector, ← d.typeName s m.typeName)

/-- The names of the unions that a structure is a member of, in order. -/
def unionNames (d : Dialect) (s : Schema) (r : Record) : Except Error (List String) := do
  return sortedNames (← r.memberOf.mapM fun (union, _) => d.typeName s union)

end Dialect

end WireTables.Source
