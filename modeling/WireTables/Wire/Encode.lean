import WireTables.Wire.Number
import WireTables.Wire.Fault

/-!
# Encoding

Values are written by following the layout of their structure. Counts, lengths and constants are
not part of a value; they are worked out while writing, and so is the selector of a union unless
the value gives it.
-/

namespace WireTables.Wire

/-- A calculation over a schema that can fail as encoding and decoding do. -/
abbrev Coding := ExceptT Fault (StateM Known)

namespace Coding

/-- A calculation over a schema. -/
def eval (m : Eval α) : Coding α :=
  ExceptT.mk do return (← m.run).mapError Fault.schema

/-- A failure because of a value. -/
def invalid (f : ValueFault) : Coding α :=
  throw (.value f)

end Coding

/-- Numbers of earlier fields, by name. -/
abbrev Locals := List (String × Int)

/-- The structure that a type name denotes. -/
def recordType (s : Schema) (type : String) : Coding Record :=
  match s.recordOf? type with
  | some (_, r) => return r
  | none => throw (.unknownType type)

/-- The union with a name. -/
def unionType (s : Schema) (union : String) : Coding UnionType :=
  match (s.lookup? union).bind TypeEntry.union? with
  | some u => return u
  | none => throw (.unknownType union)

/-- The field after which a structure may end, and the value at which it does. -/
def tailEnd (s : Schema) (type : String) : Coding (Option (String × Int)) := do
  match (← recordType s type).nullTail with
  | some tail => return some (tail.selector, ← Coding.eval (s.constantValue tail.nullValue))
  | none => return none

/-- The structure ends after a field. -/
def endsAfter (tail : Option (String × Int)) (name : String) (locals : Locals) : Bool :=
  match tail with
  | some (selector, null) => selector == name && locals.lookup name == some null
  | none => false

/-- The number that a value is. -/
def integer (type field : String) (v : Value) : Coding Int :=
  match v.word? with
  | some n => return n
  | none => Coding.invalid (.notInteger type field v)

/-- The size of the union member that a selector value chooses. -/
def selectedBytes (s : Schema) (union : String) (selector : Int) : Coding Nat := do
  match ← Coding.eval (selectedLength s union selector) with
  | some n => return n
  | none => Coding.invalid (.noMemberSelected union selector)

/-- The number in an earlier field. -/
def localValue (type : String) (locals : Locals) (field : String) : Coding Int :=
  match locals.lookup field with
  | some n => return n
  | none => throw (.missingField type field)

/-- An array is not longer than its domain allows. -/
def checkMaximum (s : Schema) (type : String) (f : Field) (count : Nat) : Coding Unit :=
  match f.domain.maximum? with
  | none => return ()
  | some text => do
    let maximum ← Coding.eval (s.evaluate text)
    if (count : Int) > maximum then Coding.invalid (.tooMany type f.name count maximum)

/-- An encoding can hold a number. -/
def fitsScalar (s : Scalar) (n : Int) : Bool :=
  let bits := s.bits
  if s.signed then
    let half : Int := Nat.pow 2 (bits - 1)
    64 ≤ bits || (-half ≤ n && n < half)
  else 0 ≤ n && (64 ≤ bits || n < Nat.pow 2 bits)

/-- The bytes of a number. -/
def writeScalar (s : Scalar) (n : Int) : Coding (List UInt8) :=
  if !fitsScalar s n then Coding.invalid (.tooLarge n s.size)
  else if [1, 2, 4, 8].contains s.size then
    return bigEndian s.size (n % Nat.pow 256 s.size).toNat
  else Coding.invalid (.unsupportedSize s.size)

/-- The bytes of list items one after the other. -/
def writeAll (write : Value → Coding (List UInt8)) : List Value → Coding (List UInt8)
  | [] => return []
  | v :: rest => do return (← write v) ++ (← writeAll write rest)

/-- The encoding of a single unsigned byte. -/
def byteScalar : Scalar := ⟨1, false, false⟩

/-- The bytes of an array; `nested` writes structures. -/
def writeArray (nested : String → Value → Coding (List UInt8)) (element : Element) (v : Value) :
    Coding (List UInt8) :=
  let number (s : Scalar) (item : Value) : Coding (List UInt8) := do
    writeScalar s (← integer "array" "element" item)
  match element, v with
  | .byte, .bytes data => return data
  | .byte, .list items => writeAll (number byteScalar) items
  | .scalar s, .list items => writeAll (number s) items
  | .object type, .list items => writeAll (nested type) items
  | _, _ => Coding.invalid (.wrongElements element v)

/-- The bytes of a union value of a concrete type. -/
def writeMember (s : Schema) (nested : String → Value → Coding (List UInt8)) (type : String)
    (v : Value) : Coding (List UInt8) := do
  if s.isRecord type then nested type v
  else
    match s.scalar? type with
    | none => throw (.unknownType type)
    | some scalar => writeScalar scalar (← integer type "value" v)

/-- The selector that a union value determines. -/
def deriveSelector (s : Schema) (steps : List Step) (object : String) (v : Value) :
    Coding Int := do
  match steps.find? (·.field.name == object) with
  | none => throw (.missingObject object)
  | some step =>
    let union := step.field.typeName
    let u ← unionType s union
    let member : Option UnionMember := match v with
      | .union type _ => u.members.find? (·.typeName == type)
      | .null => u.nullMember.bind fun i => u.members[i]?
      | _ => none
    match member with
    | some m => Coding.eval (s.constantValue m.selector)
    | none => Coding.invalid (.noMemberFor union v)

/-- The number of elements that an array has to have, where that is known before it is read. -/
def requiredLength (s : Schema) (type : String) (locals : Locals) :
    ArrayLength → Coding (Option Nat)
  | .fixed n => return some n
  | .selected union selector => do
    return some (← selectedBytes s union (← localValue type locals selector))
  | .tag _ | .rest => return none

/-- The value of a field that has to be there. -/
def fieldValue (type : String) (fields : List (String × Value)) (name : String) : Coding Value :=
  match fields.lookup name with
  | some v => return v
  | none => throw (.missingField type name)

/-- The bytes of an array field. -/
def encodeArray (s : Schema) (nested : String → Value → Coding (List UInt8)) (type : String)
    (f : Field) (locals : Locals) (element : Element) (length : ArrayLength) (v : Value) :
    Coding (List UInt8) := do
  match v.length? with
  | none => Coding.invalid (.notArray type f.name)
  | some count =>
    match ← requiredLength s type locals length with
    | some expected =>
      if expected != count then throw (.length (.elementCount type f.name count expected))
    | none => pure ()
    checkMaximum s type f count
    writeArray nested element v

/-- The bytes of one step, and the numbers known after it. -/
def encodeStep (s : Schema) (nested : String → Value → Coding (List UInt8)) (type : String)
    (steps : List Step) (fields : List (String × Value)) (locals : Locals) (step : Step) :
    Coding (List UInt8 × Locals) := do
  let name := step.field.name
  match step.op with
  | .scalar scalar =>
    let n ← integer type name (← fieldValue type fields name)
    return (← writeScalar scalar n, (name, n) :: locals)
  | .object object => return (← nested object (← fieldValue type fields name), locals)
  | .constant scalar value =>
    return (← writeScalar scalar (← Coding.eval (s.evaluate value)), locals)
  | .count scalar array =>
    let n := ((fields.lookup array).bind Value.length?).getD 0
    return (← writeScalar scalar n, (name, (n : Int)) :: locals)
  | .array element length =>
    let v ← fieldValue type fields name
    return (← encodeArray s nested type step.field locals element length v, locals)
  | .sized size object =>
    let body ← nested object (← fieldValue type fields name)
    return ((← writeScalar size body.length) ++ body, locals)
  | .selector scalar object derived =>
    let n ← match fields.lookup name with
      | some v => integer type name v
      | none =>
        if derived then do deriveSelector s steps object (← fieldValue type fields object)
        else throw (.missingField type name)
    return (← writeScalar scalar n, (name, n) :: locals)
  | .union _ _ =>
    match ← fieldValue type fields name with
    | .null => return ([], locals)
    | .union concrete v => return (← writeMember s nested concrete v, locals)
    | _ => Coding.invalid (.notUnion type name)

/-- The bytes of the remaining steps of a structure. -/
def encodeSteps (s : Schema) (nested : String → Value → Coding (List UInt8)) (type : String)
    (steps : List Step) (tail : Option (String × Int)) (fields : List (String × Value)) :
    Locals → List Step → Coding (List UInt8)
  | _, [] => return []
  | locals, step :: rest => do
    let (bytes, locals) ← encodeStep s nested type steps fields locals step
    if endsAfter tail step.field.name locals then return bytes
    else return bytes ++ (← encodeSteps s nested type steps tail fields locals rest)

/-- The bytes of a structure; `nested` writes the structures inside it. -/
def encodeRecord (s : Schema) (nested : String → Value → Coding (List UInt8)) (type : String)
    (v : Value) : Coding (List UInt8) := do
  match v.fields? with
  | none => Coding.invalid (.notStructure type)
  | some fields =>
    let steps ← Coding.eval (layout s type)
    let tail ← tailEnd s type
    encodeSteps s nested type steps tail fields [] steps

/-- The bytes of a structure that is nested at most so many levels deep. -/
def encodeAt (s : Schema) : Nat → String → Value → Coding (List UInt8)
  | 0, type, _ => throw (.endless type)
  | levels + 1, type, v => encodeRecord s (encodeAt s levels) type v

/-- The bytes of a structure. -/
def encode (s : Schema) (type : String) (v : Value) : Coding (List UInt8) :=
  encodeAt s (v.height + 1) type v

end WireTables.Wire
