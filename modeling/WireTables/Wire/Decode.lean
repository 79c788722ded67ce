import WireTables.Wire.Encode

/-!
# Decoding

Bytes are read by following the layout of their structure. What was read before a failure counts
as read, except that a byte array or a region for which there are not enough bytes is not begun;
a number that is cut off takes all that is left.
-/

namespace WireTables.Wire

/-- The bytes still to be read in a region, how many have been read in it, and the values of
constants found so far. -/
structure Reader where
  left : List UInt8
  position : Nat := 0
  known : Known := []

/-- A reading that keeps its place when it fails. -/
abbrev Reading := ExceptT Fault (StateM Reader)

namespace Reading

/-- A calculation that reads nothing. -/
def coding (m : Coding α) : Reading α :=
  ExceptT.mk fun r =>
    let (result, known) := m.run r.known
    (result, { r with known })

/-- A calculation over a schema. -/
def eval (m : Eval α) : Reading α :=
  coding (Coding.eval m)

/-- A failure because of a value. -/
def invalid (f : ValueFault) : Reading α :=
  throw (.value f)

/-- Takes bytes off; there have to be as many. -/
def skip (count : Nat) : Reading Unit :=
  modify fun r =>
    { r with left := r.left.drop count, position := r.position + min count r.left.length }

/-- The bytes still to be read. -/
def left : Reading (List UInt8) := do
  return (← get).left

/-- Reads bytes that have to be there; otherwise all that is left is used up. -/
def bytes (count : Nat) : Reading (List UInt8) := do
  let available ← left
  skip count
  if available.length < count then throw .endOfInput
  return available.take count

/-- Reads a region of its own; the result tells how much of it was used. -/
def inRegion (region : List UInt8) (m : Reading α) : Reading (Nat × Except Fault α) :=
  ExceptT.mk fun r =>
    let (result, inner) := m.run { left := region, known := r.known }
    (.ok (inner.position, result), { r with known := inner.known })

end Reading

/-- Reads a number or truth value. -/
def readScalar (s : Scalar) : Reading Value := do
  if s.isBool then return .bool ((← Reading.bytes 1) != [0])
  match NumberKind.ofSize? s.size s.signed with
  | some kind => return .number (.ofInt kind (ofBigEndian (← Reading.bytes kind.size)))
  | none => Reading.invalid (.unsupportedSize s.size)

/-- The number that a value is. -/
def readInteger (type field : String) (s : Scalar) : Reading (Value × Int) := do
  let v ← readScalar s
  return (v, ← Reading.coding (integer type field v))

/-- Reads so many elements. -/
def readCount (element : Reading Value) : Nat → Reading (List Value)
  | 0 => return []
  | n + 1 => do
    let v ← element
    return v :: (← readCount element n)

/-- Reads elements until nothing is left; each one has to use some bytes. The number of elements
read before is `index`, and `room` bounds the number of those to come. -/
def readRest (element : Reading Value) (index : Nat) : Nat → Reading (List Value)
  | 0 => return []
  | room + 1 => do
    let before ← Reading.left
    if before.isEmpty then return []
    let v ← element
    if (← Reading.left).length == before.length then throw (.length (.noProgress index))
    return v :: (← readRest element (index + 1) room)

/-- Reads the elements of an array; without a count it takes all that is left. -/
def readElements (element : Reading Value) (count : Option Nat) : Reading Value := do
  match count with
  | some n => return .list (← readCount element n)
  | none => return .list (← readRest element 0 (← Reading.left).length)

/-- Reads an array; without a count it takes all that is left. -/
def readArray (nested : String → Reading Value) (element : Element) (count : Option Nat) :
    Reading Value := do
  match element with
  | .byte =>
    let available := (← Reading.left).length
    let wanted := count.getD available
    if available < wanted then throw (.length (.tooShort wanted available))
    return .bytes (← Reading.bytes wanted)
  | .scalar s => readElements (readScalar s) count
  | .object type => readElements (nested type) count

/-- Reads the union member that a selector value chooses. -/
def readMember (s : Schema) (nested : String → Reading Value) (u : UnionType) (union : String)
    (selector : Int) : List (UnionMember × Nat) → Reading Value
  | [] => Reading.invalid (.noMemberSelected union selector)
  | (m, i) :: rest => do
    if (← Reading.eval (s.constantValue m.selector)) != selector then
      readMember s nested u union selector rest
    else if u.nullMember == some i then return .null
    else if s.isRecord m.typeName then return .union m.typeName (← nested m.typeName)
    else
      match s.scalar? m.typeName with
      | some scalar => return .union m.typeName (← readScalar scalar)
      | none => throw (.unknownType m.typeName)

/-- Reads a union value. -/
def readUnion (s : Schema) (nested : String → Reading Value) (union : String) (selector : Int) :
    Reading Value := do
  let u ← Reading.coding (unionType s union)
  readMember s nested u union selector u.members.zipIdx

/-- The number of elements that an array has. -/
def decodedLength (s : Schema) (type : String) (f : Field) (locals : Locals) :
    ArrayLength → Reading (Option Nat)
  | .tag tag => do
    let n := (locals.lookup tag).getD 0
    if n < 0 then Reading.invalid (.negativeCount type tag)
    Reading.coding (checkMaximum s type f n.toNat)
    return some n.toNat
  | length => Reading.coding (requiredLength s type locals length)

/-- Reads a structure after its length, all of whose bytes it has to use. -/
def readSized (nested : String → Reading Value) (type field : String) (size : Scalar)
    (object : String) : Reading Value := do
  let (_, n) ← readInteger type field size
  let n := (n % 0x10000000000000000).toNat
  let r ← get
  if 0x10000000000000000 ≤ r.position + n then throw (.regionOverflow type field)
  if r.left.length < n then throw (.length (.announced type field n))
  let (used, result) ← Reading.inRegion (r.left.take n) (nested object)
  let value ← ExceptT.mk (pure result)
  if used != n then throw (.length (.partlyUsed type field used n))
  Reading.skip n
  return value

/-- What has been read of a structure: its fields, and the numbers among them and beside them. -/
structure Partial where
  fields : List (String × Value) := []
  locals : Locals := []

namespace Partial

/-- One more field. -/
def put (p : Partial) (name : String) (v : Value) : Partial :=
  { p with fields := Value.putField name v p.fields }

/-- One more number. -/
def note (p : Partial) (name : String) (n : Int) : Partial :=
  { p with locals := (name, n) :: p.locals }

end Partial

/-- Reads one step of a structure. -/
def decodeStep (s : Schema) (nested : String → Reading Value) (type : String) (p : Partial)
    (step : Step) : Reading Partial := do
  let name := step.field.name
  match step.op with
  | .scalar scalar =>
    let (v, n) ← readInteger type name scalar
    return (p.note name n).put name v
  | .object object => return p.put name (← nested object)
  | .constant scalar text =>
    let v ← readScalar scalar
    let expected ← Reading.eval (s.evaluate text)
    let n ← Reading.coding (integer type name v)
    if n != expected then Reading.invalid (.notConstant type name v text)
    return p
  | .count scalar _ =>
    let (_, n) ← readInteger type name scalar
    return p.note name n
  | .array element length =>
    let count ← decodedLength s type step.field p.locals length
    return p.put name (← readArray nested element count)
  | .sized size object => return p.put name (← readSized nested type name size object)
  | .selector scalar _ _ =>
    let (v, n) ← readInteger type name scalar
    return if step.isData then (p.note name n).put name v else p.note name n
  | .union union selector =>
    let n ← Reading.coding (localValue type p.locals selector)
    return p.put name (← readUnion s nested union n)

/-- Reads the remaining steps of a structure. -/
def decodeSteps (s : Schema) (nested : String → Reading Value) (type : String)
    (tail : Option (String × Int)) : Partial → List Step → Reading Partial
  | p, [] => return p
  | p, step :: rest => do
    let p ← decodeStep s nested type p step
    if endsAfter tail step.field.name p.locals then return p
    else decodeSteps s nested type tail p rest

/-- Reads a structure; `nested` reads the structures inside it. -/
def decodeRecord (s : Schema) (nested : String → Reading Value) (type : String) :
    Reading Value := do
  let steps ← Reading.eval (layout s type)
  let tail ← Reading.coding (tailEnd s type)
  return .struct (← decodeSteps s nested type tail {} steps).fields

/-- Reads a structure that is nested at most so many levels deep. -/
def decodeAt (s : Schema) : Nat → String → Reading Value
  | 0, type => throw (.endless type)
  | levels + 1, type => decodeRecord s (decodeAt s levels) type

/-- More levels than structures can be nested in so many bytes: between two bytes each structure
comes at most once. -/
def levels (s : Schema) (byteCount : Nat) : Nat :=
  (byteCount + 1) * (s.types.length + 1) + 1

/-- Reads a structure from the start of some bytes: how many it took, and the value. -/
def decodeExtent (s : Schema) (type : String) (bytes : List UInt8) :
    Known → (Nat × Except Fault Value) × Known :=
  fun known =>
    let (result, r) := (decodeAt s (levels s bytes.length) type).run { left := bytes, known }
    ((r.position, result), r.known)

/-- Reads a structure from bytes all of which it has to take. -/
def decode (s : Schema) (type : String) (bytes : List UInt8) : Coding Value :=
  ExceptT.mk fun known =>
    let ((consumed, result), known) := decodeExtent s type bytes known
    let result := result.bind fun v =>
      if consumed == bytes.length then .ok v
      else .error (.length (.trailing type (bytes.length - consumed)))
    (result, known)

end WireTables.Wire
