import WireTables.Domain.Basic
import WireTables.Marshal

/-!
# Types of a schema

The types that tables define: elementary values, further names, enumerations, bitfields,
structures and unions. Types name each other by the name they have in the tables; a second name is
set when the schema is adapted for a language.
-/

namespace WireTables

/-- The encoding of an elementary value: its size in bytes and how the bytes are read. -/
structure Scalar where
  size : Nat
  signed : Bool
  isBool : Bool
  deriving DecidableEq, Repr, Inhabited

namespace Scalar

/-- A single unsigned byte. -/
def isByte (s : Scalar) : Bool :=
  s.size == 1 && !s.signed && !s.isBool

/-- The number of bits. -/
def bits (s : Scalar) : Nat :=
  s.size * 8 % 0x100000000

end Scalar

/-- A further name of a type, with the values that it admits. -/
structure AliasType where
  base : String
  domain : Domain := {}
  /-- A value that is legal only where the type is nullable. -/
  nullValue : Option String := none
  errorCode : Option String := none
  deriving DecidableEq, Repr, Inhabited

/-- Named constants over an underlying type. -/
structure EnumType where
  underlying : String
  /-- The numbers of the constants. -/
  members : List Nat := []
  /-- The table gave no underlying type. -/
  isGroup : Bool := false
  errorCode : Option String := none
  deriving DecidableEq, Repr, Inhabited

/-- Bits of a bitfield, lowest and highest included. -/
structure BitfieldMember where
  name : String
  first : Nat
  last : Nat
  enumType : Option String := none
  comment : String := ""
  deriving DecidableEq, Repr, Inhabited

namespace BitfieldMember

/-- The number of bits. -/
def width (m : BitfieldMember) : Nat :=
  m.last + 1 - m.first

/-- The 64-bit word that has exactly these bits set, as far as it goes. -/
def mask (m : BitfieldMember) : Nat :=
  Nat.pow 2 (min (m.last + 1) 64) - Nat.pow 2 (min m.first 64)

end BitfieldMember

/-- A word whose bits have names, with the constants made from them. -/
structure BitfieldType where
  underlying : String
  members : List BitfieldMember := []
  constants : List Nat := []
  errorCode : Option String := none
  deriving DecidableEq, Repr, Inhabited

/-- A field of a structure. -/
structure Field where
  name : String
  typeName : String
  marshal : Marshal := .plain
  /-- The other field of a pair in which one describes the other. -/
  partner : Option String := none
  domain : Domain := {}
  /-- The length of an array of constant length. -/
  arraySize : Option String := none
  nullable : Bool := false
  requiresAuth : Bool := false
  isHandle : Bool := false
  /-- The field gives the length in bytes of the structure that follows. -/
  sizeMarker : Bool := false
  comment : String := ""
  /-- The type in the target language. -/
  targetType : String := ""
  deriving DecidableEq, Repr

instance : Inhabited Field := ⟨{ name := "", typeName := "" }⟩

/-- The part that a structure plays in a command. -/
inductive RecordRole where
  | plain
  | request (command code : String)
  | response (command : String)
  deriving DecidableEq, Repr, Inhabited

/-- How the first parameter of a command is laid out for encryption: the size of its length and
the size of what is counted. -/
structure SessionPrefix where
  sizeLen : Nat
  valLen : Nat
  deriving DecidableEq, Repr

/-- Everything after the selector is absent when the selector has the null value. -/
structure NullTail where
  selector : String
  nullValue : String
  deriving DecidableEq, Repr

/-- A structure. -/
structure Record where
  fields : List Field := []
  base : Option String := none
  /-- The unions that the structure is a member of, each with its selector there. -/
  memberOf : List (String × String) := []
  role : RecordRole := .plain
  handleCount : Nat := 0
  authHandleCount : Nat := 0
  sessionPrefix : Option SessionPrefix := none
  nullTail : Option NullTail := none
  errorCode : Option String := none
  deriving DecidableEq, Repr, Inhabited

namespace Record

/-- The first field with a name. -/
def field? (r : Record) (name : String) : Option Field :=
  r.fields.find? (·.name == name)

/-- The index of the first field with a name. -/
def fieldIndex? (r : Record) (name : String) : Option Nat :=
  r.fields.findIdx? (·.name == name)

/-- Some union of the structure is chosen by the selector. -/
def selectsUnion (r : Record) (selector : Field) : Bool :=
  r.fields.any fun f => f.marshal == .unionBody && f.partner == some selector.name

/-- The field carries data: it is neither fixed nor determined by a sibling. The selector of a
byte array has nothing to be determined by. -/
def isData (r : Record) (f : Field) : Bool :=
  match f.marshal with
  | .constant | .count | .bodySize => false
  | .selector => !r.selectsUnion f
  | _ => true

/-- The fields that carry data. -/
def dataFields (r : Record) : List Field :=
  r.fields.filter r.isData

/-- The handles of a command. -/
def handles (r : Record) : List Field :=
  r.fields.filter (·.isHandle)

/-- The parameters of a command that are no handles. -/
def parameters (r : Record) : List Field :=
  r.fields.filter (!·.isHandle)

/-- The structure is the request of a command. -/
def isRequest (r : Record) : Bool :=
  match r.role with
  | .request .. => true
  | _ => false

/-- The structure is the response of a command. -/
def isResponse (r : Record) : Bool :=
  match r.role with
  | .response _ => true
  | _ => false

end Record

/-- A member of a union, chosen by a constant. -/
structure UnionMember where
  name : String
  typeName : String
  selector : String
  arraySize : Option String := none
  comment : String := ""
  /-- The type in the target language. -/
  targetType : String := ""
  deriving DecidableEq, Repr, Inhabited

/-- A union. -/
structure UnionType where
  members : List UnionMember := []
  /-- The index of the member that stands for absence. -/
  nullMember : Option Nat := none
  errorCode : Option String := none
  deriving DecidableEq, Repr, Inhabited

namespace UnionType

/-- The first member that a selector chooses. -/
def memberFor? (u : UnionType) (selector : String) : Option UnionMember :=
  u.members.find? (·.selector == selector)

/-- The members other than the one for absence. -/
def present (u : UnionType) : List UnionMember :=
  (u.members.zipIdx.filter fun (_, i) => some i != u.nullMember).map (·.1)

/-- There are members, and each of them is an array. -/
def isArrayUnion (u : UnionType) : Bool :=
  !u.present.isEmpty && u.present.all (·.arraySize.isSome)

end UnionType

/-- What a type is. -/
inductive TypeKind where
  | value (scalar : Scalar)
  | aliasOf (type : AliasType)
  | enum (type : EnumType)
  | bitfield (type : BitfieldType)
  | record (type : Record)
  | union (type : UnionType)
  deriving DecidableEq, Repr, Inhabited

namespace TypeKind

/-- The word for a kind of type in listings. -/
def label : TypeKind → String
  | value _ => "value"
  | aliasOf _ => "typedef"
  | enum _ => "enum"
  | bitfield _ => "bitfield"
  | record _ => "struct"
  | union _ => "union"

/-- The error code of a type. -/
def errorCode : TypeKind → Option String
  | value _ => none
  | aliasOf t => t.errorCode
  | enum t => t.errorCode
  | bitfield t => t.errorCode
  | record t => t.errorCode
  | union t => t.errorCode

end TypeKind

/-- A type with its names. -/
structure TypeEntry where
  /-- The number of the type in order of registration. -/
  id : Nat := 0
  /-- The name in the tables. -/
  specName : String
  /-- The name in the target language. -/
  name : String
  comment : String := ""
  /-- The type is put out; others only serve to derive types from. -/
  implemented : Bool := true
  kind : TypeKind
  deriving DecidableEq, Repr, Inhabited

namespace TypeEntry

/-- A type under its name in the tables. -/
def new (name : String) (kind : TypeKind) (comment : String := "") : TypeEntry :=
  { specName := name, name, kind, comment }

/-- The type as a structure. -/
def record? (t : TypeEntry) : Option Record :=
  match t.kind with
  | .record r => some r
  | _ => none

/-- The type as a union. -/
def union? (t : TypeEntry) : Option UnionType :=
  match t.kind with
  | .union u => some u
  | _ => none

/-- The type as a further name. -/
def alias? (t : TypeEntry) : Option AliasType :=
  match t.kind with
  | .aliasOf a => some a
  | _ => none

/-- The type with its structure changed, if it is one. -/
def mapRecord (f : Record → Record) (t : TypeEntry) : TypeEntry :=
  match t.kind with
  | .record r => { t with kind := .record (f r) }
  | _ => t

/-- The type with its union changed, if it is one. -/
def mapUnion (f : UnionType → UnionType) (t : TypeEntry) : TypeEntry :=
  match t.kind with
  | .union u => { t with kind := .union (f u) }
  | _ => t

end TypeEntry

end WireTables
