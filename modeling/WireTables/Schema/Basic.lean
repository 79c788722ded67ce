import WireTables.Algorithm
import WireTables.Error
import WireTables.Schema.Type

/-!
# Schemas

A schema holds the types of a protocol in the order in which they are put out, its constants, and
its algorithms. Types and constants are found by name; a constant may also be named without the
common start of algorithm names. Names are unique, and a type can only be added at the end or
right after another one.
-/

namespace WireTables

/-- A named constant. Its value is an expression; the constant belongs to the type `owner`. -/
structure Constant where
  specName : String
  /-- The name in the target language. -/
  name : String
  /-- Another name under which the constant stays available. -/
  oldName : Option String := none
  expr : String
  /-- The value as text of the target language. -/
  targetExpr : Option String := none
  /-- The constants whose values had to be written out in that text. -/
  inlined : List String := []
  comment : String := ""
  owner : String := ""
  deriving DecidableEq, Repr, Inhabited

namespace Constant

/-- A constant under its name in the tables. -/
def new (name expr owner comment : String) : Constant :=
  { specName := name, name, expr, owner, comment }

end Constant

/-- The types, constants and algorithms of a protocol. -/
structure Schema where
  /-- The types in the order in which they are put out. -/
  types : List TypeEntry
  constants : Array Constant := #[]
  algorithms : List Algorithm := []
  /-- The common start of the names of algorithm constants. -/
  algPrefix : String := "TPM_ALG_"
  adaptedFor : Option Language := none
  deriving DecidableEq, Repr

namespace Schema

/-- The elementary types that every schema starts with. -/
def elementary : List TypeEntry :=
  let scalar (id : Nat) (name : String) (size : Nat) (signed isBool : Bool) : TypeEntry :=
    { TypeEntry.new name (.value ⟨size, signed, isBool⟩) with id }
  [scalar 0 "BYTE" 1 false false, scalar 1 "UINT8" 1 false false, scalar 2 "INT8" 1 true false,
    scalar 3 "BOOL" 1 false true, scalar 4 "UINT16" 2 false false, scalar 5 "INT16" 2 true false,
    scalar 6 "UINT32" 4 false false, scalar 7 "INT32" 4 true false, scalar 8 "UINT64" 8 false false,
    scalar 9 "INT64" 8 true false]

/-- The schema with the elementary types only. -/
def initial : Schema :=
  { types := elementary }

instance : Inhabited Schema := ⟨initial⟩

/-- The type with a name. -/
def lookup? (s : Schema) (name : String) : Option TypeEntry :=
  s.types.find? (·.specName == name)

/-- The type with a name, or the failure that blames `referrer`. -/
def require (s : Schema) (name referrer : String) : Except Error TypeEntry :=
  match s.lookup? name with
  | some t => .ok t
  | none => .error (.unknownType name referrer)

/-- A type with a name exists. -/
def contains (s : Schema) (name : String) : Bool :=
  (s.lookup? name).isSome

/-- The place of a type in the order in which types are put out. -/
def position? (s : Schema) (name : String) : Option Nat :=
  s.types.findIdx? (·.specName == name)

/-- The names of all types in order. -/
def names (s : Schema) : List String :=
  s.types.map (·.specName)

/-- The types that are put out, in order. -/
def implemented (s : Schema) : List TypeEntry :=
  s.types.filter (·.implemented)

/-- The structures that are put out. -/
def records (s : Schema) : List (TypeEntry × Record) :=
  s.implemented.filterMap fun t => t.record?.map (t, ·)

/-- The unions that are put out. -/
def unions (s : Schema) : List (TypeEntry × UnionType) :=
  s.implemented.filterMap fun t => t.union?.map (t, ·)

/-- A list of types with one more right after an anchor, or at the end without it. -/
def insertAfter (anchor : String) (t : TypeEntry) : List TypeEntry → List TypeEntry
  | [] => [t]
  | u :: rest => if u.specName == anchor then u :: t :: rest else u :: insertAfter anchor t rest

/-- Adds a type at the end, or right after the type `anchor`. -/
def addType (s : Schema) (t : TypeEntry) (anchor : Option String := none) :
    Except Error Schema :=
  if s.contains t.specName then .error (.duplicateType t.specName)
  else
    let t := { t with id := s.types.length }
    match anchor with
    | none => .ok { s with types := s.types ++ [t] }
    | some anchor =>
      if s.contains anchor then .ok { s with types := insertAfter anchor t s.types }
      else .error (.unknownType anchor ("insertion of " ++ t.specName))

/-- Moves a type right after an anchor unless it already comes later. -/
def ensureAfter (s : Schema) (name anchor : String) : Except Error Schema :=
  match s.lookup? name, s.position? name, s.position? anchor with
  | some t, some at_, some anchorAt =>
    if at_ < anchorAt then .ok { s with types := insertAfter anchor t (s.types.eraseIdx at_) }
    else .ok s
  | _, _, _ => .error (.unknownType (name ++ " or " ++ anchor) "reordering")

/-- Changes the type with a name. -/
def modifyType (s : Schema) (name : String) (f : TypeEntry → TypeEntry) : Schema :=
  { s with types := s.types.map fun t => if t.specName == name then f t else t }

/-- Changes the structure with a name, if there is one. -/
def modifyRecord (s : Schema) (name : String) (f : Record → Record) : Schema :=
  s.modifyType name (·.mapRecord f)

/-- The number of the constant with exactly this name. -/
def constantNumber? (s : Schema) (name : String) : Option Nat :=
  s.constants.findIdx? (·.specName == name)

/-- The number of a constant, which may be named without the common start of algorithm names. -/
def resolveConstant? (s : Schema) (name : String) : Option Nat :=
  s.constantNumber? name <|> s.constantNumber? (s.algPrefix ++ name)

/-- The constant that a name stands for. -/
def constant? (s : Schema) (name : String) : Option Constant := do
  s.constants[← s.resolveConstant? name]?

/-- A constant with exactly this name exists. -/
def hasConstant (s : Schema) (name : String) : Bool :=
  (s.constantNumber? name).isSome

/-- Adds a constant. -/
def addConstant (s : Schema) (c : Constant) : Except Error Schema :=
  if s.hasConstant c.specName then .error (.duplicateConstant c.specName)
  else .ok { s with constants := s.constants.push c }

end Schema

end WireTables
