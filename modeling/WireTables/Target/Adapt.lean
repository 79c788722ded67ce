import WireTables.Schema.Registry
import WireTables.Target.Name
import WireTables.Target.Text
import WireTables.Text.Search

/-!
# Adapting a registry for a language

Types, constants, values, fields and union members get their names and texts in a target language.
The names of the tables stay as they are, so everything can still be found. A registry is adapted
at most once.
-/

namespace WireTables

namespace Target

/-- The name of a type that is no further name of another. -/
def typeName? (lang : Language) (t : TypeEntry) : Option String :=
  match t.kind with
  | .value _ => lang.scalarName? t.specName
  | .record r =>
    if r.isRequest || r.isResponse then Text.dropHead? "TPM2_" t.specName else none
  | _ => none

/-- The constant with its names in a target language. -/
def renameConstant (c : Constant) : Constant :=
  let name := if c.owner.isEmpty then c.specName else withoutOwner c.specName c.owner
  { c with name, oldName := (Text.dropHead? "TPM_" c.specName).filter (· != name) }

/-- The constants of a type in the order in which they are written. -/
def listedConstants (t : TypeEntry) : List Nat :=
  match t.kind with
  | .enum e => e.members
  | .bitfield b => b.constants
  | _ => []

/-- All constants: those of types in the order of the types, then the others. -/
def constantOrder (s : Schema) : List Nat :=
  let listed := s.types.flatMap listedConstants
  listed ++ (List.range s.constants.size).filter (!listed.contains ·)

/-- The type of an element, or of an array of elements; bytes have an array type of their own. -/
def elementType (s : Schema) (lang : Language) (type : String) (isArray : Bool) :
    Except Error String := do
  let t ← s.require type "adapter"
  if !isArray then return t.name
  match s.scalar? type with
  | some v => return if v.isByte then lang.byteBuffer else lang.arrayOf t.name
  | none => return lang.arrayOf t.name

/-- The type of a field. -/
def fieldType (s : Schema) (lang : Language) (f : Field) : Except Error String :=
  if f.marshal == .selectedArray then .ok lang.byteBuffer
  else elementType s lang f.typeName f.marshal.isArray

/-- The type of a union member. -/
def memberType (s : Schema) (lang : Language) (m : UnionMember) : Except Error String :=
  elementType s lang m.typeName m.arraySize.isSome

/-- The kind of a type with the types of its fields or members filled in. -/
def withTargetTypes (s : Schema) (lang : Language) : TypeKind → Except Error TypeKind
  | .record r => do
    let fields ← r.fields.mapM fun f => do
      return { f with targetType := ← fieldType s lang f }
    return .record { r with fields }
  | .union u => do
    let members ← u.members.mapM fun m => do
      return { m with targetType := ← memberType s lang m }
    return .union { u with members }
  | kind => .ok kind

end Target

namespace Edit

/-- Gives a type its name in the target language. -/
def setTypeName (specName name : String) : Edit Unit :=
  update (·.modifyType specName ({ · with name }))

/-- Names all types; a further name of a type takes the name of what it stands for. -/
def renameTypes (lang : Language) : Edit Unit := do
  let types := (← schema).types
  types.forM fun t =>
    match Target.typeName? lang t with
    | some name => setTypeName t.specName name
    | none => return ()
  types.forM fun t =>
    match t.kind with
    | .aliasOf _ => do
      let target ← ofExcept ((← schema).target t.specName)
      setTypeName t.specName target.name
    | _ => return ()

/-- Writes the value of one constant, given those written before. -/
def renderValue (lang : Language) (processed : List Nat) (number : Nat) : Edit (List Nat) := do
  match (← schema).constants[number]? with
  | none => return processed
  | some c =>
    let r ← calculate fun s => Target.render s lang processed c.expr
    let write (c : Constant) : Constant :=
      { c with targetExpr := some r.text, inlined := r.inlined }
    update fun s => { s with constants := s.constants.modify number write }
    return number :: processed

/-- Writes the values of all constants. -/
def renderValues (lang : Language) : Edit Unit := do
  let _ ← (Target.constantOrder (← schema)).foldlM (renderValue lang) []

/-- Fills in the types of fields and union members. -/
def fillTargetTypes (lang : Language) : Edit Unit := do
  (← schema).types.forM fun t => do
    let kind ← ofExcept (Target.withTargetTypes (← schema) lang t.kind)
    update (·.modifyType t.specName ({ · with kind }))

/-- Adapts a registry for a language. -/
def adapt (lang : Language) : Edit Unit := do
  match (← schema).adaptedFor with
  | some previous => throw (.alreadyAdapted previous)
  | none =>
    renameTypes lang
    update fun s => { s with constants := s.constants.map Target.renameConstant }
    renderValues lang
    fillTargetTypes lang
    update ({ · with adaptedFor := some lang })

end Edit

namespace Registry

/-- An adapted copy of a registry. -/
def adapt (r : Registry) (lang : Language) : Except Error Registry :=
  match (Edit.adapt lang).run r with
  | (.ok (), adapted) => .ok adapted
  | (.error e, _) => .error e

end Registry

end WireTables
