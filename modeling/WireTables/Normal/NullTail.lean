import WireTables.Config
import WireTables.Schema.Registry

/-!
# Absent tails

In a configured structure everything after the selector is absent when the selector is the null
selector. Its union-typed fields become plain values, which works as long as all members of a
union are encoded as one elementary type. Unions that no field is of any more are not put out.
-/

namespace WireTables

namespace Schema

/-- The one elementary type that members of a union are encoded as, given the one found so far. -/
def commonScalar (s : Schema) (union : String) :
    Option String → List UnionMember → Except Error String
  | none, [] => .error (.unionCollision union .noMember)
  | some found, [] => .ok found
  | found, m :: rest =>
    match s.scalarOf? m.typeName with
    | none => .error (.unionCollision union (.memberNotScalar m.name))
    | some (t, _) =>
      match found with
      | some other =>
        if other == t.specName then s.commonScalar union found rest
        else .error (.unionCollision union (.mixedScalars other t.specName))
      | none => s.commonScalar union (some t.specName) rest

/-- A union-typed field, the elementary type that it becomes and its selector. -/
structure TailField where
  field : String
  union : String
  scalar : String
  selector : Option String

/-- The union-typed fields of a structure with the elementary types that they become. -/
def tailFields (s : Schema) (owner : String) (r : Record) : Except Error (List TailField) :=
  (r.fields.filter (·.marshal == .unionBody)).mapM fun f => do
    let t ← s.require f.typeName owner
    match t.union? with
    | none => .error (.inconsistent owner (.notUnionType f.typeName))
    | some u =>
      let scalar ← s.commonScalar f.typeName none u.present
      return { field := f.name, union := f.typeName, scalar, selector := f.partner }

/-- The fields with the first one of a name made plain. -/
def makePlain (name : String) (typeName : Option String) (fields : List Field) : List Field :=
  match fields.findIdx? (·.name == name) with
  | some i => fields.modify i fun f =>
      { f with marshal := .plain, typeName := typeName.getD f.typeName, partner := none }
  | none => fields

/-- The structure with an absent tail. -/
def withNullTail (tail : List TailField) (selector nullValue : String) (r : Record) : Record :=
  let fields := tail.foldl (fun fields t => makePlain t.field (some t.scalar) fields) r.fields
  { r with fields := makePlain selector none fields, nullTail := some ⟨selector, nullValue⟩ }

/-- Some structure has a field of the type. -/
def isFieldType (s : Schema) (type : String) : Bool :=
  s.types.any fun t => match t.record? with
    | some r => r.fields.any (·.typeName == type)
    | none => false

end Schema

namespace Edit

/-- Gives a configured structure an absent tail; the result names the unions of its fields. A
structure that is not there or has one already needs no change. -/
def markNullTail (config : Config) (name : String) : Edit (Option (List String)) := do
  let s ← schema
  match (s.lookup? name).bind TypeEntry.record? with
  | none => return none
  | some r =>
    if r.nullTail.isSome then return none
    let tail ← ofExcept (s.tailFields name r)
    match tail.getLast?.bind (·.selector) with
    | none => throw (.inconsistent name .noUnionField)
    | some selector =>
      update (·.modifyRecord name (Schema.withNullTail tail selector config.nullSelector))
      return some (tail.map (·.union))

/-- Takes a union out of what is put out unless some field is of it. -/
def dropUnusedUnion (union : String) : Edit Unit := do
  if !(← schema).isFieldType union then
    update (·.modifyType union ({ · with implemented := false }))

/-- Gives all configured structures absent tails and gives their number. -/
def markNullTails (config : Config) : Edit Nat := do
  let unions ← config.nullTails.filterMapM (markNullTail config)
  unions.flatten.forM dropUnusedUnion
  return unions.length

end Edit

end WireTables
