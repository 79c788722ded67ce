import WireTables.Config
import WireTables.Schema.Registry
import WireTables.Text.Search

/-!
# A type for each selector

Union members get types of their own, so that the type of a value tells its selector. A further
name of a structure becomes a structure derived from it; members that share a type under several
selectors each get a structure derived from that type and named after the selector.
-/

namespace WireTables

namespace Edit

/-- Turns a further name of a structure into a structure derived from it, placed after its base. -/
def deriveFromAlias (name : String) : Edit Unit := do
  let s ← schema
  let base ← ofExcept (s.target name)
  let errorCode := ((s.lookup? name).bind TypeEntry.alias?).bind AliasType.errorCode
  let derived : Record := { base := some base.specName, errorCode }
  update (·.modifyType name ({ · with kind := .record derived }))
  tryUpdate (·.ensureAfter name base.specName)

/-- A union member that gets a type of its own. -/
structure Renaming where
  index : Nat
  shared : String
  derived : String

/-- Adds the derived structure unless its name is taken, after those derived from the same type
before it; the result tells after which type the next one goes. -/
def addDerived (union : String) (anchors : List (String × String)) (r : Renaming) :
    Edit (List (String × String) × Nat) := do
  let isNew := !(← schema).contains r.derived
  if isNew then
    let anchor := (anchors.lookup r.shared).getD r.shared
    let entry := TypeEntry.new r.derived (.record { base := some r.shared })
      (r.shared ++ " for " ++ r.derived)
    tryUpdate (·.addType entry (some anchor))
  update (·.modifyType union (·.mapUnion fun u =>
    { u with members := u.members.modify r.index ({ · with typeName := r.derived }) }))
  return if isNew then ((r.shared, r.derived) :: anchors, 1) else (anchors, 0)

/-- Adds derived structures one after the other and gives their number. -/
def addAllDerived (union : String) : List (String × String) → List Renaming → Edit Nat
  | _, [] => return 0
  | anchors, r :: rest => do
    let (anchors, count) ← addDerived union anchors r
    return count + (← addAllDerived union anchors rest)

end Edit

namespace UnionType

/-- The types of more than one member, each with the indices of its members. -/
def sharedTypes (u : UnionType) : List (String × List Nat) :=
  let indexed := u.members.zipIdx
  let names := (u.members.map (·.typeName)).eraseDups
  let groups := names.map fun name => (name, (indexed.filter (·.1.typeName == name)).map (·.2))
  groups.filter (·.2.length > 1)

end UnionType

namespace Schema

/-- The name of a type derived for a selector. -/
def derivedName (config : Config) (shared selector : String) : String :=
  shared ++ "_" ++ Text.dropHead config.algPrefix selector

/-- The members of a union that get types of their own, or the failure if a shared type is not a
structure. -/
def renamings (s : Schema) (config : Config) (union : String) (u : UnionType) :
    Except Error (List Edit.Renaming) := do
  let groups ← u.sharedTypes.mapM fun (shared, indices) =>
    if s.isRecord shared then
      .ok (indices.map fun i =>
        (⟨i, shared, derivedName config shared ((u.members[i]?.map (·.selector)).getD "")⟩ :
          Edit.Renaming))
    else .error (.unionCollision union (.sharedScalar indices shared))
  return groups.flatten

/-- The further names of structures among the member types of a union. -/
def memberAliases (s : Schema) (u : UnionType) : List String :=
  ((u.members.map (·.typeName)).filter s.isRecordAlias).eraseDups

end Schema

namespace Edit

/-- Gives the members of one union types of their own; the result is the number of new types. -/
def separateUnion (config : Config) (union : String) : Edit Nat := do
  let s ← schema
  match (s.lookup? union).bind TypeEntry.union? with
  | none => return 0
  | some u =>
    let aliases := s.memberAliases u
    aliases.forM deriveFromAlias
    let renamings ← ofExcept ((← schema).renamings config union u)
    return aliases.length + (← addAllDerived union [] renamings)

/-- Gives the members of all unions types of their own. -/
def separateUnions (config : Config) : Edit Nat := do
  let unions := (← schema).unions.map (·.1.specName)
  unions.foldlM (fun count union => do return count + (← separateUnion config union)) 0

end Edit

end WireTables
