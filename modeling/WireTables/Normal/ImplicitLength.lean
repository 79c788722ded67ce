import WireTables.Normal.Wrapper

/-!
# Implied lengths

Configured arrays fill the rest of the region around them. They lose their count.
-/

namespace WireTables

namespace Schema

/-- The element type and domain of an array field, which may be a wrapper of an array. -/
def arrayPart? (s : Schema) (f : Field) : Option (String × Domain) :=
  if f.marshal == .countedArray then some (f.typeName, f.domain)
  else do
    let (_, r) ← s.recordOf? f.typeName
    let (_, data) ← r.wrapperParts?
    if data.marshal.isArray then some (data.typeName, data.domain) else none

/-- The fields without the count of an array, which takes the rest of its region. -/
def implyLength (field : String) (count : Option String) (element : String) (domain : Domain)
    (fields : List Field) : List Field :=
  let fields : List Field := match count with
    | some count => fields.filter (·.name != count)
    | none => fields
  match fields.findIdx? (·.name == field) with
  | some i => fields.modify i fun f =>
      { f with marshal := .restArray, typeName := element, domain, partner := none }
  | none => fields

end Schema

namespace Edit

/-- Makes one configured field take the rest of its region; gives the number of changes. A structure
that is not there and a field that is so already need no change. -/
def implyLengthOf (ref : FieldRef) : Edit Nat := do
  let s ← schema
  match (s.lookup? ref.record).bind TypeEntry.record? with
  | none => return 0
  | some r =>
    match r.field? ref.field with
    | none => throw (.inconsistent ref.record (.absentField ref.field))
    | some f =>
      if f.marshal == .restArray then return 0
      match s.arrayPart? f with
      | none => throw (.inconsistent ref.record (.notArray ref.field))
      | some (element, domain) =>
        let count := if f.marshal == .countedArray then f.partner else none
        update (·.modifyRecord ref.record fun r =>
          { r with fields := Schema.implyLength ref.field count element domain r.fields })
        return 1

/-- Makes all configured fields take the rest of their regions. -/
def implyLengths (config : Config) : Edit Nat :=
  config.implicitLengths.foldlM (fun count ref => do return count + (← implyLengthOf ref)) 0

end Edit

end WireTables
