import WireTables.Config
import WireTables.Schema.Registry
import WireTables.Text.Camel

/-!
# Wrappers

A wrapper is a structure of just a tag and what it describes: a count and its array, or a selector
and its union. A field of wrapper type gives way to the two fields of the wrapper, the second under
the field's own name. An inlined pair can make its new home a wrapper in turn, so inlining goes
on until nothing changes; each step takes away one plain field and adds none, which bounds the
number of rounds.
-/

namespace WireTables

namespace Record

/-- The tag and the data of a structure that is a wrapper. -/
def wrapperParts? (r : Record) : Option (Field × Field) :=
  match r.fields with
  | [tag, data] =>
    let linked := tag.partner == some data.name && data.partner == some tag.name
    let shape := match tag.marshal, data.marshal with
      | .count, .countedArray | .selector, .unionBody | .selector, .selectedArray => true
      | _, _ => false
    if linked && shape && r.base.isNone then some (tag, data) else none
  | _ => none

/-- The number of plain fields. -/
def plainCount (r : Record) : Nat :=
  r.fields.countP (·.marshal == .plain)

end Record

namespace Schema

/-- The parts of the wrapper that a field of the structure `owner` is of, unless it is kept. -/
def wrapperOf? (s : Schema) (config : Config) (owner : String) (f : Field) :
    Option (Field × Field) := do
  if f.marshal != .plain || config.keptWrappers.contains f.typeName then none
  else
    let (t, r) ← s.recordOf? f.typeName
    if t.specName == owner || config.keptWrappers.contains t.specName then none
    else r.wrapperParts?

/-- The name of the tag that comes with an inlined field. -/
def inlinedTagName (f tag : Field) : String :=
  f.name ++ Text.camel tag.name

/-- The two fields that a field of wrapper type gives way to. -/
def inlineParts (f tag data : Field) : List Field :=
  let tagName := inlinedTagName f tag
  [{ tag with name := tagName, partner := some f.name, isHandle := f.isHandle },
    { data with
      name := f.name
      partner := some tagName
      domain := data.domain.merge f.domain
      nullable := f.nullable || data.nullable
      requiresAuth := f.requiresAuth
      isHandle := f.isHandle
      comment := f.comment }]

/-- The fields that one field of a structure becomes, and the number of wrappers inlined. -/
def inlineField (s : Schema) (config : Config) (owner : String) (r : Record) (f : Field) :
    Except Error (List Field × Nat) :=
  match s.wrapperOf? config owner f with
  | none => .ok ([f], 0)
  | some (tag, data) =>
    let tagName := inlinedTagName f tag
    if (r.field? tagName).isSome then
      .error (.inconsistent owner (.duplicateField f.name tagName))
    else .ok (inlineParts f tag data, 1)

/-- The fields that the fields of a structure become, and the number of wrappers inlined. -/
def inlineFields (s : Schema) (config : Config) (owner : String) (r : Record) :
    Except Error (List Field × Nat) := do
  let parts ← r.fields.mapM (s.inlineField config owner r)
  return (parts.flatMap (·.1), parts.foldl (fun n part => n + part.2) 0)

/-- The number of plain fields of all structures. -/
def plainCount (s : Schema) : Nat :=
  s.types.foldl (fun n t => n + (t.record?.map Record.plainCount).getD 0) 0

end Schema

namespace Edit

/-- Inlines wrappers in one structure and gives their number. -/
def inlineRecord (config : Config) (name : String) : Edit Nat := do
  let s ← schema
  match (s.lookup? name).bind TypeEntry.record? with
  | none => return 0
  | some r =>
    let (fields, count) ← ofExcept (s.inlineFields config name r)
    if count > 0 then update (·.modifyRecord name fun r => { r with fields })
    return count

/-- Inlines wrappers in every structure once, in order. -/
def inlineRound (config : Config) : Edit Nat := do
  (← schema).names.foldlM (fun count name => do return count + (← inlineRecord config name)) 0

/-- Inlines wrappers until nothing changes, in at most the given number of rounds. -/
def inlineRounds (config : Config) : Nat → Nat → Edit Nat
  | 0, total => return total
  | rounds + 1, total => do
    let changed ← inlineRound config
    if changed == 0 then return total else inlineRounds config rounds (total + changed)

/-- Inlines all wrappers and gives their number. -/
def inlineWrappers (config : Config) : Edit Nat := do
  inlineRounds config ((← schema).plainCount + 1) 0

end Edit

end WireTables
