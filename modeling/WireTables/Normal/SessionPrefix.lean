import WireTables.Schema.Registry

/-!
# First parameters with a length

The first parameter of a command can be encrypted when its length stands in front of it. For each
such command the sizes of the length and of what it counts are noted.
-/

namespace WireTables

namespace Schema

/-- The size of what a tag counts: the bytes of a structure, or the elements of an array. -/
def countedSize (s : Schema) (data : Field) : Eval Nat :=
  if data.marshal == .sizedBody then return 1 else s.wireSize data.typeName

/-- The sizes for a tag of a structure and what it describes there. -/
def tagSizes (s : Schema) (r : Record) (tag : Field) : Eval (Option SessionPrefix) := do
  match tag.partner.bind r.field? with
  | none => return none
  | some data => return some ⟨← s.wireSize tag.typeName, ← s.countedSize data⟩

/-- The sizes for the first parameter of a command, which is a tag or starts with one. -/
def sessionPrefix (s : Schema) (r : Record) : Eval (Option SessionPrefix) :=
  match r.parameters with
  | [] => return none
  | first :: _ =>
    match first.marshal with
    | .count | .bodySize => s.tagSizes r first
    | .plain =>
      match s.recordOf? first.typeName with
      | some (_, inner) =>
        match inner.fields with
        | tag :: _ => if tag.marshal.isTag then s.tagSizes inner tag else return none
        | [] => return none
      | none => return none
    | _ => return none

/-- The commands whose first parameter has a length, with its sizes. -/
def sessionPrefixes (s : Schema) : Eval (List (String × SessionPrefix)) :=
  (s.records.filter (·.2.isRequest)).filterMapM fun (t, r) => do
    return (← s.sessionPrefix r).map (t.specName, ·)

end Schema

namespace Edit

/-- Notes the sizes for all commands and gives their number. -/
def noteSessionPrefixes : Edit Nat := do
  let found ← calculate (·.sessionPrefixes)
  found.forM fun (name, sizes) =>
    update (·.modifyRecord name ({ · with sessionPrefix := some sizes }))
  return found.length

end Edit

end WireTables
