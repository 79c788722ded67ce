import WireTables.Normal.ImplicitLength
import WireTables.Normal.MemberType
import WireTables.Normal.NullTail
import WireTables.Normal.SessionPrefix
import WireTables.Normal.Wrapper
import WireTables.Schema.Check
import WireTables.Schema.Link

/-!
# Normal form

Tables describe layouts in the way that was convenient to write; code wants them flat. The steps
come in a fixed order because each looks for shapes that the ones before it leave. In the end the
schema has to pass the checks.

The first step is a small one: a structure of a marked number and another structure is a length with
the structure that it measures.
-/

namespace WireTables

namespace Schema

/-- A marked number and a plain structure after it. -/
def isSizedPair (s : Schema) (tag body : Field) : Bool :=
  tag.sizeMarker && tag.marshal == .plain && body.marshal == .plain &&
    s.isInteger tag.typeName && s.isRecord body.typeName

/-- The fields of a structure, as a length and its structure when they are a sized pair. -/
def linkSizedPair (s : Schema) (fields : List Field) : Option (List Field) :=
  match fields with
  | [tag, body] =>
    if s.isSizedPair tag body then
      some [{ tag with marshal := .bodySize, partner := some body.name },
        { body with marshal := .sizedBody, partner := some tag.name }]
    else none
  | _ => none

/-- The schema with all sized pairs linked. -/
def linkSizedPairs (s : Schema) : Schema :=
  { s with types := s.types.map (·.mapRecord fun r =>
      { r with fields := (s.linkSizedPair r.fields).getD r.fields }) }

/-- The number of sized pairs that are not linked yet. -/
def sizedPairCount (s : Schema) : Nat :=
  s.types.countP fun t => (t.record?.bind fun r => s.linkSizedPair r.fields).isSome

end Schema

namespace Edit

/-- Links all sized pairs and gives their number. -/
def linkSizedPairs : Edit Nat := do
  let count := (← schema).sizedPairCount
  update (·.linkSizedPairs)
  return count

/-- Brings a registry to normal form and checks it. -/
def normalize (config : Config) : Edit Unit := do
  let _ ← linkSizedPairs
  let _ ← inlineWrappers config
  let _ ← implyLengths config
  let _ ← noteSessionPrefixes
  let _ ← markNullTails config
  let _ ← separateUnions config
  update (·.linkUnions)
  let errors := (← schema).findings.filter (·.cause.isError)
  if !errors.isEmpty then throw (.invariant errors)

end Edit

end WireTables
