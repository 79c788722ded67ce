import WireTables.Schema.Registry

/-!
# Cross references

Structures know the unions they are members of, and every name that a type refers to has to be
registered.
-/

namespace WireTables

namespace Schema

/-- The structures that are members of unions: type, union and selector. -/
def memberships (s : Schema) : List (String × String × String) :=
  s.unions.flatMap fun (t, u) =>
    (u.members.filter fun m => s.isRecord m.typeName).map fun m =>
      (m.typeName, t.specName, m.selector)

/-- The schema whose structures know the unions they are members of. -/
def linkUnions (s : Schema) : Schema :=
  let links := s.memberships
  { s with types := s.types.map fun t =>
      t.mapRecord fun r =>
        { r with memberOf := ((links.filter (·.1 == t.specName)).map (·.2)).eraseDups } }

/-- The value of an expression is only asked for to see that there is one. -/
def checkExpression (s : Schema) (text : Option String) : Eval Unit :=
  match text with
  | some text => do let _ ← s.evaluate text
  | none => return ()

/-- A type is registered. -/
def checkType (s : Schema) (name referrer : String) : Eval Unit := do
  let _ ← Eval.ofExcept (s.require name referrer)

/-- What the fields of a structure refer to exists. -/
def checkField (s : Schema) (owner : String) (r : Record) (f : Field) : Eval Unit := do
  s.checkType f.typeName (owner ++ "." ++ f.name)
  s.checkExpression f.arraySize
  match f.partner with
  | some partner =>
    if (r.field? partner).isNone then
      throw (.inconsistent owner (.missingPartner f.name partner))
  | none => return ()

/-- What a union member refers to exists. -/
def checkMember (s : Schema) (owner : String) (m : UnionMember) : Eval Unit := do
  s.checkType m.typeName (owner ++ "." ++ m.name)
  if (s.resolveConstant? m.selector).isNone then throw (.unresolvedConstant m.selector)
  s.checkExpression m.arraySize

/-- What a type refers to exists. -/
def checkEntry (s : Schema) (t : TypeEntry) : Eval Unit :=
  match t.kind with
  | .value _ => return ()
  | .aliasOf a => s.checkType a.base t.specName
  | .enum e => s.checkType e.underlying t.specName
  | .bitfield b => do
    s.checkType b.underlying t.specName
    b.members.forM fun m =>
      match m.enumType with
      | some e => s.checkType e t.specName
      | none => return ()
  | .record r => do
    match r.base with
    | some base => s.checkType base t.specName
    | none => pure ()
    r.fields.forM (s.checkField t.specName r)
  | .union u => u.members.forM (s.checkMember t.specName)

/-- Everything that is referred to exists and every constant has a value. -/
def checkReferences (s : Schema) : Eval Unit := do
  s.types.forM s.checkEntry
  s.constants.forM fun c => do let _ ← s.constantValue c.specName

end Schema

end WireTables
