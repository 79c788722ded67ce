import WireTables.Schema.Basic

/-!
# Looking through names

Which structure or elementary value a type name denotes in the end, and all fields of a structure
that is derived from others. A chain of names longer than a fixed limit counts as endless.
-/

namespace WireTables

/-- The longest chain that is followed. -/
def maxDepth : Nat := 64

namespace Schema

/-- Follows further names from a type, `hops` at most. -/
def followAliases (s : Schema) (name : String) : Nat → TypeEntry → Except Error TypeEntry
  | 0, _ => .error (.inconsistent name .aliasCycle)
  | hops + 1, t =>
    match t.kind with
    | .aliasOf a => do s.followAliases name hops (← s.require a.base t.specName)
    | _ => .ok t

/-- The first type behind a name that is no further name itself. -/
def target (s : Schema) (name : String) : Except Error TypeEntry := do
  s.followAliases name maxDepth (← s.require name "typedef resolution")

/-- The elementary value that a type is encoded as, `hops` names away at most. -/
def followScalar? (s : Schema) : Nat → TypeEntry → Option (TypeEntry × Scalar)
  | 0, _ => none
  | hops + 1, t =>
    match t.kind with
    | .value v => some (t, v)
    | .aliasOf a => s.lookup? a.base >>= s.followScalar? hops
    | .enum e => s.lookup? e.underlying >>= s.followScalar? hops
    | .bitfield b => s.lookup? b.underlying >>= s.followScalar? hops
    | .record _ | .union _ => none

/-- The elementary value that a type is encoded as in the end. -/
def scalarOf? (s : Schema) (name : String) : Option (TypeEntry × Scalar) :=
  s.lookup? name >>= s.followScalar? maxDepth

/-- The encoding of a type that is an elementary value in the end. -/
def scalar? (s : Schema) (name : String) : Option Scalar :=
  (s.scalarOf? name).map (·.2)

/-- The type is a number in the end. -/
def isInteger (s : Schema) (name : String) : Bool :=
  match s.scalar? name with
  | some v => !v.isBool
  | none => false

/-- The structure that a name denotes. -/
def recordOf? (s : Schema) (name : String) : Option (TypeEntry × Record) :=
  match s.target name with
  | .ok t => t.record?.map (t, ·)
  | .error _ => none

/-- The name denotes a structure. -/
def isRecord (s : Schema) (name : String) : Bool :=
  (s.recordOf? name).isSome

/-- The name is a further name of a structure. -/
def isRecordAlias (s : Schema) (name : String) : Bool :=
  ((s.lookup? name).bind TypeEntry.alias?).isSome && s.isRecord name

/-- The fields of a structure after those of its bases, `room` structures at most. -/
def collectFields (s : Schema) (owner : String) : Nat → String → Except Error (List Field)
  | 0, _ => .error (.inconsistent owner .baseCycle)
  | room + 1, name => do
    let _ ← s.require name owner
    let t ← s.target name
    match t.record? with
    | none => .error (.inconsistent owner (.baseNotStructure name))
    | some r =>
      match r.base with
      | none => return r.fields
      | some base => return (← s.collectFields owner room base) ++ r.fields

/-- All fields of a structure, those of its bases first. -/
def allFields (s : Schema) (name : String) : Except Error (List Field) :=
  s.collectFields name (maxDepth + 1) name

end Schema

end WireTables
