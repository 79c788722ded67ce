import WireTables.Source.Statement
import WireTables.Text.Lines

/-!
# Printers of sources

A printer makes one piece of text for each declaration of an adapted schema, in the order of its
types, and puts the pieces together as files. Nothing is put out when one of the pieces fails.
-/

namespace WireTables.Source

/-- The name of the program. -/
def programName : String := "tpmgen"

/-- What every source says about itself. -/
def notice : String :=
  "Generated by " ++ programName ++ ". Do not edit."

/-- A source with its path below the output directory. -/
structure SourceFile where
  path : String
  text : String
  deriving DecidableEq, Repr

/-- The pieces made of a schema, each kind in the order of the types. -/
structure Pieces where
  unionDeclarations : List String := []
  /-- Enumerations, bitfields and structures. -/
  types : List String := []
  /-- The functions that go with unions. -/
  unionFunctions : List String := []
  /-- The methods of structures whose tail may be absent. -/
  marshalers : List String := []
  commands : List String := []
  deriving DecidableEq, Repr

namespace Pieces

/-- The pieces followed by others. -/
def append (a b : Pieces) : Pieces where
  unionDeclarations := a.unionDeclarations ++ b.unionDeclarations
  types := a.types ++ b.types
  unionFunctions := a.unionFunctions ++ b.unionFunctions
  marshalers := a.marshalers ++ b.marshalers
  commands := a.commands ++ b.commands

end Pieces

/-- How the declarations of a language are printed. -/
structure Printer where
  language : Language
  enum : Schema → TypeEntry → EnumType → String
  bitfield : Schema → TypeEntry → BitfieldType → String
  /-- The declaration of a union, if it needs one. -/
  unionDeclaration : TypeEntry → UnionType → Option String
  unionFunction : Schema → TypeEntry → UnionType → Eval String
  record : Schema → TypeEntry → Record → Eval String
  marshaler : Schema → TypeEntry → Record → Eval String
  /-- The method of the command with a name and a code. -/
  command : Schema → TypeEntry → Record → String → String → String
  files : Schema → Pieces → List SourceFile

namespace Printer

/-- The pieces of a structure. -/
def recordPieces (p : Printer) (s : Schema) (t : TypeEntry) (r : Record) : Eval Pieces := do
  let type ← p.record s t r
  let marshalers ←
    if r.nullTail.isSome then do pure [← p.marshaler s t r] else pure []
  let commands := match r.role with
    | .request command code => [p.command s t r command code]
    | _ => []
  return { types := [type], marshalers, commands }

/-- The pieces of a type. -/
def typePieces (p : Printer) (s : Schema) (t : TypeEntry) : Eval Pieces :=
  match t.kind with
  | .value _ | .aliasOf _ => return {}
  | .enum e => return { types := [p.enum s t e] }
  | .bitfield b => return { types := [p.bitfield s t b] }
  | .union u => do
    let function ← p.unionFunction s t u
    return { unionDeclarations := (p.unionDeclaration t u).toList, unionFunctions := [function] }
  | .record r => p.recordPieces s t r

/-- The sources of a schema that has been adapted for the language of the printer. -/
def print (p : Printer) (s : Schema) : Eval (List SourceFile) := do
  if s.adaptedFor != some p.language then throw (.notAdapted p.language s.adaptedFor)
  let pieces ← s.implemented.foldlM
    (fun pieces t => do return pieces.append (← p.typePieces s t)) ({} : Pieces)
  return p.files s pieces

end Printer

end WireTables.Source
