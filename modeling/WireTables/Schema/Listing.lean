import WireTables.Domain.Basic
import WireTables.Schema.Registry
import WireTables.Text.Hex

/-!
# Listing a registry

A text with one block for each type, in the order in which types are put out, and at the end the
constants that belong to no type. The value of a constant is shown when it is known.
-/

namespace WireTables

namespace Registry

/-- The line of a constant. -/
def constantLine (r : Registry) (number : Nat) : String :=
  match r.constants[number]? with
  | none => ""
  | some c =>
    "    " ++ c.specName ++ " = " ++ c.expr ++
      (match r.knownValue? number with
        | some value => " (" ++ Text.hexWord value ++ ")"
        | none => "") ++
      (if c.name == c.specName then "" else " -> " ++ c.name) ++
      (match c.targetExpr with
        | some text => " := " ++ text
        | none => "") ++ "\n"

/-- The constants that belong to no type. -/
def freeConstants (r : Registry) : List Nat :=
  (List.range r.constants.size).filter fun number =>
    match r.constants[number]? with
    | some c => !r.contains c.owner
    | none => false

end Registry

namespace Field

/-- The line of a field. -/
def line (f : Field) : String :=
  "    " ++ f.name ++ ": " ++ f.typeName ++ " " ++ f.marshal.label ++
    (match f.partner with
      | some partner => " <-> " ++ partner
      | none => "") ++
    (match f.arraySize with
      | some size => " [" ++ size ++ "]"
      | none => "") ++
    (if f.domain.isEmpty then "" else " " ++ f.domain.text) ++
    (if f.isHandle then " handle" else "") ++
    (if f.requiresAuth then " auth" else "") ++
    (if f.nullable then " nullable" else "") ++
    (if f.targetType.isEmpty then "" else " : " ++ f.targetType) ++ "\n"

end Field

namespace Record

/-- What the first line of a structure tells besides its name. -/
def summary (r : Record) : String :=
  (match r.base with
    | some base => " : " ++ base
    | none => "") ++
  (match r.role with
    | .request _ code =>
      " request " ++ code ++ " handles=" ++ toString r.handleCount ++ "/" ++
        toString r.authHandleCount
    | .response _ => " response"
    | .plain => "") ++
  (match r.sessionPrefix with
    | some p => " sess_enc(" ++ toString p.sizeLen ++ ", " ++ toString p.valLen ++ ")"
    | none => "") ++
  (match r.nullTail with
    | some tail => " skip-after " ++ tail.selector ++ "==" ++ tail.nullValue
    | none => "")

end Record

namespace UnionType

/-- The line of the member at an index. -/
def memberLine (u : UnionType) (m : UnionMember) (index : Nat) : String :=
  "    " ++ m.name ++ ": " ++ m.typeName ++ " by " ++ m.selector ++
    (match m.arraySize with
      | some size => " [" ++ size ++ "]"
      | none => "") ++
    (if u.nullMember == some index then " (null)" else "") ++ "\n"

end UnionType

namespace Registry

/-- The block of a type. -/
def block (r : Registry) (t : TypeEntry) : String :=
  t.kind.label ++ " " ++ t.specName ++
    (if t.name == t.specName then "" else " (" ++ t.name ++ ")") ++
    (if t.implemented then "" else " [not implemented]") ++
    (match t.kind.errorCode with
      | some code => " #" ++ code
      | none => "") ++
    match t.kind with
    | .value v =>
      ": " ++ toString v.size ++ " bytes" ++ (if v.signed then ", signed" else "") ++ "\n"
    | .aliasOf a =>
      " = " ++ a.base ++ (if a.domain.isEmpty then "" else " " ++ a.domain.text) ++
        (match a.nullValue with
          | some value => " +" ++ value
          | none => "") ++ "\n"
    | .enum e => ": " ++ e.underlying ++ "\n" ++ String.join (e.members.map r.constantLine)
    | .bitfield b =>
      ": " ++ b.underlying ++ "\n" ++
        String.join (b.members.map fun m =>
          "    " ++ toString m.last ++ ":" ++ toString m.first ++ " " ++ m.name ++ "\n") ++
        String.join (b.constants.map r.constantLine)
    | .record s =>
      s.summary ++ "\n" ++ String.join (s.fields.map Field.line) ++
        String.join (s.memberOf.map fun (union, selector) =>
          "    in " ++ union ++ " by " ++ selector ++ "\n")
    | .union u =>
      "\n" ++ String.join (u.members.zipIdx.map fun (m, i) => u.memberLine m i)

/-- The listing of a registry. -/
def listing (r : Registry) : String :=
  (match r.adaptedFor with
    | some lang => "# adapted for " ++ lang.name ++ "\n"
    | none => "") ++
  String.join (r.types.map r.block) ++
  (match r.freeConstants with
    | [] => ""
    | free => "constants\n" ++ String.join (free.map r.constantLine))

end Registry

end WireTables
