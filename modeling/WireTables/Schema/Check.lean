import WireTables.Schema.Resolve

/-!
# Checking a schema

The conditions that a normalized schema has to meet: tags and what they describe name each other,
union-typed fields have selectors, a structure is selected in the same way wherever it is a
member, and no union has two members of one type under different selectors.
-/

namespace WireTables

namespace Schema

/-- A tag is the partner of exactly one field, which is of the right kind and named by the tag. -/
def tagFindings (r : Record) (f : Field) : List FindingCause :=
  let check (expected : Marshal) : List FindingCause :=
    match r.fields.filter (·.partner == some f.name) with
    | [p] =>
      if p.marshal == expected && f.partner == some p.name then []
      else [.wrongCounterpart p.name p.marshal expected]
    | partners => [.counterpartCount partners.length expected]
  match f.marshal with
  | .count => check .countedArray
  | .bodySize => check .sizedBody
  | _ => []

/-- The encoding of the field that a field names as its partner. -/
def partnerMarshal? (r : Record) (f : Field) : Option Marshal := do
  let partner ← r.field? (← f.partner)
  return partner.marshal

/-- A tagged field names its tag. -/
def taggedFindings (r : Record) (f : Field) : List FindingCause :=
  let check (expected : Marshal) : List FindingCause :=
    if partnerMarshal? r f == some expected then [] else [.missingTag expected]
  match f.marshal with
  | .countedArray => check .count
  | .sizedBody => check .bodySize
  | _ => []

/-- A union-typed field names its selector. -/
def selectorFindings (r : Record) (f : Field) : List FindingCause :=
  match f.marshal with
  | .unionBody | .selectedArray =>
    if partnerMarshal? r f == some .selector then [] else [.notSelector f.partner]
  | _ => []

/-- What is wrong inside a structure. -/
def recordFindings (name : String) (r : Record) : List Finding :=
  r.fields.flatMap fun f =>
    (tagFindings r f ++ taggedFindings r f ++ selectorFindings r f).map (⟨name, some f.name, ·⟩)

/-- What members of unions have been seen so far: the selector and the union of each type. -/
abbrev Selected := List (String × String × String)

/-- The type that a union member denotes, which is a structure if there is one behind its name. -/
def concreteName (s : Schema) (name : String) : String :=
  match s.recordOf? name with
  | some (t, _) => t.specName
  | none => name

/-- What is wrong with the members of a union, given the members seen before: inside the same union
by what they denote, in all unions by their type names. -/
def memberFindings (s : Schema) (union : String) :
    List (String × String) → Selected → List UnionMember → List Finding × Selected
  | _, selected, [] => ([], selected)
  | seen, selected, m :: rest =>
    let concrete := s.concreteName m.typeName
    let twice : List Finding := match seen.lookup concrete with
      | some other =>
        if other == m.selector then [] else [⟨union, some m.name, .typeUsedTwice concrete other⟩]
      | none => []
    let (elsewhere, selected) : List Finding × Selected :=
      if s.isRecord m.typeName then
        match selected.lookup m.typeName with
        | some (selector, other) =>
          if selector == m.selector then ([], selected)
          else ([⟨m.typeName, none, .selectedTwice selector other m.selector union⟩], selected)
        | none => ([], (m.typeName, m.selector, union) :: selected)
      else ([], selected)
    let (more, selected) := s.memberFindings union ((concrete, m.selector) :: seen) selected rest
    (twice ++ elsewhere ++ more, selected)

/-- What is wrong with types, given the union members seen before. -/
def typeFindings (s : Schema) : Selected → List TypeEntry → List Finding
  | _, [] => []
  | selected, t :: rest =>
    match t.kind with
    | .record r => recordFindings t.specName r ++ s.typeFindings selected rest
    | .union u =>
      let (findings, selected) := s.memberFindings t.specName [] selected u.members
      findings ++ s.typeFindings selected rest
    | .enum e =>
      (if e.members.isEmpty then [⟨t.specName, none, .noConstants⟩] else []) ++
        s.typeFindings selected rest
    | _ => s.typeFindings selected rest

/-- What is wrong with the types that are put out. -/
def findings (s : Schema) : List Finding :=
  s.typeFindings [] s.implemented

end Schema

end WireTables
