import WireTables.Schema.Evaluate
import WireTables.Text.Search
import WireTables.Wire.Layout

/-!
# Names inside sources

How generated sources name constants, types and the functions that belong to unions, and what a
command hands back to its caller. The schema has been adapted, so that everything has its name in
the target language.
-/

namespace WireTables.Source

/-- What stands between a type and its member. -/
def scopeSeparator (s : Schema) : String :=
  match s.adaptedFor with
  | some lang => lang.scopeSeparator
  | none => "."

/-- A constant after the name of the type that it belongs to, or alone when it belongs to none. -/
def constantName (s : Schema) (name : String) : Except Error String :=
  match s.constant? name with
  | none => .error (.unresolvedConstant name)
  | some c =>
    match s.lookup? c.owner with
    | some owner => .ok (owner.name ++ scopeSeparator s ++ c.name)
    | none => .ok c.name

/-- The code of a command; a code that is no constant stays as it is. -/
def commandCode (s : Schema) (code : String) : String :=
  match constantName s code with
  | .ok name => name
  | .error _ => code

/-- The name of the type that a constant belongs to. -/
def constantOwner? (s : Schema) (name : String) : Option String := do
  let c ← s.constant? name
  let owner ← s.lookup? c.owner
  return owner.name

/-- The name of the type of the constants that choose among the members of a union. -/
def selectorType? (s : Schema) (u : UnionType) : Option String :=
  u.members.head?.bind fun m => constantOwner? s m.selector

/-- The selector of a structure in the unions that it is a member of. -/
def unionSelector? (r : Record) : Option String :=
  r.memberOf.head?.map (·.2)

/-- The members of a union of arrays with their sizes in bytes. -/
def memberSizes (s : Schema) (u : UnionType) : Eval (List (UnionMember × Nat)) :=
  u.present.mapM fun m => do
    let failure := Error.inconsistent m.typeName (.invalidMemberArraySize m.name)
    return (m, ← Wire.memberBytes s m failure)

/-- The selectors of a union of arrays with the sizes that they choose. -/
def sizeCases (s : Schema) (u : UnionType) : Eval (List (String × Nat)) := do
  (← memberSizes s u).mapM fun (m, size) => do
    return (← Eval.ofExcept (constantName s m.selector), size)

/-- The response to a command. -/
def response? (s : Schema) (command : String) : Option (TypeEntry × Record) :=
  s.records.find? fun (_, r) => r.role == .response command

/-- What a command hands back to its caller. -/
inductive CommandResult where
  | nothing
  /-- The only data field of the response. -/
  | field (response : TypeEntry) (field : Field)
  | object (response : TypeEntry)
  deriving DecidableEq, Repr

/-- What a command hands back to its caller. -/
def commandResult (s : Schema) (command : String) : CommandResult :=
  match response? s command with
  | none => .nothing
  | some (t, r) =>
    match r.dataFields with
    | [] => .nothing
    | [f] => .field t f
    | _ => .object t

namespace CommandResult

/-- The response that a command waits for. -/
def response? : CommandResult → Option TypeEntry
  | nothing => none
  | field t _ | object t => some t

end CommandResult

/-- The name of the function that gives the size of a member of a union of arrays. -/
def sizeFunction (union : String) : String :=
  union ++ "_size"

/-- The name of the function that makes a member of a union. -/
def factory (union : String) : String :=
  "create_" ++ union

/-- The name of the method of a command. -/
def methodName (command : String) : String :=
  Text.dropHead "TPM2_" command

/-- The names in the order of their characters, each one once. -/
def sortedNames (names : List String) : List String :=
  (names.mergeSort fun a b => !(b < a)).eraseReps

end WireTables.Source
