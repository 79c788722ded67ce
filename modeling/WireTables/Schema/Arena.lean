import WireTables.Schema.Link

/-!
# Arenas

A registry is kept in parts. Types and constants lie in arrays, where each is found by the number
that it got when it was added; an index gives the number of a name; and a list of numbers gives the
order in which types are put out. A type or a constant is changed where it lies, so that its number
and its place stay. Nothing but the calls below keeps the parts together: each of them is a sequence
of steps that touch one part at a time.
-/

namespace WireTables

/-- Numbers under names. -/
structure NameIndex where
  entries : List (String × Nat) := []
  deriving DecidableEq, Repr

namespace NameIndex

/-- The number under a name. -/
def number? (x : NameIndex) (name : String) : Option Nat :=
  x.entries.lookup name

/-- The index with a number under a name, in the place of one that was there before. -/
def insert (x : NameIndex) (name : String) (number : Nat) : NameIndex :=
  ⟨(name, number) :: x.entries⟩

end NameIndex

/-- A registry in parts. -/
structure Arena where
  types : Array TypeEntry := #[]
  /-- The numbers of the types in the order in which they are put out. -/
  order : List Nat := []
  typeNames : NameIndex := {}
  constants : Array Constant := #[]
  constantNames : NameIndex := {}
  algorithms : List Algorithm := []
  algPrefix : String := "TPM_ALG_"
  adaptedFor : Option Language := none
  /-- The values of constants found so far. -/
  known : Known := []
  deriving DecidableEq, Repr

namespace Arena

/-- The type under a name. -/
def lookup? (a : Arena) (name : String) : Option TypeEntry :=
  (a.typeNames.number? name).bind (a.types[·]?)

/-- The place of a type in the order in which types are put out. -/
def position? (a : Arena) (name : String) : Option Nat :=
  (a.typeNames.number? name).bind a.order.idxOf?

/-- The types in the order in which they are put out. -/
def listed (a : Arena) : List TypeEntry :=
  a.order.filterMap (a.types[·]?)

/-- The registry that an arena is read as. -/
def shown (a : Arena) : Registry :=
  { types := a.listed
    constants := a.constants
    algorithms := a.algorithms
    algPrefix := a.algPrefix
    adaptedFor := a.adaptedFor
    known := a.known }

/-- One more type lies in the array. -/
def storeType (t : TypeEntry) (a : Arena) : Arena :=
  { a with types := a.types.push t }

/-- A type is found under a name. -/
def nameType (name : String) (number : Nat) (a : Arena) : Arena :=
  { a with typeNames := a.typeNames.insert name number }

/-- A type is put out at a place; those from there on come after it. -/
def placeType (place number : Nat) (a : Arena) : Arena :=
  { a with order := a.order.insertIdx place number }

/-- What is put out at a place is not put out any more. -/
def withdrawType (place : Nat) (a : Arena) : Arena :=
  { a with order := a.order.eraseIdx place }

/-- One more constant lies in the array. -/
def storeConstant (c : Constant) (a : Arena) : Arena :=
  { a with constants := a.constants.push c }

/-- A constant is found under a name. -/
def nameConstant (name : String) (number : Nat) (a : Arena) : Arena :=
  { a with constantNames := a.constantNames.insert name number }

/-- The type under a name is changed where it lies. -/
def amendType (name : String) (change : TypeEntry → TypeEntry) (a : Arena) : Arena :=
  match a.typeNames.number? name with
  | some number => { a with types := a.types.modify number change }
  | none => a

/-- A constant is changed where it lies. -/
def amendConstant (number : Nat) (change : Constant → Constant) (a : Arena) : Arena :=
  { a with constants := a.constants.modify number change }

/-- An elementary type comes to the end of all parts. -/
def seed (a : Arena) (t : TypeEntry) : Arena :=
  let number := a.types.size
  a.storeType { t with id := number } |>.placeType a.order.length number
    |>.nameType t.specName number

end Arena

namespace Record

/-- The structure without the unions that it is a member of. -/
def forget (r : Record) : Record :=
  { r with memberOf := [] }

/-- The structure with one more union and selector that it is a member under, unless they are
there. -/
def learn (link : String × String) (r : Record) : Record :=
  if r.memberOf.contains link then r else { r with memberOf := r.memberOf ++ [link] }

end Record

/-- A change of an arena. What was done before a failure stays done. -/
abbrev ArenaEdit := ExceptT Error (StateM Arena)

namespace ArenaEdit

/-- The schema as it stands. -/
def schema : ArenaEdit Schema := do
  return (← get).shown.toSchema

/-- Fails or goes on. -/
def ofExcept (r : Except Error α) : ArenaEdit α :=
  ExceptT.mk (pure r)

/-- Runs a calculation on the schema as it stands. -/
def calculate (m : Schema → Eval α) : ArenaEdit α :=
  ExceptT.mk fun a =>
    let (result, known) := (m a.shown.toSchema).run a.known
    (result, { a with known })

/-- The place for a type that is added: after the anchor, or at the end without one. -/
def placeFor (name : String) (anchor : Option String) : ArenaEdit Nat := do
  let a ← get
  match anchor with
  | none => return a.order.length
  | some anchor =>
    match a.typeNames.number? anchor with
    | none => throw (.unknownType anchor ("insertion of " ++ name))
    | some number => return ((a.order.idxOf? number).map (· + 1)).getD a.order.length

/-- Adds a type at the end, or right after the type `anchor`. -/
def addType (t : TypeEntry) (anchor : Option String := none) : ArenaEdit Unit := do
  if ((← get).typeNames.number? t.specName).isSome then throw (.duplicateType t.specName)
  let place ← placeFor t.specName anchor
  let number := (← get).types.size
  modify (Arena.nameType t.specName number)
  modify (Arena.storeType { t with id := number })
  modify (Arena.placeType place number)

/-- Moves a type right after an anchor unless it already comes later. -/
def ensureAfter (name anchor : String) : ArenaEdit Unit := do
  let a ← get
  match a.position? name, a.position? anchor with
  | some at_, some anchorAt =>
    if at_ < anchorAt then
      match a.order[at_]? with
      | some number =>
        modify (Arena.withdrawType at_)
        modify (Arena.placeType anchorAt number)
      | none => return ()
  | _, _ => throw (.unknownType (name ++ " or " ++ anchor) "reordering")

/-- Adds a constant. -/
def addConstant (c : Constant) : ArenaEdit Unit := do
  let a ← get
  if (a.constantNames.number? c.specName).isSome then throw (.duplicateConstant c.specName)
  modify (Arena.nameConstant c.specName a.constants.size)
  modify (Arena.storeConstant c)

/-- Changes the type under a name. -/
def amendType (name : String) (change : TypeEntry → TypeEntry) : ArenaEdit Unit :=
  modify (Arena.amendType name change)

/-- Changes a constant. -/
def amendConstant (number : Nat) (change : Constant → Constant) : ArenaEdit Unit :=
  modify (Arena.amendConstant number change)

/-- Changes all types one after the other, each under its name. -/
def amendTypes (change : TypeEntry → TypeEntry) : ArenaEdit Unit := do
  (← schema).names.forM (amendType · change)

/-- Changes all constants one after the other. -/
def amendConstants (change : Constant → Constant) : ArenaEdit Unit := do
  (List.range (← schema).constants.size).forM (amendConstant · change)

/-- Structures forget the unions that they are members of, and learn them one by one. -/
def linkUnions : ArenaEdit Unit := do
  let links := (← schema).memberships
  modify fun a => { a with types := a.types.map (·.mapRecord Record.forget) }
  links.forM fun (member, link) => amendType member (·.mapRecord (Record.learn link))

/-- Notes the language that an arena has been adapted for. -/
def setAdapted (lang : Language) : ArenaEdit Unit :=
  modify ({ · with adaptedFor := some lang })

end ArenaEdit

namespace Arena

/-- The arena with the elementary types only. -/
def initial : Arena :=
  Schema.elementary.foldl seed {}

end Arena

end WireTables
