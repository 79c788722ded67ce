import WireTables.Error
import WireTables.Table.Basic
import WireTables.Table.Caption
import WireTables.Text.Hex

/-!
# Rows

Reading one row of a table of known kind. Each kind has its own content; besides that any table
may hold blank rows, which say nothing, and rows that name the error code of the type.
-/

namespace WireTables

/-- A row with the content `α`. -/
inductive Row (α : Type) where
  | skip
  | errorCode (code : String)
  | content (row : α)
  deriving DecidableEq, Repr

/-- An algorithm identifier and the letters of its classes. -/
structure AlgorithmRow where
  name : String
  value : String
  classes : String
  comment : String
  deriving DecidableEq, Repr

/-- A named constant. -/
structure ConstantRow where
  name : String
  value : String
  comment : String
  deriving DecidableEq, Repr

/-- A further name of a type. -/
structure AliasRow where
  base : String
  name : String
  comment : String
  deriving DecidableEq, Repr

/-- An allowed value or domain of an interface type; `isNull` for a value after a plus sign. -/
structure InterfaceRow where
  text : String
  isNull : Bool
  deriving DecidableEq, Repr

/-- A field of a structure or a parameter of a command. -/
structure FieldRow where
  name : String
  typeName : String
  /-- `@name`: the handle needs an authorization session. -/
  requiresAuth : Bool := false
  /-- `[selector]name`: a union chosen by a sibling. -/
  selector : Option String := none
  nullable : Bool := false
  /-- `name=`: the length in bytes of the structure that follows. -/
  sizeMarker : Bool := false
  /-- `name=VALUE`: always this value on the wire. -/
  constant : Option String := none
  /-- `name[count]`; an empty text for an array whose length is implied. -/
  array : Option String := none
  /-- The domain with its braces. -/
  domain : Option String := none
  comment : String := ""
  deriving DecidableEq, Repr

/-- A row of a command: part of the fixed header, or a parameter. -/
inductive CommandRow where
  | header (name comment : String)
  | parameter (field : FieldRow)
  deriving DecidableEq, Repr

/-- Bits of a bitfield, lowest and highest included. -/
structure BitsRow where
  first : Nat
  last : Nat
  name : String
  enumType : Option String
  comment : String
  deriving DecidableEq, Repr

/-- A member of a union. -/
structure MemberRow where
  name : String
  arraySize : Option String
  typeName : String
  selector : String
  comment : String
  deriving DecidableEq, Repr

namespace Row

/-- Drops a mark at the start of a text; the first part says whether it was there. -/
def mark (c : Char) : List Char → Bool × List Char
  | [] => (false, [])
  | d :: rest => if d == c then (true, rest) else (false, d :: rest)

/-- The text up to a closing mark, and what follows the mark. -/
def upTo? (closing : Char) (cs : List Char) : Option (List Char × List Char) :=
  match cs.dropWhile (· != closing) with
  | [] => none
  | _ :: rest => some (cs.takeWhile (· != closing), rest)

/-- An optional part in marks; `none` inside when it is absent, `none` when it does not end. -/
def bracketed? (opening closing : Char) (cs : List Char) :
    Option (Option (List Char) × List Char) :=
  match mark opening cs with
  | (false, _) => some (none, cs)
  | (true, rest) => (upTo? closing rest).map fun (inner, rest) => (some inner, rest)

/-- A text without the blanks at its start. -/
def skipBlanks (cs : List Char) : List Char :=
  cs.dropWhile Text.isBlank

/-- A non-empty run of word characters at the start of a text, if there is one. -/
def word (cs : List Char) : Option (List Char) × List Char :=
  match cs.takeWhile Text.isWord with
  | [] => (none, cs)
  | c :: rest => (some (c :: rest), cs.dropWhile Text.isWord)

/-- What follows the name in a name cell. -/
structure NameSuffix where
  plus : Bool
  equals : Bool
  constant : Option (List Char)
  count : Option (List Char)
  domain : Option (List Char)

/-- Reads the parts after the name: a plus sign, an equals sign with or without a value, a count in
square brackets and a domain in braces, in this order and each of them optional. -/
def nameSuffix? (cs : List Char) : Option NameSuffix := do
  let (plus, cs) := mark '+' (skipBlanks cs)
  let (equals, cs) := mark '=' (skipBlanks cs)
  let (constant, cs) := if equals then word (skipBlanks cs) else (none, cs)
  let (count, cs) ← bracketed? '[' ']' (skipBlanks cs)
  let (domain, cs) ← bracketed? '{' '}' (skipBlanks cs)
  if cs.isEmpty then some { plus, equals, constant, count, domain } else none

/-- The selector in square brackets before a name, if there is one. -/
def selectorPart? (cs : List Char) : Option (Option (List Char) × List Char) :=
  match mark '[' cs with
  | (false, _) => some (none, cs)
  | (true, rest) =>
    match word rest with
    | (some inner, ']' :: rest) => some (some inner, rest)
    | _ => none

/-- Reads a type cell: a name with a plus sign before or after it or none. -/
def typeCell? (cs : List Char) : Option (String × Bool) := do
  let (before, cs) := mark '+' cs
  let (name, cs) ← Text.name? (skipBlanks cs)
  let (after, cs) := mark '+' (skipBlanks cs)
  if cs.isEmpty then some (String.ofList name, before || after) else none

/-- Reads the name cell and the type cell of a field. -/
def field? (nameCell typeCell comment : String) : Option FieldRow := do
  let (requiresAuth, cs) := mark '@' nameCell.toList
  let (selector, cs) ← selectorPart? (skipBlanks cs)
  let (name, cs) ← Text.name? (skipBlanks cs)
  let suffix ← nameSuffix? cs
  let (typeName, nullableType) ← typeCell? typeCell.toList
  return {
    name := String.ofList name
    typeName
    requiresAuth
    selector := selector.map String.ofList
    nullable := suffix.plus || nullableType
    sizeMarker := suffix.equals && suffix.constant.isNone
    constant := suffix.constant.map String.ofList
    array := suffix.count.map fun count => String.ofList (Text.trimChars count)
    domain := suffix.domain.map fun inner => String.ofList ('{' :: inner ++ ['}'])
    comment }

/-- A number of decimal digits up to 63, and what follows it. -/
def bitNumber? (cs : List Char) : Option (Nat × List Char) :=
  let digits := cs.takeWhile Char.isDigit
  let n := Text.ofDecimal digits
  if !digits.isEmpty && n ≤ 63 then some (n, cs.dropWhile Char.isDigit) else none

/-- A bit, or two bits with a colon between them; the lower one comes first in the result. -/
def bitRange? (cs : List Char) : Option (Nat × Nat) := do
  let (first, rest) ← bitNumber? cs
  if rest.isEmpty then return (first, first)
  match skipBlanks rest with
  | ':' :: rest =>
    let (second, rest) ← bitNumber? (skipBlanks rest)
    if rest.isEmpty then return (min first second, max first second) else none
  | _ => none

/-- The name of bits, and after a colon the enumeration of their values. -/
def bitName? (cs : List Char) : Option (String × Option String) := do
  let (name, rest) ← Text.name? cs
  if rest.isEmpty then return (String.ofList name, none)
  match skipBlanks rest with
  | ':' :: rest =>
    let (enumType, rest) ← Text.name? (skipBlanks rest)
    if rest.isEmpty then return (String.ofList name, some (String.ofList enumType)) else none
  | _ => none

/-- The name of a union member, and in square brackets its array size. -/
def memberName? (cs : List Char) : Option (String × Option String) := do
  let (name, rest) ← Text.name? cs
  let (size, rest) ← bracketed? '[' ']' (skipBlanks rest)
  if !rest.isEmpty || size == some [] then none
  else return (String.ofList name, size.map fun cs => String.ofList (Text.trimChars cs))

/-- A row of the algorithm table. -/
def algorithm? (cells : List String) : Option (Row AlgorithmRow) :=
  let name := Table.cell cells 0
  let value := Table.cell cells 1
  if Table.isName name && !value.isEmpty then
    some <| .content {
      name
      value
      classes := String.ofList ((Table.cell cells 2).toList.filter (!Text.isBlank ·))
      comment := Table.cell cells 4 }
  else none

/-- A row of a table of constants. -/
def constant? (cells : List String) : Option (Row ConstantRow) :=
  let name := Table.cell cells 0
  let value := Table.cell cells 1
  if Table.isName name && !value.isEmpty then
    some (.content { name, value, comment := Table.cellsFrom cells 2 })
  else none

/-- A row of a table of further type names. -/
def alias? (cells : List String) : Option (Row AliasRow) :=
  let base := Table.cell cells 0
  let name := Table.cell cells 1
  if Table.isName base && Table.isName name then
    some (.content { base, name, comment := Table.cellsFrom cells 2 })
  else none

/-- A row of an interface type. -/
def interface? (cells : List String) : Option (Row InterfaceRow) :=
  let text := Table.cell cells 0
  match Text.dropHead? "+" text with
  | some value =>
    let value := Text.trim value
    if Table.isName value then some (.content ⟨value, true⟩) else none
  | none => some (.content ⟨text, false⟩)

/-- A row of a structure. -/
def structureField? (cells : List String) : Option (Row FieldRow) :=
  (field? (Table.cell cells 0) (Table.cell cells 1) (Table.cellsFrom cells 2)).map .content

/-- The rows that every command starts with. -/
def commandHeaderNames : List String :=
  ["tag", "commandSize", "commandCode", "responseSize", "responseCode"]

/-- A row of a command or response; the type stands before the name. -/
def command? (cells : List String) : Option (Row CommandRow) :=
  let typeCell := Table.cell cells 0
  let name := Table.cell cells 1
  let comment := Table.cellsFrom cells 2
  if commandHeaderNames.contains name then some (.content (.header name comment))
  else (field? name typeCell comment).map fun f => .content (.parameter f)

/-- A row of a bitfield. Reserved bits say nothing. -/
def bits? (cells : List String) : Option (Row BitsRow) :=
  let name := Table.cell cells 1
  if "reserved".toList.isPrefixOf (name.toList.map Char.toLower) then some .skip
  else do
    let (first, last) ← bitRange? (Table.cell cells 0).toList
    let (name, enumType) ← bitName? name.toList
    return .content { first, last, name, enumType, comment := Table.cellsFrom cells 2 }

/-- A row of a union. -/
def member? (cells : List String) : Option (Row MemberRow) := do
  let (name, arraySize) ← memberName? (Table.cell cells 0).toList
  let typeName := Table.cell cells 1
  let selector := Table.cell cells 2
  if (typeName.isEmpty || Table.isName typeName) && Table.isName selector then
    return .content { name, arraySize, typeName, selector, comment := Table.cellsFrom cells 3 }
  else none

/-- Reads a row whose content `read` knows. Blank rows and error codes come first. -/
def read (content? : List String → Option (Row α)) (cells : List String) : Option (Row α) :=
  if cells.all Text.isBlankText then some .skip
  else
    match Text.dropHead? "#" (Table.cell cells 0) with
    | some code =>
      let code := Text.trim code
      if Table.isName code then some (.errorCode code) else none
    | none => content? cells

/-- Reads the rows of a table from number `index` on; the first row that does not match is the
failure. -/
def readAll (content? : List String → Option (Row α)) (caption kind : String) (index : Nat) :
    List (List String) → Except Error (List (Row α))
  | [] => .ok []
  | cells :: rest =>
    match read content? cells with
    | some row => (readAll content? caption kind (index + 1) rest).map (row :: ·)
    | none => .error (.unmatchedRow caption kind index cells)

end Row

end WireTables
