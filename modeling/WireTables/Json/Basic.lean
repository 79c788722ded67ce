import WireTables.Text.Hex
import WireTables.Text.Lines

/-!
# JSON values

The values that JSON texts write, how a record is read from one, and how a value is written.
Numbers keep their spelling, and a text may be missing, because the escapes of JSON can write halves
of characters that are no text; such a text does no harm where nobody looks at it. In writing, every
item and every member stands on a line of its own, two blanks further in than its container.
-/

namespace WireTables

/-- A text, unless its escapes write halves of characters. -/
abbrev JsonText := Option String

/-- A JSON value. The members of an object keep their order and may repeat. -/
inductive JsonValue where
  | null
  | bool (b : Bool)
  /-- A number as it is written. -/
  | number (spelling : String)
  | text (s : JsonText)
  | array (items : List JsonValue)
  | object (members : List (JsonText × JsonValue))

instance : Inhabited JsonValue := ⟨.null⟩

namespace JsonValue

/-- The text that a value is. -/
def text? : JsonValue → Option String
  | text s => s
  | _ => none

/-- The items of an array, each one read. -/
def items? (read : JsonValue → Option α) : JsonValue → Option (List α)
  | array items => items.mapM read
  | _ => none

/-- The texts of an array of texts. -/
def texts? : JsonValue → Option (List String) :=
  items? text?

/-- The whole number that a value is. It is written with digits only, and 64 bits can hold it. -/
def natural? : JsonValue → Option Nat
  | number spelling =>
    let digits := spelling.toList
    let n := digits.foldl (fun n c => n * 10 + (c.toNat - '0'.toNat)) 0
    if digits.all Char.isDigit && n < 0x10000000000000000 then some n else none
  | _ => none

/-- The value of a member that comes at most once: `none` when it repeats. -/
def member? (members : List (JsonText × JsonValue)) (name : String) : Option (Option JsonValue) :=
  match members.filter (·.1 == some name) with
  | [] => some none
  | [(_, v)] => some (some v)
  | _ => none

/-- The fields of a record with given names. A record is an object, whose other members do not
matter, or an array of the fields in order, whose end may be missing. -/
def fields? (names : List String) : JsonValue → Option (List (Option JsonValue))
  | object members =>
    if members.all (·.1.isSome) then names.mapM (member? members) else none
  | array items =>
    if items.length ≤ names.length then
      some (names.zipIdx.map fun (_, i) => items[i]?)
    else none
  | _ => none

/-- A field that has a value when it is missing. -/
def orElse? (read : JsonValue → Option α) (otherwise : α) : Option JsonValue → Option α
  | some v => read v
  | none => some otherwise

/-! ## Writing -/

/-- A character inside quotes. Control characters are escaped, all others stay as they are. -/
def quotedChar (c : Char) : String :=
  match c with
  | '"' => "\\\""
  | '\\' => "\\\\"
  | '\x08' => "\\b"
  | '\x0c' => "\\f"
  | '\n' => "\\n"
  | '\r' => "\\r"
  | '\t' => "\\t"
  | _ => if c < ' ' then "\\u00" ++ Text.hexByte (UInt8.ofNat c.toNat) else c.toString

/-- A text inside quotes. -/
def quotedText (s : JsonText) : String :=
  "\"" ++ String.join ((s.getD "").toList.map quotedChar) ++ "\""

/-- Lines between brackets; brackets without lines stand together. -/
def bracketed (opening closing : String) (levels : Nat) (parts : List String) : String :=
  if parts.isEmpty then opening ++ closing
  else
    let lines := parts.map (Text.margin (levels + 1) ++ ·)
    opening ++ "\n" ++ ",\n".intercalate lines ++ "\n" ++ Text.margin levels ++ closing

mutual

/-- The text of a value inside so many containers. -/
def written (levels : Nat) : JsonValue → String
  | null => "null"
  | bool b => toString b
  | number spelling => spelling
  | text s => quotedText s
  | array items => bracketed "[" "]" levels (itemTexts (levels + 1) items)
  | object members => bracketed "\x7b" "\x7d" levels (memberTexts (levels + 1) members)

/-- The texts of items. -/
def itemTexts (levels : Nat) : List JsonValue → List String
  | [] => []
  | v :: rest => written levels v :: itemTexts levels rest

/-- The texts of members. -/
def memberTexts (levels : Nat) : List (JsonText × JsonValue) → List String
  | [] => []
  | (name, v) :: rest => (quotedText name ++ ": " ++ written levels v) :: memberTexts levels rest

end

/-- The text of a value. -/
def toText (v : JsonValue) : String :=
  v.written 0

end JsonValue

end WireTables
