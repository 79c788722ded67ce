import WireTables.Text.Blank
import WireTables.Text.Hex
import WireTables.Text.Lines
import WireTables.Text.Quoted
import WireTables.Wire.Value

/-!
# Values as text

The tree of a value over several lines, and the short form of a value inside messages.
-/

namespace WireTables.Wire

namespace Value

/-- Fields in the order of their names. -/
def sortFields (fields : List (String × String)) : List (String × String) :=
  fields.mergeSort fun a b => !(b.1 < a.1)

mutual

/-- The tree of a value. -/
def tree (indent : Nat) : Value → String
  | number n =>
    let digits := if n.kind.signed then toString n.value else "0x" ++ Text.hexLower n.value.toNat
    Text.margin indent ++ digits
  | bool b => Text.margin indent ++ toString b
  | bytes data => Text.margin indent ++ "hex(" ++ " ".intercalate (data.map Text.hexByte) ++ ")"
  | null => Text.margin indent ++ "null"
  | union type value => Text.margin indent ++ type ++ " " ++ Text.trimStart (tree indent value)
  | struct fields =>
    let lines := (sortFields (fieldTrees (indent + 1) fields)).map fun (name, text) =>
      Text.margin indent ++ "  " ++ name ++ ": " ++ text
    "\n".intercalate ([Text.margin indent ++ "\x7b"] ++ lines ++ [Text.margin indent ++ "\x7d"])
  | list [] => Text.margin indent ++ "[]"
  | list (item :: items) =>
    let lines := (itemTrees (indent + 1) (item :: items)).zipIdx.map fun (text, i) =>
      Text.margin indent ++ "  [" ++ toString i ++ "] " ++ text
    "\n".intercalate ([Text.margin indent ++ "["] ++ lines ++ [Text.margin indent ++ "]"])

/-- The trees of fields, without the blanks at their start. -/
def fieldTrees (indent : Nat) : List (String × Value) → List (String × String)
  | [] => []
  | (name, value) :: rest => (name, Text.trimStart (tree indent value)) :: fieldTrees indent rest

/-- The trees of items, without the blanks at their start. -/
def itemTrees (indent : Nat) : List Value → List String
  | [] => []
  | value :: rest => Text.trimStart (tree indent value) :: itemTrees indent rest

end

/-- The first line of the tree of a value. -/
def summary (v : Value) : String :=
  ((Text.lines (tree 0 v)).head?.map Text.trim).getD ""

mutual

/-- The short form of a value. The fields of a structure are left out. -/
def short : Value → String
  | number n => n.kind.label ++ "(" ++ toString n.value ++ ")"
  | bool b => "Bool(" ++ toString b ++ ")"
  | bytes data => "Bytes([" ++ ", ".intercalate (data.map fun b => toString b.toNat) ++ "])"
  | struct _ => "Struct(\x7b"
  | list items => "List([" ++ ", ".intercalate (shorts items) ++ "])"
  | union type value =>
    "Union \x7b type_name: " ++ Text.quoted type ++ ", value: " ++ short value ++ " \x7d"
  | null => "Null"

/-- The short forms of items. -/
def shorts : List Value → List String
  | [] => []
  | value :: rest => short value :: shorts rest

end

end Value

end WireTables.Wire
