import WireTables.Text.Blank
import WireTables.Text.Search
import WireTables.Text.Word

/-!
# Captions

A caption says what kind of table it stands over. It is first brought to a plain form, without
the table number, the attributes in angle brackets and the conditions in braces, and with single
blanks between words; then its words decide.
-/

namespace WireTables

/-- What a table defines. -/
inductive TableKind where
  /-- The identifiers of algorithms, with their base type. -/
  | algorithms (base : String)
  | constants (name : String) (base : Option String)
  /-- Further names of types. -/
  | aliases
  | interface (name base : String)
  | record (name : String)
  | bitfield (name base : String)
  | union (name : String)
  | request (command : String)
  | response (command : String)
  deriving DecidableEq, Repr

namespace TableKind

/-- The word for a kind of table in messages. -/
def label : TableKind → String
  | algorithms _ => "algorithm"
  | constants .. => "constants"
  | aliases => "typedef"
  | interface .. => "interface"
  | record _ => "structure"
  | bitfield .. => "bitfield"
  | union _ => "union"
  | request _ => "command"
  | response _ => "response"

end TableKind

namespace Caption

/-- A character that ends a table number. -/
def isNumberEnd (c : Char) : Bool :=
  c == '—' || c == '–' || c == '-' || c == ':'

/-- A character of a table number. -/
def isNumberChar (c : Char) : Bool :=
  Text.isWord c || c == '.' || c == '-'

/-- What follows a table number whose end mark stands after it, blanks in between allowed. -/
def afterEndMark? (cs : List Char) : Option (List Char) :=
  match cs.dropWhile Text.isBlank with
  | c :: rest => if isNumberEnd c then some (rest.dropWhile Text.isBlank) else none
  | [] => none

/-- What follows the longest table number with an end mark, given at least one character of it.
The number itself may hold hyphens, the last of which can serve as the mark. -/
def afterNumber? : List Char → Option (List Char)
  | [] => afterEndMark? []
  | c :: rest =>
    if isNumberChar c then afterNumber? rest <|> afterEndMark? (c :: rest)
    else afterEndMark? (c :: rest)

/-- The caption without its table number. -/
def dropNumber (cs : List Char) : List Char :=
  let label? : Option (List Char) := do
    let rest ← Text.dropHeadChars? "Table".toList (cs.dropWhile Text.isBlank)
    match rest with
    | blank :: rest =>
      if Text.isBlank blank then
        match rest.dropWhile Text.isBlank with
        | c :: number => if isNumberChar c then afterNumber? number else none
        | [] => none
      else none
    | [] => none
  label?.getD cs

/-- The text without its parts from an opening mark to the next closing mark. -/
def dropBracketed (opening closing : Char) (cs : List Char) : List Char :=
  match cs with
  | [] => []
  | c :: rest =>
    if c == opening && rest.contains closing then
      dropBracketed opening closing ((rest.dropWhile (· != closing)).drop 1)
    else c :: dropBracketed opening closing rest
termination_by cs.length
decreasing_by
  · have := (List.dropWhile_sublist (l := rest) (· != closing)).length_le
    simp only [List.length_drop, List.length_cons]
    omega
  · simp

/-- Runs of blanks as single blanks. -/
def collapse : List Char → List Char
  | [] => []
  | c :: rest =>
    if Text.isBlank c then
      match rest with
      | next :: _ => if Text.isBlank next then collapse rest else ' ' :: collapse rest
      | [] => [' ']
    else c :: collapse rest

/-- The plain form of a caption. -/
def plainChars (cs : List Char) : List Char :=
  collapse (Text.trimChars (dropBracketed '{' '}' (dropBracketed '<' '>' (dropNumber cs))))

/-- The plain form of a caption. -/
def plain (caption : String) : String :=
  String.ofList (plainChars caption.toList)

/-- The pieces of a text between single blanks. -/
def splitWords : List Char → List (List Char)
  | [] => [[]]
  | c :: rest =>
    if c == ' ' then [] :: splitWords rest
    else
      match splitWords rest with
      | [] => [[c]]
      | word :: more => (c :: word) :: more

/-- A non-empty text of word characters. -/
def wordText? (cs : List Char) : Option String :=
  if !cs.isEmpty && cs.all Text.isWord then some (String.ofList cs) else none

/-- A word in parentheses. -/
def parenthesized? : List Char → Option String
  | '(' :: rest => if rest.getLast? == some ')' then wordText? rest.dropLast else none
  | _ => none

/-- The name of a command: a word that goes on after the mark of commands. -/
def commandName? (cs : List Char) : Option String := do
  let rest ← Text.dropHeadChars? "TPM2_".toList cs
  let _ ← wordText? rest
  return String.ofList cs

/-- The kind of a definition, from the words after `Definition of`. -/
def kindOfDefinition? (words : List (List Char)) : Option TableKind :=
  match words.map String.ofList, words with
  | ["Base", "Types"], _ => some .aliases
  | "Types" :: "for" :: _ :: _, _ => some .aliases
  | [_, "TPM_ALG_ID", "Constants"], [base, _, _] => (parenthesized? base).map .algorithms
  | [_, _, "Constants"], [base, name, _] => do
    return .constants (← wordText? name) (some (← parenthesized? base))
  | [_, "Constants"], [name, _] => do return .constants (← wordText? name) none
  | [_, _, "Type"], [base, name, _] => do
    return .interface (← wordText? name) (← parenthesized? base)
  | [_, "Structure"], [name, _] => (wordText? name).map .record
  | [_, _, "Bits"], [base, name, _] => do
    return .bitfield (← wordText? name) (← parenthesized? base)
  | [_, "Union"], [name, _] => (wordText? name).map .union
  | _, _ => none

/-- The kind of table under a plain caption. -/
def kindOfPlain? (plain : List Char) : Option TableKind :=
  match splitWords plain with
  | first :: second :: rest =>
    if first == "Definition".toList && second == "of".toList then kindOfDefinition? rest
    else if rest.isEmpty && second == "Command".toList then (commandName? first).map .request
    else if rest.isEmpty && second == "Response".toList then (commandName? first).map .response
    else none
  | _ => none

/-- The kind of table under a caption, if the caption is a known one. -/
def kind? (caption : String) : Option TableKind :=
  kindOfPlain? (plainChars caption.toList)

end Caption

end WireTables
