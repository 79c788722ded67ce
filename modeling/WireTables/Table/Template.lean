import WireTables.Algorithm
import WireTables.Table.Basic
import WireTables.Text.Case
import WireTables.Text.Search

/-!
# Templates

A caption with a marker stands for one table for each algorithm that has the marker's letters; a
row with a marker stands for one row for each. A marker is `!ALG` or `!alg`, with a full stop and
letters after it or none, and gives way to the name of the algorithm in upper or lower case.
-/

namespace WireTables

/-- A marker: whether the name comes in upper case, and the letters that it asks for. -/
structure Marker where
  upper : Bool
  classes : Option (List Char)
  deriving DecidableEq, Repr

namespace Marker

/-- An ASCII capital letter. -/
def isClassLetter (c : Char) : Bool :=
  'A' ≤ c && c ≤ 'Z'

/-- The letters after a full stop at the start of a text, if there are any. -/
def letters? : List Char → Option (List Char)
  | '.' :: rest =>
    match rest.takeWhile isClassLetter with
    | [] => none
    | letters => some letters
  | _ => none

/-- The marker at the start of a text, and the number of its characters. -/
def at? (cs : List Char) : Option (Marker × Nat) :=
  let found (upper : Bool) (rest : List Char) : Marker × Nat :=
    match letters? rest with
    | some letters => (⟨upper, some letters⟩, 5 + letters.length)
    | none => (⟨upper, none⟩, 4)
  match Text.dropHeadChars? "!ALG".toList cs with
  | some rest => some (found true rest)
  | none => (Text.dropHeadChars? "!alg".toList cs).map (found false)

/-- The markers of a text from left to right, the first `pending` characters skipped. -/
def allIn : Nat → List Char → List Marker
  | _, [] => []
  | pending + 1, _ :: rest => allIn pending rest
  | 0, c :: rest =>
    match at? (c :: rest) with
    | some (marker, length) => marker :: allIn (length - 1) rest
    | none => allIn 0 rest

/-- The text with each marker replaced by a name in its case, the first `pending` characters
skipped. -/
def replaceIn (upper lower : List Char) : Nat → List Char → List Char
  | _, [] => []
  | pending + 1, _ :: rest => replaceIn upper lower pending rest
  | 0, c :: rest =>
    match at? (c :: rest) with
    | some (marker, length) =>
      (if marker.upper then upper else lower) ++ replaceIn upper lower (length - 1) rest
    | none => c :: replaceIn upper lower 0 rest

/-- The text holds a marker. -/
def occursIn (text : String) : Bool :=
  !(allIn 0 text.toList).isEmpty

/-- The letters of the first marker that has any. -/
def classesIn? (text : String) : Option (List Char) :=
  (allIn 0 text.toList).findSome? (·.classes)

end Marker

namespace Algorithm

/-- The text with every marker replaced by the name of the algorithm. -/
def substitute (a : Algorithm) (text : String) : String :=
  String.ofList <|
    Marker.replaceIn (Text.upper a.mnemonic).toList (Text.lower a.mnemonic).toList 0 text.toList

/-- The row with every marker replaced by the name of the algorithm. -/
def substituteRow (a : Algorithm) (cells : List String) : List String :=
  cells.map a.substitute

/-- The table with every marker replaced by the name of the algorithm. -/
def substituteTable (a : Algorithm) (t : Table) : Table :=
  { caption := a.substitute t.caption
    comment := a.substitute t.comment
    rows := t.rows.map a.substituteRow
    handleCount := t.handleCount }

end Algorithm

namespace Table

/-- The letters that no algorithm has, for a template that stands for nothing. -/
structure Unclassified where
  classes : String
  deriving DecidableEq, Repr

/-- The wording of a template that stands for nothing. -/
def Unclassified.message (u : Unclassified) : String :=
  "algorithm macro '!ALG." ++ u.classes ++ "' matches no classified algorithm"

/-- The row holds a marker. -/
def rowHasMarker (cells : List String) : Bool :=
  cells.any Marker.occursIn

/-- The rows that one row stands for. -/
def expandRow (algorithms : List Algorithm) (cells : List String) :
    Except Unclassified (List (List String)) :=
  if rowHasMarker cells then
    let classes := (cells.findSome? Marker.classesIn?).getD []
    match Algorithm.matching algorithms classes with
    | [] => .error ⟨String.ofList classes⟩
    | chosen => .ok (chosen.map (·.substituteRow cells))
  else .ok [cells]

/-- The tables that a table stands for; `none` when it holds no marker. -/
def expand (t : Table) (algorithms : List Algorithm) :
    Except Unclassified (Option (List Table)) :=
  if Marker.occursIn t.caption then
    let classes := (Marker.classesIn? t.caption).getD []
    match Algorithm.matching algorithms classes with
    | [] => .error ⟨String.ofList classes⟩
    | chosen => .ok (some (chosen.map (·.substituteTable t)))
  else if t.rows.any rowHasMarker then do
    let rows ← t.rows.mapM (expandRow algorithms)
    return some [{ t with rows := rows.flatten }]
  else .ok none

end Table

end WireTables
