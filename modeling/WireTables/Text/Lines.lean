/-!
# Lines of a text

A line ends at a line feed, with a carriage return before it taken off; text after the last line
feed is a line when it is not empty.
-/

namespace WireTables.Text

/-- The pieces around the line feeds: one more than there are line feeds. -/
def splitLines : List Char → List (List Char)
  | [] => [[]]
  | c :: rest =>
    if c == '\n' then [] :: splitLines rest
    else
      match splitLines rest with
      | [] => [[c]]
      | line :: more => (c :: line) :: more

/-- A line without the carriage return at its end. -/
def dropReturn (line : List Char) : List Char :=
  if line.getLast? == some '\r' then line.dropLast else line

/-- The lines of a text. Only a line that a line feed ends loses its carriage return. -/
def lines (s : String) : List String :=
  let pieces := splitLines s.toList
  let ended := pieces.dropLast.map fun line => String.ofList (dropReturn line)
  match pieces.getLast? with
  | some (c :: rest) => ended ++ [String.ofList (c :: rest)]
  | _ => ended

/-- The blanks at the start of a line, two for each level. -/
def margin (levels : Nat) : String :=
  String.join (List.replicate levels "  ")

/-- Every line that is not empty with `start` before it, joined by line feeds. -/
def indent (start : String) (s : String) : String :=
  "\n".intercalate ((lines s).map fun l => if l.isEmpty then "" else start ++ l)

end WireTables.Text
