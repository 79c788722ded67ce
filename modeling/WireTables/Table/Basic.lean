import WireTables.Text.Blank
import WireTables.Text.Word

/-!
# Tables

A table as it stands in a document: caption, comment, rows of cells, and for command tables the
number of leading parameters that are handles. A cell is always read without the blanks around
it, and a missing cell reads as an empty one.
-/

namespace WireTables

/-- One table of a document, header row removed. -/
structure Table where
  caption : String
  comment : String := ""
  rows : List (List String)
  handleCount : Nat := 0
  deriving DecidableEq, Repr, Inhabited

namespace Table

/-- The cell of a row at an index. -/
def cell (cells : List String) (i : Nat) : String :=
  Text.trim (cells[i]?.getD "")

/-- The cells of a row from an index on, blank ones left out, as one text. -/
def cellsFrom (cells : List String) (i : Nat) : String :=
  " ".intercalate (((cells.drop i).map Text.trim).filter (!·.isEmpty))

/-- A text that is a name. -/
def isName (s : String) : Bool :=
  Text.isName s.toList

end Table

end WireTables
