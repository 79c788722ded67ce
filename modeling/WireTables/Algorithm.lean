/-!
# Algorithms

The algorithms of the protocol in the order of their table, each with the letters of its classes.
Templates pick the algorithms that have all of the letters they name.
-/

namespace WireTables

/-- An algorithm: its name without the common start, its value and the letters of its classes. -/
structure Algorithm where
  mnemonic : String
  value : String
  classes : String
  deriving DecidableEq, Repr

namespace Algorithm

/-- The algorithm of a table row; only letters count as classes. -/
def ofRow (mnemonic value classes : String) : Algorithm :=
  { mnemonic, value, classes := String.ofList (classes.toList.filter Char.isAlpha) }

/-- The algorithm has every one of the wanted letters. -/
def hasClasses (a : Algorithm) (wanted : List Char) : Bool :=
  wanted.all a.classes.toList.contains

/-- The algorithms that have all wanted letters; none when no letter is wanted. -/
def matching (algorithms : List Algorithm) (wanted : List Char) : List Algorithm :=
  if wanted.isEmpty then [] else algorithms.filter (·.hasClasses wanted)

/-- The first algorithm with a name. -/
def find? (algorithms : List Algorithm) (mnemonic : String) : Option Algorithm :=
  algorithms.find? (·.mnemonic == mnemonic)

end Algorithm

end WireTables
