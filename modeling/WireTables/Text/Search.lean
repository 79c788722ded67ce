/-!
# Finding one text in another

Removal of a leading text, occurrence anywhere, and replacement of every occurrence from left to
right without overlap.
-/

namespace WireTables.Text

/-- What follows `head` in a text that starts with it. -/
def dropHeadChars? (head cs : List Char) : Option (List Char) :=
  if head.isPrefixOf cs then some (cs.drop head.length) else none

/-- What follows `head` in a text that starts with it. -/
def dropHead? (head s : String) : Option String :=
  (dropHeadChars? head.toList s.toList).map String.ofList

/-- What follows `head` in a text that starts with it, else the text itself. -/
def dropHead (head s : String) : String :=
  (dropHead? head s).getD s

/-- The characters of `part` occur in a row. -/
def occursChars (part : List Char) : List Char → Bool
  | [] => part.isEmpty
  | c :: rest => part.isPrefixOf (c :: rest) || occursChars part rest

/-- The text holds `part` somewhere. -/
def occurs (part s : String) : Bool :=
  occursChars part.toList s.toList

/-- Replaces every occurrence of a non-empty `part`, skipping `pending` characters first. -/
def replaceChars (part filler : List Char) : Nat → List Char → List Char
  | _, [] => []
  | pending + 1, _ :: rest => replaceChars part filler pending rest
  | 0, c :: rest =>
    if part.isPrefixOf (c :: rest) then filler ++ replaceChars part filler (part.length - 1) rest
    else c :: replaceChars part filler 0 rest

/-- The text with every occurrence of a non-empty `part` removed. -/
def removeAll (part s : String) : String :=
  String.ofList (replaceChars part.toList [] 0 s.toList)

/-- The part of a text before the first occurrence of `part`, when there is one. -/
def beforeChars? (part : List Char) : List Char → Option (List Char)
  | [] => if part.isEmpty then some [] else none
  | c :: rest =>
    if part.isPrefixOf (c :: rest) then some [] else (beforeChars? part rest).map (c :: ·)

end WireTables.Text
