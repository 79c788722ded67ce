/-!
# Names of constants

A constant usually repeats the name of the type that it belongs to. In a target language the type
stands before it anyway, so the repeated part is taken off.
-/

namespace WireTables.Target

/-- The longest common start of two texts. -/
def commonStart : List Char → List Char → List Char
  | c :: cs, d :: ds => if c == d then c :: commonStart cs ds else []
  | _, _ => []

/-- The part of a text up to and including its last low line. -/
def throughLastUnderscore (cs : List Char) : List Char :=
  (cs.reverse.dropWhile (· != '_')).reverse

/-- A name that starts with a digit with a low line before it, any other name as it is. -/
def guardDigit (cs : List Char) : List Char :=
  match cs with
  | c :: _ => if c.isDigit then '_' :: cs else cs
  | [] => []

/-- The characters of a constant without what it shares with its owner, up to a low line. -/
def withoutOwnerChars (constant owner : List Char) : List Char :=
  let shared := throughLastUnderscore (commonStart constant (owner ++ ['_']))
  let stripped := constant.drop shared.length
  guardDigit (if stripped.isEmpty then constant else stripped)

/-- The name of a constant without what it shares with its owner, up to a low line. A name that
would be empty is kept whole, and no name starts with a digit. -/
def withoutOwner (constant owner : String) : String :=
  String.ofList (withoutOwnerChars constant.toList owner.toList)

end WireTables.Target
