import WireTables.Domain.Basic
import WireTables.Expression.Lexer
import WireTables.Text.Blank

/-!
# Reading domains

A domain cell holds one item, or a list of items in braces. An item is a bound, or a colon with a
bound on either side or none. A bound is any run of characters without colon, comma or brace;
blanks at its ends do not count, and a value that is nothing else is left out.
-/

namespace WireTables

namespace Domain

/-- A character that may stand inside a bound. -/
def isBoundChar (c : Char) : Bool :=
  !(c == ':' || c == ',' || c == '{' || c == '}')

/-- A bound without the blanks around it, if anything is left. -/
def bound? (cs : List Char) : Option String :=
  match Text.trimChars cs with
  | [] => none
  | c :: rest => some (String.ofList (c :: rest))

/-- The value that a bound writes, unless it is blank. -/
def valueItem (cs : List Char) : List Constraint :=
  (bound? cs).toList.map .value

/-- The item at the start of a text, as at most one constraint, and what follows it. -/
def item? (cs : List Char) : Option (List Constraint × List Char) :=
  let first := cs.takeWhile isBoundChar
  let rest := cs.dropWhile isBoundChar
  match Expression.expect? ':' rest with
  | some after =>
    let after := Expression.skip after
    let second := after.takeWhile isBoundChar
    some ([.range (bound? first) (bound? second)], after.dropWhile isBoundChar)
  | none => if first.isEmpty then none else some (valueItem first, rest)

theorem length_of_item? {cs : List Char} {items : List Constraint} {rest : List Char}
    (h : item? cs = some (items, rest)) : rest.length ≤ cs.length := by
  have drop := (List.dropWhile_sublist (l := cs) isBoundChar).length_le
  simp only [item?] at h
  split at h
  · rename_i after found
    simp only [Option.some.injEq, Prod.mk.injEq] at h
    have h1 := Expression.length_of_expect? found
    have h2 := Expression.length_skip_le after
    have h3 := (List.dropWhile_sublist (l := Expression.skip after) isBoundChar).length_le
    rw [← h.2]
    omega
  · split at h
    · simp at h
    · simp only [Option.some.injEq, Prod.mk.injEq] at h
      rw [← h.2]
      exact drop

/-- Only separators are left. -/
def ends (cs : List Char) : Bool :=
  (Expression.skip cs).isEmpty

/-- Further items, each after a comma, up to the closing brace that ends the text. -/
def moreItems? (cs : List Char) : Option (List Constraint) :=
  match _here : Expression.skip cs with
  | '}' :: rest => if ends rest then some [] else none
  | ',' :: rest =>
    match _step : item? (Expression.skip rest) with
    | none => none
    | some (items, after) => (moreItems? after).map (items ++ ·)
  | _ => none
termination_by cs.length
decreasing_by
  have h1 := Expression.length_skip_le cs
  have h2 := Expression.length_skip_le rest
  have h3 := length_of_item? _step
  rw [_here, List.length_cons] at h1
  omega

/-- The items of a list, its opening brace already read. -/
def listItems? (cs : List Char) : Option (List Constraint) :=
  match item? (Expression.skip cs) with
  | some (items, after) => (moreItems? after).map (items ++ ·)
  | none =>
    match Expression.expect? '}' cs with
    | some after => if ends after then some [] else none
    | none => none

/-- The constraints that a text writes, if it is a domain. -/
def items? (text : List Char) : Option (List Constraint) :=
  match Expression.skip text with
  | [] => some []
  | '{' :: rest => listItems? rest
  | cs =>
    match item? cs with
    | some (items, after) => if ends after then some items else none
    | none => none

/-- The constraints that a text writes. -/
def parse (text : String) : Except Error (List Constraint) :=
  match items? text.toList with
  | some items => .ok items
  | none => .error (.expression text .badDomain)

/-- The domain with the constraints of a cell; a blank cell adds none. -/
def addText (d : Domain) (cell : String) : Except Error Domain :=
  let text := Text.trim cell
  if text.isEmpty then .ok d
  else (parse text).map fun items => ⟨d.constraints ++ items⟩

end Domain

end WireTables
