/-!
# Domains

The legal values of a field or of an interface type: an ordered list of single values and ranges.
Bounds are kept as expression text and are evaluated only where a number is needed.
-/

namespace WireTables

/-- One legal value, or a range whose ends may be open. -/
inductive Constraint where
  | value (text : String)
  | range (lower upper : Option String)
  deriving DecidableEq, Repr

/-- The text of a constraint in listings, with a colon in every range. -/
def Constraint.text : Constraint → String
  | value text => text
  | range lower upper => lower.getD "" ++ ":" ++ upper.getD ""

/-- An ordered list of constraints. -/
structure Domain where
  constraints : List Constraint := []
  deriving DecidableEq, Repr, Inhabited

namespace Domain

/-- The domain without constraints. -/
def empty : Domain := {}

/-- The number of constraints. -/
def size (d : Domain) : Nat :=
  d.constraints.length

/-- No constraint at all. -/
def isEmpty (d : Domain) : Bool :=
  d.constraints.isEmpty

/-- The domain with one more single value. -/
def addValue (d : Domain) (text : String) : Domain :=
  ⟨d.constraints ++ [.value text]⟩

/-- The domain with one more range. -/
def addRange (d : Domain) (lower upper : Option String) : Domain :=
  ⟨d.constraints ++ [.range lower upper]⟩

/-- The constraints of both domains in order. -/
def merge (d e : Domain) : Domain :=
  ⟨d.constraints ++ e.constraints⟩

/-- The constraint at an index. -/
def get? (d : Domain) (i : Nat) : Option Constraint :=
  d.constraints[i]?

/-- The single value at an index. -/
def value? (d : Domain) (i : Nat) : Option String :=
  match d.get? i with
  | some (.value text) => some text
  | _ => none

/-- The lower end of the range at an index. -/
def lower? (d : Domain) (i : Nat) : Option String :=
  match d.get? i with
  | some (.range lower _) => lower
  | _ => none

/-- The upper end of the range at an index. -/
def upper? (d : Domain) (i : Nat) : Option String :=
  match d.get? i with
  | some (.range _ upper) => upper
  | _ => none

/-- Replaces the single value at an index; `none` when there is none. -/
def setValue? (d : Domain) (i : Nat) (text : String) : Option Domain :=
  match d.get? i with
  | some (.value _) => some ⟨d.constraints.set i (.value text)⟩
  | _ => none

/-- Replaces the lower end of the range at an index; `none` when there is none. -/
def setLower? (d : Domain) (i : Nat) (lower : Option String) : Option Domain :=
  match d.get? i with
  | some (.range _ upper) => some ⟨d.constraints.set i (.range lower upper)⟩
  | _ => none

/-- Replaces the upper end of the range at an index; `none` when there is none. -/
def setUpper? (d : Domain) (i : Nat) (upper : Option String) : Option Domain :=
  match d.get? i with
  | some (.range lower _) => some ⟨d.constraints.set i (.range lower upper)⟩
  | _ => none

/-- The upper end of the first range that has one. -/
def maximum? (d : Domain) : Option String :=
  d.constraints.findSome? fun
    | .range _ upper => upper
    | .value _ => none

/-- The value of a domain that is exactly one single value. -/
def onlyValue? (d : Domain) : Option String :=
  match d.constraints with
  | [.value text] => some text
  | _ => none

/-- The text of a domain in listings. -/
def text (d : Domain) : String :=
  "\x7b" ++ ", ".intercalate (d.constraints.map Constraint.text) ++ "\x7d"

end Domain

end WireTables
