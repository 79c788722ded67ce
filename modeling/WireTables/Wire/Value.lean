import WireTables.Wire.Number

/-!
# Values

What a structure of the protocol holds: numbers, truth values, byte strings, structures, lists,
and union values, which name the type that they hold and may be absent.
-/

namespace WireTables.Wire

/-- A value. The fields of a structure are found by name. -/
inductive Value where
  | number (n : Number)
  | bool (b : Bool)
  | bytes (data : List UInt8)
  | struct (fields : List (String × Value))
  | list (items : List Value)
  | union (type : String) (value : Value)
  | null

instance : Inhabited Value := ⟨.null⟩

namespace Value

/-- The value as an unsigned number, if it is one or a truth value. -/
def unsigned? : Value → Option Int
  | number n => if n.kind.signed then none else some n.value
  | bool b => some (if b then 1 else 0)
  | _ => none

/-- The value as a signed 64-bit word, if it is a number or a truth value. -/
def word? : Value → Option Int
  | number n => some n.word
  | bool b => some (if b then 1 else 0)
  | _ => none

/-- The fields of a structure. -/
def fields? : Value → Option (List (String × Value))
  | struct fields => some fields
  | _ => none

/-- The number of elements of an array. -/
def length? : Value → Option Nat
  | bytes data => some data.length
  | list items => some items.length
  | _ => none

mutual

/-- The number of levels of a value. -/
def height : Value → Nat
  | struct fields => fieldsHeight fields + 1
  | list items => itemsHeight items + 1
  | union _ value => height value + 1
  | number _ | bool _ | bytes _ | null => 1

/-- The largest number of levels of some fields. -/
def fieldsHeight : List (String × Value) → Nat
  | [] => 0
  | (_, value) :: rest => max (height value) (fieldsHeight rest)

/-- The largest number of levels of some items. -/
def itemsHeight : List Value → Nat
  | [] => 0
  | value :: rest => max (height value) (itemsHeight rest)

end

/-- The fields with one put in, in the place of the one with the same name if there is one. -/
def putField (name : String) (value : Value) : List (String × Value) → List (String × Value)
  | [] => [(name, value)]
  | (other, old) :: rest =>
    if other == name then (name, value) :: rest else (other, old) :: putField name value rest

end Value

end WireTables.Wire
