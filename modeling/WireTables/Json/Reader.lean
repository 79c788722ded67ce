import WireTables.Json.Token

/-!
# Reading JSON

Tokens are put together by a machine that keeps the containers that are still open, innermost
first, and knows what may come next.
-/

namespace WireTables

namespace JsonValue

/-- A container that is still open, with its parts last first. -/
inductive Frame where
  | array (items : List JsonValue)
  /-- The members before, and the name of the one that is being read. -/
  | object (members : List (JsonText × JsonValue)) (name : JsonText)

/-- What may come next. -/
inductive Next where
  | value
  /-- A value or the end of an empty array. -/
  | valueOrEnd
  | name
  /-- A name or the end of an empty object. -/
  | nameOrEnd
  | colon
  /-- A comma or the end of the innermost container. -/
  | commaOrEnd
  | nothing
  deriving DecidableEq, Repr

/-- A text part way through. -/
structure Machine where
  frames : List Frame := []
  next : Next := .value
  /-- The value of the whole text, once it has ended. -/
  result : JsonValue := .null

namespace Machine

/-- Puts a finished value where it belongs. -/
def finish (v : JsonValue) : List Frame → Machine
  | [] => { next := .nothing, result := v }
  | .array items :: frames => { frames := .array (v :: items) :: frames, next := .commaOrEnd }
  | .object members name :: frames =>
    { frames := .object ((name, v) :: members) none :: frames, next := .commaOrEnd }

/-- Starts a value. -/
def start? (frames : List Frame) : JsonToken → Option Machine
  | .simple v => some (finish v frames)
  | .openArray => some { frames := .array [] :: frames, next := .valueOrEnd }
  | .openObject => some { frames := .object [] none :: frames, next := .nameOrEnd }
  | _ => none

/-- Ends the innermost container. -/
def close? : List Frame → JsonToken → Option Machine
  | .array items :: frames, .closeArray => some (finish (.array items.reverse) frames)
  | .object members _ :: frames, .closeObject => some (finish (.object members.reverse) frames)
  | _, _ => none

/-- Goes on after a comma. -/
def continue? : List Frame → Option Machine
  | .array items :: frames => some { frames := .array items :: frames, next := .value }
  | .object members name :: frames =>
    some { frames := .object members name :: frames, next := .name }
  | [] => none

/-- Takes the name of a member. -/
def name? : List Frame → JsonToken → Option Machine
  | .object members _ :: frames, .simple (.text name) =>
    some { frames := .object members name :: frames, next := .colon }
  | _, _ => none

/-- Takes one token. -/
def step? (m : Machine) (t : JsonToken) : Option Machine :=
  match m.next, t with
  | .value, t => start? m.frames t
  | .valueOrEnd, t => close? m.frames t <|> start? m.frames t
  | .name, t => name? m.frames t
  | .nameOrEnd, t => close? m.frames t <|> name? m.frames t
  | .colon, .colon => some { m with next := .value }
  | .commaOrEnd, .comma => continue? m.frames
  | .commaOrEnd, t => close? m.frames t
  | _, _ => none

end Machine

/-- The value that a text writes. -/
def ofText? (text : String) : Option JsonValue := do
  let m ← (← JsonToken.tokens? text).foldlM Machine.step? {}
  if m.next == .nothing then some m.result else none

end JsonValue

end WireTables
