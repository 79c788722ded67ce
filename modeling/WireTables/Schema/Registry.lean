import WireTables.Schema.Evaluate

/-!
# Registries

A registry is a schema together with the values of constants that have been found. It is changed
step by step; a change that fails leaves what was done before it.
-/

namespace WireTables

/-- A schema and the values of constants found so far. -/
structure Registry extends Schema where
  known : Known := []
  deriving DecidableEq, Repr

/-- A change of a registry. What was done before a failure stays done. -/
abbrev Edit := ExceptT Error (StateM Registry)

namespace Registry

/-- The registry with the elementary types only. -/
def initial : Registry :=
  { Schema.initial with }

instance : Inhabited Registry := ⟨initial⟩

/-- The remembered value of a constant. -/
def knownValue? (r : Registry) (number : Nat) : Option Int :=
  r.known.lookup number

/-- Runs a calculation; what it finds is remembered also when it fails. -/
def calculate (r : Registry) (m : Schema → ExceptT ε (StateM Known) α) : Except ε α × Registry :=
  let (result, known) := (m r.toSchema).run r.known
  (result, { r with known })

end Registry

namespace Edit

/-- The schema as it stands. -/
def schema : Edit Schema := do
  return (← get).toSchema

/-- Fails or goes on. -/
def ofExcept (r : Except Error α) : Edit α :=
  ExceptT.mk (pure r)

/-- Changes the schema. -/
def update (f : Schema → Schema) : Edit Unit :=
  modify fun r => { r with toSchema := f r.toSchema }

/-- Changes the schema or fails. -/
def tryUpdate (f : Schema → Except Error Schema) : Edit Unit := do
  let s ← ofExcept (f (← schema))
  update fun _ => s

/-- Runs a calculation on the schema as it stands. -/
def calculate (m : Schema → Eval α) : Edit α :=
  ExceptT.mk fun r => r.calculate m

end Edit

end WireTables
