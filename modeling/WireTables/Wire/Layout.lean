import WireTables.Schema.Evaluate

/-!
# Layouts

The plan by which a structure travels: one step for each field in order, except that the length of
a structure is part of the step of the structure that it measures. Whatever reads or writes a
structure follows this plan.
-/

namespace WireTables.Wire

/-- What an array is made of. -/
inductive Element where
  | byte
  | scalar (scalar : Scalar)
  | object (type : String)
  deriving DecidableEq, Repr

/-- Where the length of an array comes from. -/
inductive ArrayLength where
  /-- The number in an earlier field. -/
  | tag (field : String)
  | fixed (count : Nat)
  /-- Whatever is left of the enclosing region. -/
  | rest
  /-- The size of the union member that an earlier field selects. -/
  | selected (union selector : String)
  deriving DecidableEq, Repr

/-- How one field travels. -/
inductive Op where
  | scalar (scalar : Scalar)
  | object (type : String)
  | constant (scalar : Scalar) (value : String)
  /-- The number of elements of an array. -/
  | count (scalar : Scalar) (array : String)
  | array (element : Element) (length : ArrayLength)
  /-- A structure after its length in bytes. -/
  | sized (size : Scalar) (type : String)
  /-- The selector of a union-typed field, `derived` when that field determines it. -/
  | selector (scalar : Scalar) (object : String) (derived : Bool)
  | union (union selector : String)
  deriving DecidableEq, Repr

/-- One step of a layout; `isData` when the field is part of the value. -/
structure Step where
  field : Field
  op : Op
  isData : Bool
  deriving DecidableEq, Repr

/-- The encoding of a field that has to be an elementary value. -/
def scalarOf (s : Schema) (owner : String) (f : Field) : Except Error Scalar :=
  match s.scalar? f.typeName with
  | some scalar => .ok scalar
  | none => .error (.inconsistent owner (.notScalar f.name f.typeName))

/-- The partner of a field that has to have one. -/
def partnerOf (owner : String) (f : Field) : Except Error String :=
  match f.partner with
  | some partner => .ok partner
  | none => .error (.inconsistent owner (.noCounterpart f.name))

/-- The structure that a type name denotes, by the name of the structure itself. -/
def objectName? (s : Schema) (type : String) : Option String :=
  (s.recordOf? type).map (·.1.specName)

/-- What an array field is made of. -/
def elementOf (s : Schema) (owner : String) (f : Field) : Except Error Element :=
  match objectName? s f.typeName with
  | some object => .ok (.object object)
  | none => do
    let scalar ← scalarOf s owner f
    return if scalar.isByte then .byte else .scalar scalar

/-- The length of an array of constant length. -/
def fixedLength (s : Schema) (owner : String) (f : Field) : Eval Nat :=
  match f.arraySize with
  | none => throw (.inconsistent owner (.noLength f.name))
  | some text => do
    let n ← s.evaluate text
    if n < 0 then throw (.inconsistent owner (.negativeLength f.name))
    return n.toNat

/-- The step of a sized structure, whose length is another field. -/
def sizedStep (s : Schema) (owner : String) (fields : List Field) (f : Field) (object : String) :
    Except Error Op := do
  let tag ← partnerOf owner f
  match fields.find? (·.name == tag) with
  | some tag => return .sized (← scalarOf s owner tag) object
  | none => throw (.inconsistent owner (.missingSize f.name))

/-- Some union-typed field is chosen by the selector. -/
def selectsObject (fields : List Field) (selector : Field) : Bool :=
  fields.any fun f => f.marshal == .unionBody && f.partner == some selector.name

/-- The step of a field among the fields of its structure; none for the length of a structure. -/
def stepOf (s : Schema) (owner : String) (fields : List Field) (f : Field) :
    Eval (Option (Op × Bool)) := do
  match f.marshal with
  | .bodySize => return none
  | .plain =>
    match objectName? s f.typeName with
    | some object => return some (.object object, true)
    | none => return some (.scalar (← Eval.ofExcept (scalarOf s owner f)), true)
  | .sizedBody =>
    match objectName? s f.typeName with
    | some object => return some (← Eval.ofExcept (sizedStep s owner fields f object), true)
    | none => return some (.scalar (← Eval.ofExcept (scalarOf s owner f)), true)
  | .constant =>
    match f.domain.onlyValue? with
    | some value => return some (.constant (← Eval.ofExcept (scalarOf s owner f)) value, false)
    | none => throw (.inconsistent owner (.noConstantValue f.name))
  | .count =>
    let scalar ← Eval.ofExcept (scalarOf s owner f)
    return some (.count scalar (← Eval.ofExcept (partnerOf owner f)), false)
  | .selector =>
    let derived := selectsObject fields f
    let scalar ← Eval.ofExcept (scalarOf s owner f)
    return some (.selector scalar (← Eval.ofExcept (partnerOf owner f)) derived, !derived)
  | .unionBody => return some (.union f.typeName (← Eval.ofExcept (partnerOf owner f)), true)
  | .selectedArray =>
    let selector ← Eval.ofExcept (partnerOf owner f)
    return some (.array .byte (.selected f.typeName selector), true)
  | .fixedArray =>
    let element ← Eval.ofExcept (elementOf s owner f)
    return some (.array element (.fixed (← fixedLength s owner f)), true)
  | .countedArray =>
    let element ← Eval.ofExcept (elementOf s owner f)
    return some (.array element (.tag (← Eval.ofExcept (partnerOf owner f))), true)
  | .restArray => return some (.array (← Eval.ofExcept (elementOf s owner f)) .rest, true)

/-- The layout of a structure, fields of its bases first. -/
def layout (s : Schema) (name : String) : Eval (List Step) := do
  let fields ← Eval.ofExcept (s.allFields name)
  fields.filterMapM fun f => do
    return (← stepOf s name fields f).map fun (op, isData) => ⟨f, op, isData⟩

/-- A number of elements of one size as a number of bytes, if that is a size. -/
def byteCount? (size : Nat) (count : Int) : Option Nat := do
  let n ← checkedWord (Schema.sizeWord size * count)
  if n < 0 then none else some n.toNat

/-- The size of a union member that is an array. -/
def memberBytes (s : Schema) (m : UnionMember) (failure : Error) : Eval Nat := do
  let count ← match m.arraySize with
    | some text => s.evaluate text
    | none => pure 1
  match byteCount? (← s.wireSize m.typeName) count with
  | some n => return n
  | none => throw failure

/-- The size of the first member that a selector value chooses. -/
def firstSelected (s : Schema) (union : String) (selector : Int) :
    List UnionMember → Eval (Option Nat)
  | [] => return none
  | m :: rest => do
    if (← s.constantValue m.selector) != selector then firstSelected s union selector rest
    else return some (← memberBytes s m (.inconsistent union (.invalidMemberSize m.name)))

/-- The size of the member of a union that a selector value chooses. -/
def selectedLength (s : Schema) (union : String) (selector : Int) : Eval (Option Nat) := do
  match (← Eval.ofExcept (s.require union "selected length")).union? with
  | some u => firstSelected s union selector u.members
  | none => throw (.inconsistent union .notUnion)

end WireTables.Wire
