import WireTables.Config
import WireTables.Domain.Parser
import WireTables.Schema.Link
import WireTables.Table.Row
import WireTables.Table.Template

/-!
# From tables to a schema

The tables of algorithms come first, because they say what templates stand for. Every other table
is expanded, its caption tells what it defines, and its rows are added to the schema. A table
without a known caption, or a template that stands for nothing, is left out and reported; any
other irregularity ends the run. Links between fields are made as rows come in: a row that names an
earlier one as its selector or count turns that one into a tag.
-/

namespace WireTables

/-- Why a table was left out. -/
inductive SkipReason where
  | unrecognizedCaption
  | unclassifiedAlgorithm (classes : String)
  deriving DecidableEq, Repr

/-- What was done with the tables. -/
structure ExtractionReport where
  /-- Tables after expansion whose rows went into the schema. -/
  processed : Nat := 0
  /-- Tables that came out of expansion. -/
  expanded : Nat := 0
  /-- Captions of the tables left out. -/
  skipped : List (String × SkipReason) := []
  deriving DecidableEq, Repr

/-- A step that adds to a schema. -/
abbrev Build := StateT Schema (Except Error)

namespace Build

/-- Changes the schema or fails. -/
def update (f : Schema → Except Error Schema) : Build Unit := do
  set (← StateT.lift (f (← get)))

/-- Adds a type at the end. -/
def addType (t : TypeEntry) : Build Unit :=
  update (·.addType t)

/-- Adds a constant and gives its number; a repeated one that is reserved is left out. -/
def addConstant (config : Config) (c : Constant) : Build (Option Nat) := do
  let s ← get
  if s.hasConstant c.specName && config.reserved.allowsDrop c.owner c.comment then return none
  update (·.addConstant c)
  return some s.constants.size

/-- Adds an enumeration without constants unless the name is taken. -/
def ensureEnum (name underlying : String) (isGroup : Bool) : Build Unit := do
  if !(← get).contains name then
    addType (.new name (.enum { underlying, isGroup }))

/-- Adds constants and an error code to an enumeration. -/
def extendEnum (name : String) (numbers : List Nat) (errorCode : Option String) : Build Unit :=
  modify fun s => s.modifyType name fun t =>
    match t.kind with
    | .enum e =>
      let e := { e with members := e.members ++ numbers, errorCode := errorCode <|> e.errorCode }
      { t with kind := .enum e }
    | _ => t

end Build

namespace Row

/-- The contents of rows in order. -/
def contents (rows : List (Row α)) : List α :=
  rows.filterMap fun
    | .content a => some a
    | _ => none

/-- The error code of the last row that names one. -/
def lastErrorCode (rows : List (Row α)) : Option String :=
  (rows.filterMap fun
    | .errorCode code => some code
    | _ => none).getLast?

end Row

namespace Extraction

/-- The enumeration of algorithm identifiers. -/
def algorithmEnum : String := "TPM_ALG_ID"

/-- Types of the document's implementation language that stand for elementary types. -/
def baseTypeNames : List (String × String) :=
  [("uint8_t", "UINT8"), ("int8_t", "INT8"), ("uint16_t", "UINT16"), ("int16_t", "INT16"),
    ("uint32_t", "UINT32"), ("int32_t", "INT32"), ("uint64_t", "UINT64"), ("int64_t", "INT64"),
    ("int", "INT32"), ("unsigned", "UINT32")]

/-- Adds algorithms. -/
def addAlgorithms (config : Config) (base : String) (rows : List (Row AlgorithmRow)) :
    Build Unit := do
  Build.ensureEnum algorithmEnum base false
  let numbers ← (Row.contents rows).filterMapM fun row => do
    let number ← Build.addConstant config (.new row.name row.value algorithmEnum row.comment)
    if number.isSome then
      let mnemonic := Text.dropHead config.algPrefix row.name
      modify fun s =>
        { s with algorithms := s.algorithms ++ [.ofRow mnemonic row.value row.classes] }
    return number
  Build.extendEnum algorithmEnum numbers (Row.lastErrorCode rows)

/-- Adds the constants of an enumeration. -/
def addConstants (config : Config) (name : String) (base : Option String)
    (rows : List (Row ConstantRow)) : Build Unit := do
  Build.ensureEnum name (base.getD "UINT32") base.isNone
  let numbers ← (Row.contents rows).filterMapM fun row =>
    Build.addConstant config (.new row.name row.value name row.comment)
  Build.extendEnum name numbers (Row.lastErrorCode rows)

/-- Adds further names of types. A name of an elementary type is left as it is. -/
def addAliases (rows : List (Row AliasRow)) : Build Unit := do
  (Row.contents rows).forM fun row => do
    match ((← get).lookup? row.name).map TypeEntry.kind with
    | some (.value _) => return ()
    | _ =>
      let base := (baseTypeNames.lookup row.base).getD row.base
      let errorCode := Row.lastErrorCode rows
      Build.addType (.new row.name (.aliasOf { base, errorCode }) row.comment)

/-- Adds an interface type: a further name with a domain. -/
def addInterface (name base : String) (rows : List (Row InterfaceRow)) : Build Unit := do
  let domain ← (Row.contents rows).foldlM
    (fun (d : Domain) row => if row.isNull then pure d else StateT.lift (d.addText row.text)) {}
  let nullValue := (((Row.contents rows).filter (·.isNull)).getLast?).map (·.text)
  Build.addType
    (.new name (.aliasOf { base, domain, nullValue, errorCode := Row.lastErrorCode rows }))

/-- The constants that describe bits: their value if there is one bit, else mask, offset and
length. -/
def bitConstants (name : String) (m : BitfieldMember) : List (String × String) :=
  let start := name ++ "_" ++ m.name
  if m.width == 1 then [(start, "1 << " ++ toString m.first)]
  else
    [(start ++ "_BIT_MASK", "0x" ++ Text.hexUpper m.mask),
      (start ++ "_BIT_OFFSET", toString m.first),
      (start ++ "_BIT_LENGTH", toString m.width)]

/-- Adds a bitfield and the constants that describe its bits. -/
def addBitfield (config : Config) (name base : String) (rows : List (Row BitsRow)) :
    Build Unit := do
  let members : List BitfieldMember := (Row.contents rows).map fun row =>
    { name := row.name, first := row.first, last := row.last, enumType := row.enumType,
      comment := row.comment }
  let described := members.flatMap fun m => (bitConstants name m).map (m, ·)
  let constants ← described.filterMapM fun (m, constant, value) =>
    Build.addConstant config (.new constant value name m.comment)
  Build.addType (.new name (.bitfield
    { underlying := base, members, constants, errorCode := Row.lastErrorCode rows }))

/-- The fields with the first one of a name changed. -/
def changeFirst (name : String) (f : Field → Field) : List Field → List Field
  | [] => []
  | g :: rest => if g.name == name then f g :: rest else g :: changeFirst name f rest

/-- A field with the name exists. -/
def hasField (fields : List Field) (name : String) : Bool :=
  fields.any (·.name == name)

/-- The field of a row before it is linked to others. -/
def plainField (row : FieldRow) : Except Error Field := do
  let domain ← ({} : Domain).addText (row.domain.getD "")
  let field : Field :=
    { name := row.name, typeName := row.typeName, requiresAuth := row.requiresAuth,
      nullable := row.nullable, sizeMarker := row.sizeMarker, comment := row.comment, domain }
  return match row.constant with
    | some value => { field with marshal := .constant, domain := Domain.empty.addValue value }
    | none => field

/-- Makes an earlier field the selector of a new one. -/
def linkSelector (owner : String) (fields : List Field) (field : Field) (selector : Option String) :
    Except Error (List Field × Field) :=
  match selector with
  | none => .ok (fields, field)
  | some selector =>
    if hasField fields selector then
      .ok (changeFirst selector
            (fun tag => { tag with marshal := .selector, partner := some field.name }) fields,
          { field with marshal := .unionBody, partner := some selector })
    else .error (.inconsistent owner (.missingSelector field.name selector))

/-- Makes a new field an array. Its length is implied when nothing is written, an earlier field when
it names one, and a constant otherwise. -/
def linkCount (fields : List Field) (field : Field) (array : Option String) :
    List Field × Field :=
  match array with
  | none => (fields, field)
  | some length =>
    if length.isEmpty then (fields, { field with marshal := .restArray })
    else if hasField fields length then
      (changeFirst length
        (fun tag => { tag with marshal := .count, partner := some field.name }) fields,
        { field with marshal := .countedArray, partner := some length })
    else (fields, { field with marshal := .fixedArray, arraySize := some length })

/-- The fields of a structure with those of one more row. -/
def addField (owner : String) (fields : List Field) (row : FieldRow) :
    Except Error (List Field) := do
  let field ← plainField row
  let (fields, field) ← linkSelector owner fields field row.selector
  let (fields, field) := linkCount fields field row.array
  return fields ++ [field]

/-- Adds a structure. -/
def addRecord (name comment : String) (rows : List (Row FieldRow)) : Build Unit := do
  let fields ← StateT.lift ((Row.contents rows).foldlM (addField name) [])
  Build.addType (.new name (.record { fields, errorCode := Row.lastErrorCode rows }) comment)

/-- The first command code that a text names. -/
def commandCode? : List Char → Option String
  | [] => none
  | c :: rest =>
    match (Text.dropHeadChars? "TPM_CC_".toList (c :: rest)).map (·.takeWhile Text.isWord) with
    | some (d :: word) => some ("TPM_CC_" ++ String.ofList (d :: word))
    | _ => commandCode? rest

/-- A parameter is added to a command; the first ones are handles. -/
def addParameter (owner : String) (handleCount : Nat) (r : Record) (row : FieldRow) :
    Except Error Record := do
  let isHandle := decide (r.fields.length < handleCount)
  let fields ← addField owner r.fields row
  let fields := fields.dropLast ++ (fields.getLast?.map ({ · with isHandle })).toList
  return { r with
    fields
    handleCount := r.handleCount + (if isHandle then 1 else 0)
    authHandleCount := r.authHandleCount + (if isHandle && row.requiresAuth then 1 else 0) }

/-- The command code of a request: the one its header names, else one made from its name. -/
def requestCode (command : String) (rows : List CommandRow) : String :=
  let named := rows.filterMap fun
    | .header name comment => if name == "commandCode" then commandCode? comment.toList else none
    | .parameter _ => none
  named.getLast?.getD ("TPM_CC_" ++ Text.dropHead "TPM2_" command)

/-- Adds the request or the response of a command. A response without parameters is not put out. -/
def addCommand (command : String) (isRequest : Bool) (handleCount : Nat)
    (rows : List (Row CommandRow)) : Build Unit := do
  let name := command ++ (if isRequest then "_REQUEST" else "_RESPONSE")
  let content := Row.contents rows
  let parameters := content.filterMap fun
    | .parameter field => some field
    | .header .. => none
  let r ← StateT.lift (parameters.foldlM (addParameter name handleCount) {})
  let role :=
    if isRequest then .request command (requestCode command content) else .response command
  let entry := TypeEntry.new name (.record { r with role, errorCode := Row.lastErrorCode rows })
  Build.addType { entry with implemented := isRequest || !r.fields.isEmpty }

/-- The selector is the one that stands for absence, however it is written. -/
def isNullSelector (config : Config) (s : Schema) (selector : String) : Bool :=
  selector == config.nullSelector ||
    (s.constant? selector).any (·.specName == config.nullSelector)

/-- Adds a union member. One without a type gets an empty structure as its type. -/
def addMember (config : Config) (name : String) (u : UnionType) (row : MemberRow) :
    Build UnionType := do
  let isNull := row.typeName.isEmpty || isNullSelector config (← get) row.selector
  let emptyRecord := "TPMS_NULL_" ++ Text.dropHead "TPMU_" name
  if row.typeName.isEmpty && !(← get).contains emptyRecord then
    Build.addType (.new emptyRecord (.record {}))
  let member : UnionMember :=
    { name := row.name, typeName := if row.typeName.isEmpty then emptyRecord else row.typeName,
      selector := row.selector, arraySize := row.arraySize, comment := row.comment }
  return { u with
    members := u.members ++ [member]
    nullMember := if isNull then u.nullMember <|> some u.members.length else u.nullMember }

/-- Adds a union. -/
def addUnion (config : Config) (name comment : String) (rows : List (Row MemberRow)) :
    Build Unit := do
  let u ← (Row.contents rows).foldlM (addMember config name) {}
  Build.addType (.new name (.union { u with errorCode := Row.lastErrorCode rows }) comment)

/-- Adds what a table of known kind defines. -/
def addTable (config : Config) (t : Table) (kind : TableKind) : Build Unit := do
  let rows {α : Type} (content? : List String → Option (Row α)) : Build (List (Row α)) :=
    StateT.lift (Row.readAll content? t.caption kind.label 0 t.rows)
  match kind with
  | .algorithms base => addAlgorithms config base (← rows Row.algorithm?)
  | .constants name base => addConstants config name base (← rows Row.constant?)
  | .aliases => addAliases (← rows Row.alias?)
  | .interface name base => addInterface name base (← rows Row.interface?)
  | .bitfield name base => addBitfield config name base (← rows Row.bits?)
  | .record name => addRecord name t.comment (← rows Row.structureField?)
  | .union name => addUnion config name t.comment (← rows Row.member?)
  | .request command => addCommand command true t.handleCount (← rows Row.command?)
  | .response command => addCommand command false t.handleCount (← rows Row.command?)

/-- The table defines algorithms. -/
def isAlgorithmTable (t : Table) : Bool :=
  match Caption.kind? t.caption with
  | some (.algorithms _) => true
  | _ => false

/-- Adds a table of algorithms; other tables are passed over. -/
def addAlgorithmTable (config : Config) (report : ExtractionReport) (t : Table) :
    Build ExtractionReport := do
  match Caption.kind? t.caption with
  | some (.algorithms base) =>
    addTable config t (.algorithms base)
    return { report with processed := report.processed + 1 }
  | _ => return report

/-- Adds an expanded table; tables of algorithms are passed over. -/
def addExpandedTable (config : Config) (report : ExtractionReport) (t : Table) :
    Build ExtractionReport := do
  match Caption.kind? t.caption with
  | some (.algorithms _) => return report
  | some kind =>
    addTable config t kind
    return { report with processed := report.processed + 1 }
  | none =>
    return { report with skipped := report.skipped ++ [(t.caption, .unrecognizedCaption)] }

/-- Adds the tables that a table stands for. -/
def addOtherTable (config : Config) (report : ExtractionReport) (t : Table) :
    Build ExtractionReport := do
  match t.expand (← get).algorithms with
  | .error u =>
    let reason := .unclassifiedAlgorithm u.classes
    return { report with skipped := report.skipped ++ [(t.caption, reason)] }
  | .ok none => addExpandedTable config report t
  | .ok (some tables) =>
    tables.foldlM (addExpandedTable config)
      { report with expanded := report.expanded + tables.length }

/-- Union-typed fields of array unions become byte arrays whose length the selector implies. -/
def selectArrays (s : Schema) : Schema :=
  let arrayUnions := (s.unions.filter (·.2.isArrayUnion)).map (·.1.specName)
  let change (f : Field) : Field :=
    if f.marshal == .unionBody && arrayUnions.contains f.typeName then
      { f with marshal := .selectedArray }
    else f
  { s with types := s.types.map (·.mapRecord fun r => { r with fields := r.fields.map change }) }

/-- Adds all tables, the tables of algorithms first. -/
def addTables (config : Config) (tables : List Table) : Build ExtractionReport := do
  let report ← tables.foldlM (addAlgorithmTable config) {}
  tables.foldlM (addOtherTable config) report

/-- The registry that tables define, all of whose references are known to hold. -/
def extract (tables : List Table) (config : Config) :
    Except Error (Registry × ExtractionReport) := do
  let (report, s) ← addTables config tables { Schema.initial with algPrefix := config.algPrefix }
  let registry : Registry := { (selectArrays s).linkUnions with }
  match registry.calculate (·.checkReferences) with
  | (.ok (), registry) => return (registry, report)
  | (.error e, _) => throw e

end Extraction

end WireTables
