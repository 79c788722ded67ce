import WireTables.Config
import WireTables.Json.Reader
import WireTables.Storage.Basic
import WireTables.Table.Basic

/-!
# Tables and configurations in files

Documents are JSON. One of tables is an array of records with the caption, the comment, the rows of
cells and the number of handles; comment and number may be missing. One of a configuration is a
record, and what is missing has its usual value. Tables come from one document, or from all documents
of a folder in the order of their names.
-/

namespace WireTables

/-! ## Documents -/

namespace Table

/-- The names of the fields of a table. -/
def fieldNames : List String :=
  ["captionText", "commentText", "rows", "numHandles"]

/-- The table that a record holds. -/
def ofJson? (v : JsonValue) : Option Table :=
  match v.fields? fieldNames with
  | some [some caption, comment, some rows, handles] => do
    return {
      caption := ← caption.text?
      comment := ← JsonValue.orElse? JsonValue.text? "" comment
      rows := ← rows.items? JsonValue.texts?
      handleCount := ← JsonValue.orElse? JsonValue.natural? 0 handles }
  | _ => none

/-- The record of a table. -/
def toJson (t : Table) : JsonValue :=
  let text (s : String) : JsonValue := .text (some s)
  let row (cells : List String) : JsonValue := .array (cells.map text)
  let values := [text t.caption, text t.comment, .array (t.rows.map row),
    .number (toString t.handleCount)]
  .object ((fieldNames.map some).zip values)

/-- The tables of a document, if it is one. -/
def ofDocument? (text : String) : Option (List Table) := do
  (← JsonValue.ofText? text).items? ofJson?

/-- The document of some tables. -/
def toDocument (tables : List Table) : String :=
  (JsonValue.array (tables.map toJson)).toText

end Table

/-- The rule that a record holds. -/
def ReservedRule.ofJson? (v : JsonValue) : Option ReservedRule :=
  let usual : ReservedRule := {}
  match v.fields? ["enums", "marker"] with
  | some [enums, marker] => do
    return {
      enums := ← JsonValue.orElse? JsonValue.texts? usual.enums enums
      marker := ← JsonValue.orElse? JsonValue.text? usual.marker marker }
  | _ => none

/-- The reference to a field that a record holds. -/
def FieldRef.ofJson? (v : JsonValue) : Option FieldRef :=
  match v.fields? ["structure", "field"] with
  | some [some record, some field] => do
    return { record := ← record.text?, field := ← field.text? }
  | _ => none

namespace Config

/-- The configuration that a record holds. -/
def ofJson? (v : JsonValue) : Option Config :=
  let usual : Config := {}
  match v.fields? ["reserved_rule", "null_selector", "alg_prefix", "flatten_exemptions",
    "implicit_length_fields", "null_algorithm_structs"] with
  | some [reserved, nullSelector, algPrefix, kept, lengths, tails] => do
    return {
      reserved := ← JsonValue.orElse? ReservedRule.ofJson? usual.reserved reserved
      nullSelector := ← JsonValue.orElse? JsonValue.text? usual.nullSelector nullSelector
      algPrefix := ← JsonValue.orElse? JsonValue.text? usual.algPrefix algPrefix
      keptWrappers := ← JsonValue.orElse? JsonValue.texts? usual.keptWrappers kept
      implicitLengths :=
        ← JsonValue.orElse? (JsonValue.items? FieldRef.ofJson?) usual.implicitLengths lengths
      nullTails := ← JsonValue.orElse? JsonValue.texts? usual.nullTails tails }
  | _ => none

/-- The configuration of a document, if it is one. -/
def ofDocument? (text : String) : Option Config := do
  ofJson? (← JsonValue.ofText? text)

end Config

/-! ## Files -/

/-- Why a document cannot be had. -/
inductive LoadFault where
  | unreadable
  /-- The text is no such document. -/
  | malformed
  deriving DecidableEq, Repr

namespace FileSystem

variable {m : Type → Type} [Monad m]

/-- The contents of a document. -/
def loadDocument (fs : FileSystem m) (ofDocument? : String → Option α) (path : String) :
    ExceptT LoadFault m α := do
  match ← fs.read? path with
  | none => throw .unreadable
  | some text =>
    match ofDocument? text with
    | none => throw .malformed
    | some a => return a

/-- The documents among the names in a folder, in order. -/
def documentNames (names : List String) : List String :=
  (names.filter fun name => extension? name == some "json").mergeSort fun a b => !(b < a)

/-- The tables of a document or of all documents in a folder. -/
def loadTables (fs : FileSystem m) (path : String) : ExceptT LoadFault m (List Table) := do
  if !(← fs.isFolder path) then return ← fs.loadDocument Table.ofDocument? path
  match ← fs.names? path with
  | none => throw .unreadable
  | some names =>
    let tables ← (documentNames names).mapM fun name =>
      fs.loadDocument Table.ofDocument? (joinPath path name)
    return tables.flatten

/-- The configuration of a document. -/
def loadConfig (fs : FileSystem m) (path : String) : ExceptT LoadFault m Config :=
  fs.loadDocument Config.ofDocument? path

/-- Writes a file into a folder, which is made if it is not there. -/
def writeIn (fs : FileSystem m) (folder name text : String) : m Bool := do
  if ← fs.makeFolder folder then fs.write (joinPath folder name) text else return false

end FileSystem

end WireTables
