import WireTables.Source.Printer

/-!
# TypeScript sources

One file declares the types with the methods that write and read them, the other has an
asynchronous method for every command. Both rest on a library of buffers that is not made here.
-/

namespace WireTables.Source.TypeScript

/-- Text between braces on the same line. -/
def braced (text : String) : String :=
  "\x7b " ++ text ++ " \x7d"

/-- Lines between braces, the opening one at the end of the line before. -/
def block (margin head : String) (lines : List String) : String :=
  margin ++ head ++ " \x7b\n" ++ String.join lines ++ margin ++ "\x7d"

/-- Lines between braces, each brace on a line of its own. -/
def body (text : String) : String :=
  "\x7b\n" ++ text ++ "\x7d\n"

/-- A comment above a declaration. -/
def docComment (margin comment : String) : String :=
  if comment.isEmpty then "" else margin ++ "/** " ++ comment ++ " */\n"

/-- The value of a parameter that is left out. -/
def defaultValue (type : String) : String :=
  match type with
  | "number" => "0"
  | "boolean" => "false"
  | _ => "null"

/-- The spelling of statements. -/
def dialect : Dialect where
  referrer := "typescript backend"
  fieldName := id
  statementEnd := ";"
  declaration := "const "
  lengthOf array := array ++ "?.length ?? 0"
  writeUnion value := value ++ ".toTpm(buf);"
  readUnion value := value ++ "?.initFromTpm(buf);"
  returnIfEqual a b := "if (" ++ a ++ " == " ++ b ++ ") return;"

/-- The member of an enumeration for one constant, and for its other name unless that is among
`taken`; with the names taken after it. -/
def constantLines (taken : List String) (c : Constant) : String × List String :=
  let value := c.targetExpr.getD c.expr
  let line (name : String) : String := "    " ++ name ++ " = " ++ value ++ ",\n"
  let text := docComment "    " c.comment ++ line c.name
  match c.oldName with
  | none => (text, taken)
  | some old =>
    if taken.contains old then (text, taken)
    else
      let note := "    /** @deprecated Use " ++ c.name ++ " instead */\n"
      (text ++ note ++ line old, old :: taken)

/-- The members of an enumeration, given the names that are taken. -/
def memberLines (taken : List String) : List Constant → String
  | [] => ""
  | c :: rest =>
    let (text, taken) := constantLines taken c
    text ++ memberLines taken rest

/-- An enumeration of constants. -/
def constants (s : Schema) (t : TypeEntry) (note : String) (numbers : List Nat) : String :=
  let cs := numbers.filterMap fun n => s.constants[n]?
  docComment "" t.comment ++ "export enum " ++ t.name ++ " // " ++ note ++ "\n" ++
    body (memberLines (cs.map (·.name)) cs)

/-- The interface of a union whose members are structures. -/
def unionDeclaration (t : TypeEntry) (u : UnionType) : Option String :=
  if u.isArrayUnion then none
  else
    let head := "export interface " ++ t.name ++ " extends TpmUnion"
    some (docComment "" t.comment ++ head ++ " \x7b\x7d\n")

/-- A function that chooses by its argument. -/
def switchFunction (comment name selector result : String) (cases : List (String × String))
    (otherwise : String) : String :=
  let lines := cases.map fun (selector, value) =>
    "        case " ++ selector ++ ": return " ++ value ++ ";\n"
  let head := "export function " ++ name ++ "(selector: " ++ selector ++ "): " ++ result
  docComment "" comment ++ head ++ " \x7b\n" ++ block "    " "switch (selector)" lines ++
    "\n    return " ++ otherwise ++ ";\n\x7d\n"

/-- The function that makes a member of a union, or that gives the size of an array member. -/
def unionFunction (s : Schema) (t : TypeEntry) (u : UnionType) : Eval String := do
  let selector := (selectorType? s u).getD "number"
  if u.isArrayUnion then
    let cases := (← sizeCases s u).map fun (selector, size) => (selector, toString size)
    let comment := "Byte size of the " ++ t.name ++ " member selected by `selector`."
    return switchFunction comment (sizeFunction t.name) selector "number" cases "0"
  else
    let cases := (← Eval.ofExcept (dialect.factoryCases s u)).map fun (selector, type) =>
      (selector, "new " ++ type ++ "()")
    let comment := "Creates the " ++ t.name ++ " member selected by `selector`."
    return switchFunction comment (factory t.name) selector t.name cases "null"

/-- A method of a class. -/
def method (signature : String) (statements : List String) : String :=
  block "    " signature (statements.map fun l => "        " ++ l ++ "\n") ++ "\n"

/-- A method of a class on one line. -/
def shortMethod (signature statement : String) : String :=
  "    " ++ signature ++ " " ++ braced statement ++ "\n"

/-- The signature of the method that writes a structure. -/
def writeSignature : String := "toTpm(buf: TpmBuffer): void"

/-- The signature of the method that reads a structure. -/
def readSignature : String := "initFromTpm(buf: TpmBuffer): void"

/-- The constructor, whose parameters are the data fields. -/
def constructorText (r : Record) : String :=
  let parameter (f : Field) : String :=
    docComment "        " f.comment ++
      "        public " ++ f.name ++ ": " ++ f.targetType ++ " = " ++ defaultValue f.targetType
  let call := ") " ++ braced "super();" ++ "\n"
  match r.dataFields with
  | [] => "    constructor(" ++ call
  | fields => "    constructor(\n" ++ ",\n".intercalate (fields.map parameter) ++ "\n    " ++ call

/-- The method that tells the selector of a structure in its unions. -/
def selectorMethod (s : Schema) (r : Record) : Except Error String :=
  match unionSelector? r with
  | none => .ok ""
  | some selector => do
    let type := (constantOwner? s selector).getD "number"
    let statement := "return " ++ (← constantName s selector) ++ ";"
    return "\n    /** TpmUnion method */\n" ++
      shortMethod ("GetUnionSelector(): " ++ type) statement

/-- The methods that write and read a structure. One without fields of its own has those of its
base, and one whose tail may be absent has them elsewhere. -/
def marshalMethods (s : Schema) (t : TypeEntry) (r : Record) : Eval String := do
  let heading := "\n    /** TpmMarshaller method */\n"
  if r.nullTail.isSome then
    let elsewhere (signature method : String) : String :=
      shortMethod signature ("customMarshalers." ++ t.specName ++ "." ++ method ++ "(this, buf);")
    return heading ++ elsewhere writeSignature "toTpm" ++ heading ++
      elsewhere readSignature "initFromTpm"
  if r.base.isSome && r.fields.isEmpty then return ""
  let writing ← dialect.writeStatements s t r "this"
  let reading ← dialect.readStatements s t r "this"
  return heading ++ method writeSignature writing ++ heading ++ method readSignature reading

/-- The class of a structure. -/
def record (s : Schema) (t : TypeEntry) (r : Record) : Eval String := do
  let base ← match r.base with
    | some base => Eval.ofExcept (dialect.typeName s base)
    | none => pure "TpmStructure"
  let unions ← Eval.ofExcept (dialect.unionNames s r)
  let interfaces := if unions.isEmpty then "" else " implements " ++ ", ".intercalate unions
  let selector ← Eval.ofExcept (selectorMethod s r)
  let marshal ← marshalMethods s t r
  let make := "\n" ++ shortMethod ("static fromTpm(buf: TpmBuffer): " ++ t.name)
    ("return buf.createObj(" ++ t.name ++ ");")
  let session := match r.sessionPrefix with
    | some p =>
      "\n" ++ shortMethod "getSessEncInfo(): SessEncInfo"
        ("return new SessEncInfo(" ++ toString p.sizeLen ++ ", " ++ toString p.valLen ++ ");")
    | none => ""
  let head := "export class " ++ t.name ++ " extends " ++ base ++ interfaces ++ "\n"
  return docComment "" t.comment ++ head ++
    body (constructorText r ++ selector ++ marshal ++ make ++ session)

/-- The methods of a structure whose tail may be absent. -/
def marshaler (s : Schema) (t : TypeEntry) (r : Record) : Eval String := do
  let function (name : String) (statements : List String) : String :=
    block "        " (name ++ "(obj: " ++ t.name ++ ", buf: TpmBuffer): void")
      (statements.map fun l => "            " ++ l ++ "\n") ++ ",\n"
  let writing ← dialect.writeStatements s t r "obj"
  let reading ← dialect.readStatements s t r "obj"
  return block "    " (t.specName ++ ":")
    [function "toTpm" writing, function "initFromTpm" reading] ++ ",\n"

/-- The comment above a command. -/
def commandComment (t : TypeEntry) (parameters : List Field) (command : String)
    (result : CommandResult) : String :=
  let parameter (f : Field) : String := " *  @param " ++ f.name ++ " " ++ f.comment ++ "\n"
  let returned := match result with
    | .nothing => ""
    | .field _ f => " *  @return " ++ f.name ++ " - " ++ f.comment ++ "\n"
    | .object response => " *  @return " ++ response.name ++ "\n"
  "/** " ++ (if t.comment.isEmpty then command else t.comment) ++ "\n" ++
    String.join (parameters.map parameter) ++ returned ++ " */\n"

/-- The statements that send a command and hand back its result. -/
def dispatch (s : Schema) (r : Record) (code : String) (result : CommandResult) : String :=
  let response := (result.response?.map (·.name)).getD "null"
  let call := "await this.dispatchCommand(" ++ ", ".intercalate [commandCode s code, "req",
    toString r.handleCount, toString r.authHandleCount, response] ++ ");\n"
  match result with
  | .nothing => "    " ++ call
  | .field _ f => "    const res = " ++ call ++ "    return res." ++ f.name ++ ";\n"
  | .object _ => "    return " ++ call

/-- The method of a command. -/
def command (s : Schema) (t : TypeEntry) (r : Record) (name code : String) : String :=
  let parameters := r.dataFields
  let result := commandResult s name
  let type := match result with
    | .nothing => "void"
    | .field _ f => f.targetType
    | .object response => response.name
  let typed := parameters.map fun f => f.name ++ ": " ++ f.targetType
  let names := parameters.map (·.name)
  let head := "async " ++ methodName name ++ "(" ++ ", ".intercalate typed ++ ")"
  commandComment t parameters name result ++ head ++ ": Promise<" ++ type ++ ">\n" ++
    body ("    const req = new " ++ t.name ++ "(" ++ ", ".intercalate names ++ ");\n" ++
      dispatch s r code result)

/-- The comment at the start of a file. -/
def header : String :=
  "/*\n *  " ++ notice ++ "\n */\n"

/-- The file of types. -/
def typesText (p : Pieces) : String :=
  let pieces := (p.unionDeclarations ++ p.types ++ p.unionFunctions).map ("\n" ++ ·)
  header ++ "\nimport " ++ braced "TpmBuffer, TpmStructure, TpmUnion, SessEncInfo" ++
    " from \"./TpmMarshaller\";\n" ++ String.join pieces ++
    "\n/** Marshalers of structures whose wire layout depends on a selector value. */\n" ++
    "export const customMarshalers = \x7b\n" ++ String.join p.marshalers ++ "\x7d;\n"

/-- The type has a declaration in the file of types. -/
def isDeclared (t : TypeEntry) : Bool :=
  match t.kind with
  | .value _ | .aliasOf _ => false
  | _ => true

/-- The file of commands. -/
def commandsText (s : Schema) (p : Pieces) : String :=
  let imported := sortedNames ((s.implemented.filter isDeclared).map (·.name))
  let methods := "\n\n".intercalate (p.commands.map (Text.indent "    "))
  header ++ "\nimport " ++ braced "TpmBase" ++ " from \"./TpmBase\";\n" ++
    "import \x7b\n" ++ "\n".intercalate (imported.map fun n => "    " ++ n ++ ",") ++
    "\n\x7d from \"./TpmTypes\";\n" ++ "\nexport class Tpm extends TpmBase\n" ++
    body (methods ++ if p.commands.isEmpty then "" else "\n")

/-- The printer of TypeScript sources. -/
def printer : Printer where
  language := .node
  enum s t e := constants s t e.underlying e.members
  bitfield s t b := constants s t (b.underlying ++ " bitfield") b.constants
  unionDeclaration := unionDeclaration
  unionFunction := unionFunction
  record := record
  marshaler := marshaler
  command := command
  files s p := [⟨"TpmTypes.ts", typesText p⟩, ⟨"Tpm.ts", commandsText s p⟩]

end WireTables.Source.TypeScript
