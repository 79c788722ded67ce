import WireTables.Source.Printer

/-!
# Python sources

One file declares the types with the methods that write and read them, the other has a method for
every command. Unions come first, because a class has to be defined before another one can derive
from it. Constants whose values had to be written out are named in a remark.
-/

namespace WireTables.Source.Python

/-- The words that cannot be names. -/
def keywords : List String :=
  ["False", "None", "True", "and", "as", "assert", "async", "await", "break", "class", "continue",
    "def", "del", "elif", "else", "except", "finally", "for", "from", "global", "if", "import",
    "in", "is", "lambda", "nonlocal", "not", "or", "pass", "raise", "return", "try", "while",
    "with", "yield"]

/-- A name, with an underscore at its end where it would be a keyword. -/
def identifier (name : String) : String :=
  if keywords.contains name then name ++ "_" else name

/-- A comment inside a declaration. -/
def docComment (margin comment : String) : String :=
  if comment.isEmpty then "" else margin ++ "\"\"\" " ++ comment ++ " \"\"\"\n"

/-- The value of a parameter that is left out. -/
def defaultValue (type : String) : String :=
  match type with
  | "int" => "0"
  | "bool" => "False"
  | _ => "None"

/-- The spelling of statements. -/
def dialect : Dialect where
  referrer := "python backend"
  fieldName := identifier
  statementEnd := ""
  declaration := ""
  lengthOf array := "len(" ++ array ++ ") if " ++ array ++ " is not None else 0"
  writeUnion value := "if " ++ value ++ ": " ++ value ++ ".toTpm(buf)"
  readUnion value := "if " ++ value ++ ": " ++ value ++ ".initFromTpm(buf)"
  returnIfEqual a b := "if " ++ a ++ " == " ++ b ++ ": return"

/-- Indented statements; something has to stand there. -/
def body (margin : String) (statements : List String) : String :=
  match statements with
  | [] => margin ++ "pass\n"
  | _ => String.join (statements.map fun l => margin ++ l ++ "\n")

/-- A method of a class. -/
def method (signature comment : String) (statements : List String) : String :=
  "    def " ++ signature ++ ":\n" ++ docComment "        " comment ++ body "        " statements

/-- The value of a constant inside the class `owner`, where its members are named alone. -/
def valueText (owner : String) (c : Constant) : String :=
  Text.removeAll (owner ++ ".") (c.targetExpr.getD c.expr)

/-- The member of a class for one constant, and for its other name unless that is among `taken`;
with the names taken after it. -/
def constantLines (owner : String) (taken : List String) (c : Constant) : String × List String :=
  let name := identifier c.name
  let remark := if c.inlined.isEmpty then "" else "  # " ++ ", ".intercalate c.inlined
  let text := "    " ++ name ++ " = " ++ valueText owner c ++ remark ++ "\n" ++
    docComment "    " c.comment
  match c.oldName.map identifier with
  | none => (text, taken)
  | some old =>
    if taken.contains old then (text, taken)
    else (text ++ "    " ++ old ++ " = " ++ name ++ "\n", old :: taken)

/-- The members of a class, given the names that are taken. -/
def memberLines (owner : String) (taken : List String) : List Constant → String
  | [] => ""
  | c :: rest =>
    let (text, taken) := constantLines owner taken c
    text ++ memberLines owner taken rest

/-- A class of constants. -/
def constants (s : Schema) (t : TypeEntry) (note : String) (numbers : List Nat) : String :=
  let cs := numbers.filterMap fun n => s.constants[n]?
  let filler := if numbers.isEmpty && t.comment.isEmpty then "    pass\n" else ""
  "class " ++ t.name ++ "(TpmEnum): # " ++ note ++ "\n" ++ docComment "    " t.comment ++
    memberLines t.name (cs.map fun c => identifier c.name) cs ++ filler

/-- The class of a union whose members are structures. -/
def unionDeclaration (t : TypeEntry) (u : UnionType) : Option String :=
  if u.isArrayUnion then none
  else
    let comment := if t.comment.isEmpty then "Union" else t.comment
    some ("class " ++ t.name ++ "(TpmUnion):\n" ++ docComment "    " comment)

/-- A function that chooses by its argument. -/
def choiceFunction (comment name : String) (cases : List (String × String)) (otherwise : String) :
    String :=
  let lines := cases.map fun (selector, value) =>
    "if selector == " ++ selector ++ ": return " ++ value
  "def " ++ name ++ "(selector):\n" ++ docComment "    " comment ++
    body "    " (lines ++ ["return " ++ otherwise])

/-- The function that makes a member of a union, or that gives the size of an array member. -/
def unionFunction (s : Schema) (t : TypeEntry) (u : UnionType) : Eval String := do
  if u.isArrayUnion then
    let cases := (← sizeCases s u).map fun (selector, size) => (selector, toString size)
    let comment := "Byte size of the " ++ t.name ++ " member selected by selector"
    return choiceFunction comment (sizeFunction t.name) cases "0"
  else
    let cases := (← Eval.ofExcept (dialect.factoryCases s u)).map fun (selector, type) =>
      (selector, type ++ "()")
    let comment := "Creates the " ++ t.name ++ " member selected by selector"
    return choiceFunction comment (factory t.name) cases "None"

/-- The constructor, whose parameters are the data fields. A derived class without any has that of
its base. -/
def constructorText (r : Record) : String :=
  let parameter (f : Field) : String := identifier f.name ++ " = " ++ defaultValue f.targetType
  let describe (f : Field) : String :=
    "            " ++ identifier f.name ++ " (" ++ f.targetType ++ "): " ++ f.comment ++ "\n"
  let assign (f : Field) : String :=
    "        self." ++ identifier f.name ++ " = " ++ identifier f.name ++ "\n"
  match r.dataFields with
  | [] => if r.base.isNone then "    def __init__(self):\n        pass\n" else ""
  | fields =>
    "    def __init__(self, " ++ ", ".intercalate (fields.map parameter) ++ "):\n" ++
      "        \"\"\"\n        Attributes:\n" ++ String.join (fields.map describe) ++
      "        \"\"\"\n" ++ (if r.base.isSome then "        super().__init__()\n" else "") ++
      String.join (fields.map assign)

/-- The method that tells the selector of a structure in its unions. -/
def selectorMethod (s : Schema) (r : Record) : Except Error String :=
  match unionSelector? r with
  | none => .ok ""
  | some selector => do
    let type := (constantOwner? s selector).getD ""
    return "\n    def GetUnionSelector(self): # " ++ type ++ "\n" ++
      docComment "        " "TpmUnion method" ++
      "        return " ++ (← constantName s selector) ++ "\n"

/-- The methods that write and read a structure. One without fields of its own has those of its
base, and one whose tail may be absent has them elsewhere. -/
def marshalMethods (s : Schema) (t : TypeEntry) (r : Record) : Eval String := do
  let methods (writing reading : List String) : String :=
    "\n" ++ method "toTpm(self, buf)" "TpmMarshaller method" writing ++
      "\n" ++ method "initFromTpm(self, buf)" "TpmMarshaller method" reading
  if r.nullTail.isSome then
    let elsewhere (index : String) : List String :=
      ["customMarshalers['" ++ t.specName ++ "'][" ++ index ++ "](self, buf)"]
    return methods (elsewhere "0") (elsewhere "1")
  if r.base.isSome && r.fields.isEmpty then return ""
  let writing ← dialect.writeStatements s t r "self"
  let reading ← dialect.readStatements s t r "self"
  return methods writing reading

/-- The class of a structure. -/
def record (s : Schema) (t : TypeEntry) (r : Record) : Eval String := do
  let base ← match r.base with
    | some base => Eval.ofExcept (dialect.typeName s base)
    | none => pure "TpmStructure"
  let unions ← Eval.ofExcept (dialect.unionNames s r)
  let selector ← Eval.ofExcept (selectorMethod s r)
  let marshal ← marshalMethods s t r
  let makeComment := "Returns new " ++ t.name ++
    " object constructed from its marshaled representation in the given TpmBuffer buffer"
  let make := "\n    @staticmethod\n" ++
    method "fromTpm(buf)" makeComment ["return buf.createObj(" ++ t.name ++ ")"]
  let session := match r.sessionPrefix with
    | some p =>
      "\n" ++ method "getSessEncInfo(self)" ""
        ["return SessEncInfo(" ++ toString p.sizeLen ++ ", " ++ toString p.valLen ++ ")"]
    | none => ""
  return "class " ++ t.name ++ "(" ++ ", ".intercalate (base :: unions) ++ "):\n" ++
    docComment "    " t.comment ++ constructorText r ++ selector ++ marshal ++ make ++ session

/-- The functions of a structure whose tail may be absent. -/
def marshaler (s : Schema) (t : TypeEntry) (r : Record) : Eval String := do
  let function (name : String) (statements : List String) : String :=
    "def _" ++ t.specName ++ "_" ++ name ++ "(obj, buf):\n" ++ body "    " statements
  let writing ← dialect.writeStatements s t r "obj"
  let reading ← dialect.readStatements s t r "obj"
  return function "toTpm" writing ++ "\n" ++ function "initFromTpm" reading

/-- The comment inside a command. -/
def commandComment (t : TypeEntry) (parameters : List Field) (command : String)
    (result : CommandResult) : String :=
  let parameter (f : Field) : String :=
    "        " ++ identifier f.name ++ " (" ++ f.targetType ++ "): " ++ f.comment ++ "\n"
  let arguments :=
    if parameters.isEmpty then "" else "\n    Args:\n" ++ String.join (parameters.map parameter)
  let returned := match result with
    | .nothing => ""
    | .field _ f => "\n    Returns:\n        " ++ identifier f.name ++ " - " ++ f.comment ++ "\n"
    | .object response => "\n    Returns:\n        " ++ response.name ++ "\n"
  "    \"\"\" " ++ (if t.comment.isEmpty then command else t.comment) ++ "\n" ++ arguments ++
    returned ++ "    \"\"\"\n"

/-- The statements that send a command and hand back its result. -/
def dispatch (s : Schema) (r : Record) (code : String) (result : CommandResult) : String :=
  let response := (result.response?.map (·.name)).getD "None"
  let call := "self.dispatchCommand(" ++ ", ".intercalate [commandCode s code, "req",
    toString r.handleCount, toString r.authHandleCount, response] ++ ")\n"
  match result with
  | .nothing => "    " ++ call
  | .field _ f =>
    "    res = " ++ call ++ "    return res." ++ identifier f.name ++ " if res else None\n"
  | .object _ => "    return " ++ call

/-- The method of a command. -/
def command (s : Schema) (t : TypeEntry) (r : Record) (name code : String) : String :=
  let parameters := r.dataFields
  let result := commandResult s name
  let names := parameters.map fun f => identifier f.name
  "def " ++ methodName name ++ "(" ++ ", ".intercalate ("self" :: names) ++ "):\n" ++
    commandComment t parameters name result ++
    "    req = " ++ t.name ++ "(" ++ ", ".intercalate names ++ ")\n" ++ dispatch s r code result

/-- The text at the start of a file. -/
def header : String :=
  "\"\"\"\n" ++ notice ++ "\n\"\"\"\n"

/-- The file of types. -/
def typesText (s : Schema) (p : Pieces) : String :=
  let pieces := p.unionDeclarations ++ p.types ++ p.unionFunctions ++ p.marshalers
  let entries := (s.records.filter fun (_, r) => r.nullTail.isSome).map fun (t, _) =>
    let function := "_" ++ t.specName
    "    '" ++ t.specName ++ "': (" ++ function ++ "_toTpm, " ++ function ++ "_initFromTpm),\n"
  header ++ "from .TpmMarshaller import *\n" ++ String.join (pieces.map ("\n\n" ++ ·)) ++
    "\n\ncustomMarshalers = \x7b\n" ++ String.join entries ++ "\x7d\n"

/-- The file of commands. -/
def commandsText (p : Pieces) : String :=
  let methods :=
    if p.commands.isEmpty then "    pass"
    else "\n\n".intercalate (p.commands.map (Text.indent "    "))
  header ++ "from .TpmBase import *\nfrom .TpmTypes import *\n" ++
    "\n\nclass Tpm(TpmBase):\n" ++ methods ++ "\n"

/-- The printer of Python sources. -/
def printer : Printer where
  language := .py
  enum s t e := constants s t e.underlying e.members
  bitfield s t b := constants s t (b.underlying ++ " bitfield") b.constants
  unionDeclaration := unionDeclaration
  unionFunction := unionFunction
  record := record
  marshaler := marshaler
  command := command
  files s p := [⟨"TpmTypes.py", typesText s p⟩, ⟨"Tpm.py", commandsText p⟩]

end WireTables.Source.Python
