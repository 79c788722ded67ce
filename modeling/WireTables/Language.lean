/-!
# Target languages

The languages that client libraries can be adapted for, their names, and what their type and
scope syntax looks like.
-/

namespace WireTables

/-- A language to adapt a schema for. -/
inductive Language where
  | cpp
  | csharp
  | java
  | node
  | py
  deriving DecidableEq, Repr

namespace Language

/-- The short name, which is also the name of the output directory. -/
def name : Language → String
  | cpp => "cpp"
  | csharp => "csharp"
  | java => "java"
  | node => "node"
  | py => "py"

/-- What stands between an enumeration and its member. -/
def scopeSeparator : Language → String
  | cpp => "::"
  | _ => "."

/-- The name of a byte-string type. -/
def byteBuffer : Language → String
  | cpp => "ByteVec"
  | csharp | java => "byte[]"
  | node => "Buffer"
  | py => "bytes"

/-- The type of arrays of an element type. -/
def arrayOf (lang : Language) (element : String) : String :=
  match lang with
  | cpp => "vector<" ++ element ++ ">"
  | csharp | java | node => element ++ "[]"
  | py => "List[" ++ element ++ "]"

/-- The name of an elementary type of the wire, where the language has one of its own. -/
def scalarName? (lang : Language) (wireName : String) : Option String :=
  let pick (asCpp asCSharp asJava asNode asPy : String) : Option String :=
    some <| match lang with
      | cpp => asCpp
      | csharp => asCSharp
      | java => asJava
      | node => asNode
      | py => asPy
  match wireName with
  | "BYTE" => pick "BYTE" "byte" "byte" "number" "int"
  | "UINT8" => pick "UINT8" "byte" "byte" "number" "int"
  | "INT8" => pick "INT8" "sbyte" "byte" "number" "int"
  | "BOOL" => pick "BOOL" "bool" "boolean" "boolean" "bool"
  | "UINT16" => pick "UINT16" "ushort" "short" "number" "int"
  | "INT16" => pick "INT16" "short" "short" "number" "int"
  | "UINT32" => pick "UINT32" "uint" "int" "number" "int"
  | "INT32" => pick "INT32" "int" "int" "number" "int"
  | "UINT64" => pick "UINT64" "ulong" "long" "number" "int"
  | "INT64" => pick "INT64" "long" "long" "number" "int"
  | _ => none

/-- Why a text names no language; letters are shown in lower case. -/
def unknownMessage (text : String) : String :=
  "unknown language '" ++ text ++ "' (expected cpp, csharp, java, node or py)"

/-- The language a text names, in any mix of upper and lower case. -/
def ofText? (text : String) : Except String Language :=
  let lowered := String.ofList (text.toList.map Char.toLower)
  match lowered with
  | "cpp" | "c++" => .ok cpp
  | "csharp" | "cs" | "c#" => .ok csharp
  | "java" => .ok java
  | "node" | "ts" | "typescript" => .ok node
  | "py" | "python" => .ok py
  | other => .error (unknownMessage other)

end Language

end WireTables
