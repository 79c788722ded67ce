/-!
# File systems

What the program needs of a file system, whichever one it is: questions about paths, and the reading
and writing of files. A path is a text whose parts a slash divides.
-/

namespace WireTables

/-- The operations of a file system. -/
structure FileSystem (m : Type → Type) where
  isFolder : String → m Bool
  isFile : String → m Bool
  /-- The text of a file, if it can be read. -/
  read? : String → m (Option String)
  /-- The names in a folder, if it can be read. -/
  names? : String → m (Option (List String))
  /-- Makes a folder and those above it, and tells whether it is there. -/
  makeFolder : String → m Bool
  /-- Writes a file, and tells whether that was possible. -/
  write : String → String → m Bool

/-- The path of a name in a folder. -/
def joinPath (folder name : String) : String :=
  if folder.isEmpty || folder.endsWith "/" then folder ++ name else folder ++ "/" ++ name

/-- What follows the last dot of a name, unless only that dot comes before it. -/
def extension? (name : String) : Option String :=
  let cs := name.toList
  let after := (cs.reverse.takeWhile (· != '.')).reverse
  if cs == ['.', '.'] || cs.length ≤ after.length + 1 then none else some (String.ofList after)

end WireTables
