import WireTables.Storage.Basic

/-!
# File systems in memory

A file system as a value: the files with their texts, the folders that have been made, and the
folder that the program works in. The folders above a file are there with it. A path that starts
with a slash leads from the root, every other one from the working folder. A part of a path has to
be in a folder; a dot stands for the folder itself and two dots for the one above, which for the
root is the root.
-/

namespace WireTables

/-- A path from the root as its parts. -/
abbrev Location := List String

/-- Files with their texts, and folders. -/
structure Memory where
  /-- The folder that the program works in. -/
  home : Location := []
  files : List (Location × String) := []
  folders : List Location := []
  deriving DecidableEq, Repr

namespace Memory

/-- There is a folder at a location. -/
def hasFolder (d : Memory) (l : Location) : Bool :=
  let holds (inner : Location) : Bool := l.isPrefixOf inner
  holds d.home || d.folders.any holds || d.files.any fun (file, _) => holds file && file != l

/-- The text of the file at a location. -/
def text? (d : Memory) (l : Location) : Option String :=
  d.files.lookup l

/-- The parts of a path. -/
def parts (path : String) : List String :=
  path.splitOn "/"

/-- A path that leads anywhere has at least one byte and at most 4095, none of them zero. -/
def isPath (path : String) : Bool :=
  !path.isEmpty && path.utf8ByteSize < 4096 && path.toList.all (·.toNat != 0)

/-- A name has at most 255 bytes. -/
def isName (part : String) : Bool :=
  part.utf8ByteSize < 256

/-- Where a path starts. -/
def origin (d : Memory) (path : String) : Location :=
  if path.startsWith "/" then [] else d.home

/-- Follows the parts of a path from a location. -/
def walk? (d : Memory) (l : Location) : List String → Option Location
  | [] => some l
  | part :: rest =>
    if !d.hasFolder l then none
    else if part == "" || part == "." then d.walk? l rest
    else if part == ".." then d.walk? l.dropLast rest
    else if isName part then d.walk? (l ++ [part]) rest
    else none

/-- The location that a path leads to, whether or not something is there. -/
def locate? (d : Memory) (path : String) : Option Location :=
  if isPath path then d.walk? (d.origin path) (parts path) else none

/-- The names in the folder at a location. -/
def children (d : Memory) (l : Location) : List String :=
  ((d.files.map (·.1) ++ d.folders).filterMap fun inner =>
    if l.isPrefixOf inner then (inner.drop l.length).head? else none).eraseDups

/-- Puts a file at a location. -/
def put (d : Memory) (l : Location) (text : String) : Memory :=
  { d with files := d.files.filter (·.1 != l) ++ [(l, text)] }

/-- Makes the folders that the parts of a path lead through, as far as possible. -/
def makeFolders (d : Memory) (l : Location) : List String → Memory × Bool
  | [] => (d, d.hasFolder l)
  | part :: rest =>
    if part == "" || part == "." then d.makeFolders l rest
    else if part == ".." then d.makeFolders l.dropLast rest
    else
      let next := l ++ [part]
      if d.hasFolder next then d.makeFolders next rest
      else if (d.text? next).isSome || !isName part then (d, false)
      else { d with folders := d.folders ++ [next] }.makeFolders next rest

/-- Makes the folders that a path leads through, and tells whether they are all there. -/
def makeFolder (d : Memory) (path : String) : Memory × Bool :=
  if isPath path then d.makeFolders (d.origin path) (parts path) else (d, path.isEmpty)

/-- Writes a file where a path leads to, unless a folder is there. -/
def write? (d : Memory) (path text : String) : Option Memory :=
  match d.locate? path with
  | some l => if d.hasFolder l then none else some (d.put l text)
  | none => none

/-- Writes a file and makes the folders that its path leads through. What is not possible is left
out. -/
def addFile (d : Memory) (path text : String) : Memory :=
  let (made, _) := d.makeFolders (d.origin path) (parts path).dropLast
  (made.write? path text).getD made

/-- Writes files, one after the other. -/
def addFiles (d : Memory) (files : List (String × String)) : Memory :=
  files.foldl (fun d (path, text) => d.addFile path text) d

/-- The operations on a file system in memory. -/
def fileSystem : FileSystem (StateM Memory) where
  isFolder path := do
    let d ← get
    return (d.locate? path).any d.hasFolder
  isFile path := do
    let d ← get
    return ((d.locate? path).bind d.text?).isSome
  read? path := do
    let d ← get
    return (d.locate? path).bind d.text?
  names? path := do
    let d ← get
    return ((d.locate? path).filter d.hasFolder).map d.children
  makeFolder path := do
    let (d, made) := (← get).makeFolder path
    set d
    return made
  write path text := do
    match (← get).write? path text with
    | some d =>
      set d
      return true
    | none => return false

/-- The files in the working folder that are new or have another text than before, by their paths
from there. -/
def changes (before after : Memory) : List (String × String) :=
  let new := after.files.filter fun (l, text) =>
    after.home.isPrefixOf l && before.text? l != some text
  new.map fun (l, text) => ("/".intercalate (l.drop after.home.length), text)

end Memory

end WireTables
