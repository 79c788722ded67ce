import WireTables.CommandLine.Run

/-!
# The program

Runs the command line on the files of the machine.
-/

namespace WireTables.CommandLine

/-- The result of an action, or another one when it fails. -/
def attempt (otherwise : α) (action : IO α) : IO α :=
  try action catch _ => return otherwise

/-- The operations on the files of the machine. -/
def machineFiles : FileSystem IO where
  isFolder path := attempt false do
    return (← (← IO.FS.realPath path).metadata).type == .dir
  isFile path := attempt false do
    return (← (← IO.FS.realPath path).metadata).type == .file
  read? path := attempt none do
    return some (← IO.FS.readFile path)
  names? path := attempt none do
    let entries ← (← IO.FS.realPath path).readDir
    return some (entries.toList.map (·.fileName))
  makeFolder path := attempt false do
    IO.FS.createDirAll path
    return true
  write path text := attempt false do
    IO.FS.writeFile path text
    return true

/-- What the program is for and how it is called. -/
def usage : String :=
  "Generate TPM 2.0 client libraries from table definitions\n\n" ++
    "Usage: " ++ Source.programName ++ " [OPTIONS]\n\n" ++
    "Options:\n" ++
    "  -l, --lang <LANG>      Target languages, divided by commas (node, py)\n" ++
    "  -i, --input <INPUT>    JSON file of tables, or folder of such files [default: tables]\n" ++
    "  -o, --output <OUTPUT>  Output folder [default: generated]\n" ++
    "      --force-extract    Read the input even when its tables have been kept\n" ++
    "  -c, --config <CONFIG>  Configuration (JSON)\n" ++
    "      --dump             Write a listing of the schema\n" ++
    "  -v, --verbose          Say more\n" ++
    "  -h, --help             Print help\n" ++
    "  -V, --version          Print version"

/-- Runs the program with its options and gives its exit code. -/
def runOn (o : Options) : IO UInt32 := do
  match ← (run machineFiles o).run with
  | .ok () => return 0
  | .error fault =>
    IO.eprintln ("Error: " ++ fault.message)
    if let some cause := fault.cause? then
      IO.eprintln ("\nCaused by:\n    " ++ cause)
    return 1

end WireTables.CommandLine

open WireTables CommandLine in
/-- Runs the program on the arguments of a command line. -/
def main (arguments : List String) : IO UInt32 := do
  match request arguments with
  | .run options => runOn options
  | .help =>
    IO.println usage
    return 0
  | .version =>
    IO.println (Source.programName ++ " 0.1.0")
    return 0
  | .invalid =>
    IO.eprintln "error: invalid arguments\n"
    IO.eprintln usage
    return 2
