import WireTables.CommandLine.Arguments
import WireTables.Extraction
import WireTables.Normal.Basic
import WireTables.Schema.Listing
import WireTables.Source.Basic
import WireTables.Storage.Tables
import WireTables.Target.Adapt

/-!
# Running

Tables are read, made into a schema, brought to normal form, and printed for every language. The
tables of a run are kept next to the sources, and later runs read them from there. A language is
written before the next one is looked at, so its sources stay when a later one fails.
-/

namespace WireTables

/-- Why a run stopped. -/
inductive RunFault where
  | noPrinter (lang : Language)
  | reading (path : String) (fault : LoadFault)
  | writing (path : String)
  | extraction (cause : Error)
  | normalization (cause : Error)
  | adapting (lang : Language) (cause : Error)
  | generating (lang : Language) (cause : Error)

namespace RunFault

/-- The wording of a fault: what was being done. -/
def message : RunFault → String
  | noPrinter lang => "no backend for " ++ lang.name ++ " (available: node, py)"
  | reading path _ => "reading " ++ path
  | writing path => "writing " ++ path
  | extraction _ => "extraction failed"
  | normalization _ => "normalization failed"
  | adapting lang _ => "adapting for " ++ lang.name
  | generating lang _ => "generating " ++ lang.name

/-- What went wrong in it. -/
def cause? : RunFault → Option String
  | noPrinter _ | writing _ => none
  | reading _ .unreadable => some "unreadable"
  | reading _ .malformed => some "malformed"
  | extraction e | normalization e | adapting _ e | generating _ e => some e.message

end RunFault

namespace CommandLine

variable {m : Type → Type} [Monad m]

/-- A step of a run. -/
abbrev Running (m : Type → Type) := ExceptT RunFault m

/-- The fault of a step that cannot be done. -/
def orFault (fault : ε → RunFault) (result : Except ε α) : Running m α :=
  match result with
  | .ok a => return a
  | .error e => throw (fault e)

/-- Reads a document. -/
def reading (path : String) (load : String → ExceptT LoadFault m α) : Running m α := do
  orFault (.reading path) (← (load path).run)

/-- Writes a file; `shown` is the path that a failure names. -/
def writing (fs : FileSystem m) (folder name text shown : String) : Running m Unit := do
  if !(← fs.writeIn folder name text) then throw (.writing shown)

/-- The printers of all languages. -/
def printers (languages : List Language) : Except RunFault (List (Language × Source.Printer)) :=
  languages.mapM fun lang =>
    match lang.printer? with
    | some p => .ok (lang, p)
    | none => .error (.noPrinter lang)

/-- The configuration of a run. -/
def configuration (fs : FileSystem m) (o : Options) : Running m Config :=
  match o.config with
  | some path => reading path fs.loadConfig
  | none => return {}

/-- The tables of a run: those kept by an earlier one, or those of the input, which are kept. -/
def tables (fs : FileSystem m) (o : Options) : Running m (List Table) := do
  let folder := joinPath o.output ".cache"
  let kept := joinPath folder "raw_tables.json"
  if (← fs.isFile kept) && !o.forceExtract then reading kept fs.loadTables
  else
    let tables ← reading o.input fs.loadTables
    writing fs folder "raw_tables.json" (Table.toDocument tables) kept
    return tables

/-- The sources of a registry in a language. -/
def sources (r : Registry) (lang : Language) (p : Source.Printer) :
    Except RunFault (List Source.SourceFile) := do
  let adapted ← (r.adapt lang).mapError (RunFault.adapting lang)
  (adapted.calculate p.print).1.mapError (RunFault.generating lang)

/-- Writes the sources of a language. -/
def writeSources (fs : FileSystem m) (o : Options) (r : Registry) (lang : Language)
    (p : Source.Printer) : Running m Unit := do
  let files ← orFault id (sources r lang p)
  let folder := joinPath o.output lang.name
  files.forM fun f => writing fs folder f.path f.text folder

/-- Runs the program. -/
def run (fs : FileSystem m) (o : Options) : Running m Unit := do
  let printers ← orFault id (printers o.languages)
  let config ← configuration fs o
  let tables ← tables fs o
  let (extracted, _) ← orFault .extraction (Extraction.extract tables config)
  let (result, r) := (Edit.normalize config).run extracted
  orFault .normalization result
  if o.dump then
    writing fs o.output "registry.txt" r.listing (joinPath o.output "registry.txt")
  printers.forM fun (lang, p) => writeSources fs o r lang p

end CommandLine

end WireTables
