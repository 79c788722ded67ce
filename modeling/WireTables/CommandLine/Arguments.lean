import WireTables.Language

/-!
# Command lines

Options have a long name, most of them a letter as well. The value of an option stands after an
equals sign, right after its letter, or in the next argument; letters without a value can share a
dash. Arguments are taken in order, and the first one that is wrong, or that asks for information,
decides.
-/

namespace WireTables

/-- What the user wants. -/
structure Options where
  languages : List Language := [.node, .py]
  input : String := "tables"
  output : String := "generated"
  /-- Read the input again although its tables have been kept. -/
  forceExtract : Bool := false
  config : Option String := none
  /-- Write a listing of the schema. -/
  dump : Bool := false
  verbosity : Nat := 0
  deriving DecidableEq, Repr

/-- What a command line asks for. -/
inductive Request where
  | run (options : Options)
  | help
  | version
  | invalid
  deriving DecidableEq, Repr

namespace CommandLine

/-- The options that have been given; those that are missing have not. -/
structure Given where
  languages : List Language := []
  input : Option String := none
  output : Option String := none
  forceExtract : Bool := false
  config : Option String := none
  dump : Bool := false
  verbosity : Nat := 0
  deriving DecidableEq, Repr

namespace Given

/-- All options, with the usual values of those that have not been given. -/
def options (g : Given) : Options :=
  let usual : Options := {}
  { languages := if g.languages.isEmpty then usual.languages else g.languages
    input := g.input.getD usual.input
    output := g.output.getD usual.output
    forceExtract := g.forceExtract
    config := g.config
    dump := g.dump
    verbosity := g.verbosity }

end Given

/-- An option with a value. -/
inductive ValueOption where
  | languages
  | input
  | output
  | config
  deriving DecidableEq, Repr

/-- An option without a value. -/
inductive Flag where
  | forceExtract
  | dump
  | verbose
  | help
  | version
  deriving DecidableEq, Repr

/-- An option of either sort. -/
inductive Opt where
  | value (o : ValueOption)
  | flag (f : Flag)
  deriving DecidableEq, Repr

/-- The option with a letter. -/
def ofLetter? : Char → Option Opt
  | 'l' => some (.value .languages)
  | 'i' => some (.value .input)
  | 'o' => some (.value .output)
  | 'c' => some (.value .config)
  | 'v' => some (.flag .verbose)
  | 'h' => some (.flag .help)
  | 'V' => some (.flag .version)
  | _ => none

/-- The option with a long name. -/
def ofName? : String → Option Opt
  | "lang" => some (.value .languages)
  | "input" => some (.value .input)
  | "output" => some (.value .output)
  | "config" => some (.value .config)
  | "force-extract" => some (.flag .forceExtract)
  | "dump" => some (.flag .dump)
  | "verbose" => some (.flag .verbose)
  | "help" => some (.flag .help)
  | "version" => some (.flag .version)
  | _ => none

/-- A path that an option has not been given yet. -/
def onlyPath? (previous : Option String) (path : String) : Option String :=
  if previous.isSome || path.isEmpty then none else some path

/-- Takes an option with its value. Languages add up; of every other option there is one, and its
value is not empty. -/
def takeValue? (g : Given) (o : ValueOption) (value : String) : Option Given :=
  match o with
  | .languages => do
    let languages ← (value.splitOn ",").mapM fun text => (Language.ofText? text).toOption
    return { g with languages := g.languages ++ languages }
  | .input => do return { g with input := some (← onlyPath? g.input value) }
  | .output => do return { g with output := some (← onlyPath? g.output value) }
  | .config => do return { g with config := some (← onlyPath? g.config value) }

/-- Takes an option without a value; the request when it ends the command line. -/
def takeFlag (g : Given) : Flag → Except Request Given
  | .forceExtract => if g.forceExtract then .error .invalid else .ok { g with forceExtract := true }
  | .dump => if g.dump then .error .invalid else .ok { g with dump := true }
  | .verbose => .ok { g with verbosity := g.verbosity + 1 }
  | .help => .error .help
  | .version => .error .version

/-- One argument after the options so far: all of it taken, or an option that waits for its value
in the next argument. -/
inductive Taken where
  | all (g : Given)
  | waiting (g : Given) (o : ValueOption)

/-- Takes an option with its value. -/
def takenWith (g : Given) (o : ValueOption) (value : String) : Except Request Taken :=
  match takeValue? g o value with
  | some g => .ok (.all g)
  | none => .error .invalid

/-- Takes letters after a dash. -/
def takeLetters (g : Given) : List Char → Except Request Taken
  | [] => .ok (.all g)
  | c :: rest =>
    match ofLetter? c with
    | none => .error .invalid
    | some (.flag f) => do takeLetters (← takeFlag g f) rest
    | some (.value o) =>
      match rest with
      | [] => .ok (.waiting g o)
      | '=' :: value => takenWith g o (String.ofList value)
      | value => takenWith g o (String.ofList value)

/-- Takes a long name, and what stands after its equals sign. -/
def takeName (g : Given) (text : List Char) : Except Request Taken :=
  let name := String.ofList (text.takeWhile (· != '='))
  match ofName? name, text.dropWhile (· != '=') with
  | some (.flag f), [] => do return .all (← takeFlag g f)
  | some (.value o), [] => .ok (.waiting g o)
  | some (.value o), _ :: value => takenWith g o (String.ofList value)
  | _, _ => .error .invalid

/-- The value that an argument is for the option before it: anything that is no option itself. -/
def isValue (argument : String) : Bool :=
  !argument.startsWith "-" || argument == "-"

/-- Takes one argument that is no value of an option. -/
def takeArgument (g : Given) (argument : String) : Except Request Taken :=
  match argument.toList with
  | '-' :: '-' :: text => takeName g text
  | '-' :: c :: rest => takeLetters g (c :: rest)
  | _ => .error .invalid

/-- Takes the remaining arguments. After two dashes alone there may be nothing more. -/
def takeAll (g : Given) : Option ValueOption → List String → Except Request Given
  | none, [] => .ok g
  | some _, [] => .error .invalid
  | some o, value :: rest =>
    if isValue value then
      match takeValue? g o value with
      | some g => takeAll g none rest
      | none => .error .invalid
    else .error .invalid
  | none, argument :: rest =>
    if argument == "--" then if rest.isEmpty then .ok g else .error .invalid
    else
      match takeArgument g argument with
      | .error request => .error request
      | .ok (.all g) => takeAll g none rest
      | .ok (.waiting g o) => takeAll g (some o) rest

/-- What a command line asks for. -/
def request (arguments : List String) : Request :=
  match takeAll {} none arguments with
  | .ok g => .run g.options
  | .error request => request

end CommandLine

end WireTables
