namespace Sigil

/-- How failures are reported. -/
inductive ReportFormat where
  | human
  | json
  | machine
deriving DecidableEq, Repr

def ReportFormat.ofName? (name : String) : Option ReportFormat :=
  [("human", ReportFormat.human), ("json", .json), ("machine", .machine)].lookup name

/-- What is asked for on the command line. -/
structure Args where
  inputs : List String := []
  outDir? : Option String := none
  typed : Bool := false
  sourceMap : Bool := false
  name? : Option String := none
  stdout : Bool := false
  config? : Option String := none
  ignore : List String := []
  output : ReportFormat := .human
  verbose : Nat := 0
deriving DecidableEq, Repr

/-- Why a command line asks for no run. -/
inductive UsageError where
  | help
  | version
  | unknownArgument
  | invalidValue
  | unwantedValue
  | repeatedArgument
  | missingInput
deriving DecidableEq, Repr

def UsageError.message : UsageError → String
  | .help =>
    "Usage: hooksmith [OPTIONS] <INPUTS>...\n\n" ++
      "  --out-dir <DIR>       where generated files go (default: next to each source)\n" ++
      "  --typed               write typed modules\n" ++
      "  --source-map          write a map next to each typed module\n" ++
      "  --name <NAME>         name of the component (single input only)\n" ++
      "  --stdout              print modules instead of writing files\n" ++
      "  --config <FILE>       settings file (default: hooksmith.json when present)\n" ++
      "  --ignore <GLOB>       leave out matching files while scanning directories\n" ++
      "  --output <FORMAT>     human, json or machine\n" ++
      "  -v, --verbose         say more\n" ++
      "  -h, --help            print this text\n" ++
      "  -V, --version         print the version"
  | .version => "hooksmith 0.3.0"
  | .unknownArgument => "error: unexpected argument found"
  | .invalidValue => "error: a value is missing or not one of those possible"
  | .unwantedValue => "error: a value is given to an argument that takes none"
  | .repeatedArgument => "error: an argument cannot be used more than once"
  | .missingInput => "error: no input is given"

/-- An argument that stands alone. -/
inductive Flag where
  | typed
  | sourceMap
  | stdout
  | verbose
  | help
  | version
deriving DecidableEq, Repr

/-- An argument that takes a value. -/
inductive ValueArg where
  | outDir
  | name
  | config
  | ignore
  | output
deriving DecidableEq, Repr

def Flag.ofLetter? (letter : Char) : Option Flag :=
  [('v', Flag.verbose), ('h', .help), ('V', .version)].lookup letter

def Flag.ofName? (name : String) : Option Flag :=
  [("typed", Flag.typed), ("source-map", .sourceMap), ("stdout", .stdout), ("verbose", .verbose),
    ("help", .help), ("version", .version)].lookup name

def ValueArg.ofName? (name : String) : Option ValueArg :=
  [("out-dir", ValueArg.outDir), ("name", .name), ("config", .config), ("ignore", .ignore),
    ("output", .output)].lookup name

namespace Args

/-- The count of `verbose` stops here. -/
def maxVerbose : Nat := 255

/-- A command line being read: what it asks for so far, the arguments whose values are taken over,
and the last one that takes a value, with the value once that is seen. -/
structure Draft where
  args : Args := {}
  taken : List ValueArg := []
  pending : Option (ValueArg × Option String) := none

namespace Draft

def store (args : Args) (arg : ValueArg) (value : String) : Except UsageError Args :=
  match arg with
  | .outDir => return { args with outDir? := some value }
  | .name => return { args with name? := some value }
  | .config => return { args with config? := some value }
  | .ignore => return { args with ignore := args.ignore ++ [value] }
  | .output =>
    match ReportFormat.ofName? value with
    | some format => return { args with output := format }
    | none => throw .invalidValue

/-- Takes over the value of an argument; only `ignore` may be given again. -/
def take (draft : Draft) (arg : ValueArg) (value : String) : Except UsageError Draft := do
  if arg ≠ .ignore ∧ arg ∈ draft.taken then throw .repeatedArgument
  return { draft with args := ← store draft.args arg value, taken := arg :: draft.taken }

/-- Takes over the pending argument, which by now has to have its value. -/
def settle (draft : Draft) : Except UsageError Draft :=
  match draft.pending with
  | none => return draft
  | some (_, none) => throw .invalidValue
  | some (arg, some value) => take { draft with pending := none } arg value

def raise (args : Args) : Flag → Except UsageError Args
  | .typed => if args.typed then throw .repeatedArgument else return { args with typed := true }
  | .sourceMap =>
    if args.sourceMap then throw .repeatedArgument else return { args with sourceMap := true }
  | .stdout => if args.stdout then throw .repeatedArgument else return { args with stdout := true }
  | .verbose => return { args with verbose := min (args.verbose + 1) maxVerbose }
  | .help => throw .help
  | .version => throw .version

def flag (draft : Draft) (flag : Flag) : Except UsageError Draft := do
  let draft ← draft.settle
  return { draft with args := ← raise draft.args flag }

def input (draft : Draft) (path : String) : Except UsageError Draft := do
  let draft ← draft.settle
  return { draft with args := { draft.args with inputs := draft.args.inputs ++ [path] } }

/-- Reads the letters behind a single dash. -/
def letters (draft : Draft) : List Char → Except UsageError Draft
  | [] => return draft
  | c :: cs =>
    match Flag.ofLetter? c with
    | some f => do letters (← draft.flag f) cs
    | none => throw .unknownArgument

/-- Reads what stands behind two dashes: a name, or a name, an equals sign and a value. -/
def long (draft : Draft) (text : List Char) : Except UsageError Draft :=
  let name := String.ofList (text.takeWhile (· ≠ '='))
  match Flag.ofName? name, ValueArg.ofName? name, text.dropWhile (· ≠ '=') with
  | some f, _, [] => draft.flag f
  | some _, _, _ => throw .unwantedValue
  | none, some arg, [] => do return { ← draft.settle with pending := some (arg, none) }
  | none, some arg, _ :: value => do (← draft.settle).take arg (String.ofList value)
  | none, none, _ => throw .unknownArgument

/-- Reads an argument that does not start with a dash: the value that is waited for, or an input. -/
def plain (draft : Draft) (text : String) : Except UsageError Draft :=
  match draft.pending with
  | some (arg, none) => return { draft with pending := some (arg, some text) }
  | _ => draft.input text

/-- Reads arguments in turn. Behind two dashes that stand alone all are inputs. -/
def read (draft : Draft) : List String → Except UsageError Draft
  | [] => draft.settle
  | arg :: rest =>
    match arg.toList with
    | ['-', '-'] => do (← rest.foldlM input draft).settle
    | '-' :: '-' :: text => do read (← draft.long text) rest
    | '-' :: c :: cs => do read (← draft.letters (c :: cs)) rest
    | _ => do read (← draft.plain arg) rest

end Draft

/-- What a command line asks for; the first fault in it wins, a missing input comes last. -/
def parse (args : List String) : Except UsageError Args := do
  let draft ← Draft.read {} args
  if draft.args.inputs = [] then throw .missingInput
  return draft.args

end Args

end Sigil
