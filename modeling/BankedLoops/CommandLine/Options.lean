/-!
# Command-line options

Arguments are read from left to right. A request for help or for the version is answered as soon as
it is reached; the first argument that does not fit ends the reading.
-/

namespace BankedLoops

namespace CommandLine

structure Options where
  /-- The source file; standard input when absent. -/
  input : Option String := none
  config : Option String := none
  output : Option String := none
  json : Bool := false
  checkOnly : Bool := false
  noMetadata : Bool := false
  top : Option String := none
  /-- How often more detail was asked for. -/
  verbosity : Nat := 0
  deriving DecidableEq

inductive Request where
  | run (options : Options)
  | help
  | version
  deriving DecidableEq

inductive UsageError where
  | unknownOption (name : String)
  | missingValue
  | emptyValue
  | unexpectedValue (name : String)
  | repeated
  | unexpectedArgument (arg : String)
  deriving DecidableEq

def UsageError.message : UsageError → String
  | .unknownOption name => s!"unexpected argument '{name}' found"
  | .missingValue => "a value is required for an option but none was supplied"
  | .emptyValue => "a value is required for an option but an empty one was supplied"
  | .unexpectedValue name => s!"unexpected value for '{name}' found; no more were expected"
  | .repeated => "an argument cannot be used multiple times"
  | .unexpectedArgument arg => s!"unexpected argument '{arg}' found"

/-- An argument that takes a value. -/
inductive Valued where
  | input | config | output | top

/-- An option that takes none. -/
inductive Switch where
  | json | check | noMetadata | verbose | help | version

inductive Named where
  | valued (v : Valued)
  | switch (s : Switch)

def long? (name : String) : Option Named :=
  match name with
  | "config" => some (.valued .config)
  | "output" => some (.valued .output)
  | "top" => some (.valued .top)
  | "json" => some (.switch .json)
  | "check" => some (.switch .check)
  | "no-metadata" => some (.switch .noMetadata)
  | "verbose" => some (.switch .verbose)
  | "help" => some (.switch .help)
  | "version" => some (.switch .version)
  | _ => none

def short? : Char → Option Named
  | 'c' => some (.valued .config)
  | 'o' => some (.valued .output)
  | 'j' => some (.switch .json)
  | 'v' => some (.switch .verbose)
  | 'h' => some (.switch .help)
  | 'V' => some (.switch .version)
  | _ => none

/-- Sets an option that has no value yet. A path must not be empty. -/
def Options.setValue (o : Options) (v : Valued) (value : String) : Except UsageError Options :=
  let once (old : Option String) (new : Options) : Except UsageError Options :=
    if old.isSome then .error .repeated else .ok new
  let path (old : Option String) (new : Options) : Except UsageError Options :=
    if value.isEmpty then .error .emptyValue else once old new
  match v with
  | .input => path o.input { o with input := some value }
  | .config => path o.config { o with config := some value }
  | .output => path o.output { o with output := some value }
  | .top => once o.top { o with top := some value }

/-- How the reading stands after a part of the arguments. -/
inductive Step where
  | ready (o : Options)
  /-- The next argument is the value of `v`. -/
  | awaiting (o : Options) (v : Valued)
  | answered (r : Request)

/-- Turns a switch on. Only the level of detail may be asked for more than once. -/
def Options.turnOn (o : Options) (s : Switch) : Except UsageError Step :=
  let once (old : Bool) (new : Options) : Except UsageError Step :=
    if old then .error .repeated else .ok (.ready new)
  match s with
  | .json => once o.json { o with json := true }
  | .check => once o.checkOnly { o with checkOnly := true }
  | .noMetadata => once o.noMetadata { o with noMetadata := true }
  | .verbose => .ok (.ready { o with verbosity := o.verbosity + 1 })
  | .help => .ok (.answered .help)
  | .version => .ok (.answered .version)

/-- Reads `--name` or `--name=value`, without its dashes. -/
def readLong (o : Options) (body : List Char) : Except UsageError Step := do
  let name := String.ofList (body.takeWhile (· != '='))
  let value := match body.dropWhile (· != '=') with
    | [] => none
    | _ :: value => some (String.ofList value)
  match long? name, value with
  | none, _ => throw (.unknownOption name)
  | some (.valued v), none => return .awaiting o v
  | some (.valued v), some value => return .ready (← o.setValue v value)
  | some (.switch s), none => o.turnOn s
  | some (.switch _), some _ => throw (.unexpectedValue name)

/-- Reads one-letter options that stand together. An option with a value takes the rest of the
argument, after an equals sign if there is one, or else the next argument. -/
def readShort (o : Options) : List Char → Except UsageError Step
  | [] => pure (.ready o)
  | c :: cs => do
    match short? c with
    | none => throw (.unknownOption (String.singleton c))
    | some (.valued v) =>
      match cs with
      | [] => return .awaiting o v
      | '=' :: value => return .ready (← o.setValue v (String.ofList value))
      | value => return .ready (← o.setValue v (String.ofList value))
    | some (.switch s) =>
      match ← o.turnOn s with
      | .ready o => readShort o cs
      | step => pure step

/-- A positional argument is the source file. -/
def readPositional (o : Options) (arg : String) : Except UsageError Options :=
  if o.input.isSome then .error (.unexpectedArgument arg) else o.setValue .input arg

def readPositionals (o : Options) : List String → Except UsageError Request
  | [] => pure (.run o)
  | arg :: args => do readPositionals (← readPositional o arg) args

/-- Whether an argument can be the value of an option: a lone dash can, an option cannot. -/
def isValue (arg : String) : Bool :=
  match arg.toList with
  | ['-'] => true
  | '-' :: _ => false
  | _ => true

/-- Reads one argument that is not the value of an option. -/
def readArgument (o : Options) (arg : String) : Except UsageError Step := do
  match arg.toList with
  | '-' :: '-' :: body => readLong o body
  | ['-'] => return .ready (← readPositional o arg)
  | '-' :: body => readShort o body
  | _ => return .ready (← readPositional o arg)

/-- Reads the arguments that are left. Two dashes alone make all further ones positional. -/
def readArguments : Step → List String → Except UsageError Request
  | .answered r, _ => pure r
  | .ready o, [] => pure (.run o)
  | .awaiting _ _, [] => throw .missingValue
  | .awaiting o v, arg :: args => do
    if isValue arg then
      let o ← o.setValue v arg
      readArguments (.ready o) args
    else
      throw .missingValue
  | .ready o, arg :: args => do
    if arg = "--" then
      readPositionals o args
    else
      let step ← readArgument o arg
      readArguments step args

/-- What the arguments of a run ask for. -/
def parseArguments (args : List String) : Except UsageError Request :=
  readArguments (.ready {}) args

def versionText : String := "accelc 0.1.0\n"

def helpText : String :=
  String.join ([
    "Compiles banked loop-and-array programs to a hardware control IR",
    "",
    "Usage: accelc [OPTIONS] [FILE]",
    "",
    "Arguments:",
    "  [FILE]  Source file; reads standard input when omitted",
    "",
    "Options:",
    "  -c, --config <CONFIG>  TOML configuration file",
    "  -o, --output <OUTPUT>  Output file; standard output when omitted",
    "  -j, --json             Emit the netlist as JSON",
    "      --check            Stop after type checking",
    "      --no-metadata      Omit the metadata table",
    "      --top <TOP>        Root component name",
    "  -v, --verbose...       Verbose output (repeat for more)",
    "  -h, --help             Print help",
    "  -V, --version          Print version"].map (· ++ "\n"))

end CommandLine

end BankedLoops
