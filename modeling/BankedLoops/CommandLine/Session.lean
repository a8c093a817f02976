import BankedLoops.CommandLine.Options
import BankedLoops.CommandLine.Files
import BankedLoops.Config.Reader
import BankedLoops.Compile
import BankedLoops.Netlist.Text
import BankedLoops.Netlist.Json

/-!
# A run of the compiler

Settings are loaded first, then the source is read, checked and compiled, and only at the end is
anything written: the whole result, once, to the output file or to standard output.
-/

namespace BankedLoops

namespace CommandLine

structure Host (τ : Type) (m : Type → Type) where
  readFile : String → m (Except FileFault String)
  readInput : m (Except FileFault String)
  /-- Makes an empty temporary file in a directory. -/
  createIn : String → m (Except FileFault τ)
  write : τ → String → m (Except FileFault Unit)
  /-- Renames a temporary file to a path. -/
  persist : τ → String → m (Except FileFault Unit)
  discard : τ → m Unit

structure Report where
  code : Nat
  out : String := ""
  err : String := ""

/-- Options take the place of settings. -/
def Options.apply (o : Options) (config : Config) : Config :=
  { config with
    output := o.output.or config.output
    format := if o.json then .json else config.format
    checkOnly := config.checkOnly || o.checkOnly
    emitMetadata := config.emitMetadata && !o.noMetadata
    topName := o.top.getD config.topName }

/-- The lines of the log that the asked-for detail shows. -/
def logText (verbosity : Nat) (log : List Event) : String :=
  let shown := log.filter fun e => if e.isTrace then 3 ≤ verbosity else 2 ≤ verbosity
  String.join (shown.map fun e => s!"{e.text}\n")

def diagnosis (e : CompileError) : String :=
  if e.isInternal then
    s!"internal compiler error: {e.message}\nThis is a bug in accelc, please report it.\n"
  else
    s!"error: {e.message}\n"

def faultText : Fault → String
  | .overflow => "arithmetic overflow\n"
  | .underflow => "arithmetic underflow\n"
  | .divisionByZero => "division by zero\n"

/-- The report on a compilation that failed after saying `log`. -/
def failureReport (log : String) : Failure → Report
  | .error e => { code := 1, err := log ++ diagnosis e }
  | .fault f => { code := 101, err := log ++ faultText f }

def errorReport (text : String) : Report := { code := 1, err := s!"error: {text}\n" }

def render : Format → Netlist → String
  | .text, n => n.text
  | .json, n => n.toJson.pretty

def checkReport (verbosity : Nat) (source : String) : Report :=
  let outcome := check source
  let log := logText verbosity outcome.log
  match outcome.result with
  | .error e => failureReport log e
  | .ok _ => { code := 0, err := log ++ "No errors found\n" }

variable {τ : Type} {m : Type → Type} [Monad m]

def loadConfig (host : Host τ m) (o : Options) : m (Except CompileError Config) := do
  match o.config with
  | none => return .ok (o.apply {})
  | some path =>
    match ← host.readFile path with
    | .error fault => return .error (.config (.unreadable path fault))
    | .ok text => return (Config.ofToml text).map o.apply

/-- The source text, or what is said when it cannot be read. -/
def readSource (host : Host τ m) (o : Options) : m (Except String String) := do
  match o.input with
  | some path =>
    match ← host.readFile path with
    | .error fault => return .error s!"Failed to read file '{path}': {fault.message}"
    | .ok text => return .ok text
  | none =>
    match ← host.readInput with
    | .error fault => return .error s!"Failed to read stdin: {fault.message}"
    | .ok text => return .ok text

/-- The directory of a path: all of it but the last name, or the working directory. -/
def directoryOf (path : String) : String :=
  let names := (path.toList.splitOn '/').filter fun name => name != [] && name != ['.']
  let start := if path.toList.head? = some '/' then ['/'] else []
  match start ++ ['/'].intercalate names.dropLast, names with
  | [], _ | _, [] => "."
  | directory, _ => String.ofList directory

/-- Writes a file through a temporary one beside it. The temporary file does not outlive a failure. -/
def writeAtomically (host : Host τ m) (path contents : String) : m (Except FileFault Unit) := do
  match ← host.createIn (directoryOf path) with
  | .error fault => return .error fault
  | .ok temp =>
    match ← host.write temp contents with
    | .error fault =>
      host.discard temp
      return .error fault
    | .ok () =>
      match ← host.persist temp path with
      | .error fault =>
        host.discard temp
        return .error fault
      | .ok () => return .ok ()

def deliver (host : Host τ m) (verbosity : Nat) (config : Config) (log : String) (n : Netlist) :
    m Report := do
  let rendered := render config.format n
  match config.output with
  | none => return { code := 0, out := rendered, err := log }
  | some path =>
    match ← writeAtomically host path rendered with
    | .error fault => return failureReport log (.error (.file fault))
    | .ok () =>
      let note :=
        if 0 < verbosity then s!"Done: {n.components.length} component(s) written to {path}\n"
        else ""
      return { code := 0, err := log ++ note }

def process (host : Host τ m) (verbosity : Nat) (config : Config) (source : String) : m Report := do
  if config.checkOnly then
    return checkReport verbosity source
  let outcome := compile config source
  let log := logText verbosity outcome.log
  match outcome.result with
  | .error e => return failureReport log e
  | .ok n => deliver host verbosity config log n

def run (host : Host τ m) (args : List String) : m Report := do
  match parseArguments args with
  | .error e => return { code := 2, err := s!"error: {e.message}\n" }
  | .ok .version => return { code := 0, out := versionText }
  | .ok .help => return { code := 0, out := helpText }
  | .ok (.run o) =>
    match ← loadConfig host o with
    | .error e => return failureReport "" (.error e)
    | .ok config =>
      match ← readSource host o with
      | .error text => return errorReport text
      | .ok source => process host o.verbosity config source

/-- Surroundings as a value: the files below the working directory and the bytes of standard
input. -/
structure World where
  files : Files := {}
  input : ByteArray := .empty

def World.host : Host (List String) (StateM World) where
  readFile path := do return (← get).files.read path
  readInput := do
    match String.fromUTF8? (← get).input with
    | some text => return .ok text
    | none => return .error .invalidText
  createIn directory := do
    match (← get).files.createIn directory with
    | .error fault => return .error fault
    | .ok (temp, files) =>
      modify fun w => { w with files }
      return .ok temp
  write temp contents := do
    modify fun w => { w with files := w.files.append temp contents.toUTF8 }
    return .ok ()
  persist temp path := do
    match (← get).files.rename temp path with
    | .error fault => return .error fault
    | .ok files =>
      modify fun w => { w with files }
      return .ok ()
  discard temp := modify fun w => { w with files := w.files.remove temp }

end CommandLine

end BankedLoops
