import BankedLoops.Config
import BankedLoops.Config.Toml
import BankedLoops.Error

/-!
# Reading settings

Every setting is optional and keeps its default. A key that is no setting, a value of a wrong kind
and a root name that is no identifier are refused.
-/

namespace BankedLoops

namespace Config

def formatNamed? (name : String) : Option Format :=
  if name = "text" then some .text else if name = "json" then some .json else none

/-- An output format: its name, or a table with the name as only key and nothing in it. -/
def format? : Toml.Value → Option Format
  | .string name => formatNamed? name
  | .table _ [(name, .table _ [])] => formatNamed? name
  | .table _ [(name, .emptyArray)] => formatNamed? name
  | _ => none

def set? (config : Config) (key : String) (value : Toml.Value) : Option Config :=
  match key, value with
  | "top_name", .string name => some { config with topName := name }
  | "emit_metadata", .boolean b => some { config with emitMetadata := b }
  | "emit_positions", .boolean b => some { config with emitPositions := b }
  | "format", value => (format? value).map fun format => { config with format }
  | "check_only", .boolean b => some { config with checkOnly := b }
  | "output", .string path => some { config with output := some path }
  | _, _ => none

def ofToml (text : String) : Except CompileError Config := do
  let entries := Toml.parse? text
  match entries.bind (·.foldlM (fun config entry => config.set? entry.1 entry.2) {}) with
  | none => throw (.config .malformed)
  | some config =>
    if isComponentName config.topName then
      pure config
    else
      throw (.config (.topName config.topName))

end Config

end BankedLoops
