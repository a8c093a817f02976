import BankedLoops.Lowering.Command
import BankedLoops.Banking.Program
import BankedLoops.Config

/-!
# Lowering programs

Every function becomes a component whose memories are given by its callers; the declarations and
the body of the program become the root component, which comes last.
-/

namespace BankedLoops

namespace Lowering

/-- Runs a construction from an empty workspace and tells what came of it. The statements quoted so
far pass through. -/
def buildComponent (name : String) (quotes : Statements) (build : Build Control) :
    Outcome (Component × Statements) := do
  let (control, w) ← liftM (build.run { quotes })
  Outcome.tell (.lowered name w.cells.length w.groups.length)
  pure (⟨name, w.cells, w.groups, control⟩, w.quotes)

def lowerFunction (s : Setting) (quotes : Statements) (f : Function Ty TypedExpr) :
    Outcome (Component × Statements) :=
  buildComponent f.name quotes do
    let env ← declareAll s .reference {} f.params
    let (control, _) ← lowerCommand s env f.body
    pure control

def instantiateAll : List String → Build Unit
  | [] => pure ()
  | func :: funcs => do
    let _ ← instanceOf func
    instantiateAll funcs

def lowerRoot (s : Setting) (quotes : Statements) (topName : String) (p : TypedProgram) :
    Outcome (Component × Statements) :=
  buildComponent topName quotes do
    let env ← declareAll s .external {} p.decls
    instantiateAll (p.defs.map (·.name))
    lowerElse s env p.body

def lowerFunctions (s : Setting) (quotes : Statements) :
    List (Function Ty TypedExpr) → Outcome (List Component × Statements)
  | [] => pure ([], quotes)
  | f :: fs => do
    let (component, quotes) ← lowerFunction s quotes f
    let (components, quotes) ← lowerFunctions s quotes fs
    return (component :: components, quotes)

/-- The memory parameters of each function; the last function of a name counts. -/
def signaturesOf (defs : List (Function Ty TypedExpr)) : List (String × List String) :=
  (defs.map fun f => (f.name, f.params.map (·.name))).reverse

/-- The first bank in the table that is not an external cell of the root, with its array. -/
def hiddenBank? (root : Component) (memories : Table String (List String)) :
    Option (String × String) :=
  memories.entries.findSome? fun entry =>
    (entry.2.find? fun bank => !((root.cell? bank).any (·.isExternal))).map (·, entry.1)

end Lowering

def BankedProgram.setting (p : BankedProgram) (config : Config) (statements : Statements) :
    Lowering.Setting :=
  ⟨Lowering.signaturesOf p.program.defs, statements, config.emitPositions, config.emitMetadata⟩

def BankedProgram.toNetlist (config : Config) (statements : Statements) (p : BankedProgram) :
    Outcome Netlist := do
  let setting := p.setting config statements
  if (setting.signatures.lookup config.topName).isSome then
    refuse (.config (.rootClash config.topName))
  let (functions, quotes) ← Lowering.lowerFunctions setting {} p.program.defs
  let (root, quotes) ← Lowering.lowerRoot setting quotes config.topName p.program
  match Lowering.hiddenBank? root p.memories with
  | some (bank, array) => refuse (.internal (.notExternal bank array))
  | none => pure ()
  let components := functions ++ [root]
  Outcome.tell (.generated components.length)
  pure ⟨components, p.memories, quotes⟩

end BankedLoops
