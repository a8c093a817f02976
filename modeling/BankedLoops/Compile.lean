import BankedLoops.Parser.Command
import BankedLoops.Typing.Checker
import BankedLoops.Lowering.Netlist

/-!
# Compiling

The passes one after another: read, check, split into banks, lower. Each of them either succeeds or
ends the compilation.
-/

namespace BankedLoops

def Program.compile (config : Config) (p : SourceProgram) : Outcome Netlist := do
  let statements := Statements.ofProgram p
  let typed ← p.check
  let banked ← typed.toBanks statements
  let netlist ← banked.toNetlist config statements
  Outcome.tell (.compiled netlist.components.length netlist.metadata.size)
  pure netlist

def compile (config : Config) (source : String) : Outcome Netlist := do
  let p ← liftM (parse source)
  Outcome.tell (.parsed p.decls.length p.defs.length)
  p.compile config

/-- Reads and checks a source text. -/
def check (source : String) : Outcome TypedProgram := do
  let p ← liftM (parse source)
  p.check

end BankedLoops
