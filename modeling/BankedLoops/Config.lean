/-!
# Compiler settings
-/

namespace BankedLoops

inductive Format where
  | text
  | json
  deriving DecidableEq

structure Config where
  topName : String := "main"
  /-- Whether the netlist carries the table of annotated statements. -/
  emitMetadata : Bool := true
  /-- Whether scheduled items carry the position of their statement. -/
  emitPositions : Bool := true
  format : Format := .text
  checkOnly : Bool := false
  /-- Where the netlist goes; standard output when absent. -/
  output : Option String := none
  deriving DecidableEq

namespace Config

/-- A component name is an identifier of ASCII letters, digits and underscores. -/
def isComponentName (name : String) : Bool :=
  match name.toList with
  | [] => false
  | c :: cs => (c.isAlpha || c == '_') && cs.all fun c => c.isAlphanum || c == '_'

end Config

end BankedLoops
