import BankedLoops.Program
import BankedLoops.Table

/-!
# Statement texts

The table from positions to one-line statement texts, which diagnostics and netlist metadata
quote.
-/

namespace BankedLoops

abbrev Statements := Table Nat String

mutual

/-- The statements of a command, outer before inner. Sequences and empty blocks have no text of
their own. -/
def Command.statements : SourceCommand → List (Nat × String)
  | .seq _ cmds => statementsOfSeq cmds
  | .skip _ => []
  | cmd@(.branch pos _ onTrue onFalse) =>
    (pos, cmd.text) :: (onTrue.statements ++ statementsOfElse onFalse)
  | cmd@(.loop pos _ body) => (pos, cmd.text) :: body.statements
  | cmd => [(cmd.pos, cmd.text)]

def statementsOfSeq : List SourceCommand → List (Nat × String)
  | [] => []
  | cmd :: cmds => cmd.statements ++ statementsOfSeq cmds

def statementsOfElse : Option SourceCommand → List (Nat × String)
  | none => []
  | some cmd => cmd.statements

end

def Program.statements (p : SourceProgram) : List (Nat × String) :=
  p.decls.map (fun d => (d.pos, s!"decl {d.text};"))
    ++ p.defs.flatMap (fun f =>
      (f.pos, f.text) :: f.params.map (fun d => (d.pos, d.text)) ++ f.body.statements)
    ++ statementsOfElse p.body

namespace Statements

def ofProgram (p : SourceProgram) : Statements :=
  Table.ofList p.statements

/-- The text at `pos`, or a placeholder that names the position. -/
def describe (statements : Statements) (pos : Nat) : String :=
  (statements.get? pos).getD s!"<statement {pos}>"

end Statements

end BankedLoops
