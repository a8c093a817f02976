import BankedLoops.Program

/-!
# The commands of a program

All commands of a program, those inside others included, outer before inner and in the order of the
text.
-/

namespace BankedLoops

variable {τ ε : Type}

namespace Command

mutual

/-- A command and the commands inside it. -/
def preorder : Command τ ε → List (Command τ ε)
  | .seq pos cmds => .seq pos cmds :: preorderSeq cmds
  | .branch pos cond onTrue onFalse =>
    .branch pos cond onTrue onFalse :: (preorder onTrue ++ preorderElse onFalse)
  | .loop pos header body => .loop pos header body :: preorder body
  | cmd => [cmd]

def preorderSeq : List (Command τ ε) → List (Command τ ε)
  | [] => []
  | cmd :: cmds => preorder cmd ++ preorderSeq cmds

def preorderElse : Option (Command τ ε) → List (Command τ ε)
  | none => []
  | some cmd => preorder cmd

end

/-- A list of commands and an empty block have no text of their own. -/
def isStatement : Command τ ε → Bool
  | .seq .. | .skip _ => false
  | _ => true

end Command

/-- The commands of the functions, then those of the body. -/
def Program.commands (p : Program τ ε) : List (Command τ ε) :=
  p.defs.flatMap (·.body.preorder) ++ Command.preorderElse p.body

theorem Program.preorder_of_defs {p : Program τ ε} {f : Function τ ε} (defined : f ∈ p.defs) :
    f.body.preorder ⊆ p.commands :=
  fun _ inside => List.mem_append_left _ (List.mem_flatMap.mpr ⟨f, defined, inside⟩)

theorem Program.preorder_of_body {p : Program τ ε} {body : Command τ ε} (given : p.body = some body) :
    body.preorder ⊆ p.commands := by
  intro cmd inside
  rw [commands, given]
  exact List.mem_append_right _ inside

end BankedLoops
