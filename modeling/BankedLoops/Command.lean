import BankedLoops.Expr

/-!
# Commands

One command tree serves source and typed programs: `τ` is what a `let` says about its type and
`ε` what stands for an expression. Every command carries the position that identifies it.
-/

namespace BankedLoops

/-- The header of a loop over `[start, stop)`. -/
structure LoopHeader where
  iter : String
  start : Nat
  stop : Nat
  unroll : Option Nat
  deriving DecidableEq

namespace LoopHeader

def text (h : LoopHeader) : String :=
  let range := s!"for (let {h.iter} = {h.start}..{h.stop})"
  match h.unroll with
  | none => range
  | some k => s!"{range} unroll {k}"

/-- Whether copies of the body run side by side. -/
def isParallel (h : LoopHeader) : Bool :=
  match h.unroll with
  | none => false
  | some k => 1 < k

end LoopHeader

inductive Command (τ ε : Type) where
  /-- `decl x: T;` -/
  | decl (pos : Nat) (name : String) (ty : Ty)
  /-- `let x: T = e;` -/
  | define (pos : Nat) (name : String) (ty : τ) (init : ε)
  | seq (pos : Nat) (cmds : List (Command τ ε))
  | branch (pos : Nat) (cond : ε) (onTrue : Command τ ε) (onFalse : Option (Command τ ε))
  | loop (pos : Nat) (header : LoopHeader) (body : Command τ ε)
  /-- `x := e;` or `a[i] := e;` -/
  | update (pos : Nat) (target value : ε)
  /-- `x += e;` or `a[i] *= e;` -/
  | reduce (pos : Nat) (op : BinOp) (target value : ε)
  | eval (pos : Nat) (e : ε)
  /-- `advance a;` -/
  | advance (pos : Nat) (array : String)
  | skip (pos : Nat)

namespace Command

variable {τ ε : Type}

def pos : Command τ ε → Nat
  | .decl pos .. | .define pos .. | .seq pos _ | .branch pos .. | .loop pos .. | .update pos ..
  | .reduce pos .. | .eval pos _ | .advance pos _ | .skip pos => pos

end Command

/-- A command as written; a `let` may leave its type open. -/
abbrev SourceCommand := Command (Option Ty) Expr

abbrev TypedCommand := Command Ty TypedExpr

/-- The one-line text of a command; a compound command shows its header only. -/
def Command.text : SourceCommand → String
  | .decl _ name ty => s!"decl {name}: {ty.text};"
  | .define _ name none init => s!"let {name} = {init.text};"
  | .define _ name (some ty) init => s!"let {name}: {ty.text} = {init.text};"
  | .seq _ cmds => s!"\x7b {cmds.length} commands \x7d"
  | .branch _ cond _ _ => s!"if ({cond.text})"
  | .loop _ header _ => header.text
  | .update _ target value => s!"{target.text} := {value.text};"
  | .reduce _ op target value => s!"{target.text} {op.symbol}= {value.text};"
  | .eval _ e => s!"{e.text};"
  | .advance _ array => s!"advance {array};"
  | .skip _ => ""

end BankedLoops
