import BankedLoops.Ty
import BankedLoops.BinOp

/-!
# Expressions

Source expressions as they are written, and typed expressions, which carry the type of every node
and, once arrays are split into banks, name physical memories.
-/

namespace BankedLoops

inductive Expr where
  | int (value : Nat)
  | bool (value : Bool)
  | var (name : String)
  | binop (op : BinOp) (lhs rhs : Expr)
  | access (array : String) (idxs : List Expr)
  | app (func : String) (args : List Expr)

namespace Expr

def isBinop : Expr → Bool
  | .binop .. => true
  | _ => false

/-- The text of an operand: an operation is set in parentheses. -/
def enclose (e : Expr) (text : String) : String :=
  if e.isBinop then s!"({text})" else text

mutual

def text : Expr → String
  | .int n => toString n
  | .bool b => toString b
  | .var name => name
  | .binop op lhs rhs => s!"{lhs.enclose lhs.text} {op.symbol} {rhs.enclose rhs.text}"
  | .access array idxs => array ++ indexText idxs
  | .app func args => s!"{func}({argumentText args})"

/-- Each index in brackets of its own. -/
def indexText : List Expr → String
  | [] => ""
  | idx :: idxs => s!"[{idx.text}]{indexText idxs}"

def argumentText : List Expr → String
  | [] => ""
  | [arg] => arg.text
  | arg :: args => s!"{arg.text}, {argumentText args}"

end

end Expr

/-- An expression with the type of each of its nodes. -/
inductive TypedExpr where
  | int (ty : Ty) (value : Nat)
  | bool (ty : Ty) (value : Bool)
  | var (ty : Ty) (name : String)
  | binop (ty : Ty) (op : BinOp) (lhs rhs : TypedExpr)
  | access (ty : Ty) (array : String) (idxs : List TypedExpr)
  | app (ty : Ty) (func : String) (args : List String)
  | mem (ty : Ty) (mem : String) (addr : List TypedExpr)
  /-- A read from the bank that `select` numbers, at the same address in each bank. -/
  | muxRead (ty : Ty) (banks : List String) (select : TypedExpr) (addr : List TypedExpr)

namespace TypedExpr

def ty : TypedExpr → Ty
  | .int ty _ | .bool ty _ | .var ty _ | .binop ty .. | .access ty .. | .app ty .. | .mem ty ..
  | .muxRead ty .. => ty

/-- A literal with its own compile-time type. -/
def lit (n : Nat) : TypedExpr := .int (.static n) n

/-- The text of an index in a diagnostic; what is neither a literal, a name nor an operation is
left out. -/
def indexText : TypedExpr → String
  | .int _ n => toString n
  | .var _ name => name
  | .binop _ op lhs rhs => s!"{lhs.indexText} {op.symbol} {rhs.indexText}"
  | _ => "<expr>"

end TypedExpr

end BankedLoops
