import BankedLoops.Parser.Basic

/-!
# Reading expressions

From loosest to tightest: `||`, `&&`, the comparisons, `<< >> &`, `+ -`, `*`. All associate to the
left except the comparisons, of which at most one stands at a level.
-/

namespace BankedLoops

namespace Parser

def chain (operand : Parser Expr) (op? : Symbol → Option BinOp) (left : Expr) :
    Nat → Parser Expr
  | 0 => pure left
  | rounds + 1 => do
    match ← current with
    | some (.symbol mark) =>
      match op? mark with
      | some op =>
        advance
        let right ← operand
        chain operand op? (.binop op left right) rounds
      | none => pure left
    | _ => pure left

/-- Operands of one level, associated to the left. -/
def leftAssociative (operand : Parser Expr) (op? : Symbol → Option BinOp) : Parser Expr := do
  let left ← operand
  chain operand op? left (← remaining)

def multiplicative? : Symbol → Option BinOp
  | .star => some .mul
  | _ => none

def additive? : Symbol → Option BinOp
  | .plus => some .add
  | .minus => some .sub
  | _ => none

def bitwise? : Symbol → Option BinOp
  | .shl => some .shl
  | .shr => some .shr
  | .amp => some .bitAnd
  | _ => none

def comparison? : Symbol → Option BinOp
  | .lt => some .lt
  | .le => some .le
  | .gt => some .gt
  | .ge => some .ge
  | .eqEq => some .eq
  | .notEq => some .ne
  | _ => none

def conjunction? : Symbol → Option BinOp
  | .andAnd => some .and
  | _ => none

def disjunction? : Symbol → Option BinOp
  | .orOr => some .or
  | _ => none

/-- One operand, or two with a comparison between them. -/
def comparison (operand : Parser Expr) : Parser Expr := do
  let left ← operand
  chain operand comparison? left 1

/-- What follows a name: arguments, indices, or nothing. -/
def named (expr : Parser Expr) (name : String) : Parser Expr := do
  if ← eat (.symbol .lParen) then
    return .app name (← parenthesized expr)
  let index := do
    let idx ← expr
    expect (.symbol .rBracket)
    pure idx
  match ← announced (.symbol .lBracket) index (← remaining) with
  | [] => pure (.var name)
  | idxs => pure (.access name idxs)

def primary (expr : Parser Expr) : Parser Expr := do
  match ← current with
  | some (.int n) =>
    advance
    pure (.int n)
  | some (.keyword .true_) =>
    advance
    pure (.bool true)
  | some (.keyword .false_) =>
    advance
    pure (.bool false)
  | some (.symbol .lParen) =>
    advance
    let inner ← expr
    expect (.symbol .rParen)
    pure inner
  | some (.ident name) =>
    advance
    named expr name
  | _ => unexpected .expression

/-- An expression of all levels over the given inner expressions. -/
def levels (inner : Parser Expr) : Parser Expr :=
  let product := leftAssociative (primary inner) multiplicative?
  let sum := leftAssociative product additive?
  let bits := leftAssociative sum bitwise?
  let conjunction := leftAssociative (comparison bits) conjunction?
  leftAssociative conjunction disjunction?

/-- An expression whose parentheses, indices and arguments nest at most `depth` deep. -/
def exprWithin : Nat → Parser Expr
  | 0 => unexpected .expression
  | depth + 1 => levels (exprWithin depth)

/-- An expression. It cannot nest deeper than there are lexemes left. -/
def expr : Parser Expr := do
  exprWithin (← remaining)

end Parser

end BankedLoops
