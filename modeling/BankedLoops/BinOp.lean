/-!
# Binary operators

Every operator belongs to exactly one family: arithmetic, comparison, logical or bitwise.
-/

namespace BankedLoops

inductive BinOp where
  | add | sub | mul
  | lt | le | gt | ge | eq | ne
  | and | or
  | shl | shr | bitAnd
  deriving DecidableEq

namespace BinOp

def isArithmetic : BinOp → Bool
  | .add | .sub | .mul => true
  | _ => false

def isComparison : BinOp → Bool
  | .lt | .le | .gt | .ge | .eq | .ne => true
  | _ => false

def isLogical : BinOp → Bool
  | .and | .or => true
  | _ => false

def isBitwise : BinOp → Bool
  | .shl | .shr | .bitAnd => true
  | _ => false

def symbol : BinOp → String
  | .add => "+"
  | .sub => "-"
  | .mul => "*"
  | .lt => "<"
  | .le => "<="
  | .gt => ">"
  | .ge => ">="
  | .eq => "=="
  | .ne => "!="
  | .and => "&&"
  | .or => "||"
  | .shl => "<<"
  | .shr => ">>"
  | .bitAnd => "&"

def all : List BinOp :=
  [.add, .sub, .mul, .lt, .le, .gt, .ge, .eq, .ne, .and, .or, .shl, .shr, .bitAnd]

def ofSymbol? (symbol : String) : Option BinOp :=
  all.find? (·.symbol == symbol)

end BinOp

end BankedLoops
