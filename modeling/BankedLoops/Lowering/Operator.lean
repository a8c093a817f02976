import BankedLoops.Lowering.Builder

/-!
# Operators in hardware

The library primitive that computes each operator, and the adapters between widths.
-/

namespace BankedLoops

namespace Lowering

/-- A library primitive by its name without `std_`, and its parameters. -/
structure Operator where
  stem : String
  params : List Nat

/-- The integer primitive of an operator. -/
def integerStem (op : BinOp) (signed : Bool) : String :=
  match op, signed with
  | .add, _ => "add"
  | .sub, _ => "sub"
  | .mul, _ => "mult"
  | .lt, false => "lt"
  | .lt, true => "slt"
  | .le, false => "le"
  | .le, true => "sle"
  | .gt, false => "gt"
  | .gt, true => "sgt"
  | .ge, false => "ge"
  | .ge, true => "sge"
  | .eq, _ => "eq"
  | .ne, _ => "neq"
  | .and, _ => "and"
  | .bitAnd, _ => "and"
  | .or, _ => "or"
  | .shl, _ => "lsh"
  | .shr, false => "rsh"
  | .shr, true => "srsh"

def fixedStem? : BinOp → Option String
  | .add => some "fp_add"
  | .sub => some "fp_sub"
  | .mul => some "fp_mult"
  | _ => none

namespace Operator

/-- The primitive for `op` at `width` bits, of which `frac` are fractional for fixed-point
operands. A fixed-point primitive is told its integer bits as well. -/
def of (op : BinOp) (width : Nat) (signed : Bool) (frac : Option Nat) :
    Except Fault Operator := do
  match frac, fixedStem? op with
  | some frac, some stem =>
    let whole ← Word.sub width frac
    pure ⟨stem, [width, whole, frac]⟩
  | _, _ => pure ⟨integerStem op signed, [width]⟩

end Operator

def addOperator (op : BinOp) (width : Nat) (signed : Bool) (frac : Option Nat) :
    Build String := do
  let operator ← liftM (Operator.of op width signed frac)
  addPrimitive operator.stem s!"std_{operator.stem}" operator.params

/-- Brings a pin of `width` bits to `target` bits: low bits are kept, a signed value is extended by
its sign. -/
def adapt (w : Wiring) (pin : Pin) (width target : Nat) (signed : Bool) :
    Build (Pin × Wiring) := do
  if width = target then
    return (pin, w)
  let stem := if target < width then "slice" else if signed then "signext" else "pad"
  let cell ← addPrimitive stem s!"std_{stem}" [width, target]
  return (.out cell, w.connect (.cell cell "in") pin)

end Lowering

end BankedLoops
