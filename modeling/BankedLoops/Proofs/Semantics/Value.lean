import BankedLoops.Expr

/-!
# Values of operations

A value is the bit pattern that a register or a memory element holds. An operation reads its
operands at the width at which it works, and keeps the low bits of its result that its type has.
-/

namespace BankedLoops

namespace Semantics

/-- The integer that a pattern of `width` bits stands for. -/
def toInt (signed : Bool) (width v : Nat) : Int :=
  if signed = true ∧ Word.capacity (width - 1) ≤ v then (v : Int) - Word.capacity width else v

/-- The low `width` bits of an integer. -/
def pattern (width : Nat) (n : Int) : Nat :=
  (n % Word.capacity width).toNat

/-- The width at which an operator works: no operand is cut. -/
def workWidth (ty l r : Ty) : Nat := max ty.width (max l.width r.width)

/-- An operand of type `ty` as an operator of `width` bits reads it. -/
def operand (signed : Bool) (width : Nat) (ty : Ty) (v : Nat) : Int :=
  toInt signed width (pattern width (toInt ty.isSigned ty.width v))

/-- The result of an operator of `width` bits, not cut to any width. -/
def exact (op : BinOp) (width : Nat) (a b : Int) : Int :=
  match op with
  | .add => a + b
  | .sub => a - b
  | .mul => a * b
  | .lt => (decide (a < b)).toNat
  | .le => (decide (a ≤ b)).toNat
  | .gt => (decide (b < a)).toNat
  | .ge => (decide (b ≤ a)).toNat
  | .eq => (decide (a = b)).toNat
  | .ne => (decide (a ≠ b)).toNat
  | .and => (decide (a ≠ 0 ∧ b ≠ 0)).toNat
  | .or => (decide (a ≠ 0 ∨ b ≠ 0)).toNat
  | .shl => a * Word.capacity (pattern width b)
  | .shr => a / Word.capacity (pattern width b)
  | .bitAnd => (pattern width a &&& pattern width b : Nat)

/-- The result of `op` on operands of types `l` and `r`, not cut to the width of its type. -/
def result (op : BinOp) (ty l r : Ty) (a b : Nat) : Int :=
  let width := workWidth ty l r
  let signed := l.isSigned || r.isSigned
  exact op width (operand signed width l a) (operand signed width r b)

/-- The product of two fixed-point patterns, for a width and a number of fractional bits. -/
abbrev FixedProduct := (width frac a b : Nat) → Nat

/-- The value of `op` at the width of its type. -/
def operation (product : FixedProduct) (op : BinOp) (ty l r : Ty) (a b : Nat) : Nat :=
  match op, ty with
  | .mul, .fix width frac => pattern width (product width frac a b)
  | _, _ => pattern ty.width (result op ty l r a b)

/-- Whether the type of an operation has no place for its result. -/
def wraps (op : BinOp) (ty l r : Ty) (a b : Nat) : Bool :=
  let n := result op ty l r a b
  toInt ty.isSigned ty.width (pattern ty.width n) != n

end Semantics

end BankedLoops
