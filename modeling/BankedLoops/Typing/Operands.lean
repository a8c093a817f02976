import BankedLoops.Error

/-!
# Assignability and operand types

Only literals and iterators are converted: a value computed at run time must have exactly the type
of its destination. Two numeric operands meet in a type that holds every value of both.
-/

namespace BankedLoops

/-- Whether a value of type `src` may be stored where `dst` is declared. -/
def assignable (src dst : Ty) : Bool :=
  src == dst ||
    match src, dst with
    | .static n, .bit width signed => bitsNeeded n + signed.toNat ≤ width
    | .idx .., .bit width false => width == src.width
    | _, _ => false

/-- The type in which the operands of a numeric `op` meet. -/
def numericJoin (op : BinOp) (l r : Ty) : Except OperandFault Ty :=
  match l, r with
  | .fix w f, .fix v g =>
    if f = g then .ok (.fix (max w v) f) else .error (.fractions op f g)
  | .fix .., _ | _, .fix .. => .error (.mixedFixed op l r)
  | .bit w s, .bit v t =>
    if s = t then .ok (.bit (max w v) s) else .error (.mixedSign op l r)
  | _, _ =>
    if l.isInteger && r.isInteger then
      .ok (.bit (max l.width r.width) (l.isSigned || r.isSigned))
    else
      .error (.undefined op l r)

/-- The value of an operation on literals, when it is a natural number that fits in a word. A
shift by a word's width or more has no value. -/
def foldStatic (op : BinOp) (a b : Nat) : Option Nat :=
  let word (n : Nat) := if Word.fits Word.sizeBits n then some n else none
  match op with
  | .add => word (a + b)
  | .sub => if b ≤ a then some (a - b) else none
  | .mul => word (a * b)
  | .shl =>
    if b < Word.sizeBits then some (a * Word.capacity b % Word.capacity Word.sizeBits) else none
  | .shr => if b < Word.sizeBits then some (a / Word.capacity b) else none
  | .bitAnd => some (a &&& b)
  | _ => none

def binopType (op : BinOp) (l r : Ty) : Except OperandFault Ty :=
  if op.isLogical then
    if l = .bool ∧ r = .bool then .ok .bool else .error (.notBool op l r)
  else if op.isComparison then
    if (op = .eq ∨ op = .ne) ∧ l = .bool ∧ r = .bool then
      .ok .bool
    else
      (numericJoin op l r).map fun _ => .bool
  else if op.isBitwise && (l.frac?.isSome || r.frac?.isSome) then
    .error (.fixedBitwise op)
  else
    match l, r with
    | .static a, .static b =>
      match foldStatic op a b with
      | some n => .ok (.static n)
      | none => .error (.unrepresentable op a b)
    | _, _ => numericJoin op l r

end BankedLoops
