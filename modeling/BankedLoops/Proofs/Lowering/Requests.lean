import BankedLoops.Proofs.Lowering.Physical
import BankedLoops.Proofs.Lowering.Wirings

/-!
# Requested widths

An expression is lowered to the width that its place asks for. `asks` lists what lowering an
expression lowers inside of it, and `sites` what lowering a command lowers, in the order in which it
is met: every value with the place it stands in and the width that is requested there. Where the
width is not that of the value's type an adapter is added, and a loop whose iterator is narrower
than its register adds one too, so the sites tell the adapters of a component.
-/

namespace BankedLoops

open Library (Part)

/-- The adapter that a primitive is. -/
def Prototype.adapter? : Prototype → Option Part
  | .primitive name params =>
    match Library.part? name params with
    | some (.adapter kind width target) => some (.adapter kind width target)
    | _ => none
  | .component _ => none

/-- The adapters of a component, in the order of its cells. -/
def Component.adapters (c : Component) : List Part := c.cells.filterMap (·.prototype.adapter?)

/-- The number that an expression becomes: a literal, or an operation on literals. -/
def TypedExpr.constant? : TypedExpr → Option Nat
  | .int _ n | .binop (.static n) .. => some n
  | _ => none

def TypedExpr.isConstant (e : TypedExpr) : Bool := e.constant?.isSome

namespace Lowering

/-! ### Places -/

/-- The place in which a value is lowered. -/
inductive Role where
  /-- The value of a definition, an update or a reduction, a condition, or an operand of an operation
  as the checker types it. -/
  | data
  /-- An operand of the arithmetic that splits an index into a bank and an address. -/
  | arithmetic
  | address
  | select
  /-- The sum that a rotation reduces to the number of banks. -/
  | rotated
  deriving DecidableEq

/-- A value that is lowered to `width` bits. -/
structure Request where
  role : Role
  value : TypedExpr
  width : Nat

/-- Where the width is not that of the value's type, an adapter changes it. A constant is made with
the width that is requested. -/
def Request.adapter? (r : Request) : Option Part :=
  if r.value.isConstant = true ∨ r.value.ty.width = r.width then
    none
  else
    some (.adapter (adapterOf r.value.ty.width r.width r.value.ty.isSigned) r.value.ty.width r.width)

/-- Whether the type is the one that the checker gives to the operation. -/
def isChecked (op : BinOp) (ty l r : Ty) : Bool :=
  match binopType op l r with
  | .ok found => found == ty
  | .error _ => false

def isRegister (registers : List String) : TypedExpr → Bool
  | .var _ name => registers.contains name
  | _ => false

/-- Whether a register of a rotation is added to something. -/
def isTurned (registers : List String) : TypedExpr → Bool
  | .binop _ .add lhs rhs => isRegister registers lhs || isRegister registers rhs
  | _ => false

/-- The places of the operands of an operation. -/
def operandRoles (registers : List String) (op : BinOp) (ty : Ty) (lhs rhs : TypedExpr) :
    Role × Role :=
  if isChecked op ty lhs.ty rhs.ty then (.data, .data)
  else if op = .bitAnd ∧ isTurned registers lhs = true then (.rotated, .arithmetic)
  else (.arithmetic, .arithmetic)

/-- The sizes of the first memory. -/
def sizesOf (slots : Slots) : List String → List Nat
  | [] => []
  | mem :: _ =>
    match slots.get? mem with
    | some (.memory _ sizes) => sizes
    | _ => []

/-! ### Sites -/

section

variable (registers : List String) (slots : Slots)

mutual

/-- What is lowered along with an expression. An operation on literals lowers none of them. -/
def asks : TypedExpr → List Request
  | .binop (.static _) _ _ _ => []
  | .binop ty op lhs rhs =>
    let roles := operandRoles registers op ty lhs rhs
    let width := (operatorWidths op ty lhs.ty rhs.ty).1
    (asks lhs ++ [⟨roles.1, lhs, width⟩]) ++ (asks rhs ++ [⟨roles.2, rhs, width⟩])
  | .mem _ mem addr => asksOf addr (sizesOf slots [mem])
  | .muxRead _ banks select addr =>
    (asks select ++ [⟨.select, select, bitsNeeded (banks.length - 1)⟩]) ++
      asksOf addr (sizesOf slots banks)
  | _ => []

/-- What is lowered along with addresses into dimensions of the given sizes. -/
def asksOf : List TypedExpr → List Nat → List Request
  | e :: es, size :: sizes =>
    (asks e ++ [⟨.address, e, bitsNeeded (size - 1)⟩]) ++ asksOf es sizes
  | _, _ => []

end

theorem asks_bool (ty : Ty) (b : Bool) : asks registers slots (.bool ty b) = [] := rfl

theorem asks_var (ty : Ty) (name : String) : asks registers slots (.var ty name) = [] := rfl

theorem asks_computed {ty : Ty} {op : BinOp} {lhs rhs : TypedExpr} (computed : ∀ n, ty ≠ .static n) :
    asks registers slots (.binop ty op lhs rhs) =
      let roles := operandRoles registers op ty lhs rhs
      let width := (operatorWidths op ty lhs.ty rhs.ty).1
      (asks registers slots lhs ++ [⟨roles.1, lhs, width⟩]) ++
        (asks registers slots rhs ++ [⟨roles.2, rhs, width⟩]) := by
  rw [asks]
  exact computed

/-- A value that is wanted as data, with what is lowered along with it. -/
def wanted (value : TypedExpr) (width : Nat) : List Request :=
  asks registers slots value ++ [⟨.data, value, width⟩]

/-- What is lowered for a value that is not used. -/
def spent : TypedExpr → List Request
  | .binop _ _ lhs rhs => spent lhs ++ spent rhs
  | e@(.mem ..) | e@(.muxRead ..) => asks registers slots e
  | _ => []

end

/-- Where lowering may add an adapter. -/
inductive Site where
  /-- A loop that runs up to `stop`: its register holds `stop` as well, its iterator does not. -/
  | iterator (stop : Nat)
  | request (r : Request)

def Site.adapter? : Site → Option Part
  | .iterator stop =>
    if bitsNeeded (stop - 1) < bitsNeeded stop then
      some (.adapter .slice (bitsNeeded stop) (bitsNeeded (stop - 1)))
    else
      none
  | .request r => r.adapter?

section

variable (registers : List String)

mutual

/-- The sites of a command. -/
def sites (slots : Slots) : TypedCommand → List Site
  | .define _ _ ty init => (wanted registers slots init ty.width).map .request
  | .seq _ cmds => sitesOfSeq slots cmds
  | .branch _ cond onTrue onFalse =>
    (wanted registers slots cond 1).map .request ++
      (sites slots.enter onTrue ++ sitesOfElse slots.enter onFalse)
  | .loop _ header body =>
    .iterator header.stop :: sites (slots.enter.rebind header.iter (.iterator header.stop)) body
  | .update _ target value | .reduce _ _ target value =>
    (asks registers slots target ++ wanted registers slots value target.ty.width).map .request
  | .eval _ e => (spent registers slots e).map .request
  | .decl .. | .advance .. | .skip _ => []

def sitesOfSeq (slots : Slots) : List TypedCommand → List Site
  | [] => []
  | cmd :: cmds => sites slots cmd ++ sitesOfSeq (slotsAfter slots cmd) cmds

def sitesOfElse (slots : Slots) : Option TypedCommand → List Site
  | none => []
  | some cmd => sites slots cmd

end

end

end Lowering

end BankedLoops
