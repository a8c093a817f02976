import BankedLoops.Banking.Interval
import BankedLoops.Statements
import BankedLoops.Log

/-!
# Accesses to banked arrays

An access whose bank is known becomes an access to that memory. A read whose bank varies selects
among all banks at run time, which takes bank lengths that are powers of two; a write whose bank
varies is refused.
-/

namespace BankedLoops

namespace Banking

/-- The offset by which `advance` rotates the banks of an array. -/
structure Rotation where
  register : String
  banks : Nat

namespace Rotation

def ty (r : Rotation) : Except Fault Ty := do
  return .ubit (bitsNeeded (← Word.sub r.banks 1))

/-- Reduces a bank number, or the register's next value, to the number of banks. -/
def wrap (r : Rotation) (e : TypedExpr) : Except Fault TypedExpr := do
  return .binop (← r.ty) .bitAnd e (.lit (← Word.sub r.banks 1))

end Rotation

/-- What stays fixed below a component body. -/
structure Context where
  statements : Statements
  rotations : List (String × Rotation)

def layoutOf (env : Env) (array : String) : Except Failure Layout :=
  match env.get? array with
  | some (.array layout) => pure layout
  | _ => refuse (.internal (.noLayout array))

/-- Unsigned arithmetic on indices, wide enough for every result. -/
def widened (op : BinOp) (lhs rhs : TypedExpr) : Except Fault TypedExpr := do
  let l := lhs.ty.width
  let r := rhs.ty.width
  let width ← match op with
    | .add => Word.add Word.widthBits (max l r) 1
    | .mul => Word.add Word.widthBits l r
    | _ => pure l
  pure (.binop (.ubit width) op lhs rhs)

/-- Where the indices of an access lead: `base` is the known part of the flat bank number, `terms`
are the parts known at run time, and `addr` is the offset in each dimension. -/
structure Placement where
  base : Nat
  terms : List TypedExpr
  addr : List TypedExpr

/-- The offset of an index whose bank begins at element `start`. -/
def staticOffset (idx : TypedExpr) (start : Nat) : Except Fault TypedExpr := do
  match idx with
  | .int _ n => return .lit (← Word.sub n start)
  | _ =>
    return if start = 0 then idx else .binop (.ubit idx.ty.width) .sub idx (.lit start)

/-- The part of the flat bank number that an index contributes at run time, for banks of `2 ^ k`
elements. -/
def bankTerm (idx : TypedExpr) (length stride : Nat) : Except Fault TypedExpr := do
  let shift := length.log2
  let bank ← if shift = 0 then pure idx else widened .shr idx (.lit shift)
  if stride = 1 then pure bank else widened .mul bank (.lit stride)

/-- The offset of an index in a bank of `2 ^ k` elements. -/
def maskedOffset (idx : TypedExpr) (length : Nat) : Except Fault TypedExpr := do
  if length = 1 then
    pure (.lit 0)
  else
    widened .bitAnd idx (.lit (← Word.sub length 1))

/-- The flat bank number. -/
def selector (base : Nat) (terms : List TypedExpr) : Except Fault TypedExpr :=
  match terms with
  | [] => pure (.lit base)
  | term :: terms => do
    let sum ← terms.foldlM (widened .add) term
    if 0 < base then widened .add sum (.lit base) else pure sum

def rotated (rotation : Option Rotation) (select : TypedExpr) : Except Fault TypedExpr := do
  match rotation with
  | none => pure select
  | some r => r.wrap (← widened .add select (.var (← r.ty) r.register))

/-- The physical form of a placed access. -/
def resolve (ctx : Context) (pos : Nat) (array : String) (layout : Layout) (ty : Ty)
    (writes : Bool) (p : Placement) : Outcome TypedExpr := do
  let rotation := ctx.rotations.lookup array
  let banks ← layout.banks
  if p.terms.isEmpty && rotation.isNone then
    match banks[p.base]? with
    | none => refuse (.internal (.noBank p.base array))
    | some bank =>
      Outcome.tell (.resolved array bank)
      pure (.mem ty bank p.addr)
  else if writes then
    let fault := match rotation with
      | some _ => CapabilityFault.rotatedWrite array
      | none => .varyingWrite array
    refuse (.capability (ctx.statements.describe pos) fault)
  else
    let select ← rotated rotation (← selector p.base p.terms)
    Outcome.tell (.multiplexed array banks.length)
    pure (.muxRead ty banks select p.addr)

def banksOf (env : Env) : List String → Except Failure (List String)
  | [] => pure []
  | array :: arrays => do
    let layout ← layoutOf env array
    let banks ← layout.banks
    return banks ++ (← banksOf env arrays)

mutual

def read (ctx : Context) (env : Env) (pos : Nat) : TypedExpr → Outcome TypedExpr
  | .binop ty op lhs rhs => do
    let lhs ← read ctx env pos lhs
    let rhs ← read ctx env pos rhs
    pure (.binop ty op lhs rhs)
  | .access ty array idxs => do
    let layout ← layoutOf env array
    let strides ← layout.strides
    let placed ← place ctx env pos array 0 idxs (layout.dims.zip strides)
    resolve ctx pos array layout ty false placed
  | .app ty func args => do
    return .app ty func (← banksOf env args)
  | e => pure e

/-- Places the indices of an access to `array`, one for each dimension and its stride. -/
def place (ctx : Context) (env : Env) (pos : Nat) (array : String) (base : Nat) :
    List TypedExpr → List (Dim × Nat) → Outcome Placement
  | idx :: idxs, (dim, stride) :: dims => do
    let idx ← read ctx env pos idx
    match ← staticBank? env idx dim with
    | some bank =>
      let base ← Word.add Word.sizeBits base (← Word.mul Word.sizeBits bank stride)
      let start ← Word.mul Word.sizeBits bank dim.bank
      let offset ← staticOffset idx start
      let rest ← place ctx env pos array base idxs dims
      pure { rest with addr := offset :: rest.addr }
    | none =>
      if !isPowerOfTwo dim.bank then
        refuse (.capability (ctx.statements.describe pos)
          (.bankLength array idx.indexText dim.bank))
      let term ← bankTerm idx dim.bank stride
      let offset ← maskedOffset idx dim.bank
      let rest ← place ctx env pos array base idxs dims
      pure { rest with terms := term :: rest.terms, addr := offset :: rest.addr }
  | _, _ => pure ⟨base, [], []⟩

end

def write (ctx : Context) (env : Env) (pos : Nat) : TypedExpr → Outcome TypedExpr
  | .access ty array idxs => do
    let layout ← layoutOf env array
    let strides ← layout.strides
    let placed ← place ctx env pos array 0 idxs (layout.dims.zip strides)
    resolve ctx pos array layout ty true placed
  | e => pure e

end Banking

end BankedLoops
