import BankedLoops.Lowering.Operator

/-!
# Lowering expressions

An expression becomes a pin that carries its value. Operators are wired into the group that uses
the value; every array read becomes a two-cycle group of its own that runs before.
-/

namespace BankedLoops

namespace Lowering

namespace Wiring

/-- Wires address pins to a memory. -/
def address (w : Wiring) (mem : String) (addrs : List Pin) (guard : Guard := .always) : Wiring :=
  addrs.zipIdx.foldl (fun w entry => w.assign (.cell mem s!"addr{entry.2}") (.pin entry.1) guard) w

/-- Wires a read of `mem` into the register `reg`: the first cycle presents the address, the second
captures the data. `select` must hold in both. -/
def capture (w : Wiring) (mem : String) (addrs : List Pin) (select : Guard) (reg : String) :
    Wiring :=
  let request := (Guard.cycle 0).both select
  let capture := (Guard.cycle 1).both select
  (w.address mem addrs request)
    |>.assign (.cell mem "read_en") .high request
    |>.assign (.cell reg "in") (.pin (.cell mem "read_data")) capture
    |>.assign (.cell reg "write_en") .high (capture.both (.pin (.cell mem "read_done")))

/-- Wires a write of `data` to `mem` and the end of the group. -/
def store (w : Wiring) (group mem : String) (addrs : List Pin) (data : Pin) : Wiring :=
  (w.address mem addrs)
    |>.connect (.cell mem "write_data") data
    |>.assign (.cell mem "write_en") .high
    |>.connect (.done group) (.cell mem "write_done")

/-- Wires a write of `data` to a register and the end of the group. -/
def latch (w : Wiring) (group reg : String) (data : Pin) : Wiring :=
  w.connect (.cell reg "in") data
    |>.assign (.cell reg "write_en") .high
    |>.connect (.done group) (.cell reg "done")

def after (w : Wiring) (controls : List Control) : Wiring :=
  { w with before := w.before ++ controls }

end Wiring

/-- How the addresses of an access are lowered, once the sizes of its memory are known. -/
abbrev AddressLowering := List Nat → Wiring → Build (List Pin × Wiring)

/-- Lowers addresses, of which there must be one for each dimension. -/
def lowerCounted (count : Nat) (lower : AddressLowering) : AddressLowering := fun sizes w => do
  if count ≠ sizes.length then
    throwInternal (.addresses count sizes.length)
  lower sizes w

/-- Closes the group of a read into `reg`. The result runs what must run before it, then the
read. -/
def finishRead (s : Setting) (pos : Nat) (reg : String) (w : Wiring) : Build (List Control) := do
  let group ← freshName "read"
  addGroup group (some 2) (w.connect (.done group) (.cell reg "done")).assigns
  return w.before ++ [← enableGroup s group pos]

def readMemory (s : Setting) (env : Env) (pos : Nat) (reg mem : String)
    (addresses : AddressLowering) : Build (List Control) := do
  let m ← memoryOf env mem
  let (addrs, w) ← addresses m.sizes {}
  finishRead s pos reg (w.capture m.cell addrs .always reg)

/-- Wires the reads of all banks from number `k` on; only the selected one takes place. -/
def captureBanks (env : Env) (reg : String) (select : Pin) (width : Nat) (addrs : List Pin)
    (w : Wiring) (k : Nat) : List String → Build Wiring
  | [] => pure w
  | bank :: banks => do
    let m ← memoryOf env bank
    let eq ← addPrimitive "eq" "std_eq" [width]
    let number ← constant width k
    let w := (w.connect (.cell eq "left") select).connect (.cell eq "right") number
    captureBanks env reg select width addrs (w.capture m.cell addrs (.pin (.out eq)) reg) (k + 1)
      banks

/-- A read from the bank that `select` numbers into `reg`. -/
def readBanks (s : Setting) (env : Env) (pos : Nat) (reg : String) (banks : List String)
    (select : Nat → Wiring → Build (Pin × Wiring)) (addresses : AddressLowering) :
    Build (List Control) := do
  match banks with
  | [] => throwInternal .noBanks
  | first :: _ =>
    let m ← memoryOf env first
    let last ← liftM (Word.sub banks.length 1)
    let width := bitsNeeded last
    let (pin, w) ← select width {}
    let (addrs, w) ← addresses m.sizes w
    finishRead s pos reg (← captureBanks env reg pin width addrs w 0 banks)

def readName (s : Setting) (env : Env) (pos : Nat) (w : Wiring) (name : String) :
    Build (Pin × Nat × Wiring) :=
  match env.get? name with
  | some (.register cell width) => pure (.out cell, width, w)
  | some (.iterator cell none width) => pure (.out cell, width, w)
  | some (.iterator cell (some slice) width) =>
    pure (.out slice, width, w.connect (.cell slice "in") (.out cell))
  | _ => throwInternal (.noRegister name (s.statements.describe pos))

/-- The width at which an operator works and the width of its result. -/
def operatorWidths (op : BinOp) (ty l r : Ty) : Nat × Nat :=
  if op.isComparison then (max l.width r.width, 1)
  else if op.isLogical then (1, 1)
  else (ty.width, ty.width)

mutual

def lowerExpr (s : Setting) (env : Env) (pos width : Nat) (w : Wiring) :
    TypedExpr → Build (Pin × Wiring)
  | .int _ n => do return (← constant width n, w)
  | .bool _ b => do adapt w (← constant 1 b.toNat) 1 width false
  | .var ty name => do
    let (pin, stored, w) ← readName s env pos w name
    adapt w pin stored width ty.isSigned
  | .binop (.static n) _ _ _ => do return (← constant width n, w)
  | .binop ty op lhs rhs => do
    let (inWidth, outWidth) := operatorWidths op ty lhs.ty rhs.ty
    let signed := lhs.ty.isSigned || rhs.ty.isSigned
    let frac := if op.isArithmetic then ty.frac? else none
    let (left, w) ← lowerExpr s env pos inWidth w lhs
    let (right, w) ← lowerExpr s env pos inWidth w rhs
    let cell ← addOperator op inWidth signed frac
    let w := (w.connect (.cell cell "left") left).connect (.cell cell "right") right
    let outSigned := !op.isComparison && !op.isLogical && ty.isSigned
    adapt w (.out cell) outWidth width outSigned
  | .mem ty mem addr => do
    let reg ← addFreshRegister "r" ty.width
    let addresses := lowerCounted addr.length fun sizes w => lowerAddrs s env pos w addr sizes
    let controls ← readMemory s env pos reg mem addresses
    adapt (w.after controls) (.out reg) ty.width width ty.isSigned
  | .muxRead ty banks select addr => do
    let reg ← addFreshRegister "r" ty.width
    let addresses := lowerCounted addr.length fun sizes w => lowerAddrs s env pos w addr sizes
    let controls ←
      readBanks s env pos reg banks (fun width w => lowerExpr s env pos width w select) addresses
    adapt (w.after controls) (.out reg) ty.width width ty.isSigned
  | .access _ array _ => throwInternal (.logicalAccess array)
  | .app _ func _ => throwInternal (.applicationValue func)

/-- Lowers each address to the bits that its dimension needs. -/
def lowerAddrs (s : Setting) (env : Env) (pos : Nat) (w : Wiring) :
    List TypedExpr → List Nat → Build (List Pin × Wiring)
  | e :: es, size :: sizes => do
    let last ← liftM (Word.sub size 1)
    let (pin, w) ← lowerExpr s env pos (bitsNeeded last) w e
    let (pins, w) ← lowerAddrs s env pos w es sizes
    return (pin :: pins, w)
  | _, _ => pure ([], w)

end

def addressing (s : Setting) (env : Env) (pos : Nat) (addr : List TypedExpr) : AddressLowering :=
  lowerCounted addr.length fun sizes w => lowerAddrs s env pos w addr sizes

/-- A read of a memory expression into `reg`, after the reads that its address depends on. -/
def readInto (s : Setting) (env : Env) (pos : Nat) (reg : String) :
    TypedExpr → Build (List Control)
  | .mem _ mem addr => readMemory s env pos reg mem (addressing s env pos addr)
  | .muxRead _ banks select addr =>
    readBanks s env pos reg banks (fun width w => lowerExpr s env pos width w select)
      (addressing s env pos addr)
  | _ => throwInternal (.readSource (s.statements.describe pos))

/-- The reads of a value that is not used; only they take time. -/
def discard (s : Setting) (env : Env) (pos : Nat) : TypedExpr → Build (List Control)
  | .binop _ _ lhs rhs => do
    let left ← discard s env pos lhs
    return left ++ (← discard s env pos rhs)
  | e@(.mem ty ..) | e@(.muxRead ty ..) => do
    let reg ← addFreshRegister "r" ty.width
    readInto s env pos reg e
  | _ => pure []

end Lowering

end BankedLoops
