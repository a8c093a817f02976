import BankedLoops.Lowering.Expr

/-!
# Lowering commands

A command becomes a control. An assignment or a store is a one-cycle group, a reduction of an array
element a read followed by a write, and a loop counts a register up to its bound.
-/

namespace BankedLoops

namespace Lowering

/-- How a declared memory is seen from outside its component. -/
inductive Exposure where
  | hidden
  | external
  | reference
  deriving DecidableEq

/-- The name of a memory cell. A memory seen from outside keeps its own name. -/
def memoryName (s : Setting) (d : Decl) : Exposure → Build String
  | .hidden => uniqueName d.name
  | _ => do
    match (← get).names.reserve? d.name with
    | some names =>
      modify fun w => { w with names }
      pure d.name
    | none => throw (.error (.capability (s.statements.describe d.pos) (.collision d.name)))

/-- The bits that address each dimension. -/
def addressWidths (sizes : List Nat) : Except Fault (List Nat) :=
  sizes.mapM fun size => return bitsNeeded (← Word.sub size 1)

/-- Allocates the storage of a declaration. -/
def declare (s : Setting) (env : Env) (d : Decl) (exposure : Exposure) : Build Env :=
  match d.ty with
  | .array elem dims => do
    if 4 < dims.length then
      throw (.error (.capability (s.statements.describe d.pos) (.dimensions d.name dims.length)))
    let name ← memoryName s d exposure
    let sizes := dims.map Dim.size
    let widths ← liftM (addressWidths sizes)
    addCell {
      name
      prototype := .primitive s!"seq_mem_d{dims.length}" (elem.width :: sizes ++ widths)
      isExternal := exposure = .external
      isReference := exposure = .reference }
    pure (env.rebind d.name (.memory ⟨name, sizes, elem.width⟩))
  | ty => do
    let cell ← addRegister d.name ty.width
    pure (env.rebind d.name (.register cell ty.width))

def declareAll (s : Setting) (exposure : Exposure) (env : Env) : List Decl → Build Env
  | [] => pure env
  | d :: ds => do
    let env ← declare s env d exposure
    declareAll s exposure env ds

/-- Closes a one-cycle group. The result runs what must run before it, then the group. -/
def finishGroup (s : Setting) (pos : Nat) (group : String) (w : Wiring) : Build Control := do
  addGroup group (some 1) w.assigns
  return .sequence (w.before ++ [← enableGroup s group pos])

/-- Sets a register. A read of the register's width captures straight into it. -/
def assignRegister (s : Setting) (env : Env) (pos : Nat) (reg : String) (width : Nat)
    (stem : String) (value : TypedExpr) : Build Control := do
  match value with
  | .mem ty .. | .muxRead ty .. =>
    if ty.width = width then
      return .sequence (← readInto s env pos reg value)
  | _ => pure ()
  let (pin, w) ← lowerExpr s env pos width {} value
  let group ← freshName stem
  finishGroup s pos group (w.latch group reg pin)

def storeMemory (s : Setting) (env : Env) (pos : Nat) (mem : String) (addr : List TypedExpr)
    (value : TypedExpr) : Build Control := do
  let m ← memoryOf env mem
  let (addrs, w) ← addressing s env pos addr m.sizes {}
  let (data, w) ← lowerExpr s env pos m.width w value
  let group ← freshName "write"
  finishGroup s pos group (w.store group m.cell addrs data)

def reduceRegister (s : Setting) (env : Env) (pos : Nat) (op : BinOp) (ty : Ty) (reg : String)
    (width : Nat) (value : TypedExpr) : Build Control := do
  let (right, w) ← lowerExpr s env pos width {} value
  let cell ← addOperator op width ty.isSigned ty.frac?
  let group ← freshName "reduce"
  let w := (w.connect (.cell cell "left") (.out reg)).connect (.cell cell "right") right
  finishGroup s pos group (w.latch group reg (.out cell))

/-- Combines an array element with a value: the old element is read into a register, then combined
and stored in one cycle. -/
def reduceMemory (s : Setting) (env : Env) (pos : Nat) (op : BinOp) (ty : Ty) (mem : String)
    (addr : List TypedExpr) (value : TypedExpr) : Build Control := do
  let m ← memoryOf env mem
  let (addrs, w) ← addressing s env pos addr m.sizes {}
  let old ← addFreshRegister "r" m.width
  let read ← freshName "read"
  let reading : Wiring := { assigns := w.assigns }
  addGroup read (some 2)
    ((reading.capture m.cell addrs .always old).connect (.done read) (.cell old "done")).assigns
  let (right, writing) ← lowerExpr s env pos m.width { assigns := w.assigns } value
  let cell ← addOperator op m.width ty.isSigned ty.frac?
  let writing :=
    (writing.connect (.cell cell "left") (.out old)).connect (.cell cell "right") right
  let write ← freshName "write"
  addGroup write (some 1) (writing.store write m.cell addrs (.out cell)).assigns
  let controls := w.before ++ writing.before
  return .sequence (controls ++ [← enableGroup s read pos, ← enableGroup s write pos])

/-- The hardware of a loop: its register, the slice that narrows it, and its groups. -/
structure LoopFrame where
  reg : String
  slice : Option String
  width : Nat
  init : String
  cond : String
  lt : String
  incr : String

def addInit (iter reg : String) (width start : Nat) : Build String := do
  let init ← uniqueName s!"init_{iter}"
  let first ← constant width start
  addGroup init (some 1)
    [⟨.cell reg "in", .pin first, .always⟩,
      ⟨.cell reg "write_en", .high, .always⟩,
      ⟨.done init, .pin (.cell reg "done"), .always⟩]
  pure init

def addCond (iter reg : String) (width stop : Nat) : Build (String × String) := do
  let cond ← uniqueName s!"cond_{iter}"
  let lt ← addPrimitive "lt" "std_lt" [width]
  let bound ← constant width stop
  addGroup cond none
    [⟨.cell lt "left", .pin (.out reg), .always⟩,
      ⟨.cell lt "right", .pin bound, .always⟩]
  pure (cond, lt)

def addIncr (iter reg : String) (width : Nat) : Build String := do
  let incr ← uniqueName s!"incr_{iter}"
  let add ← addPrimitive "add" "std_add" [width]
  let one ← constant width 1
  addGroup incr (some 1)
    [⟨.cell add "left", .pin (.out reg), .always⟩,
      ⟨.cell add "right", .pin one, .always⟩,
      ⟨.cell reg "in", .pin (.out add), .always⟩,
      ⟨.cell reg "write_en", .high, .always⟩,
      ⟨.done incr, .pin (.cell reg "done"), .always⟩]
  pure incr

/-- Adds the hardware of a loop. The register holds the exit value too, which may take one bit more
than the iterator. -/
def addLoop (h : LoopHeader) : Build LoopFrame := do
  let regWidth := bitsNeeded h.stop
  let width := bitsNeeded (← liftM (Word.sub h.stop 1))
  let reg ← addRegister h.iter regWidth
  let slice ←
    if width < regWidth then some <$> addPrimitive "slice" "std_slice" [regWidth, width]
    else pure none
  let init ← addInit h.iter reg regWidth h.start
  let (cond, lt) ← addCond h.iter reg regWidth h.stop
  let incr ← addIncr h.iter reg regWidth
  pure ⟨reg, slice, width, init, cond, lt, incr⟩

/-- Pairs the parameters of a function with the memory cells given for them. -/
def bindArguments (env : Env) : List String → List String → Build (List (String × String))
  | param :: params, arg :: args => do
    let m ← memoryOf env arg
    return (param, m.cell) :: (← bindArguments env params args)
  | _, _ => pure []

def lowerCall (s : Setting) (env : Env) (pos : Nat) (func : String) (args : List String) :
    Build Control := do
  match s.signatures.lookup func with
  | none => throwInternal (.noComponent func)
  | some params =>
    if params.length ≠ args.length then
      throwInternal (.invocation func params.length args.length)
    let refs ← bindArguments env params args
    let cell ← instanceOf func
    quote s pos
    return .invoke cell refs (s.position pos)

/-- Drives a condition: a pin of one bit, the group that computes it if it takes one, and what must
run before. -/
def lowerCondition (s : Setting) (env : Env) (pos : Nat) (cond : TypedExpr) :
    Build (Pin × Option String × List Control) := do
  let (pin, w) ← lowerExpr s env pos 1 {} cond
  if w.assigns.isEmpty then
    return (pin, none, w.before)
  let group ← freshName "cond"
  addGroup group none w.assigns
  return (pin, some group, w.before)

def lowerUpdate (s : Setting) (env : Env) (pos : Nat) (target value : TypedExpr) :
    Build Control := do
  match target with
  | .var _ name =>
    let (cell, width) ← registerOf env name
    assignRegister s env pos cell width "assign" value
  | .mem _ mem addr => storeMemory s env pos mem addr value
  | _ => throwInternal (.storeTarget (s.statements.describe pos))

def lowerReduce (s : Setting) (env : Env) (pos : Nat) (op : BinOp) (target value : TypedExpr) :
    Build Control := do
  match target with
  | .var ty name =>
    let (cell, width) ← registerOf env name
    reduceRegister s env pos op ty cell width value
  | .mem ty mem addr => reduceMemory s env pos op ty mem addr value
  | _ => throwInternal (.reduceTarget (s.statements.describe pos))

mutual

/-- Lowers a command. The result is its control and the environment of the commands after it. -/
def lowerCommand (s : Setting) (env : Env) : TypedCommand → Build (Control × Env)
  | .decl pos name ty => do
    let env ← declare s env ⟨pos, name, ty⟩ .hidden
    pure (.empty, env)
  | .define pos name ty init => do
    let cell ← addRegister name ty.width
    let control ← assignRegister s env pos cell ty.width "let" init
    pure (control, env.rebind name (.register cell ty.width))
  | .seq _ cmds => do
    let (controls, env) ← lowerSeq s env cmds
    pure (.sequence controls, env)
  | .branch pos cond onTrue onFalse => do
    let (pin, group, before) ← lowerCondition s env pos cond
    let (onTrue, _) ← lowerCommand s env.enter onTrue
    let onFalse ← lowerElse s env.enter onFalse
    pure (.sequence (before ++ [.branch pin group onTrue onFalse]), env)
  | .loop pos header body => do
    let frame ← addLoop header
    let iterator := Store.iterator frame.reg frame.slice frame.width
    let (body, _) ← lowerCommand s (env.enter.rebind header.iter iterator) body
    let init ← enableGroup s frame.init pos
    let incr ← enableGroup s frame.incr pos
    let trips ← liftM (Word.sub header.stop header.start)
    let loop := Control.loop (.out frame.lt) (some frame.cond) (.sequence [body, incr]) (some trips)
    pure (.sequence [init, loop], env)
  | .update pos target value => do
    let control ← lowerUpdate s env pos target value
    pure (control, env)
  | .reduce pos op target value => do
    let control ← lowerReduce s env pos op target value
    pure (control, env)
  | .eval pos (.app _ func args) => do
    let control ← lowerCall s env pos func args
    pure (control, env)
  | .eval pos e => do
    let controls ← discard s env pos e
    pure (.sequence controls, env)
  | .advance _ array => throwInternal (.advance array)
  | .skip _ => pure (.empty, env)

def lowerSeq (s : Setting) (env : Env) : List TypedCommand → Build (List Control × Env)
  | [] => pure ([], env)
  | cmd :: cmds => do
    let (control, env) ← lowerCommand s env cmd
    let (controls, env) ← lowerSeq s env cmds
    pure (control :: controls, env)

def lowerElse (s : Setting) (env : Env) : Option TypedCommand → Build Control
  | none => pure .empty
  | some cmd => do
    let (control, _) ← lowerCommand s env cmd
    pure control

end

end Lowering

end BankedLoops
