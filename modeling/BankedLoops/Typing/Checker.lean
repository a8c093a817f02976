import BankedLoops.Typing.Operands
import BankedLoops.Scope
import BankedLoops.Log

/-!
# The type checker

Resolves every name against the scopes around it, gives every expression its type, and refuses a
program whose widths, dimensions or bank selections do not agree.
-/

namespace BankedLoops

namespace Typing

inductive Binding where
  | scalar (ty : Ty)
  /-- A loop iterator, which can be read but not assigned. -/
  | iterator (ty : Ty)
  | array (elem : Ty) (dims : List Dim)

namespace Binding

def ty : Binding → Ty
  | .scalar ty | .iterator ty => ty
  | .array elem dims => .array elem dims

def ofTy : Ty → Binding
  | .array elem dims => .array elem dims
  | ty => .scalar ty

end Binding

abbrev Env := Scope Binding

/-- What stays fixed below a command: the functions defined so far, and whether the body of a
parallel loop is around. -/
structure Context where
  funcs : List (String × List Decl)
  parallel : Bool := false

/-- What is wrong with `ty` as the type of a scalar, if it is one of the scalar types. -/
def scalarFault? : Ty → Option TypeFault
  | .bit 0 _ | .fix 0 _ => some .zeroWidth
  | .fix width frac => if width < frac then some (.fraction frac width) else none
  | _ => none

/-- The first dimension that its bank factor does not divide. -/
def unevenDim? : List Dim → Except Fault (Option Dim)
  | [] => pure none
  | d :: ds => do
    if ← d.splitsEvenly then unevenDim? ds else pure (some d)

/-- What is wrong with `ty` as a declared type. -/
def declaredFault? : Ty → Except Fault (Option TypeFault)
  | .array elem dims =>
    match elem with
    | .bool | .bit .. | .fix .. =>
      match scalarFault? elem with
      | some fault => pure (some fault)
      | none => return (← unevenDim? dims).map fun d => .bankFactor d.bank d.size
    | _ => pure (some (.element elem))
  | ty@(.static _) | ty@(.idx ..) | ty@.void => pure (some (.undeclarable ty))
  | ty => pure (scalarFault? ty)

def validate (stmt : String) (ty : Ty) : Except Failure Unit := do
  match ← liftM (declaredFault? ty) with
  | some fault => refuse (.mismatch stmt fault)
  | none => pure ()

/-- An index must be unsigned and able to reach every element of its dimension; a literal or an
iterator must stay inside it. -/
def checkIndex (stmt : String) (ty : Ty) (dim : Dim) : Except Failure Unit :=
  match ty with
  | .static n =>
    if dim.size ≤ n then refuse (.dimension stmt (.outOfBounds n dim.size)) else pure ()
  | .idx bound _ =>
    if dim.size < bound then do
      let last ← Word.sub bound 1
      refuse (.dimension stmt (.iterator last dim.size))
    else
      pure ()
  | .bit width false => do
    let last ← Word.sub dim.size 1
    if width < bitsNeeded last then
      refuse (.mismatch stmt (.narrowIndex ty dim.size))
  | _ => refuse (.mismatch stmt (.indexType ty))

/-- Whether an index is built only from literals and loop iterators. -/
def isStaticSelector (env : Env) : Expr → Bool
  | .int _ => true
  | .var name =>
    match env.get? name with
    | some (.iterator _) => true
    | _ => false
  | .binop _ lhs rhs => isStaticSelector env lhs && isStaticSelector env rhs
  | _ => false

mutual

def checkExpr (ctx : Context) (env : Env) (stmt : String) : Expr → Except Failure TypedExpr
  | .int n => pure (.lit n)
  | .bool b => pure (.bool .bool b)
  | .var name =>
    match env.get? name with
    | some (.array ..) => refuse (.mismatch stmt (.arrayValue name))
    | some (.scalar ty) => pure (.var ty name)
    | some (.iterator ty) => pure (.var ty name)
    | none => refuse (.scope stmt (.undeclared name))
  | .binop op lhs rhs => do
    let lhs ← checkExpr ctx env stmt lhs
    let rhs ← checkExpr ctx env stmt rhs
    match binopType op lhs.ty rhs.ty with
    | .ok ty => pure (.binop ty op lhs rhs)
    | .error fault => refuse (.mismatch stmt (.operands fault))
  | .access array idxs =>
    match env.get? array with
    | some (.array elem dims) => do
      if idxs.length ≠ dims.length then
        refuse (.dimension stmt (.count array dims.length idxs.length))
      let idxs ← checkIndices ctx env stmt array idxs dims
      pure (.access elem array idxs)
    | some _ => refuse (.mismatch stmt (.notArray array))
    | none => refuse (.scope stmt (.undeclared array))
  | .app func _ => refuse (.mismatch stmt (.noValue func))

/-- The typed indices of an access, one for each dimension. In a parallel loop the bank must be
known from literals and iterators alone. -/
def checkIndices (ctx : Context) (env : Env) (stmt array : String) :
    List Expr → List Dim → Except Failure (List TypedExpr)
  | idx :: idxs, dim :: dims => do
    let typed ← checkExpr ctx env stmt idx
    checkIndex stmt typed.ty dim
    if ctx.parallel then
      let banks ← dim.bankCount
      if 1 < banks ∧ ¬ isStaticSelector env idx then
        refuse (.nonStaticBank stmt idx array)
    return typed :: (← checkIndices ctx env stmt array idxs dims)
  | _, _ => pure []

end

def checkTarget (ctx : Context) (env : Env) (stmt : String) (target : Expr) :
    Except Failure TypedExpr :=
  match target with
  | .var name =>
    match env.get? name with
    | some (.scalar ty) => pure (.var ty name)
    | some (.iterator _) => refuse (.mismatch stmt (.iteratorTarget name))
    | some (.array ..) => refuse (.mismatch stmt (.arrayTarget name))
    | none => refuse (.scope stmt (.undeclared name))
  | .access .. => checkExpr ctx env stmt target
  | _ => refuse (.mismatch stmt (.notAssignable target))

/-- The array name given for a parameter of exactly its type. -/
def checkArgument (env : Env) (stmt : String) (arg : Expr) (param : Decl) :
    Except Failure String :=
  match arg with
  | .var name =>
    match env.get? name with
    | some binding@(.array ..) =>
      if binding.ty = param.ty then
        pure name
      else
        refuse (.mismatch stmt (.argument name binding.ty param))
    | some binding => refuse (.mismatch stmt (.argument name binding.ty param))
    | none => refuse (.scope stmt (.undeclared name))
  | _ => refuse (.mismatch stmt (.argumentForm arg))

def checkArguments (env : Env) (stmt : String) :
    List Expr → List Decl → Except Failure (List String)
  | arg :: args, param :: params => do
    let name ← checkArgument env stmt arg param
    return name :: (← checkArguments env stmt args params)
  | _, _ => pure []

/-- A call of an earlier function with one array for each parameter. -/
def checkApplication (ctx : Context) (env : Env) (stmt func : String) (args : List Expr) :
    Except Failure TypedExpr :=
  match ctx.funcs.lookup func with
  | none => refuse (.scope stmt (.undefined func))
  | some params => do
    if params.length ≠ args.length then
      refuse (.mismatch stmt (.arity func params.length args.length))
    return .app .void func (← checkArguments env stmt args params)

def declare (env : Env) (stmt name : String) (binding : Binding) : Except Failure Env :=
  match env.bind? name binding with
  | some env => pure env
  | none => refuse (.scope stmt (.boundTwice name))

/-- The type of a `let` that leaves it open: at least 32 bits for a literal, the iterator's own
bits for an iterator. -/
def openTy : Ty → Ty
  | .static n => .ubit (max (bitsNeeded n) 32)
  | ty@(.idx ..) => .ubit ty.width
  | ty => ty

/-- The type of a `let` whose value has type `value`. -/
def defineTy (stmt name : String) (value : Ty) : Option Ty → Except Failure Ty
  | none => pure (openTy value)
  | some ty => do
    validate stmt ty
    if ty.isArray then
      refuse (.mismatch stmt .bindsArray)
    if !assignable value ty then
      refuse (.mismatch stmt (.binding value name ty))
    pure ty

/-- A loop must run at least once, and its unroll factor divide its trip count. -/
def checkHeader (stmt : String) (h : LoopHeader) : Except Failure Unit := do
  if h.stop ≤ h.start then
    refuse (.mismatch stmt (.emptyRange h.start h.stop))
  match h.unroll with
  | none => pure ()
  | some k =>
    let trips ← Word.sub h.stop h.start
    if k = 0 then
      refuse (.mismatch stmt (.unroll k trips))
    let left ← Word.mod trips k
    if left ≠ 0 then
      refuse (.mismatch stmt (.unroll k trips))

mutual

def checkCommand (ctx : Context) (env : Env) :
    SourceCommand → Except Failure (TypedCommand × Env)
  | cmd@(.decl pos name ty) => do
    validate cmd.text ty
    let env ← declare env cmd.text name (.ofTy ty)
    pure (.decl pos name ty, env)
  | cmd@(.define pos name ty init) => do
    let stmt := cmd.text
    let init ← checkExpr ctx env stmt init
    let ty ← defineTy stmt name init.ty ty
    let env ← declare env stmt name (.scalar ty)
    pure (.define pos name ty init, env)
  | .seq pos cmds => do
    let (cmds, env) ← checkSeq ctx env cmds
    pure (.seq pos cmds, env)
  | cmd@(.branch pos cond onTrue onFalse) => do
    let stmt := cmd.text
    let cond ← checkExpr ctx env stmt cond
    if cond.ty ≠ .bool then
      refuse (.mismatch stmt (.condition cond.ty))
    let (onTrue, _) ← checkCommand ctx env.enter onTrue
    let onFalse ← checkElse ctx env.enter onFalse
    pure (.branch pos cond onTrue onFalse, env)
  | cmd@(.loop pos header body) => do
    checkHeader cmd.text header
    let iterator := Binding.iterator (.idx header.stop header.unroll)
    let ctx := { ctx with parallel := ctx.parallel || header.isParallel }
    let (body, _) ← checkCommand ctx (env.enter.rebind header.iter iterator) body
    pure (.loop pos header body, env)
  | cmd@(.update pos target value) => do
    let stmt := cmd.text
    let target ← checkTarget ctx env stmt target
    let value ← checkExpr ctx env stmt value
    if !assignable value.ty target.ty then
      refuse (.mismatch stmt (.location value.ty target.ty))
    pure (.update pos target value, env)
  | cmd@(.reduce pos op target value) => do
    let stmt := cmd.text
    let target ← checkTarget ctx env stmt target
    match target.ty with
    | .bit .. | .fix .. => pure ()
    | ty => refuse (.mismatch stmt (.reductionTarget ty))
    let value ← checkExpr ctx env stmt value
    if !assignable value.ty target.ty then
      refuse (.mismatch stmt (.reduction value.ty target.ty))
    pure (.reduce pos op target value, env)
  | cmd@(.eval pos e) => do
    let stmt := cmd.text
    let e ← match e with
      | .app func args => checkApplication ctx env stmt func args
      | e => checkExpr ctx env stmt e
    pure (.eval pos e, env)
  | cmd@(.advance pos array) =>
    match env.get? array with
    | some (.array ..) => pure (.advance pos array, env)
    | some _ => refuse (.mismatch cmd.text (.notArray array))
    | none => refuse (.scope cmd.text (.undeclared array))
  | .skip pos => pure (.skip pos, env)

def checkSeq (ctx : Context) (env : Env) :
    List SourceCommand → Except Failure (List TypedCommand × Env)
  | [] => pure ([], env)
  | cmd :: cmds => do
    let (cmd, env) ← checkCommand ctx env cmd
    let (cmds, env) ← checkSeq ctx env cmds
    pure (cmd :: cmds, env)

def checkElse (ctx : Context) (env : Env) :
    Option SourceCommand → Except Failure (Option TypedCommand)
  | none => pure none
  | some cmd => do
    let (cmd, _) ← checkCommand ctx env cmd
    pure (some cmd)

end

/-- The environment of a function body: its parameters, all of them arrays. -/
def checkParams (header : String) (env : Env) : List Decl → Except Failure Env
  | [] => pure env
  | param :: params => do
    let stmt := s!"{header} {param.text}"
    validate stmt param.ty
    if !param.ty.isArray then
      refuse (.mismatch stmt (.parameter param.name param.ty))
    match env.bind? param.name (.ofTy param.ty) with
    | some env => checkParams header env params
    | none => refuse (.scope header (.parameterTwice param.name))

def checkFunction (funcs : List (String × List Decl)) (f : Function (Option Ty) Expr) :
    Except Failure (Function Ty TypedExpr) := do
  if (funcs.lookup f.name).isSome then
    refuse (.scope f.text (.functionTwice f.name))
  let env ← checkParams f.text {} f.params
  let (body, _) ← checkCommand { funcs } env f.body
  pure ⟨f.pos, f.name, f.params, body⟩

/-- Checks the functions in order; a function sees those before it. -/
def checkFunctions (funcs : List (String × List Decl)) :
    List (Function (Option Ty) Expr) →
      Outcome (List (Function Ty TypedExpr) × List (String × List Decl))
  | [] => pure ([], funcs)
  | f :: fs => do
    let typed ← checkFunction funcs f
    Outcome.tell (.checkedFunction f.name)
    let (rest, funcs) ← checkFunctions ((f.name, f.params) :: funcs) fs
    pure (typed :: rest, funcs)

/-- The environment of the program's body: its declarations. -/
def checkDecls (env : Env) : List Decl → Except Failure Env
  | [] => pure env
  | d :: ds => do
    let stmt := s!"decl {d.text};"
    validate stmt d.ty
    match env.bind? d.name (.ofTy d.ty) with
    | some env => checkDecls env ds
    | none => refuse (.scope stmt (.declaredTwice d.name))

end Typing

def Program.check (p : SourceProgram) : Outcome TypedProgram := do
  let (defs, funcs) ← Typing.checkFunctions [] p.defs
  let env ← Typing.checkDecls {} p.decls
  let body ← Typing.checkElse { funcs } env p.body
  Outcome.tell (.checked p.decls.length defs.length)
  pure ⟨p.decls, defs, body⟩

end BankedLoops
