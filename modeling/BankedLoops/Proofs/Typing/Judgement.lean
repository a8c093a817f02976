import BankedLoops.Typing.Checker

/-!
# Well-typed trees

The typing rules, as a judgement on typed trees and the scopes around them. An expression, an index
or a target is judged in one environment; a command leads from the environment before it to the one
of the commands after it.
-/

namespace BankedLoops

namespace Typing

/-- A type that a register can have. -/
def Storable (ty : Ty) : Prop :=
  ty.isArray = false ∧ declaredFault? ty = .ok none

/-- The types that values have. -/
inductive ValueTy : Ty → Prop where
  | stored {ty : Ty} (storable : Storable ty) : ValueTy ty
  | literal (n : Nat) : ValueTy (.static n)
  | iterator {bound : Nat} (unroll : Option Nat) (nonempty : 0 < bound) :
      ValueTy (.idx bound unroll)

/-- A binding as declarations, lets and loops make it. -/
inductive Binding.WellFormed : Binding → Prop where
  | scalar {ty : Ty} (storable : Storable ty) : WellFormed (.scalar ty)
  | iterator {bound : Nat} (unroll : Option Nat) (nonempty : 0 < bound) :
      WellFormed (.iterator (.idx bound unroll))
  | array {elem : Ty} {dims : List Dim} (declared : declaredFault? (.array elem dims) = .ok none) :
      WellFormed (.array elem dims)

def WellFormed (env : Env) : Prop :=
  ∀ name binding, env.get? name = some binding → binding.WellFormed

/-- The types of an index into a dimension. -/
inductive IndexFits (dim : Dim) : Ty → Prop where
  | literal {n : Nat} (inside : n < dim.size) : IndexFits dim (.static n)
  | iterator {bound : Nat} {unroll : Option Nat} (inside : bound ≤ dim.size) :
      IndexFits dim (.idx bound unroll)
  | word {width : Nat} (nonempty : 0 < dim.size) (wide : bitsNeeded (dim.size - 1) ≤ width) :
      IndexFits dim (.bit width false)

/-- An index built only from literals and loop iterators. -/
inductive StaticIndex (env : Env) : TypedExpr → Prop where
  | literal (ty : Ty) (n : Nat) : StaticIndex env (.int ty n)
  | iterator {ty : Ty} {name : String} (bound : env.get? name = some (.iterator ty)) :
      StaticIndex env (.var ty name)
  | binop (ty : Ty) (op : BinOp) {lhs rhs : TypedExpr} (left : StaticIndex env lhs)
      (right : StaticIndex env rhs) : StaticIndex env (.binop ty op lhs rhs)

mutual

inductive CheckedExpr (ctx : Context) (env : Env) : TypedExpr → Prop where
  | int (n : Nat) : CheckedExpr ctx env (.int (.static n) n)
  | bool (b : Bool) : CheckedExpr ctx env (.bool .bool b)
  | scalar {ty : Ty} {name : String} (bound : env.get? name = some (.scalar ty)) :
      CheckedExpr ctx env (.var ty name)
  | iterator {ty : Ty} {name : String} (bound : env.get? name = some (.iterator ty)) :
      CheckedExpr ctx env (.var ty name)
  | binop {ty : Ty} {op : BinOp} {lhs rhs : TypedExpr} (left : CheckedExpr ctx env lhs)
      (right : CheckedExpr ctx env rhs) (typed : binopType op lhs.ty rhs.ty = .ok ty) :
      CheckedExpr ctx env (.binop ty op lhs rhs)
  | access {elem : Ty} {dims : List Dim} {array : String} {idxs : List TypedExpr}
      (bound : env.get? array = some (.array elem dims)) (indices : CheckedIndices ctx env dims idxs) :
      CheckedExpr ctx env (.access elem array idxs)

/-- One index for each dimension. In a parallel loop a bank must be known from literals and
iterators alone. -/
inductive CheckedIndices (ctx : Context) (env : Env) : List Dim → List TypedExpr → Prop where
  | nil : CheckedIndices ctx env [] []
  | cons {dim : Dim} {dims : List Dim} {idx : TypedExpr} {idxs : List TypedExpr}
      (checked : CheckedExpr ctx env idx) (fits : IndexFits dim idx.ty)
      (selects : ctx.parallel = true → 1 < dim.size / dim.bank → StaticIndex env idx)
      (rest : CheckedIndices ctx env dims idxs) :
      CheckedIndices ctx env (dim :: dims) (idx :: idxs)

end

theorem CheckedExpr.ne_app {ctx : Context} {env : Env} {e : TypedExpr}
    (checked : CheckedExpr ctx env e) (ty : Ty) (func : String) (args : List String) :
    e ≠ .app ty func args := by
  intro same
  subst same
  cases checked

/-- What an update or a reduction may name. -/
inductive CheckedTarget (ctx : Context) (env : Env) : TypedExpr → Prop where
  | register {ty : Ty} {name : String} (bound : env.get? name = some (.scalar ty)) :
      CheckedTarget ctx env (.var ty name)
  | element {ty : Ty} {array : String} {idxs : List TypedExpr}
      (checked : CheckedExpr ctx env (.access ty array idxs)) :
      CheckedTarget ctx env (.access ty array idxs)

/-- The types that a reduction combines. -/
inductive Numeric : Ty → Prop where
  | bit (width : Nat) (signed : Bool) : Numeric (.bit width signed)
  | fix (width frac : Nat) : Numeric (.fix width frac)

/-- The arguments of a call: arrays of exactly the types of the parameters. -/
inductive CheckedArguments (env : Env) : List String → List Decl → Prop where
  | nil : CheckedArguments env [] []
  | cons {arg : String} {args : List String} {param : Decl} {params : List Decl} {elem : Ty}
      {dims : List Dim} (bound : env.get? arg = some (.array elem dims))
      (same : param.ty = .array elem dims) (rest : CheckedArguments env args params) :
      CheckedArguments env (arg :: args) (param :: params)

/-- A loop runs at least once, and its unroll factor divides its trip count. -/
structure CheckedHeader (h : LoopHeader) : Prop where
  runs : h.start < h.stop
  divided : ∀ k, h.unroll = some k → k ≠ 0 ∧ (h.stop - h.start) % k = 0

mutual

inductive CheckedCommand : Context → Env → TypedCommand → Env → Prop where
  | decl {ctx : Context} {env env' : Env} {pos : Nat} {name : String} {ty : Ty}
      (declared : declaredFault? ty = .ok none) (fresh : env.bind? name (.ofTy ty) = some env') :
      CheckedCommand ctx env (.decl pos name ty) env'
  | define {ctx : Context} {env env' : Env} {pos : Nat} {name : String} {ty : Ty}
      {init : TypedExpr} (value : CheckedExpr ctx env init) (storable : Storable ty)
      (fits : assignable init.ty ty = true) (fresh : env.bind? name (.scalar ty) = some env') :
      CheckedCommand ctx env (.define pos name ty init) env'
  | seq {ctx : Context} {env env' : Env} {pos : Nat} {cmds : List TypedCommand}
      (checked : CheckedSeq ctx env cmds env') : CheckedCommand ctx env (.seq pos cmds) env'
  | branch {ctx : Context} {env inner : Env} {pos : Nat} {cond : TypedExpr}
      {onTrue : TypedCommand} {onFalse : Option TypedCommand} (value : CheckedExpr ctx env cond)
      (isBool : cond.ty = .bool) (yes : CheckedCommand ctx env.enter onTrue inner)
      (no : CheckedElse ctx env.enter onFalse) :
      CheckedCommand ctx env (.branch pos cond onTrue onFalse) env
  | loop {ctx : Context} {env inner : Env} {pos : Nat} {header : LoopHeader} {body : TypedCommand}
      (range : CheckedHeader header)
      (checked : CheckedCommand { ctx with parallel := ctx.parallel || header.isParallel }
        (env.enter.rebind header.iter (.iterator (.idx header.stop header.unroll))) body inner) :
      CheckedCommand ctx env (.loop pos header body) env
  | update {ctx : Context} {env : Env} {pos : Nat} {target value : TypedExpr}
      (place : CheckedTarget ctx env target) (checked : CheckedExpr ctx env value)
      (fits : assignable value.ty target.ty = true) :
      CheckedCommand ctx env (.update pos target value) env
  | reduce {ctx : Context} {env : Env} {pos : Nat} {op : BinOp} {target value : TypedExpr}
      (place : CheckedTarget ctx env target) (numeric : Numeric target.ty)
      (checked : CheckedExpr ctx env value) (fits : assignable value.ty target.ty = true) :
      CheckedCommand ctx env (.reduce pos op target value) env
  | call {ctx : Context} {env : Env} {pos : Nat} {func : String} {args : List String}
      {params : List Decl} (defined : ctx.funcs.lookup func = some params)
      (given : CheckedArguments env args params) :
      CheckedCommand ctx env (.eval pos (.app .void func args)) env
  | eval {ctx : Context} {env : Env} {pos : Nat} {e : TypedExpr} (value : CheckedExpr ctx env e) :
      CheckedCommand ctx env (.eval pos e) env
  | advance {ctx : Context} {env : Env} {pos : Nat} {array : String} {elem : Ty}
      {dims : List Dim} (bound : env.get? array = some (.array elem dims)) :
      CheckedCommand ctx env (.advance pos array) env
  | skip {ctx : Context} {env : Env} {pos : Nat} : CheckedCommand ctx env (.skip pos) env

inductive CheckedSeq : Context → Env → List TypedCommand → Env → Prop where
  | nil {ctx : Context} {env : Env} : CheckedSeq ctx env [] env
  | cons {ctx : Context} {env next env' : Env} {cmd : TypedCommand} {cmds : List TypedCommand}
      (first : CheckedCommand ctx env cmd next) (rest : CheckedSeq ctx next cmds env') :
      CheckedSeq ctx env (cmd :: cmds) env'

inductive CheckedElse : Context → Env → Option TypedCommand → Prop where
  | none {ctx : Context} {env : Env} : CheckedElse ctx env none
  | some {ctx : Context} {env inner : Env} {cmd : TypedCommand}
      (checked : CheckedCommand ctx env cmd inner) : CheckedElse ctx env (some cmd)

end

/-- Binds declarations with well-formed types, no name twice. -/
inductive CheckedDecls : Env → List Decl → Env → Prop where
  | nil {env : Env} : CheckedDecls env [] env
  | cons {env next env' : Env} {d : Decl} {ds : List Decl} (declared : declaredFault? d.ty = .ok none)
      (fresh : env.bind? d.name (.ofTy d.ty) = some next) (rest : CheckedDecls next ds env') :
      CheckedDecls env (d :: ds) env'

/-- A function over arrays that sees the functions `funcs` before it. -/
structure CheckedFunction (funcs : List (String × List Decl)) (f : Function Ty TypedExpr) :
    Prop where
  unnamed : funcs.lookup f.name = none
  arrays : ∀ d ∈ f.params, d.ty.isArray = true
  body : ∃ env env', CheckedDecls {} f.params env ∧ CheckedCommand { funcs } env f.body env'

inductive CheckedFunctions :
    List (String × List Decl) → List (Function Ty TypedExpr) → List (String × List Decl) → Prop
    where
  | nil {funcs : List (String × List Decl)} : CheckedFunctions funcs [] funcs
  | cons {funcs funcs' : List (String × List Decl)} {f : Function Ty TypedExpr}
      {fs : List (Function Ty TypedExpr)} (first : CheckedFunction funcs f)
      (rest : CheckedFunctions ((f.name, f.params) :: funcs) fs funcs') :
      CheckedFunctions funcs (f :: fs) funcs'

def CheckedProgram (p : TypedProgram) : Prop :=
  ∃ funcs env, CheckedFunctions [] p.defs funcs ∧ CheckedDecls {} p.decls env ∧
    CheckedElse { funcs } env p.body

theorem CheckedDecls.declared {env env' : Env} {ds : List Decl} (checked : CheckedDecls env ds env')
    {d : Decl} (member : d ∈ ds) : declaredFault? d.ty = .ok none := by
  induction checked with
  | nil => cases member
  | cons valid _ _ ih =>
    rcases List.mem_cons.mp member with rfl | later
    · exact valid
    · exact ih later

theorem CheckedFunctions.mem {funcs funcs' : List (String × List Decl)}
    {fs : List (Function Ty TypedExpr)} (checked : CheckedFunctions funcs fs funcs')
    {f : Function Ty TypedExpr} (member : f ∈ fs) : ∃ earlier, CheckedFunction earlier f := by
  induction checked with
  | nil => cases member
  | cons first _ ih =>
    rcases List.mem_cons.mp member with rfl | later
    · exact ⟨_, first⟩
    · exact ih later

end Typing

end BankedLoops
