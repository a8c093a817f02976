import Mathlib.Data.List.Forall2
import BankedLoops.Proofs.Typing.Soundness

/-!
# The checker only annotates

Without its types a checked program is the source again, command for command, with the positions
and the order of the source. A `let` keeps the type that it was given and gets one where it left it
open. Together with the typing rules this is `Program.check_annotates`.
-/

namespace BankedLoops

mutual

/-- The expression without its types; one that names a memory has no source form. -/
def TypedExpr.erase? : TypedExpr → Option Expr
  | .int _ n => some (.int n)
  | .bool _ b => some (.bool b)
  | .var _ name => some (.var name)
  | .binop _ op lhs rhs => do return .binop op (← lhs.erase?) (← rhs.erase?)
  | .access _ array idxs => do return .access array (← eraseAll? idxs)
  | .app _ func args => some (.app func (args.map .var))
  | .mem .. | .muxRead .. => none

def TypedExpr.eraseAll? : List TypedExpr → Option (List Expr)
  | [] => some []
  | e :: es => do return (← e.erase?) :: (← eraseAll? es)

end

namespace Typing

mutual

/-- The second command is the first one with types. -/
inductive Annotates : SourceCommand → TypedCommand → Prop where
  | decl (pos : Nat) (name : String) (ty : Ty) : Annotates (.decl pos name ty) (.decl pos name ty)
  | define (pos : Nat) (name : String) {given : Option Ty} {ty : Ty} {e : Expr} {init : TypedExpr}
      (kept : ∀ annotated, given = some annotated → ty = annotated) (value : init.erase? = some e) :
      Annotates (.define pos name given e) (.define pos name ty init)
  | seq (pos : Nat) {cmds : List SourceCommand} {typed : List TypedCommand}
      (each : AnnotatesSeq cmds typed) : Annotates (.seq pos cmds) (.seq pos typed)
  | branch (pos : Nat) {e : Expr} {cond : TypedExpr} {onTrue : SourceCommand} {yes : TypedCommand}
      {onFalse : Option SourceCommand} {no : Option TypedCommand} (value : cond.erase? = some e)
      (first : Annotates onTrue yes) (second : AnnotatesElse onFalse no) :
      Annotates (.branch pos e onTrue onFalse) (.branch pos cond yes no)
  | loop (pos : Nat) (header : LoopHeader) {body : SourceCommand} {typed : TypedCommand}
      (inner : Annotates body typed) : Annotates (.loop pos header body) (.loop pos header typed)
  | update (pos : Nat) {l e : Expr} {target value : TypedExpr} (place : target.erase? = some l)
      (read : value.erase? = some e) : Annotates (.update pos l e) (.update pos target value)
  | reduce (pos : Nat) (op : BinOp) {l e : Expr} {target value : TypedExpr}
      (place : target.erase? = some l) (read : value.erase? = some e) :
      Annotates (.reduce pos op l e) (.reduce pos op target value)
  | eval (pos : Nat) {e : Expr} {typed : TypedExpr} (value : typed.erase? = some e) :
      Annotates (.eval pos e) (.eval pos typed)
  | advance (pos : Nat) (array : String) : Annotates (.advance pos array) (.advance pos array)
  | skip (pos : Nat) : Annotates (.skip pos) (.skip pos)

inductive AnnotatesSeq : List SourceCommand → List TypedCommand → Prop where
  | nil : AnnotatesSeq [] []
  | cons {cmd : SourceCommand} {cmds : List SourceCommand} {typed : TypedCommand}
      {rest : List TypedCommand} (first : Annotates cmd typed) (others : AnnotatesSeq cmds rest) :
      AnnotatesSeq (cmd :: cmds) (typed :: rest)

inductive AnnotatesElse : Option SourceCommand → Option TypedCommand → Prop where
  | none : AnnotatesElse none none
  | some {cmd : SourceCommand} {typed : TypedCommand} (inner : Annotates cmd typed) :
      AnnotatesElse (some cmd) (some typed)

end

structure AnnotatesFunction (f : Function (Option Ty) Expr) (typed : Function Ty TypedExpr) : Prop where
  pos : typed.pos = f.pos
  name : typed.name = f.name
  params : typed.params = f.params
  body : Annotates f.body typed.body

structure AnnotatesProgram (p : SourceProgram) (typed : TypedProgram) : Prop where
  decls : typed.decls = p.decls
  defs : List.Forall₂ AnnotatesFunction p.defs typed.defs
  body : AnnotatesElse p.body typed.body

/-! ### Expressions -/

mutual

theorem erase_checkExpr {ctx : Context} {env : Env} {stmt : String} :
    (e : Expr) → {typed : TypedExpr} → checkExpr ctx env stmt e = .ok typed → typed.erase? = some e
  | .int n, typed, checked => by
    cases checked
    rfl
  | .bool b, typed, checked => by
    cases checked
    rfl
  | .var name, typed, checked => by
    unfold checkExpr at checked
    split at checked
    · exact (refuse_ok_iff.mp checked).elim
    · cases checked
      rfl
    · cases checked
      rfl
    · exact (refuse_ok_iff.mp checked).elim
  | .binop op lhs rhs, typed, checked => by
    simp only [checkExpr, bind_ok_iff] at checked
    obtain ⟨left, leftChecked, right, rightChecked, checked⟩ := checked
    split at checked
    · cases checked
      rw [TypedExpr.erase?, erase_checkExpr lhs leftChecked, erase_checkExpr rhs rightChecked]
      rfl
    · exact (refuse_ok_iff.mp checked).elim
  | .access array idxs, typed, checked => by
    obtain ⟨_, _, _, _, counted, indices, rfl⟩ := checkExpr_access checked
    rw [TypedExpr.erase?, erase_checkIndices idxs counted indices]
    rfl
  | .app func args, typed, checked => (refuse_ok_iff.mp checked).elim

/-- No index is dropped, since there is one for each dimension. -/
theorem erase_checkIndices {ctx : Context} {env : Env} {stmt array : String} :
    (idxs : List Expr) → {dims : List Dim} → {typed : List TypedExpr} →
      idxs.length = dims.length → checkIndices ctx env stmt array idxs dims = .ok typed →
      TypedExpr.eraseAll? typed = some idxs
  | [], _, typed, _, checked => by
    cases checked
    rfl
  | idx :: idxs, dim :: dims, typed, counted, checked => by
    obtain ⟨first, others, firstChecked, _, _, rest, rfl⟩ := checkIndices_cons checked
    rw [TypedExpr.eraseAll?, erase_checkExpr idx firstChecked,
      erase_checkIndices idxs (Nat.succ.inj counted) rest]
    rfl

end

theorem erase_checkTarget {ctx : Context} {env : Env} {stmt : String} {target : Expr}
    {typed : TypedExpr} (checked : checkTarget ctx env stmt target = .ok typed) :
    typed.erase? = some target := by
  unfold checkTarget at checked
  split at checked
  · split at checked
    · cases checked
      rfl
    all_goals exact (refuse_ok_iff.mp checked).elim
  · exact erase_checkExpr _ checked
  · exact (refuse_ok_iff.mp checked).elim

theorem checkArgument_var {env : Env} {stmt name : String} {arg : Expr} {param : Decl}
    (checked : checkArgument env stmt arg param = .ok name) : arg = .var name := by
  unfold checkArgument at checked
  split at checked
  · split at checked
    · split at checked
      · cases checked
        rfl
      · exact (refuse_ok_iff.mp checked).elim
    all_goals exact (refuse_ok_iff.mp checked).elim
  · exact (refuse_ok_iff.mp checked).elim

theorem checkArguments_vars {env : Env} {stmt : String} {args : List Expr} {params : List Decl}
    {names : List String} (counted : params.length = args.length)
    (checked : checkArguments env stmt args params = .ok names) : names.map .var = args := by
  induction args generalizing params names with
  | nil =>
    obtain rfl := List.eq_nil_of_length_eq_zero counted
    cases checked
    rfl
  | cons arg args ih =>
    cases params with
    | nil => cases counted
    | cons param params =>
      simp only [checkArguments, bind_ok_iff, pure_ok_iff] at checked
      obtain ⟨name, first, names, rest, rfl⟩ := checked
      rw [List.map_cons, ih (Nat.succ.inj counted) rest, checkArgument_var first]

theorem erase_checkApplication {ctx : Context} {env : Env} {stmt func : String} {args : List Expr}
    {typed : TypedExpr} (checked : checkApplication ctx env stmt func args = .ok typed) :
    typed.erase? = some (.app func args) := by
  obtain ⟨params, names, _, counted, given, rfl⟩ := checkApplication_app checked
  rw [TypedExpr.erase?, checkArguments_vars counted given]

/-! ### Commands -/

theorem defineTy_kept {stmt name : String} {value ty annotated : Ty}
    (checked : defineTy stmt name value (some annotated) = .ok ty) : ty = annotated := by
  simp only [defineTy, bind_ok_iff] at checked
  obtain ⟨_, _, checked⟩ := checked
  split at checked
  · exact (refuse_bind_ok_iff.mp checked).elim
  · split at checked
    · exact (refuse_bind_ok_iff.mp checked).elim
    · cases checked
      rfl

mutual

theorem annotates_checkCommand {ctx : Context} {env : Env} :
    (cmd : SourceCommand) → {typed : TypedCommand} → {env' : Env} →
      checkCommand ctx env cmd = .ok (typed, env') → Annotates cmd typed
  | .decl pos name ty, typed, env', checked => by
    simp only [checkCommand, bind_ok_iff, pure_ok_iff, Prod.mk.injEq] at checked
    obtain ⟨_, _, _, _, rfl, rfl⟩ := checked
    exact .decl pos name ty
  | .define pos name given init, typed, env', checked => by
    simp only [checkCommand, bind_ok_iff, pure_ok_iff, Prod.mk.injEq] at checked
    obtain ⟨_, valueChecked, _, defined, _, _, rfl, rfl⟩ := checked
    refine .define pos name ?_ (erase_checkExpr init valueChecked)
    intro annotated same
    subst same
    exact defineTy_kept defined
  | .seq pos cmds, typed, env', checked => by
    simp only [checkCommand, bind_ok_iff, pure_ok_iff, Prod.mk.injEq] at checked
    obtain ⟨⟨_, _⟩, rest, rfl, rfl⟩ := checked
    exact .seq pos (annotates_checkSeq cmds rest)
  | .branch pos cond onTrue onFalse, typed, env', checked => by
    obtain ⟨_, _, _, _, _, valueChecked, _, yes, no, rfl, rfl⟩ := checkCommand_branch checked
    exact .branch pos (erase_checkExpr cond valueChecked) (annotates_checkCommand onTrue yes)
      (annotates_checkElse onFalse no)
  | .loop pos header body, typed, env', checked => by
    simp only [checkCommand, bind_ok_iff, pure_ok_iff, Prod.mk.injEq] at checked
    obtain ⟨_, _, ⟨_, _⟩, inner, rfl, rfl⟩ := checked
    exact .loop pos header (annotates_checkCommand body inner)
  | .update pos target value, typed, env', checked => by
    obtain ⟨_, _, _, place, valueChecked, _, rfl, rfl⟩ := checkCommand_update checked
    exact .update pos (erase_checkTarget place) (erase_checkExpr value valueChecked)
  | .reduce pos op target value, typed, env', checked => by
    obtain ⟨_, _, _, place, _, valueChecked, _, rfl, rfl⟩ := checkCommand_reduce checked
    exact .reduce pos op (erase_checkTarget place) (erase_checkExpr value valueChecked)
  | .eval pos e, typed, env', checked => by
    simp only [checkCommand] at checked
    split at checked
    · simp only [bind_ok_iff, pure_ok_iff, Prod.mk.injEq] at checked
      obtain ⟨_, called, rfl, rfl⟩ := checked
      exact .eval pos (erase_checkApplication called)
    · simp only [bind_ok_iff, pure_ok_iff, Prod.mk.injEq] at checked
      obtain ⟨_, valueChecked, rfl, rfl⟩ := checked
      exact .eval pos (erase_checkExpr _ valueChecked)
  | .advance pos array, typed, env', checked => by
    simp only [checkCommand] at checked
    split at checked
    · cases checked
      exact .advance pos array
    all_goals exact (refuse_ok_iff.mp checked).elim
  | .skip pos, typed, env', checked => by
    cases checked
    exact .skip pos

theorem annotates_checkSeq {ctx : Context} {env : Env} :
    (cmds : List SourceCommand) → {typed : List TypedCommand} → {env' : Env} →
      checkSeq ctx env cmds = .ok (typed, env') → AnnotatesSeq cmds typed
  | [], typed, env', checked => by
    cases checked
    exact .nil
  | cmd :: cmds, typed, env', checked => by
    simp only [checkSeq, bind_ok_iff, pure_ok_iff, Prod.mk.injEq] at checked
    obtain ⟨⟨_, _⟩, first, ⟨_, _⟩, rest, rfl, rfl⟩ := checked
    exact .cons (annotates_checkCommand cmd first) (annotates_checkSeq cmds rest)

theorem annotates_checkElse {ctx : Context} {env : Env} :
    (cmd : Option SourceCommand) → {typed : Option TypedCommand} →
      checkElse ctx env cmd = .ok typed → AnnotatesElse cmd typed
  | none, typed, checked => by
    cases checked
    exact .none
  | some cmd, typed, checked => by
    simp only [checkElse, bind_ok_iff, pure_ok_iff] at checked
    obtain ⟨⟨_, _⟩, checked, rfl⟩ := checked
    exact .some (annotates_checkCommand cmd checked)

end

/-! ### Programs -/

theorem forall₂_checkFunctions {funcs funcs' : List (String × List Decl)}
    {fs : List (Function (Option Ty) Expr)} {typed : List (Function Ty TypedExpr)}
    (checked : (checkFunctions funcs fs).result = .ok (typed, funcs')) :
    List.Forall₂ (fun f t => ∃ known, checkFunction known f = .ok t) fs typed := by
  induction fs generalizing funcs typed with
  | nil =>
    cases checked
    exact .nil
  | cons f fs ih =>
    simp only [checkFunctions, Outcome.result_bind, Outcome.result_lift, Outcome.result_tell,
      Outcome.result_pure, bind_ok_iff, Except.ok.injEq, Prod.mk.injEq] at checked
    obtain ⟨first, firstChecked, _, _, ⟨rest, _⟩, restChecked, rfl, rfl⟩ := checked
    exact .cons ⟨funcs, firstChecked⟩ (ih restChecked)

theorem annotates_checkFunction {funcs : List (String × List Decl)} {f : Function (Option Ty) Expr}
    {typed : Function Ty TypedExpr} (checked : checkFunction funcs f = .ok typed) :
    AnnotatesFunction f typed := by
  obtain ⟨_, body, _, _, _, bodyChecked, rfl⟩ := checkFunction_body checked
  exact ⟨rfl, rfl, rfl, annotates_checkCommand f.body bodyChecked⟩

theorem annotates_of_check {p : SourceProgram} {typed : TypedProgram}
    (checked : p.check.result = .ok typed) : AnnotatesProgram p typed := by
  simp only [Program.check, Outcome.result_bind, Outcome.result_lift, Outcome.result_tell,
    Outcome.result_pure, bind_ok_iff, Except.ok.injEq] at checked
  obtain ⟨⟨defs, funcs⟩, functions, env, _, body, bodyChecked, _, _, rfl⟩ := checked
  have each := (forall₂_checkFunctions functions).imp fun _ _ found =>
    found.elim fun _ checked => annotates_checkFunction checked
  exact ⟨rfl, each, annotates_checkElse p.body bodyChecked⟩

end Typing

/-! ### Stored types -/

/-- A `bool`, or bits of which there is at least one. -/
def Ty.IsScalar : Ty → Prop
  | .bool => True
  | .bit width _ => 0 < width
  | .fix width frac => 0 < width ∧ frac ≤ width
  | _ => False

/-- What a location holds: the elements of an array, the value of a register. -/
def Ty.held : Ty → Ty
  | .array elem _ => elem
  | ty => ty

mutual

/-- The types of all values that a command stores. -/
def Command.heldTypes : TypedCommand → List Ty
  | .decl _ _ ty => [ty.held]
  | .define _ _ ty _ => [ty]
  | .seq _ cmds => heldTypesOfSeq cmds
  | .branch _ _ onTrue onFalse => onTrue.heldTypes ++ heldTypesOfElse onFalse
  | .loop _ _ body => body.heldTypes
  | _ => []

def Command.heldTypesOfSeq : List TypedCommand → List Ty
  | [] => []
  | cmd :: cmds => cmd.heldTypes ++ heldTypesOfSeq cmds

def Command.heldTypesOfElse : Option TypedCommand → List Ty
  | none => []
  | some cmd => cmd.heldTypes

end

def Program.heldTypes (p : TypedProgram) : List Ty :=
  (p.decls ++ p.defs.flatMap (·.params)).map (·.ty.held) ++ p.defs.flatMap (·.body.heldTypes) ++
    Command.heldTypesOfElse p.body

namespace Typing

theorem Storable.isScalar {ty : Ty} (storable : Storable ty) : ty.IsScalar := by
  obtain ⟨scalar, declared⟩ := storable
  cases ty with
  | bool => trivial
  | bit width signed =>
    cases width with
    | zero => cases declared
    | succ width => exact Nat.succ_pos width
  | fix width frac =>
    cases width with
    | zero => cases declared
    | succ width =>
      simp only [declaredFault?, scalarFault?] at declared
      split at declared
      · cases declared
      · next narrow => exact ⟨Nat.succ_pos width, Nat.le_of_not_lt narrow⟩
  | array elem dims => cases scalar
  | _ => cases declared

theorem isScalar_held {ty : Ty} (declared : declaredFault? ty = .ok none) : ty.held.IsScalar := by
  cases ty with
  | array elem dims => exact (declared_array declared).1.isScalar
  | _ => exact Storable.isScalar ⟨rfl, declared⟩

mutual

theorem CheckedCommand.isScalar {ctx : Context} {env env' : Env} {cmd : TypedCommand} :
    CheckedCommand ctx env cmd env' → ∀ ty ∈ cmd.heldTypes, ty.IsScalar
  | .decl declared _ => List.forall_mem_singleton.mpr (isScalar_held declared)
  | .define _ storable _ _ => List.forall_mem_singleton.mpr storable.isScalar
  | .seq checked => checked.isScalar
  | .branch _ _ yes no => List.forall_mem_append.mpr ⟨yes.isScalar, no.isScalar⟩
  | .loop _ checked => checked.isScalar
  | .update .. | .reduce .. | .call .. | .eval .. | .advance .. | .skip => nofun

theorem CheckedSeq.isScalar {ctx : Context} {env env' : Env} {cmds : List TypedCommand} :
    CheckedSeq ctx env cmds env' → ∀ ty ∈ Command.heldTypesOfSeq cmds, ty.IsScalar
  | .nil => nofun
  | .cons first rest => List.forall_mem_append.mpr ⟨first.isScalar, rest.isScalar⟩

theorem CheckedElse.isScalar {ctx : Context} {env : Env} {cmd : Option TypedCommand} :
    CheckedElse ctx env cmd → ∀ ty ∈ Command.heldTypesOfElse cmd, ty.IsScalar
  | .none => nofun
  | .some checked => checked.isScalar

end

theorem CheckedProgram.isScalar {p : TypedProgram} (checked : CheckedProgram p) :
    ∀ ty ∈ p.heldTypes, ty.IsScalar := by
  obtain ⟨_, _, functions, decls, body⟩ := checked
  refine List.forall_mem_append.mpr ⟨List.forall_mem_append.mpr ⟨?_, ?_⟩, body.isScalar⟩
  · intro ty member
    obtain ⟨d, inside, rfl⟩ := List.mem_map.mp member
    rcases List.mem_append.mp inside with top | param
    · exact isScalar_held (decls.declared top)
    · obtain ⟨f, defined, inside⟩ := List.mem_flatMap.mp param
      obtain ⟨_, function⟩ := functions.mem defined
      obtain ⟨_, _, params, _⟩ := function.body
      exact isScalar_held (params.declared inside)
  · intro ty member
    obtain ⟨f, defined, inside⟩ := List.mem_flatMap.mp member
    obtain ⟨_, function⟩ := functions.mem defined
    obtain ⟨_, _, _, checked⟩ := function.body
    exact checked.isScalar ty inside

end Typing

/-- What the checker returns is the source with types, is well typed, and stores only scalars. -/
theorem Program.check_annotates {p : SourceProgram} {typed : TypedProgram}
    (checked : p.check.result = .ok typed) : Typing.AnnotatesProgram p typed ∧
      Typing.CheckedProgram typed ∧ ∀ ty ∈ typed.heldTypes, ty.IsScalar := by
  have wellTyped := Typing.checkedProgram_of_check checked
  exact ⟨Typing.annotates_of_check checked, wellTyped, wellTyped.isScalar⟩

/-- Fills an array in a parallel loop of a function. The body reads it into a `let` that leaves its
type open, under a name that a branch binds again. -/
def filling : SourceProgram where
  decls := [⟨0, "a", .array (.ubit 8) [⟨4, 2⟩]⟩]
  defs := [⟨1, "fill", [⟨2, "m", .array (.ubit 8) [⟨4, 2⟩]⟩],
    .loop 3 ⟨"i", 0, 4, some 2⟩ (.update 4 (.access "m" [.var "i"]) (.int 1))⟩]
  body := some (.seq 5 [.eval 6 (.app "fill" [.var "a"]),
    .define 7 "x" none (.binop .add (.access "a" [.int 0]) (.int 300)),
    .branch 8 (.binop .lt (.var "x") (.int 3)) (.define 9 "x" (some .bool) (.bool true)) none])

theorem Program.check_annotates_filling : ∃ typed, filling.check.result = .ok typed ∧
    typed.heldTypes = [.ubit 8, .ubit 8, .ubit 9, .bool] ∧ Typing.AnnotatesProgram filling typed ∧
    Typing.CheckedProgram typed ∧ ∀ ty ∈ typed.heldTypes, ty.IsScalar := by
  have computed : ∃ typed, filling.check.result = .ok typed ∧
      typed.heldTypes = [.ubit 8, .ubit 8, .ubit 9, .bool] := exists_ok_of_map (by decide +kernel)
  obtain ⟨typed, checked, held⟩ := computed
  exact ⟨typed, checked, held, check_annotates checked⟩

end BankedLoops
