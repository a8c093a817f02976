import BankedLoops.Proofs.Concurrence
import BankedLoops.Proofs.Typing.Erasure

/-!
# What the type of a function depends on

The functions that are known decide whether a call is accepted, but not what it is typed as. So two
runs of the checker on one function concur, whatever functions each of them knows.
-/

namespace BankedLoops

namespace Typing

section

variable {ctx ctx' : Context} {env : Env} {stmt : String}

mutual

theorem checkExpr_congr (alike : ctx.parallel = ctx'.parallel) : (e : Expr) →
    checkExpr ctx env stmt e = checkExpr ctx' env stmt e
  | .int _ | .bool _ | .var _ | .app _ _ => by
    rw [checkExpr, checkExpr]
  | .binop op lhs rhs => by
    rw [checkExpr, checkExpr, checkExpr_congr alike lhs, checkExpr_congr alike rhs]
  | .access array idxs => by
    simp only [checkExpr, checkIndices_congr alike idxs]

theorem checkIndices_congr (alike : ctx.parallel = ctx'.parallel) {array : String} {dims : List Dim} :
    (idxs : List Expr) →
    checkIndices ctx env stmt array idxs dims = checkIndices ctx' env stmt array idxs dims
  | [] => by
    cases dims <;> simp only [checkIndices]
  | idx :: idxs => by
    cases dims with
    | nil => simp only [checkIndices]
    | cons dim dims =>
      simp only [checkIndices, checkExpr_congr alike idx, checkIndices_congr alike idxs, alike]

end

theorem checkTarget_congr (alike : ctx.parallel = ctx'.parallel) (target : Expr) :
    checkTarget ctx env stmt target = checkTarget ctx' env stmt target := by
  cases target with
  | access array idxs => exact checkExpr_congr alike _
  | _ => rfl

/-- A call is typed by the names that it gives. -/
theorem concur_checkApplication {func : String} {args : List Expr} :
    Concur (checkApplication ctx env stmt func args) (checkApplication ctx' env stmt func args) := by
  intro typed typed' left right
  obtain ⟨params, names, _, counted, given, rfl⟩ := checkApplication_app left
  obtain ⟨params', names', _, counted', given', rfl⟩ := checkApplication_app right
  have same := (checkArguments_vars counted given).trans (checkArguments_vars counted' given').symm
  rw [List.map_injective_iff.mpr (fun _ _ => Expr.var.inj) same]

end

mutual

theorem concur_checkCommand {ctx ctx' : Context} {env : Env} (alike : ctx.parallel = ctx'.parallel) :
    (cmd : SourceCommand) → Concur (checkCommand ctx env cmd) (checkCommand ctx' env cmd)
  | .decl .. | .advance .. | .skip _ => by
    rw [checkCommand, checkCommand]
    exact .refl _
  | .define pos name ty init => by
    rw [checkCommand, checkCommand, checkExpr_congr alike]
    exact .refl _
  | .seq pos cmds => by
    rw [checkCommand, checkCommand]
    exact (concur_checkSeq alike cmds).bind fun _ => .refl _
  | .branch pos cond onTrue onFalse => by
    rw [checkCommand, checkCommand, checkExpr_congr alike]
    refine .same fun cond => .ite (.refl _) ?_
    exact (concur_checkCommand alike onTrue).bind fun _ =>
      (concur_checkElse alike onFalse).bind fun _ => .refl _
  | .loop pos header body => by
    rw [checkCommand, checkCommand]
    refine .same fun _ => ?_
    have inner : (ctx.parallel || header.isParallel) = (ctx'.parallel || header.isParallel) := by
      rw [alike]
    exact (concur_checkCommand inner body).bind fun _ => .refl _
  | .update pos target value => by
    rw [checkCommand, checkCommand, checkTarget_congr alike, checkExpr_congr alike]
    exact .refl _
  | .reduce pos op target value => by
    rw [checkCommand, checkCommand, checkTarget_congr alike, checkExpr_congr alike]
    exact .refl _
  | .eval pos e => by
    cases e with
    | app func args =>
      simp only [checkCommand]
      exact concur_checkApplication.bind fun _ => .refl _
    | _ =>
      simp only [checkCommand, checkExpr_congr alike]
      exact .refl _

theorem concur_checkSeq {ctx ctx' : Context} {env : Env} (alike : ctx.parallel = ctx'.parallel) :
    (cmds : List SourceCommand) → Concur (checkSeq ctx env cmds) (checkSeq ctx' env cmds)
  | [] => .refl _
  | cmd :: cmds => by
    rw [checkSeq, checkSeq]
    exact (concur_checkCommand alike cmd).bind fun _ =>
      (concur_checkSeq alike cmds).bind fun _ => .refl _

theorem concur_checkElse {ctx ctx' : Context} {env : Env} (alike : ctx.parallel = ctx'.parallel) :
    (cmd : Option SourceCommand) → Concur (checkElse ctx env cmd) (checkElse ctx' env cmd)
  | none => .refl _
  | some cmd => by
    rw [checkElse, checkElse]
    exact (concur_checkCommand alike cmd).bind fun _ => .refl _

end

theorem concur_checkFunction (funcs funcs' : List (String × List Decl))
    (f : Function (Option Ty) Expr) : Concur (checkFunction funcs f) (checkFunction funcs' f) := by
  intro typed typed' left right
  obtain ⟨env, body, last, _, params, checked, rfl⟩ := checkFunction_body left
  obtain ⟨env', body', last', _, params', checked', rfl⟩ := checkFunction_body right
  obtain rfl : env = env' := Except.ok.inj (params.symm.trans params')
  cases concur_checkCommand (by rfl) f.body _ _ checked checked'
  rfl

end Typing

end BankedLoops
