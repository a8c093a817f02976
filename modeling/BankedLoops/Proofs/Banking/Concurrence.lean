import BankedLoops.Banking.Program
import BankedLoops.Proofs.Concurrence

/-!
# What the split of a function depends on

A function is split by itself. Only diagnostics quote the statements of the program around it, so two
splits of one function concur, whatever statements each of them quotes.
-/

namespace BankedLoops

namespace Banking

section

variable {ctx ctx' : Context} {env : Env} {pos : Nat}

theorem concur_resolve (alike : ctx.rotations = ctx'.rotations) (array : String) (layout : Layout)
    (ty : Ty) (writes : Bool) (p : Placement) :
    Concur (resolve ctx pos array layout ty writes p).result
      (resolve ctx' pos array layout ty writes p).result := by
  unfold resolve
  rw [alike]
  refine .outcome (.refl _) fun banks => .outcome_ite (.refl _) (.outcome_ite ?_ (.refl _))
  exact .error_left _ _

mutual

theorem concur_read (alike : ctx.rotations = ctx'.rotations) : (e : TypedExpr) →
    Concur (read ctx env pos e).result (read ctx' env pos e).result
  | .binop ty op lhs rhs => by
    rw [read, read]
    exact .outcome (concur_read alike lhs) fun _ => .outcome (concur_read alike rhs) fun _ => .refl _
  | .access ty array idxs => by
    rw [read, read]
    refine .outcome (.refl _) fun layout => .outcome (.refl _) fun strides => ?_
    exact .outcome (concur_place alike idxs _) fun placed => concur_resolve alike _ _ _ _ _
  | .app ty func args => by
    rw [read, read]
    exact .refl _
  | .int .. | .bool .. | .var .. | .mem .. | .muxRead .. => .refl _

theorem concur_place (alike : ctx.rotations = ctx'.rotations) {array : String} {base : Nat} :
    (idxs : List TypedExpr) → (dims : List (Dim × Nat)) →
    Concur (place ctx env pos array base idxs dims).result
      (place ctx' env pos array base idxs dims).result
  | [], _ | _ :: _, [] => .refl _
  | idx :: idxs, (dim, stride) :: dims => by
    rw [place, place]
    refine .outcome (concur_read alike idx) fun idx => .outcome (.refl _) fun known => ?_
    cases known with
    | some bank =>
      refine .outcome (.refl _) fun number => .outcome (.refl _) fun base => ?_
      refine .outcome (.refl _) fun start => .outcome (.refl _) fun offset => ?_
      exact .outcome (concur_place alike idxs dims) fun _ => .refl _
    | none =>
      refine .outcome_ite (.error_left _ _) ?_
      refine .outcome (.refl _) fun term => .outcome (.refl _) fun offset => ?_
      exact .outcome (concur_place alike idxs dims) fun _ => .refl _

end

theorem concur_write (alike : ctx.rotations = ctx'.rotations) (e : TypedExpr) :
    Concur (write ctx env pos e).result (write ctx' env pos e).result := by
  cases e with
  | access ty array idxs =>
    refine .outcome (.refl _) fun layout => .outcome (.refl _) fun strides => ?_
    exact .outcome (concur_place alike idxs _) fun placed => concur_resolve alike _ _ _ _ _
  | _ => exact .refl _

end

section

variable {ctx ctx' : Context}

mutual

theorem concur_bankCommand {env : Env} (alike : ctx.rotations = ctx'.rotations) :
    (cmd : TypedCommand) →
    Concur (bankCommand ctx env cmd).result (bankCommand ctx' env cmd).result
  | .decl .. | .skip _ => by
    rw [bankCommand, bankCommand]
    exact .refl _
  | .define pos name ty init => by
    rw [bankCommand, bankCommand]
    exact .outcome (concur_read alike init) fun _ => .refl _
  | .seq pos cmds => by
    rw [bankCommand, bankCommand]
    exact .outcome (concur_bankSeq alike cmds) fun _ => .refl _
  | .branch pos cond onTrue onFalse => by
    rw [bankCommand, bankCommand]
    refine .outcome (concur_read alike cond) fun cond => ?_
    refine .outcome (concur_bankCommand alike onTrue) fun onTrue => ?_
    exact .outcome (concur_bankElse alike onFalse) fun _ => .refl _
  | .loop pos header body => by
    rw [bankCommand, bankCommand]
    refine .outcome (.refl _) fun last => ?_
    exact .outcome (concur_bankCommand alike body) fun _ => .refl _
  | .update pos target value => by
    rw [bankCommand, bankCommand]
    refine .outcome (concur_write alike target) fun target => ?_
    exact .outcome (concur_read alike value) fun _ => .refl _
  | .reduce pos op target value => by
    rw [bankCommand, bankCommand]
    refine .outcome (concur_write alike target) fun target => ?_
    exact .outcome (concur_read alike value) fun _ => .refl _
  | .eval pos e => by
    rw [bankCommand, bankCommand]
    exact .outcome (concur_read alike e) fun _ => .refl _
  | .advance pos array => by
    rw [bankCommand, bankCommand, alike]
    exact .refl _

theorem concur_bankSeq {env : Env} (alike : ctx.rotations = ctx'.rotations) :
    (cmds : List TypedCommand) →
    Concur (bankSeq ctx env cmds).result (bankSeq ctx' env cmds).result
  | [] => .refl _
  | cmd :: cmds => by
    rw [bankSeq, bankSeq]
    refine .outcome (concur_bankCommand alike cmd) fun cmd => ?_
    exact .outcome (concur_bankSeq alike cmds) fun _ => .refl _

theorem concur_bankElse {env : Env} (alike : ctx.rotations = ctx'.rotations) :
    (cmd : Option TypedCommand) →
    Concur (bankElse ctx env cmd).result (bankElse ctx' env cmd).result
  | none => .refl _
  | some cmd => by
    rw [bankElse, bankElse]
    exact .outcome (concur_bankCommand alike cmd) fun _ => .refl _

end

end

section

variable {statements statements' : Statements}

theorem concur_setUpRotations {body : TypedCommand} {env : Env} {taken : List String}
    {arrays : List (String × Nat)} : Concur (setUpRotations statements body env taken arrays).result
      (setUpRotations statements' body env taken arrays).result := by
  induction arrays generalizing env taken with
  | nil => exact .refl _
  | cons entry arrays ih =>
    obtain ⟨array, pos⟩ := entry
    rw [setUpRotations, setUpRotations]
    refine .outcome (.refl _) fun layout => .outcome (.refl _) fun banks => .outcome_ite ih ?_
    refine .outcome_ite (.error_left _ _) ?_
    refine .outcome (.refl _) fun ty => .outcome (.refl _) fun _ => ?_
    exact .outcome ih fun _ => .refl _

theorem concur_bankBody {env : Env} {body : TypedCommand} :
    Concur (bankBody statements env body).result (bankBody statements' env body).result := by
  refine .outcome concur_setUpRotations fun prologue => ?_
  exact .outcome (concur_bankCommand (by rfl) body) fun _ => .refl _

theorem concur_bankFunction (f : Function Ty TypedExpr) :
    Concur (bankFunction statements f).result (bankFunction statements' f).result := by
  refine .outcome (.refl _) fun params => .outcome concur_bankBody fun body => ?_
  exact .refl _

end

end Banking

end BankedLoops
