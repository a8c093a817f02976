import BankedLoops.Proofs.Banking.Visibility
import BankedLoops.Proofs.Innermost

/-!
# What the checker blames

The checker never stops in the middle of a computation on words: what it subtracts and divides are
numbers that it has checked. It blames the innermost command that it does not accept, under the text of
that command. Outside commands it blames a declaration, a function, or a parameter of a function.
-/

namespace BankedLoops

namespace Typing

/-- The statement is to blame. -/
inductive BlamesStatement (stmt : String) : Failure → Prop where
  | scope (fault : ScopeFault) : BlamesStatement stmt (.error (.scope stmt fault))
  | mismatch (fault : TypeFault) : BlamesStatement stmt (.error (.mismatch stmt fault))
  | dimension (fault : DimensionFault) : BlamesStatement stmt (.error (.dimension stmt fault))
  | nonStaticBank (index : Expr) (array : String) :
      BlamesStatement stmt (.error (.nonStaticBank stmt index array))

/-- The program is to blame. -/
def Blames (f : Failure) : Prop := ∃ stmt, BlamesStatement stmt f

/-! ### Statements -/

theorem unevenDim?_ok (dims : List Dim) : ∃ uneven, unevenDim? dims = .ok uneven := by
  induction dims with
  | nil => exact ⟨none, rfl⟩
  | cons d ds ih =>
    rw [unevenDim?, Banking.splitsEvenly_eq, ok_bind]
    split
    · exact ih
    · exact ⟨some d, rfl⟩

/-- The remainders that the search for a fault takes are all defined. -/
theorem declaredFault?_ok (ty : Ty) : ∃ fault, declaredFault? ty = .ok fault := by
  unfold declaredFault?
  split
  · next dims =>
    obtain ⟨uneven, search⟩ := unevenDim?_ok dims
    simp only [search, ok_bind]
    split
    all_goals first | exact ⟨_, rfl⟩ | split <;> exact ⟨_, rfl⟩
  all_goals exact ⟨_, rfl⟩

theorem fails_validate {allowed : Failure → Prop} {stmt : String} {ty : Ty}
    (refused : ∀ fault, declaredFault? ty = .ok (some fault) → allowed (.error (.mismatch stmt fault))) :
    Fails allowed (validate stmt ty) := by
  obtain ⟨found, faults⟩ := declaredFault?_ok ty
  refine .bind_of_ok (.lift_of_ok faults) fun fault given => ?_
  split
  · exact .refuse (refused _ (lift_ok_iff.mp given))
  · exact .pure _

/-- An index is compared with the last element, which a dimension that is divided has. -/
theorem fails_checkIndex (stmt : String) (ty : Ty) {dim : Dim} (divided : dim.splitsEvenly = .ok true) :
    Fails (BlamesStatement stmt) (checkIndex stmt ty dim) := by
  have nonempty : 0 < dim.size := (Banking.splitsEvenly_iff.mp divided).1
  unfold checkIndex
  split
  · split
    · exact .refuse (.dimension _)
    · exact .pure _
  · split
    · next outside =>
      have last := Word.sub_eq_ok_iff.mpr ⟨Nat.zero_lt_of_lt outside, rfl⟩
      exact .bind (.lift_of_ok last) fun _ => .refuse (.dimension _)
    · exact .pure _
  · refine .bind (.lift_of_ok (Word.sub_eq_ok_iff.mpr ⟨nonempty, rfl⟩)) fun _ => ?_
    split
    · exact .refuse (.mismatch _)
    · exact .pure _
  · exact .refuse (.mismatch _)

mutual

theorem fails_checkExpr (ctx : Context) {env : Env} (formed : WellFormed env) (stmt : String) :
    (e : Expr) → Fails (BlamesStatement stmt) (checkExpr ctx env stmt e)
  | .int n => .pure _
  | .bool b => .pure _
  | .var name => by
    rw [checkExpr]
    split
    · exact .refuse (.mismatch _)
    · exact .pure _
    · exact .pure _
    · exact .refuse (.scope _)
  | .binop op lhs rhs => by
    rw [checkExpr]
    refine .bind (fails_checkExpr ctx formed stmt lhs) fun _ => ?_
    refine .bind (fails_checkExpr ctx formed stmt rhs) fun _ => ?_
    split
    · exact .pure _
    · exact .refuse (.mismatch _)
  | .access array idxs => by
    rw [checkExpr]
    split
    · next bound =>
      split
      · exact .refuse_bind (.dimension _) _
      · exact .bind (fails_checkIndices ctx formed stmt array idxs _ (formed.array bound).2)
          fun _ => .pure _
    · exact .refuse (.mismatch _)
    · exact .refuse (.scope _)
  | .app func args => .refuse (.mismatch _)

theorem fails_checkIndices (ctx : Context) {env : Env} (formed : WellFormed env)
    (stmt array : String) : (idxs : List Expr) → (dims : List Dim) →
      (∀ d ∈ dims, d.splitsEvenly = .ok true) →
      Fails (BlamesStatement stmt) (checkIndices ctx env stmt array idxs dims)
  | [], _, _ => .pure _
  | _ :: _, [], _ => .pure _
  | idx :: idxs, dim :: dims, divided => by
    obtain ⟨first, others⟩ := List.forall_mem_cons.mp divided
    have rest (typed : TypedExpr) :=
      Fails.bind (fails_checkIndices ctx formed stmt array idxs dims others)
        fun others => .pure (typed :: others)
    rw [checkIndices]
    refine .bind (fails_checkExpr ctx formed stmt idx) fun typed => ?_
    refine .bind (fails_checkIndex stmt typed.ty first) fun _ => ?_
    split
    · refine .bind (.lift_of_ok (Banking.bankCount_ok first)) fun _ => ?_
      split
      · exact .refuse_bind (.nonStaticBank _ _) _
      · exact rest typed
    · exact rest typed

end

theorem fails_checkTarget (ctx : Context) {env : Env} (formed : WellFormed env) (stmt : String)
    (target : Expr) :
    Fails (BlamesStatement stmt) (checkTarget ctx env stmt target) := by
  unfold checkTarget
  split
  · split
    · exact .pure _
    · exact .refuse (.mismatch _)
    · exact .refuse (.mismatch _)
    · exact .refuse (.scope _)
  · exact fails_checkExpr ctx formed stmt _
  · exact .refuse (.mismatch _)

theorem fails_checkArgument (env : Env) (stmt : String) (arg : Expr) (param : Decl) :
    Fails (BlamesStatement stmt) (checkArgument env stmt arg param) := by
  unfold checkArgument
  split
  · split
    · split
      · exact .pure _
      · exact .refuse (.mismatch _)
    · exact .refuse (.mismatch _)
    · exact .refuse (.scope _)
  · exact .refuse (.mismatch _)

theorem fails_checkArguments (env : Env) (stmt : String) (args : List Expr) (params : List Decl) :
    Fails (BlamesStatement stmt) (checkArguments env stmt args params) := by
  induction args generalizing params with
  | nil => exact .pure _
  | cons arg args ih =>
    cases params with
    | nil => exact .pure _
    | cons param params =>
      rw [checkArguments]
      exact .bind (fails_checkArgument env stmt arg param) fun _ => .bind (ih params) fun _ => .pure _

theorem fails_checkApplication (ctx : Context) (env : Env) (stmt func : String) (args : List Expr) :
    Fails (BlamesStatement stmt) (checkApplication ctx env stmt func args) := by
  unfold checkApplication
  split
  · exact .refuse (.scope _)
  · split
    · exact .refuse_bind (.mismatch _) _
    · exact .bind (fails_checkArguments env stmt args _) fun _ => .pure _

theorem fails_declare (env : Env) (stmt name : String) (binding : Binding) :
    Fails (BlamesStatement stmt) (declare env stmt name binding) := by
  unfold declare
  split
  · exact .pure _
  · exact .refuse (.scope _)

theorem fails_defineTy (stmt name : String) (value : Ty) (given : Option Ty) :
    Fails (BlamesStatement stmt) (defineTy stmt name value given) := by
  cases given with
  | none => exact .pure _
  | some ty =>
    rw [defineTy]
    refine .bind (fails_validate fun fault _ => .mismatch fault) fun _ => ?_
    dsimp only
    split
    · exact .refuse_bind (.mismatch _) _
    · split
      · exact .refuse_bind (.mismatch _) _
      · exact .pure _

theorem fails_checkHeader (stmt : String) (h : LoopHeader) :
    Fails (BlamesStatement stmt) (checkHeader stmt h) := by
  unfold checkHeader
  dsimp only
  split
  · exact .refuse_bind (.mismatch _) _
  · next runs =>
    split
    · exact .pure _
    · refine .bind (.lift_of_ok (Word.sub_eq_ok_iff.mpr ⟨by omega, rfl⟩)) fun _ => ?_
      split
      · exact .refuse_bind (.mismatch _) _
      · next unrolled =>
        refine .bind (.lift_of_ok (if_neg unrolled)) fun _ => ?_
        split
        · exact .refuse (.mismatch _)
        · exact .pure _

/-! ### Commands -/

/-- The checker at the commands that it gets to: those of a branch once its condition is checked, those
of a loop once its header is. -/
def scrutiny : FalliblePass (Option Ty) Expr (Context × Env) where
  behind := checking.behind
  onTrue s pos cond := do
    let _ ← (checkCommand s.1 s.2 (.branch pos cond (.skip pos) none)).toOption
    checking.onTrue s pos cond
  onFalse s pos cond onTrue := do
    let _ ← (checkCommand s.1 s.2 (.branch pos cond onTrue none)).toOption
    checking.onFalse s pos cond onTrue
  round s header := do
    let _ ← (checkHeader header.text header).toOption
    checking.round s header
  FailsAt s cmd f := checkCommand s.1 s.2 cmd = .error f

theorem checkSeq_error {ctx : Context} {env : Env} {cmds : List SourceCommand} {f : Failure}
    (failed : checkSeq ctx env cmds = .error f) : ∃ k cmd typed mid, cmds[k]? = some cmd ∧
      checkSeq ctx env (cmds.take k) = .ok (typed, mid) ∧ checkCommand ctx mid cmd = .error f := by
  induction cmds generalizing env with
  | nil => cases failed
  | cons cmd cmds ih =>
    rw [checkSeq] at failed
    rcases bind_error_iff.mp failed with failed | ⟨⟨first, next⟩, checked, failed⟩
    · exact ⟨0, cmd, [], env, rfl, rfl, failed⟩
    · rcases bind_error_iff.mp failed with failed | ⟨_, _, failed⟩
      · obtain ⟨k, inner, typed, mid, found, before, failed⟩ := ih failed
        refine ⟨k + 1, inner, first :: typed, mid, found, ?_, failed⟩
        simp only [List.take_succ_cons, checkSeq, checked, ok_bind, before]
        rfl
      · cases failed

/-- A command is refused under its own text. -/
structure Refused (cmd : SourceCommand) (f : Failure) : Prop where
  statement : cmd.isStatement = true
  blames : BlamesStatement cmd.text f

theorem checkCommand_branch_none {ctx : Context} {env env' : Env} (pos : Nat) {cond : Expr}
    {typed : TypedExpr} (checked : checkExpr ctx env s!"if ({cond.text})" cond = .ok typed)
    (boolean : ¬ typed.ty ≠ .bool) {onTrue : SourceCommand} {yes : TypedCommand}
    (checkedTrue : checkCommand ctx env.enter onTrue = .ok (yes, env')) :
    checkCommand ctx env (.branch pos cond onTrue none) = .ok (.branch pos typed yes none, env) := by
  have tested : checkExpr ctx env (Command.branch pos cond onTrue none).text cond = .ok typed := checked
  rw [checkCommand, tested, ok_bind, if_neg boolean, checkedTrue]
  rfl

/-- What a command does itself is refused under its own text. -/
theorem located_here {α : Type} {x : Except Failure α} {s : Context × Env} {cmd : SourceCommand}
    (statement : cmd.isStatement = true) (fails : Fails (BlamesStatement cmd.text) x) :
    Fails (scrutiny.Located (fun _ => Refused) s cmd) x :=
  fails.mono fun _ blames => .here ⟨statement, blames⟩

theorem located_checkCommand (ctx : Context) {env : Env} (formed : WellFormed env) :
    (cmd : SourceCommand) →
      Fails (scrutiny.Located (fun _ => Refused) (ctx, env) cmd) (checkCommand ctx env cmd)
  | .decl pos name ty => by
    refine located_here rfl ?_
    rw [checkCommand]
    refine .bind (fails_validate fun fault _ => .mismatch fault) fun _ => ?_
    exact .bind (fails_declare env _ name _) fun _ => .pure _
  | .define pos name ty init => by
    refine located_here rfl ?_
    rw [checkCommand]
    refine .bind (fails_checkExpr ctx formed _ init) fun _ => ?_
    refine .bind (fails_defineTy _ name _ ty) fun _ => ?_
    exact .bind (fails_declare env _ name _) fun _ => .pure _
  | .seq pos cmds => by
    rw [checkCommand]
    refine .bind (fun f failed => ?_) fun _ => .pure _
    obtain ⟨k, inner, typed, mid, found, before, failed⟩ := checkSeq_error failed
    refine .inside (ctx, mid) (.item ?_ found) failed
    simp [scrutiny, checking, before, Except.toOption]
  | .branch pos cond onTrue onFalse => by
    rw [checkCommand]
    refine .bind_of_ok (located_here rfl (fails_checkExpr ctx formed _ cond)) fun typed checked => ?_
    split
    · exact .refuse_bind (.here ⟨rfl, .mismatch _⟩) _
    · next boolean =>
      refine .bind_of_ok (fun f failed => ?_) fun taken checkedTrue =>
        .bind (fun f failed => ?_) fun _ => .pure _
      · refine .inside (ctx, env.enter) (.onTrue ?_) failed
        have passes : checkCommand ctx env (.branch pos cond (.skip pos) none) = .ok _ :=
          checkCommand_branch_none pos checked boolean rfl
        simp [scrutiny, checking, passes, Except.toOption]
      · cases onFalse with
        | none => cases failed
        | some other =>
          rw [checkElse] at failed
          rcases bind_error_iff.mp failed with failed | ⟨_, _, failed⟩
          · refine .inside (ctx, env.enter) (.onFalse ?_) failed
            have passes := checkCommand_branch_none pos checked boolean checkedTrue
            simp [scrutiny, checking, passes, Except.toOption]
          · cases failed
  | .loop pos header body => by
    rw [checkCommand]
    refine .bind_of_ok (located_here rfl (fails_checkHeader _ header)) fun _ ranged =>
      .bind (fun f failed => ?_) fun _ => .pure _
    refine .inside (_, _) (.round ?_) failed
    have passes : checkHeader header.text header = .ok _ := ranged
    simp only [scrutiny, passes]
    rfl
  | .update pos target value => by
    refine located_here rfl ?_
    rw [checkCommand]
    refine .bind (fails_checkTarget ctx formed _ target) fun _ => ?_
    refine .bind (fails_checkExpr ctx formed _ value) fun _ => ?_
    split
    · exact .refuse_bind (.mismatch _) _
    · exact .pure _
  | .reduce pos op target value => by
    have stored (stmt : String) (target : TypedExpr) : Fails (BlamesStatement stmt) (do
        let value ← checkExpr ctx env stmt value
        if !assignable value.ty target.ty then
          refuse (.mismatch stmt (.reduction value.ty target.ty))
        pure ((.reduce pos op target value, env) : TypedCommand × Env)) := by
      refine .bind (fails_checkExpr ctx formed stmt value) fun _ => ?_
      split
      · exact .refuse_bind (.mismatch _) _
      · exact .pure _
    refine located_here rfl ?_
    rw [checkCommand]
    refine .bind (fails_checkTarget ctx formed _ target) fun target => ?_
    split
    · exact stored _ target
    · exact stored _ target
    · exact .refuse_bind (.mismatch _) _
  | .eval pos e => by
    refine located_here rfl ?_
    unfold checkCommand
    split
    · exact .bind (fails_checkApplication ctx env _ _ _) fun _ => .pure _
    · exact .bind (fails_checkExpr ctx formed _ _) fun _ => .pure _
  | .advance pos array => by
    rw [checkCommand]
    split
    · exact .pure _
    · exact .refuse (.here ⟨rfl, .mismatch _⟩)
    · exact .refuse (.here ⟨rfl, .scope _⟩)
  | .skip pos => .pure _

theorem WellFormed.descend {s s' : Context × Env} {cmd cmd' : SourceCommand} {step : Descent}
    (formed : WellFormed s.2) (went : scrutiny.Descends s s' cmd step cmd') : WellFormed s'.2 := by
  cases went with
  | item behind _ =>
    obtain ⟨⟨_, _⟩, checked, rfl⟩ := Option.map_eq_some_iff.mp behind
    exact (checkSeq_ok formed _ (Banking.toOption_eq_some_iff.mp checked)).2
  | onTrue met | onFalse met =>
    obtain ⟨_, _, rest⟩ := Option.bind_eq_some_iff.mp met
    cases rest
    exact formed.enter
  | round met =>
    obtain ⟨_, ranged, rest⟩ := Option.bind_eq_some_iff.mp met
    cases rest
    have runs := (checkHeader_ok (Banking.toOption_eq_some_iff.mp ranged)).runs
    exact formed.enter.rebind (.iterator _ (Nat.zero_lt_of_lt runs))

/-- The checker refuses the innermost command at which it fails. -/
theorem localises_scrutiny : scrutiny.Localises (fun s _ => WellFormed s.2) fun _ => Refused where
  descend := WellFormed.descend
  locate := fun formed failed => located_checkCommand _ formed _ _ failed

theorem fails_checkCommand (ctx : Context) {env : Env} (formed : WellFormed env) (cmd : SourceCommand) :
    Fails Blames (checkCommand ctx env cmd) := by
  intro f failed
  have fails : scrutiny.FailsAt (ctx, env) cmd f := failed
  obtain ⟨inner, arises⟩ := FalliblePass.exists_arises fails
  obtain ⟨_, _, _, refused⟩ := arises.stops localises_scrutiny formed
  exact ⟨inner.text, refused.blames⟩

/-! ### Programs -/

/-- What is wrong with the type of a parameter. -/
inductive IllTyped (d : Decl) : TypeFault → Prop where
  | declared {fault : TypeFault} (refused : declaredFault? d.ty = .ok (some fault)) : IllTyped d fault
  | scalar (single : d.ty.isArray = false) : IllTyped d (.parameter d.name d.ty)

/-- What the checker refuses outside commands. The text of a parameter alone does not tell its function,
so the header goes with it. -/
inductive Misdeclares (p : SourceProgram) : CompileError → Prop where
  | functionTwice {f : Function (Option Ty) Expr} (defined : f ∈ p.defs) :
      Misdeclares p (.scope f.text (.functionTwice f.name))
  | parameterTwice {f : Function (Option Ty) Expr} {d : Decl} (defined : f ∈ p.defs)
      (member : d ∈ f.params) : Misdeclares p (.scope f.text (.parameterTwice d.name))
  | parameter {f : Function (Option Ty) Expr} {d : Decl} {fault : TypeFault} (defined : f ∈ p.defs)
      (member : d ∈ f.params) (illTyped : IllTyped d fault) :
      Misdeclares p (.mismatch s!"{f.text} {d.text}" fault)
  | declaredTwice {d : Decl} (member : d ∈ p.decls) :
      Misdeclares p (.scope s!"decl {d.text};" (.declaredTwice d.name))
  | storage {d : Decl} {fault : TypeFault} (member : d ∈ p.decls)
      (refused : declaredFault? d.ty = .ok (some fault)) :
      Misdeclares p (.mismatch s!"decl {d.text};" fault)

/-- How the checker fails: outside commands, or in the body of a component that it gets to. -/
inductive Rejects (p : SourceProgram) : Failure → Prop where
  | outside {e : CompileError} (misdeclares : Misdeclares p e) : Rejects p (.error e)
  | inside {owner : Owner} {s : Context × Env} {body : SourceCommand} {f : Failure}
      (starts : p.checkedAt owner [] = some (s, body)) (failed : scrutiny.FailsAt s body f) :
      Rejects p f

theorem fails_checkParams {allowed : Failure → Prop} {header : String} {params : List Decl}
    (twice : ∀ d ∈ params, allowed (.error (.scope header (.parameterTwice d.name))))
    (illTyped : ∀ d ∈ params, ∀ fault, IllTyped d fault →
      allowed (.error (.mismatch s!"{header} {d.text}" fault))) (env : Env) :
    Fails allowed (checkParams header env params) := by
  induction params generalizing env with
  | nil => exact .pure _
  | cons param params ih =>
    obtain ⟨twiceFirst, twiceRest⟩ := List.forall_mem_cons.mp twice
    obtain ⟨first, rest⟩ := List.forall_mem_cons.mp illTyped
    rw [checkParams]
    refine .bind (fails_validate fun fault refused => first fault (.declared refused)) fun _ => ?_
    dsimp only
    split
    · next single => exact .refuse_bind (first _ (.scalar (by simpa using single))) _
    · split
      · exact ih twiceRest rest _
      · exact .refuse twiceFirst

theorem fails_checkDecls {allowed : Failure → Prop} {ds : List Decl}
    (twice : ∀ d ∈ ds, allowed (.error (.scope s!"decl {d.text};" (.declaredTwice d.name))))
    (illTyped : ∀ d ∈ ds, ∀ fault, declaredFault? d.ty = .ok (some fault) →
      allowed (.error (.mismatch s!"decl {d.text};" fault))) (env : Env) :
    Fails allowed (checkDecls env ds) := by
  induction ds generalizing env with
  | nil => exact .pure _
  | cons d ds ih =>
    obtain ⟨twiceFirst, twiceRest⟩ := List.forall_mem_cons.mp twice
    obtain ⟨first, rest⟩ := List.forall_mem_cons.mp illTyped
    rw [checkDecls]
    refine .bind (fails_validate first) fun _ => ?_
    split
    · exact ih twiceRest rest _
    · exact .refuse twiceFirst

theorem fails_checkFunctions_of {allowed : Failure → Prop} {funcs : List (String × List Decl)}
    {fs : List (Function (Option Ty) Expr)}
    (each : ∀ k f typed earlier, fs[k]? = some f →
      (checkFunctions funcs (fs.take k)).result = .ok (typed, earlier) →
      Fails allowed (checkFunction earlier f)) :
    Fails allowed (checkFunctions funcs fs).result := by
  induction fs generalizing funcs with
  | nil => exact .pure _
  | cons f fs ih =>
    simp only [checkFunctions, Outcome.result_bind, Outcome.result_lift, Outcome.result_tell]
    refine .bind_of_ok (each 0 f [] funcs rfl rfl) fun first checked => .bind (.pure ()) fun _ =>
      .bind (ih fun k g typed earlier found before => ?_) fun _ => .pure _
    refine each (k + 1) g (first :: typed) earlier found ?_
    simp only [List.take_succ_cons, checkFunctions, Outcome.result_bind, Outcome.result_lift, checked,
      ok_bind, Outcome.result_tell, before, Outcome.result_pure]

end Typing

open Typing

theorem Program.formed_of_checkedAt {p : SourceProgram} {owner : Owner} {s : Context × Env}
    {body : SourceCommand} (starts : p.checkedAt owner [] = some (s, body)) : WellFormed s.2 := by
  cases owner with
  | function k =>
    simp only [checkedAt, bind, Option.bind_eq_some_iff, Banking.toOption_eq_some_iff, Pass.visit,
      Option.some.injEq, Prod.mk.injEq] at starts
    obtain ⟨_, _, _, _, _, params, rfl, _⟩ := starts
    exact (checkParams_ok WellFormed.empty params).2.1
  | root =>
    simp only [checkedAt, bind, Option.bind_eq_some_iff, Banking.toOption_eq_some_iff, Pass.visit,
      Option.some.injEq, Prod.mk.injEq] at starts
    obtain ⟨_, _, _, decls, _, _, rfl, _⟩ := starts
    exact (checkDecls_ok WellFormed.empty decls).2

theorem Program.preorder_of_checkedAt {p : SourceProgram} {owner : Owner} {s : Context × Env}
    {body : SourceCommand} (starts : p.checkedAt owner [] = some (s, body)) :
    body.preorder ⊆ p.commands := by
  cases owner with
  | function k =>
    simp only [checkedAt, bind, Option.bind_eq_some_iff, Pass.visit, Option.some.injEq,
      Prod.mk.injEq] at starts
    obtain ⟨_, _, f, found, _, _, _, rfl⟩ := starts
    exact preorder_of_defs (List.mem_of_getElem? found)
  | root =>
    simp only [checkedAt, bind, Option.bind_eq_some_iff, Pass.visit, Option.some.injEq,
      Prod.mk.injEq] at starts
    obtain ⟨_, _, _, _, _, given, _, rfl⟩ := starts
    exact preorder_of_body given

theorem Program.rejects_check (p : SourceProgram) : Fails (Rejects p) p.check.result := by
  simp only [check, Outcome.result_bind, Outcome.result_lift, Outcome.result_tell]
  refine .bind_of_ok (fails_checkFunctions_of fun k f typed earlier found before => ?_)
    fun functions checked => ?_
  · have defined := List.mem_of_getElem? found
    unfold checkFunction
    split
    · exact .refuse_bind (.outside (.functionTwice defined)) _
    · refine .bind_of_ok (fails_checkParams (fun d member => .outside (.parameterTwice defined member))
        (fun d member fault illTyped => .outside (.parameter defined member illTyped)) _)
        fun env params => .bind (fun failure failed => ?_) fun _ => .pure _
      refine @Rejects.inside _ (.function k) ({ funcs := earlier }, env) f.body _ ?_ failed
      simp [checkedAt, before, found, params, Except.toOption, Pass.visit]
  · refine .bind_of_ok (fails_checkDecls (fun d member => .outside (.declaredTwice member))
      (fun d member fault refused => .outside (.storage member refused)) _) fun env decls => ?_
    refine .bind (fun failure failed => ?_) fun _ => .bind (.pure ()) fun _ => .pure _
    cases given : p.body with
    | none =>
      rw [given] at failed
      cases failed
    | some body =>
      rw [given, checkElse] at failed
      rcases bind_error_iff.mp failed with failed | ⟨_, _, failed⟩
      · refine @Rejects.inside _ .root ({ funcs := functions.2 }, env) body _ ?_ failed
        simp [checkedAt, checked, decls, given, Except.toOption, Pass.visit]
      · cases failed

/-- The checker blames the program. -/
theorem Program.fails_check (p : SourceProgram) : Fails Blames p.check.result := by
  refine p.rejects_check.mono fun f rejects => ?_
  cases rejects with
  | outside misdeclares =>
    cases misdeclares with
    | functionTwice | parameterTwice | declaredTwice => exact ⟨_, .scope _⟩
    | parameter | storage => exact ⟨_, .mismatch _⟩
  | inside starts failed => exact fails_checkCommand _ (formed_of_checkedAt starts) _ _ failed

end BankedLoops
