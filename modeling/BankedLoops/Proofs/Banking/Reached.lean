import BankedLoops.Proofs.Banking.Sites
import BankedLoops.Proofs.Failures
import BankedLoops.Proofs.Innermost

/-!
# Commands that the split into banks reaches

The split goes through a component command by command until one of them stops it. `reached_of_stop`
says that whatever stops it is done at a command that it reaches, in the environment it has there; that
is the command at which the failure arises. Setting up rotations fails before any command.
-/

namespace BankedLoops

namespace Banking

/-- The environments in which a body is split. A command is reached once everything before it was
split. -/
def splitting (ctx : Context) : Pass Ty TypedExpr Env where
  behind env cmds := (bankSeq ctx env cmds).result.toOption.map Prod.snd
  onTrue env pos cond := (read ctx env pos cond).result.toOption.map fun _ => env.enter
  onFalse env pos cond onTrue := do
    let _ ← (read ctx env pos cond).result.toOption
    let _ ← (bankCommand ctx env.enter onTrue).result.toOption
    return env.enter
  round env header := (Word.sub header.stop 1).toOption.map fun last =>
    env.enter.rebind header.iter (.iterator ⟨header.start, last⟩)

/-- What a command does itself, other than by the commands inside it, fails. -/
inductive StopsAt (ctx : Context) (env : Env) : TypedCommand → Failure → Prop where
  | decl {pos : Nat} {name : String} {ty : Ty} {layout : Layout} {fault : Fault}
      (found : Layout.ofTy? name ty = some layout) (failed : declBanks layout pos = .error fault) :
      StopsAt ctx env (.decl pos name ty) (.fault fault)
  | define {pos : Nat} {name : String} {ty : Ty} {init : TypedExpr} {f : Failure}
      (failed : (read ctx env pos init).result = .error f) :
      StopsAt ctx env (.define pos name ty init) f
  | branch {pos : Nat} {cond : TypedExpr} {onTrue : TypedCommand} {onFalse : Option TypedCommand}
      {f : Failure} (failed : (read ctx env pos cond).result = .error f) :
      StopsAt ctx env (.branch pos cond onTrue onFalse) f
  | loop {pos : Nat} {header : LoopHeader} {body : TypedCommand} {fault : Fault}
      (failed : Word.sub header.stop 1 = .error fault) :
      StopsAt ctx env (.loop pos header body) (.fault fault)
  | updateTarget {pos : Nat} {target value : TypedExpr} {f : Failure}
      (failed : (write ctx env pos target).result = .error f) :
      StopsAt ctx env (.update pos target value) f
  | updateValue {pos : Nat} {target value : TypedExpr} {f : Failure}
      (failed : (read ctx env pos value).result = .error f) :
      StopsAt ctx env (.update pos target value) f
  | reduceTarget {pos : Nat} {op : BinOp} {target value : TypedExpr} {f : Failure}
      (failed : (write ctx env pos target).result = .error f) :
      StopsAt ctx env (.reduce pos op target value) f
  | reduceValue {pos : Nat} {op : BinOp} {target value : TypedExpr} {f : Failure}
      (failed : (read ctx env pos value).result = .error f) :
      StopsAt ctx env (.reduce pos op target value) f
  | eval {pos : Nat} {e : TypedExpr} {f : Failure}
      (failed : (read ctx env pos e).result = .error f) : StopsAt ctx env (.eval pos e) f
  | advance {pos : Nat} {array : String} {rotation : Rotation} {fault : Fault}
      (rotated : ctx.rotations.lookup array = some rotation)
      (failed : rotation.step pos = .error fault) :
      StopsAt ctx env (.advance pos array) (.fault fault)

/-- The split into banks at the commands that it gets to. -/
def banking (ctx : Context) : FalliblePass Ty TypedExpr Env where
  toPass := splitting ctx
  FailsAt env cmd f := (bankCommand ctx env cmd).result = .error f

/-- A path into the command leads to one that fails. -/
def ReachesStop (ctx : Context) (env : Env) (cmd : TypedCommand) (f : Failure) : Prop :=
  ∃ path env' cmd', (splitting ctx).visit env cmd path = some (env', cmd') ∧ StopsAt ctx env' cmd' f

/-- Everything before the command at which the split of a list fails was split. -/
theorem bankSeq_error {ctx : Context} {env : Env} {cmds : List TypedCommand} {f : Failure}
    (failed : (bankSeq ctx env cmds).result = .error f) : ∃ k cmd before env', cmds[k]? = some cmd ∧
      (bankSeq ctx env (cmds.take k)).result = .ok (before, env') ∧
      (bankCommand ctx env' cmd).result = .error f := by
  induction cmds generalizing env with
  | nil => cases failed
  | cons cmd cmds ih =>
    simp only [bankSeq, Outcome.result_bind, Outcome.result_pure, bind_error_iff, reduceCtorEq,
      and_false, exists_false, or_false] at failed
    rcases failed with failed | ⟨⟨first, next⟩, split, failed⟩
    · exact ⟨0, cmd, [], env, rfl, rfl, failed⟩
    · obtain ⟨k, inner, before, env', found, rest, failed⟩ := ih failed
      refine ⟨k + 1, inner, first :: before, env', found, ?_, failed⟩
      simp only [List.take_succ_cons, bankSeq, Outcome.result_bind, split, ok_bind, rest,
        Outcome.result_pure]

theorem located_bankCommand {ctx : Context} {env : Env} {f : Failure} : (cmd : TypedCommand) →
    (bankCommand ctx env cmd).result = .error f → (banking ctx).Located (StopsAt ctx) env cmd f
  | .decl pos name ty, failed => by
    rw [bankCommand] at failed
    split at failed
    · next found =>
      simp only [Outcome.result_bind, Outcome.result_lift_fault, Outcome.result_pure, bind_error_iff,
        lift_error_iff, reduceCtorEq, and_false, exists_false, or_false] at failed
      obtain ⟨fault, failed, rfl⟩ := failed
      exact .here (.decl found failed)
    · cases failed
  | .define pos name ty init, failed => by
    simp only [bankCommand, Outcome.result_bind, Outcome.result_pure, bind_error_iff, reduceCtorEq,
      and_false, exists_false, or_false] at failed
    exact .here (.define failed)
  | .seq pos cmds, failed => by
    simp only [bankCommand, Outcome.result_bind, Outcome.result_pure, bind_error_iff, reduceCtorEq,
      and_false, exists_false, or_false] at failed
    obtain ⟨k, cmd, before, env', found, split, failed⟩ := bankSeq_error failed
    exact .inside _ (.item (by simp [banking, splitting, split, Except.toOption]) found) failed
  | .branch pos cond onTrue onFalse, failed => by
    simp only [bankCommand, Outcome.result_bind, Outcome.result_pure, bind_error_iff, reduceCtorEq,
      and_false, exists_false, or_false] at failed
    rcases failed with failed | ⟨value, met, failed | ⟨taken, split, failed⟩⟩
    · exact .here (.branch failed)
    · exact .inside _ (.onTrue (by simp [banking, splitting, met, Except.toOption])) failed
    · cases onFalse with
      | none => cases failed
      | some other =>
        simp only [bankElse, Outcome.result_bind, Outcome.result_pure, bind_error_iff, reduceCtorEq,
          and_false, exists_false, or_false] at failed
        exact .inside _ (.onFalse (by simp [banking, splitting, met, split, Except.toOption])) failed
  | .loop pos header body, failed => by
    simp only [bankCommand, Outcome.result_bind, Outcome.result_lift_fault, Outcome.result_pure,
      bind_error_iff, lift_error_iff, lift_ok_iff, reduceCtorEq, and_false, exists_false,
      or_false] at failed
    rcases failed with ⟨fault, failed, rfl⟩ | ⟨last, ends, failed⟩
    · exact .here (.loop failed)
    · exact .inside _ (.round (by simp [banking, splitting, ends, Except.toOption])) failed
  | .update pos target value, failed => by
    simp only [bankCommand, Outcome.result_bind, Outcome.result_pure, bind_error_iff, reduceCtorEq,
      and_false, exists_false, or_false] at failed
    rcases failed with failed | ⟨_, _, failed⟩
    · exact .here (.updateTarget failed)
    · exact .here (.updateValue failed)
  | .reduce pos op target value, failed => by
    simp only [bankCommand, Outcome.result_bind, Outcome.result_pure, bind_error_iff, reduceCtorEq,
      and_false, exists_false, or_false] at failed
    rcases failed with failed | ⟨_, _, failed⟩
    · exact .here (.reduceTarget failed)
    · exact .here (.reduceValue failed)
  | .eval pos e, failed => by
    simp only [bankCommand, Outcome.result_bind, Outcome.result_pure, bind_error_iff, reduceCtorEq,
      and_false, exists_false, or_false] at failed
    exact .here (.eval failed)
  | .advance pos array, failed => by
    rw [bankCommand] at failed
    split at failed
    · next rotated =>
      simp only [Outcome.result_bind, Outcome.result_lift_fault, Outcome.result_pure, bind_error_iff,
        lift_error_iff, reduceCtorEq, and_false, exists_false, or_false] at failed
      obtain ⟨fault, failed, rfl⟩ := failed
      exact .here (.advance rotated failed)
    · cases failed
  | .skip pos, failed => by cases failed

theorem localises_banking (ctx : Context) :
    (banking ctx).Localises (fun _ _ => True) (StopsAt ctx) where
  descend := fun _ _ => trivial
  locate := fun _ failed => located_bankCommand _ failed

/-- Whatever stops the split is done at a command that it reaches. -/
theorem reached_of_stop {ctx : Context} {env : Env} {cmd : TypedCommand} {f : Failure}
    (failed : (bankCommand ctx env cmd).result = .error f) : ReachesStop ctx env cmd f := by
  have fails : (banking ctx).FailsAt env cmd f := failed
  obtain ⟨inner, arises⟩ := FalliblePass.exists_arises fails
  obtain ⟨path, env', met, stops⟩ := arises.stops (localises_banking ctx) trivial
  exact ⟨path, env', inner, met, stops⟩

namespace StopsAt

variable {ctx : Context} {env : Env} {cmd : TypedCommand} {f : Failure}

theorem isStatement (stops : StopsAt ctx env cmd f) : cmd.isStatement = true := by
  cases stops <;> rfl

/-- The command that stops the split is to blame. -/
theorem permitted {blamed : String → Prop} {allowed : Failure → Prop} (stops : StopsAt ctx env cmd f)
    (lenient : Lenient blamed allowed) (statement : blamed (ctx.statements.describe cmd.pos))
    (found : ∀ array, Fails allowed (layoutOf env array)) : allowed f := by
  cases stops with
  | decl _ _ | loop _ | advance _ _ => exact lenient.fault _
  | define failed | branch failed | updateValue failed | reduceValue failed | eval failed =>
    exact fails_read lenient statement env _ (fun array _ => found array) _ failed
  | updateTarget failed | reduceTarget failed =>
    exact fails_write lenient statement env (fun array _ => found array) _ failed

end StopsAt

/-! ### Components -/

/-- A component body with the context and the environment in which the split starts on it, if the
rotations are set up. -/
def startOf (statements : Statements) (env : Env) (body : TypedCommand) :
    Option ((Context × Env) × TypedCommand) := do
  let prologue ← (setUpRotations statements body env (binders body)
    (firstOfEach (advances body))).result.toOption
  return ((⟨statements, prologue.rotations⟩, prologue.env), body)

/-- A command that the split meets: the hidden registers of its component, and the environment. -/
structure Reached where
  hidden : List String
  env : Env
  cmd : TypedCommand

/-- The command that a path leads to in a component body, if the split gets there. -/
def reachedIn (statements : Statements) (env : Env) (body : TypedCommand) (path : List Descent) :
    Option Reached := do
  let prologue ← (setUpRotations statements body env (binders body)
    (firstOfEach (advances body))).result.toOption
  let (env, cmd) ← (splitting ⟨statements, prologue.rotations⟩).visit prologue.env body path
  return ⟨prologue.rotations.map (·.2.register), env, cmd⟩

theorem reachedIn_eq (statements : Statements) (env : Env) (body : TypedCommand) (path : List Descent) :
    reachedIn statements env body path =
      (startOf statements env body).bind fun start =>
        ((splitting start.1.1).visit start.1.2 start.2 path).map fun met =>
          ⟨start.1.1.rotations.map (·.2.register), met.1, met.2⟩ := by
  unfold reachedIn startOf
  cases (setUpRotations statements body env (binders body)
    (firstOfEach (advances body))).result.toOption with
  | none => rfl
  | some prologue =>
    show ((splitting ⟨statements, prologue.rotations⟩).visit prologue.env body path).bind _ =
      ((splitting ⟨statements, prologue.rotations⟩).visit prologue.env body path).map _
    rw [Option.map_eq_bind]
    rfl

section

variable {blamed : String → Prop} {allowed : Failure → Prop} {statements : Statements}

/-- The split of a body fails where the rotations are set up, or at the body. -/
theorem fails_bankBody (lenient : Lenient blamed allowed) {env : Env} {body : TypedCommand}
    (rotated : ∀ entry ∈ advances body, blamed (statements.describe entry.2))
    (split : ∀ ctx start, startOf statements env body = some ((ctx, start), body) →
      Fails allowed (bankCommand ctx start body).result) :
    Fails allowed (bankBody statements env body).result := by
  simp only [bankBody, Outcome.result_bind]
  refine .bind_of_ok (fails_setUpRotations lenient
    (fun entry first => rotated entry (firstOfEach_subset _ first)) _ _ _) fun prologue setUp => ?_
  refine .bind (split ⟨statements, prologue.rotations⟩ prologue.env ?_) fun _ => by
    split <;> exact .pure _
  simp only [startOf, setUp, Except.toOption, bind, Option.bind, pure]

theorem fails_bankFunctions_of {fs : List (Function Ty TypedExpr)}
    (each : ∀ k f before, fs[k]? = some f → (bankFunctions statements (fs.take k)).result = .ok before →
      Fails allowed (bankFunction statements f).result) :
    Fails allowed (bankFunctions statements fs).result := by
  induction fs with
  | nil => exact .pure _
  | cons f fs ih =>
    simp only [bankFunctions, Outcome.result_bind]
    refine .bind_of_ok (each 0 f [] rfl rfl) fun first split => .bind ?_ fun _ => .pure _
    refine ih fun k g before found others => each (k + 1) g (first :: before) found ?_
    simp only [List.take_succ_cons, bankFunctions, Outcome.result_bind, split, ok_bind, others,
      Outcome.result_pure]

end

end Banking

open Banking

/-- The body of a component with the context and the environment in which the split starts on it, if it
gets there. -/
def Program.splitFrom (statements : Statements) (p : TypedProgram) :
    Owner → Option ((Context × Env) × TypedCommand)
  | .function k => do
    let _ ← (bankFunctions statements (p.defs.take k)).result.toOption
    let f ← p.defs[k]?
    let (_, env) ← (bankDecls {} f.params).toOption
    startOf statements env f.body
  | .root => do
    let _ ← (bankFunctions statements p.defs).result.toOption
    let (_, env) ← (bankDecls {} p.decls).toOption
    let _ ← (memoriesOf {} p.decls).toOption
    startOf statements env (← p.body)

/-- The command that a path leads to in a component, if the split gets there. -/
def Program.reached (statements : Statements) (p : TypedProgram) :
    Owner → List Descent → Option Reached
  | .function k, path => do
    let _ ← (bankFunctions statements (p.defs.take k)).result.toOption
    let f ← p.defs[k]?
    let (_, env) ← (bankDecls {} f.params).toOption
    reachedIn statements env f.body path
  | .root, path => do
    let _ ← (bankFunctions statements p.defs).result.toOption
    let (_, env) ← (bankDecls {} p.decls).toOption
    let _ ← (memoriesOf {} p.decls).toOption
    reachedIn statements env (← p.body) path

theorem Program.reached_of_splitFrom {statements : Statements} {p : TypedProgram} {owner : Owner}
    {ctx : Context} {env env' : Env} {body cmd : TypedCommand} {path : List Descent}
    (starts : p.splitFrom statements owner = some ((ctx, env), body))
    (met : (splitting ctx).visit env body path = some (env', cmd)) :
    p.reached statements owner path = some ⟨ctx.rotations.map (·.2.register), env', cmd⟩ := by
  cases owner with
  | function k =>
    simp only [splitFrom, bind, Option.bind_eq_some_iff] at starts
    obtain ⟨_, before, f, found, ⟨_, env⟩, storage, starts⟩ := starts
    simp only [reached, before, found, storage, bind, Option.bind, reachedIn_eq, starts, met,
      Option.map_some]
  | root =>
    simp only [splitFrom, bind, Option.bind_eq_some_iff] at starts
    obtain ⟨_, before, ⟨_, env⟩, storage, _, tabled, body, given, starts⟩ := starts
    simp only [reached, before, given, storage, tabled, bind, Option.bind, reachedIn_eq, starts, met,
      Option.map_some]

theorem Program.splitFrom_ok {statements : Statements} {p : TypedProgram} {owner : Owner}
    {ctx : Context} {env : Env} {body : TypedCommand}
    (starts : p.splitFrom statements owner = some ((ctx, env), body)) :
    ctx.statements = statements ∧ body.preorder ⊆ p.commands := by
  cases owner with
  | function k =>
    simp only [splitFrom, startOf, bind, Option.bind_eq_some_iff] at starts
    obtain ⟨_, _, f, found, _, _, _, _, same⟩ := starts
    cases same
    exact ⟨rfl, preorder_of_defs (List.mem_of_getElem? found)⟩
  | root =>
    simp only [splitFrom, startOf, bind, Option.bind_eq_some_iff] at starts
    obtain ⟨_, _, _, _, _, _, _, given, _, _, same⟩ := starts
    cases same
    exact ⟨rfl, preorder_of_body given⟩

/-- The split of a program fails where rotations are set up, or at the body of a component. -/
theorem Program.fails_toBanks_of {blamed : String → Prop} {allowed : Failure → Prop}
    (lenient : Lenient blamed allowed) {statements : Statements} {p : TypedProgram}
    (rotated : ∀ ds body, (ds, body) ∈ p.components →
      ∀ entry ∈ advances body, blamed (statements.describe entry.2))
    (split : ∀ owner ctx env body, p.splitFrom statements owner = some ((ctx, env), body) →
      Fails allowed (bankCommand ctx env body).result) :
    Fails allowed (p.toBanks statements).result := by
  simp only [toBanks, Outcome.result_bind, Outcome.result_lift]
  refine .bind_of_ok (fails_bankFunctions_of fun k f before found others => ?_) fun defs functions => ?_
  · simp only [bankFunction, Outcome.result_bind, Outcome.result_lift, Outcome.result_tell]
    refine .bind_of_ok (fails_bankDecls lenient _ _) fun storage divided => ?_
    have rotates := rotated _ _ (mem_components_of_defs (List.mem_of_getElem? found))
    refine .bind (fails_bankBody lenient rotates fun ctx start starts => ?_) fun _ =>
      .bind (.pure ()) fun _ => .pure _
    refine split (.function k) ctx start f.body ?_
    simp only [splitFrom, others, found, divided, Except.toOption, bind, Option.bind, starts]
  · refine .bind_of_ok (fails_bankDecls lenient _ _) fun storage divided => ?_
    refine .bind_of_ok (fails_memoriesOf lenient _ _) fun memories tabled => ?_
    split
    · exact .bind (.pure ()) fun _ => .pure _
    · next body given =>
      simp only [Outcome.result_bind, Outcome.result_map]
      have rotates := rotated _ _ (mem_components_root given)
      refine .bind (.map (fails_bankBody lenient rotates fun ctx start starts => ?_) _) fun _ =>
        .bind (.pure ()) fun _ => .pure _
      refine split .root ctx start body ?_
      simp only [splitFrom, functions, divided, tabled, given, Except.toOption, bind, Option.bind, starts]

/-- The split of a program fails as the commands do that it reaches. -/
theorem Program.fails_of_reached {allowed : Failure → Prop} (lenient : Lenient (fun _ => True) allowed)
    {statements : Statements} {p : TypedProgram}
    (reached : ∀ owner path r, p.reached statements owner path = some r →
      ∀ ctx f, StopsAt ctx r.env r.cmd f → allowed f) :
    Fails allowed (p.toBanks statements).result := by
  refine fails_toBanks_of lenient (fun _ _ _ _ _ => trivial) fun owner ctx env body starts f failed => ?_
  obtain ⟨path, env', cmd, met, stops⟩ := reached_of_stop failed
  exact reached owner path _ (reached_of_splitFrom starts met) ctx f stops

/-- The split into banks stops for lack of a hardware form, of a layout or of a bank. -/
theorem Program.fails_toBanks (statements : Statements) (p : TypedProgram) :
    Fails Stops (p.toBanks statements).result :=
  fails_of_reached lenient_stops fun _ _ r _ _ _ stops =>
    stops.permitted lenient_stops trivial (fails_layoutOf r.env)

end BankedLoops
