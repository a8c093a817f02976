import BankedLoops.Proofs.Innermost
import BankedLoops.Proofs.Lowering.Memories

/-!
# What lowering blames

Only a declaration asks for hardware that there may not be, so lowering blames the innermost command at
which it fails, as the table describes it. Outside commands it blames the storage of a component.
-/

namespace BankedLoops

namespace Lowering

/-! ### Commands -/

/-- Lowering at the commands that it gets to, each with the environment and the workspace there. -/
def lowering (s : Setting) : FalliblePass Ty TypedExpr (Env × Workspace) where
  behind st cmds := ((lowerSeq s st.1 cmds).run st.2).toOption.map fun r => (r.1.2, r.2)
  onTrue st pos cond := ((lowerCondition s st.1 pos cond).run st.2).toOption.map fun r =>
    (st.1.enter, r.2)
  onFalse st pos cond onTrue := do
    let (_, w) ← ((lowerCondition s st.1 pos cond).run st.2).toOption
    let (_, w) ← ((lowerCommand s st.1.enter onTrue).run w).toOption
    return (st.1.enter, w)
  round st header := ((addLoop header).run st.2).toOption.map fun (frame, w) =>
    (st.1.enter.rebind header.iter (.iterator frame.reg frame.slice frame.width), w)
  FailsAt st cmd f := (lowerCommand s st.1 cmd).run st.2 = .error f

/-- A command fails as usual, with no other statement to blame than itself. -/
structure Missed (s : Setting) (cmd : TypedCommand) (f : Failure) : Prop where
  statement : cmd.isStatement = true
  usual : Usual (· = s.statements.describe cmd.pos) f

theorem lowerSeq_error {s : Setting} {env : Env} {w : Workspace} {cmds : List TypedCommand}
    {f : Failure} (failed : (lowerSeq s env cmds).run w = .error f) :
    ∃ k cmd controls env' w', cmds[k]? = some cmd ∧
      (lowerSeq s env (cmds.take k)).run w = .ok ((controls, env'), w') ∧
      (lowerCommand s env' cmd).run w' = .error f := by
  induction cmds generalizing env w with
  | nil => cases failed
  | cons cmd cmds ih =>
    rw [lowerSeq, StateT.run_bind] at failed
    rcases bind_error_iff.mp failed with failed | ⟨⟨⟨control, next⟩, v⟩, lowered, failed⟩
    · exact ⟨0, cmd, [], env, w, rfl, rfl, failed⟩
    · rw [StateT.run_bind] at failed
      rcases bind_error_iff.mp failed with failed | ⟨_, _, failed⟩
      · obtain ⟨k, inner, controls, env', w', found, before, failed⟩ := ih failed
        refine ⟨k + 1, inner, control :: controls, env', w', found, ?_, failed⟩
        rw [List.take_succ_cons, lowerSeq, StateT.run_bind, lowered, ok_bind, StateT.run_bind, before]
        rfl
      · cases failed

section

variable {s : Setting} {env : Env} {w : Workspace} {cmd : TypedCommand}

/-- What a command does itself can blame that command only. -/
theorem located_of_steps {α : Type} {x : Build α} {P : α → Prop} (statement : cmd.isStatement = true)
    (steps : Steps (fun _ => True) (· = s.statements.describe cmd.pos) x P) (v : Workspace) :
    Fails ((lowering s).Located (fun _ => Missed s) (env, w) cmd) (x.run v) :=
  (steps v).fails.mono fun _ usual => .here ⟨statement, usual⟩

theorem located_leaf (leaf : cmd.preorder = [cmd]) (statement : cmd.isStatement = true) :
    Fails ((lowering s).Located (fun _ => Missed s) (env, w) cmd) ((lowerCommand s env cmd).run w) := by
  refine located_of_steps statement (steps_lowerCommand s env cmd (fun _ _ => trivial) ?_) w
  rw [leaf]
  exact List.forall_mem_singleton.mpr rfl

end

theorem located_lowerCommand (s : Setting) (env : Env) (w : Workspace) : (cmd : TypedCommand) →
    Fails ((lowering s).Located (fun _ => Missed s) (env, w) cmd) ((lowerCommand s env cmd).run w)
  | .decl .. | .define .. | .update .. | .reduce .. | .eval .. | .advance .. => located_leaf rfl rfl
  | .seq pos cmds => by
    unfold lowerCommand
    refine fails_run_bind (fun f failed => ?_) fun _ _ _ => fails_run_pure _ _
    obtain ⟨k, inner, controls, env', w', found, before, failed⟩ := lowerSeq_error failed
    refine .inside (env', w') (.item ?_ found) failed
    simp only [lowering, before]
    rfl
  | .branch pos cond onTrue onFalse => by
    unfold lowerCommand
    refine fails_run_bind (located_of_steps rfl (steps_lowerCondition s env pos cond) w)
      fun (pin, group, before) v tested => ?_
    refine fails_run_bind (fun f failed => ?_) fun (yes, _) u lowered =>
      fails_run_bind (fun f failed => ?_) fun _ _ _ => fails_run_pure _ _
    · refine .inside (env.enter, v) (.onTrue ?_) failed
      simp only [lowering, tested]
      rfl
    · cases onFalse with
      | none => cases failed
      | some other =>
        rw [lowerElse, StateT.run_bind] at failed
        rcases bind_error_iff.mp failed with failed | ⟨_, _, failed⟩
        · refine .inside (env.enter, u) (.onFalse ?_) failed
          simp only [lowering, tested, Except.toOption, bind, Option.bind, lowered, pure]
        · cases failed
  | .loop pos header body => by
    unfold lowerCommand
    refine fails_run_bind (located_of_steps rfl (steps_addLoop header) w) fun frame v added =>
      fails_run_bind (fun f failed => ?_) fun _ u _ =>
      fails_run_bind (located_of_steps rfl (steps_enableGroup s frame.init pos) u) fun _ u' _ =>
      fails_run_bind (located_of_steps rfl (steps_enableGroup s frame.incr pos) u') fun _ u'' _ =>
      fails_run_bind (located_of_steps rfl (.lift _) u'') fun _ _ _ => fails_run_pure _ _
    refine .inside (_, v) (.round ?_) failed
    simp only [lowering, added]
    rfl
  | .skip pos => by
    unfold lowerCommand
    exact fails_run_pure _ _

/-- Lowering blames the innermost command at which it fails. -/
theorem localises_lowering (s : Setting) :
    (lowering s).Localises (fun _ _ => True) fun _ => Missed s where
  descend := fun _ _ => trivial
  locate := fun _ failed => located_lowerCommand s _ _ _ _ failed

/-! ### Components -/

/-- A component body with the environment and the workspace in which lowering starts on it, if the
storage has its cells. -/
def startOf (s : Setting) (quotes : Statements) (exposure : Exposure) (ds : List Decl)
    (instances : List String) (body : Option TypedCommand) :
    Option ((Env × Workspace) × TypedCommand) := do
  let (env, w) ← ((declareAll s exposure {} ds).run { quotes }).toOption
  let (_, w) ← ((instantiateAll instances).run w).toOption
  return ((env, w), ← body)

/-- One of the declarations, as the table describes it. -/
abbrev Describes (s : Setting) (ds : List Decl) (stmt : String) : Prop :=
  ∃ d ∈ ds, stmt = s.statements.describe d.pos

/-- A component fails for its storage, or at its body. -/
theorem fails_assemble_of {allowed : Failure → Prop} {s : Setting} {quotes : Statements}
    {exposure : Exposure} {ds : List Decl} {instances : List String} {body : Option TypedCommand}
    (usual : ∀ f, Usual (Describes s ds) f → allowed f)
    (inside : ∀ env w cmd, startOf s quotes exposure ds instances body = some ((env, w), cmd) →
      Fails allowed ((lowerCommand s env cmd).run w)) :
    Fails allowed ((assemble s exposure ds instances body).run { quotes }) := by
  unfold assemble
  have described : ∀ d ∈ ds, Describes s ds (s.statements.describe d.pos) :=
    fun d member => ⟨d, member, rfl⟩
  refine fails_run_bind ((declareAll_ends described exposure {} { quotes }).fails.mono usual)
    fun env v declared => ?_
  have steps : Steps (fun _ => True) (Describes s ds) (instantiateAll instances) fun _ => True :=
    steps_instantiateAll fun _ _ => trivial
  refine fails_run_bind ((steps v).fails.mono usual) fun _ u instantiated => ?_
  cases body with
  | none => exact fails_run_pure _ _
  | some cmd =>
    rw [lowerElse]
    refine fails_run_bind (inside env u cmd ?_) fun _ _ _ => fails_run_pure _ _
    simp only [startOf, declared, instantiated, Except.toOption, bind, Option.bind, pure]

theorem fails_lowerFunctions_of {allowed : Failure → Prop} {s : Setting} {quotes : Statements}
    {fs : List (Function Ty TypedExpr)}
    (each : ∀ k f before, fs[k]? = some f → (lowerFunctions s quotes (fs.take k)).result = .ok before →
      Fails allowed (lowerFunction s before.2 f).result) :
    Fails allowed (lowerFunctions s quotes fs).result := by
  induction fs generalizing quotes with
  | nil => exact .pure _
  | cons f fs ih =>
    simp only [lowerFunctions, Outcome.result_bind]
    refine .bind_of_ok (each 0 f ([], quotes) rfl rfl) fun first lowered => .bind ?_ fun _ => .pure _
    refine ih fun k g before found others => each (k + 1) g (first.1 :: before.1, before.2) found ?_
    simp only [List.take_succ_cons, lowerFunctions, Outcome.result_bind, lowered, ok_bind, others,
      Outcome.result_pure]

end Lowering

open Lowering

/-- The body of a component with the environment and the workspace in which lowering starts on it, if it
gets there. -/
def BankedProgram.lowerFrom (config : Config) (statements : Statements) (p : BankedProgram)
    (owner : Owner) : Option ((Env × Workspace) × TypedCommand) :=
  let s := p.setting config statements
  if (s.signatures.lookup config.topName).isSome then
    none
  else
    match owner with
    | .function k => do
      let (_, quotes) ← (lowerFunctions s {} (p.program.defs.take k)).result.toOption
      let f ← p.program.defs[k]?
      startOf s quotes .reference f.params [] (some f.body)
    | .root => do
      let (_, quotes) ← (lowerFunctions s {} p.program.defs).result.toOption
      startOf s quotes .external p.program.decls (p.program.defs.map (·.name)) p.program.body

/-- What holds of the body of each component holds of the one that lowering starts on. -/
theorem BankedProgram.of_lowerFrom {holds : Option TypedCommand → Prop} {config : Config}
    {statements : Statements} {p : BankedProgram} {owner : Owner} {start : Env × Workspace}
    {body : TypedCommand} (starts : p.lowerFrom config statements owner = some (start, body))
    (bodies : p.program.Bodies fun _ body => holds body) : holds (some body) := by
  unfold lowerFrom at starts
  dsimp only at starts
  split at starts
  · cases starts
  · cases owner with
    | function k =>
      simp only [startOf, bind, Option.bind_eq_some_iff, Option.some.injEq] at starts
      obtain ⟨_, _, f, found, _, _, _, _, _, rfl, same⟩ := starts
      cases same
      exact bodies.functions f (List.mem_of_getElem? found)
    | root =>
      simp only [startOf, bind, Option.bind_eq_some_iff] at starts
      obtain ⟨_, _, _, _, _, _, _, given, same⟩ := starts
      cases same
      exact given ▸ bodies.root

/-- Lowering a program fails for the storage of a component, or at its body. -/
theorem BankedProgram.fails_toNetlist_of {allowed : Failure → Prop} {config : Config}
    {statements : Statements} {p : BankedProgram}
    (usual : p.program.Bodies fun ds _ =>
      ∀ f, Usual (Describes (p.setting config statements) ds) f → allowed f)
    (hidden : ∀ bank array, allowed (.error (.internal (.notExternal bank array))))
    (inside : ∀ owner env w body, p.lowerFrom config statements owner = some ((env, w), body) →
      Fails allowed ((lowerCommand (p.setting config statements) env body).run w)) :
    Fails allowed (p.toNetlist config statements).result := by
  simp only [toNetlist]
  split
  · simp only [Outcome.result_bind, Outcome.result_lift]
    exact .refuse_bind (usual.root _ .config) _
  · next unnamed =>
    simp only [Outcome.result_bind]
    refine .bind_of_ok (fails_lowerFunctions_of fun k f before found others => ?_)
      fun functions lowered => ?_
    · rw [lowerFunction_eq]
      refine fails_buildComponent (fails_assemble_of (usual.functions f (List.mem_of_getElem? found))
        fun env w cmd starts => inside (.function k) env w cmd ?_)
      simp only [lowerFrom, unnamed, others, found, Except.toOption, bind, Option.bind]
      exact starts
    · rw [lowerRoot_eq]
      refine .bind (fails_buildComponent (fails_assemble_of usual.root
        fun env w cmd starts => inside .root env w cmd ?_)) fun root => ?_
      · simp only [lowerFrom, unnamed, lowered, Except.toOption, bind, Option.bind]
        exact starts
      · split
        · simp only [Outcome.result_bind, Outcome.result_lift]
          exact .refuse_bind (hidden _ _) _
        · exact .bind (.pure ()) fun _ => .bind (.pure ()) fun _ => .pure _

end BankedLoops
