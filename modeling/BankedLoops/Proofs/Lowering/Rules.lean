import BankedLoops.Proofs.Lowering.Growth

/-!
# The rules of lowering

What a successful lowering consists of, one rule for each kind of command. `lowerCommand_ok` says that
a success follows the rules; `readName_ok` says it of the read of a name.
-/

namespace BankedLoops

namespace Lowering

section

variable {s : Setting} {env : Env} {pos : Nat} {name : String} {W W' : Wiring} {w v : Workspace}

/-- Which pin a name is read from, and the wires that the read adds. -/
inductive ReadFrom (env : Env) (name : String) (W : Wiring) : Pin → Nat → Wiring → Prop where
  | register {cell : String} {width : Nat} (found : env.get? name = some (.register cell width)) :
      ReadFrom env name W (.out cell) width W
  | whole {cell : String} {width : Nat} (found : env.get? name = some (.iterator cell none width)) :
      ReadFrom env name W (.out cell) width W
  | sliced {cell slice : String} {width : Nat}
      (found : env.get? name = some (.iterator cell (some slice) width)) :
      ReadFrom env name W (.out slice) width (W.connect (.cell slice "in") (.out cell))

/-- A read of a name asks for no cell. -/
theorem readName_ok {pin : Pin} {width : Nat}
    (ran : (readName s env pos W name).run w = .ok ((pin, width, W'), v)) :
    w = v ∧ ReadFrom env name W pin width W' := by
  unfold readName at ran
  split at ran
  · next found =>
    cases ran
    exact ⟨rfl, .register found⟩
  · next found =>
    cases ran
    exact ⟨rfl, .whole found⟩
  · next found =>
    cases ran
    exact ⟨rfl, .sliced found⟩
  · cases ran

end

section

variable {s : Setting} {env env' : Env} {w v : Workspace} {control : Control}

/-- How a command is lowered to its control, with the environment of the commands after it. -/
inductive LoweredAs (s : Setting) (env : Env) (w : Workspace) :
    TypedCommand → Control → Env → Workspace → Prop where
  | decl {pos : Nat} {name : String} {ty : Ty} {env' : Env} {v : Workspace}
      (declared : (declare s env ⟨pos, name, ty⟩ .hidden).run w = .ok (env', v)) :
      LoweredAs s env w (.decl pos name ty) .empty env' v
  | define {pos : Nat} {name cell : String} {ty : Ty} {init : TypedExpr} {u v : Workspace}
      {control : Control} (added : (addRegister name ty.width).run w = .ok (cell, u))
      (assigned : (assignRegister s env pos cell ty.width "let" init).run u = .ok (control, v)) :
      LoweredAs s env w (.define pos name ty init) control (env.rebind name (.register cell ty.width)) v
  | seq {pos : Nat} {cmds : List TypedCommand} {controls : List Control} {env' : Env} {v : Workspace}
      (lowered : (lowerSeq s env cmds).run w = .ok ((controls, env'), v)) :
      LoweredAs s env w (.seq pos cmds) (.sequence controls) env' v
  | branch {pos : Nat} {cond : TypedExpr} {onTrue : TypedCommand} {onFalse : Option TypedCommand}
      {pin : Pin} {group : Option String} {before : List Control} {yes no : Control} {inner : Env}
      {u u' v : Workspace} (tested : (lowerCondition s env pos cond).run w = .ok ((pin, group, before), u))
      (taken : (lowerCommand s env.enter onTrue).run u = .ok ((yes, inner), u'))
      (untaken : (lowerElse s env.enter onFalse).run u' = .ok (no, v)) :
      LoweredAs s env w (.branch pos cond onTrue onFalse)
        (.sequence (before ++ [.branch pin group yes no])) env v
  | loop {pos : Nat} {header : LoopHeader} {body : TypedCommand} {frame : LoopFrame} {round : Control}
      {inner : Env} {u v : Workspace} (framed : (addLoop header).run w = .ok (frame, u))
      (lowered : (lowerCommand s (env.enter.rebind header.iter
        (.iterator frame.reg frame.slice frame.width)) body).run u = .ok ((round, inner), v)) :
      LoweredAs s env w (.loop pos header body)
        (.sequence [s.enable frame.init pos, .loop (.out frame.lt) (some frame.cond)
          (.sequence [round, s.enable frame.incr pos]) (some (header.stop - header.start))]) env
        ((v.quote s pos).quote s pos)
  | update {pos : Nat} {target value : TypedExpr} {control : Control} {v : Workspace}
      (updated : (lowerUpdate s env pos target value).run w = .ok (control, v)) :
      LoweredAs s env w (.update pos target value) control env v
  | reduce {pos : Nat} {op : BinOp} {target value : TypedExpr} {control : Control} {v : Workspace}
      (reduced : (lowerReduce s env pos op target value).run w = .ok (control, v)) :
      LoweredAs s env w (.reduce pos op target value) control env v
  | call {pos : Nat} {ty : Ty} {func : String} {args : List String} {control : Control} {v : Workspace}
      (called : (lowerCall s env pos func args).run w = .ok (control, v)) :
      LoweredAs s env w (.eval pos (.app ty func args)) control env v
  | eval {pos : Nat} {e : TypedExpr} {controls : List Control} {v : Workspace}
      (other : ∀ ty func args, e ≠ .app ty func args)
      (discarded : (discard s env pos e).run w = .ok (controls, v)) :
      LoweredAs s env w (.eval pos e) (.sequence controls) env v
  | skip {pos : Nat} : LoweredAs s env w (.skip pos) .empty env w

theorem lowerEval_ok {pos : Nat} {e : TypedExpr} (other : ∀ ty func args, e ≠ .app ty func args)
    (ran : (lowerCommand s env (.eval pos e)).run w = .ok ((control, env'), v)) :
    LoweredAs s env w (.eval pos e) control env' v := by
  rw [lowerCommand] at ran
  · obtain ⟨_, _, discarded, done⟩ := run_bind_ok_iff.mp ran
    cases done
    exact .eval other discarded
  · exact other

theorem lowerCommand_ok {cmd : TypedCommand}
    (ran : (lowerCommand s env cmd).run w = .ok ((control, env'), v)) :
    LoweredAs s env w cmd control env' v := by
  cases cmd with
  | decl pos name ty =>
    rw [lowerCommand] at ran
    obtain ⟨_, _, declared, done⟩ := run_bind_ok_iff.mp ran
    cases done
    exact .decl declared
  | define pos name ty init =>
    rw [lowerCommand] at ran
    obtain ⟨cell, _, added, ran⟩ := run_bind_ok_iff.mp ran
    obtain ⟨_, _, assigned, done⟩ := run_bind_ok_iff.mp ran
    cases done
    exact .define added assigned
  | seq pos cmds =>
    rw [lowerCommand] at ran
    obtain ⟨⟨_, _⟩, _, lowered, done⟩ := run_bind_ok_iff.mp ran
    cases done
    exact .seq lowered
  | branch pos cond onTrue onFalse =>
    rw [lowerCommand] at ran
    obtain ⟨⟨_, _, _⟩, _, tested, ran⟩ := run_bind_ok_iff.mp ran
    obtain ⟨⟨_, _⟩, _, taken, ran⟩ := run_bind_ok_iff.mp ran
    obtain ⟨_, _, untaken, done⟩ := run_bind_ok_iff.mp ran
    cases done
    exact .branch tested taken untaken
  | loop pos header body =>
    rw [lowerCommand] at ran
    obtain ⟨frame, _, framed, ran⟩ := run_bind_ok_iff.mp ran
    obtain ⟨⟨_, _⟩, _, lowered, ran⟩ := run_bind_ok_iff.mp ran
    obtain ⟨_, _, first, ran⟩ := run_bind_ok_iff.mp ran
    obtain ⟨rfl, rfl⟩ := enableGroup_ok first
    obtain ⟨_, _, last, ran⟩ := run_bind_ok_iff.mp ran
    obtain ⟨rfl, rfl⟩ := enableGroup_ok last
    obtain ⟨_, _, counted, done⟩ := run_bind_ok_iff.mp ran
    obtain ⟨trips, rfl⟩ := run_lift_ok_iff.mp counted
    obtain ⟨_, rfl⟩ := Word.sub_eq_ok_iff.mp trips
    cases done
    exact .loop framed lowered
  | update pos target value =>
    rw [lowerCommand] at ran
    obtain ⟨_, _, updated, done⟩ := run_bind_ok_iff.mp ran
    cases done
    exact .update updated
  | reduce pos op target value =>
    rw [lowerCommand] at ran
    obtain ⟨_, _, reduced, done⟩ := run_bind_ok_iff.mp ran
    cases done
    exact .reduce reduced
  | eval pos e =>
    cases e with
    | app ty func args =>
      rw [lowerCommand] at ran
      obtain ⟨_, _, called, done⟩ := run_bind_ok_iff.mp ran
      cases done
      exact .call called
    | _ => exact lowerEval_ok (by rintro _ _ _ ⟨⟩) ran
  | advance pos array =>
    rw [lowerCommand] at ran
    exact absurd ran run_throwInternal_ne
  | skip pos =>
    rw [lowerCommand] at ran
    cases ran
    exact .skip

theorem lowerDefine_ok {pos : Nat} {name : String} {ty : Ty} {init : TypedExpr}
    (ran : (lowerCommand s env (.define pos name ty init)).run w = .ok ((control, env'), v)) :
    ∃ cell u, (addRegister name ty.width).run w = .ok (cell, u) ∧
      (assignRegister s env pos cell ty.width "let" init).run u = .ok (control, v) ∧
      env' = env.rebind name (.register cell ty.width) := by
  cases lowerCommand_ok ran with
  | define added assigned => exact ⟨_, _, added, assigned, rfl⟩

theorem run_lowerSeq {pos : Nat} {cmds : List TypedCommand} {controls : List Control}
    (lowered : (lowerSeq s env cmds).run w = .ok ((controls, env'), v)) :
    (lowerCommand s env (.seq pos cmds)).run w = .ok ((.sequence controls, env'), v) := by
  rw [lowerCommand]
  exact run_bind_ok_iff.mpr ⟨_, _, lowered, rfl⟩

theorem lowerSeq_nil_ok {controls : List Control}
    (ran : (lowerSeq s env []).run w = .ok ((controls, env'), v)) : controls = [] ∧ env' = env ∧ v = w := by
  rw [lowerSeq] at ran
  cases ran
  exact ⟨rfl, rfl, rfl⟩

theorem lowerSeq_cons_ok {cmd : TypedCommand} {cmds : List TypedCommand} {controls : List Control}
    (ran : (lowerSeq s env (cmd :: cmds)).run w = .ok ((controls, env'), v)) :
    ∃ control next u rest, (lowerCommand s env cmd).run w = .ok ((control, next), u) ∧
      (lowerSeq s next cmds).run u = .ok ((rest, env'), v) ∧ controls = control :: rest := by
  rw [lowerSeq] at ran
  obtain ⟨⟨control, next⟩, u, lowered, ran⟩ := run_bind_ok_iff.mp ran
  obtain ⟨⟨rest, _⟩, _, others, done⟩ := run_bind_ok_iff.mp ran
  cases done
  exact ⟨control, next, u, rest, lowered, others, rfl⟩

theorem lowerSeq_append (s : Setting) (env : Env) (xs ys : List TypedCommand) :
    lowerSeq s env (xs ++ ys) = (do
      let (first, env) ← lowerSeq s env xs
      let (second, env) ← lowerSeq s env ys
      pure (first ++ second, env)) := by
  induction xs generalizing env with
  | nil =>
    simp only [List.nil_append, lowerSeq, pure_bind]
    exact (bind_pure _).symm
  | cons cmd cmds ih =>
    simp only [List.cons_append, lowerSeq, ih, bind_assoc, pure_bind]

theorem lowerElse_none_ok (ran : (lowerElse s env none).run w = .ok (control, v)) :
    control = .empty ∧ v = w := by
  rw [lowerElse] at ran
  cases ran
  exact ⟨rfl, rfl⟩

theorem lowerElse_some_ok {cmd : TypedCommand} (ran : (lowerElse s env (some cmd)).run w = .ok (control, v)) :
    ∃ later, (lowerCommand s env cmd).run w = .ok ((control, later), v) := by
  rw [lowerElse] at ran
  obtain ⟨⟨_, later⟩, _, lowered, done⟩ := run_bind_ok_iff.mp ran
  cases done
  exact ⟨later, lowered⟩

/-- A call binds the memories of the arguments to the parameters of the instance. -/
theorem lowerCall_ok {pos : Nat} {func : String} {args : List String}
    (ran : (lowerCall s env pos func args).run w = .ok (control, v)) :
    ∃ params refs cell u u', s.signatures.lookup func = some params ∧ params.length = args.length ∧
      (bindArguments env params args).run w = .ok (refs, u) ∧
      (instanceOf func).run u = .ok (cell, u') ∧ v = u'.quote s pos ∧
      control = .invoke cell refs (s.position pos) := by
  unfold lowerCall at ran
  split at ran
  · exact absurd ran run_throwInternal_ne
  · next params signature =>
    split at ran
    · exact absurd ran run_throwInternal_ne
    · next counted =>
      obtain ⟨refs, u, bound, ran⟩ := run_bind_ok_iff.mp ran
      obtain ⟨cell, u', found, done⟩ := run_bind_ok_iff.mp ran
      cases done
      exact ⟨params, refs, cell, u, u', signature, Decidable.not_not.mp counted, bound, found, rfl, rfl⟩

end

end Lowering

end BankedLoops
