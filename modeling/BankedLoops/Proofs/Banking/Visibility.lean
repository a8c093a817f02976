import BankedLoops.Proofs.Banking.Agreement
import BankedLoops.Proofs.Banking.Reached
import BankedLoops.Proofs.Typing.Erasure

/-!
# Names are resolved alike

The checker and the split into banks thread environments of their own through a program. At every
command that the split reaches, both know each name as the text binds it: the split has the layout of
the array that is declared there, the range of the innermost loop that counts with it, or a scalar.
Beyond that it knows the hidden registers of the component, and nothing else.
-/

namespace BankedLoops

/-! ### Names by the text -/

/-- What binds a name: a declaration or a parameter, a `let`, or a loop. -/
inductive Binder where
  | storage (ty : Ty)
  | value (ty : Ty)
  | counter (header : LoopHeader)

namespace Binder

/-- What the checker knows of a name. -/
def checked : Binder → Typing.Binding
  | .storage ty => .ofTy ty
  | .value ty => .scalar ty
  | .counter header => .iterator (.idx header.stop header.unroll)

/-- What the split knows of a name. -/
def banked (name : String) : Binder → Banking.Binding
  | .storage ty => .ofTy name ty
  | .value _ => .scalar
  | .counter header => .iterator ⟨header.start, header.stop - 1⟩

end Binder

/-- The innermost binder of each name. -/
abbrev Names := String → Option Binder

def Names.bind (names : Names) (name : String) (binder : Binder) : Names :=
  fun other => if other = name then some binder else names other

mutual

/-- The names in scope behind a command. -/
def namesAfter (names : Names) : TypedCommand → Names
  | .decl _ name ty => names.bind name (.storage ty)
  | .define _ name ty _ => names.bind name (.value ty)
  | .seq _ cmds => namesAfterSeq names cmds
  | _ => names

def namesAfterSeq (names : Names) : List TypedCommand → Names
  | [] => names
  | cmd :: cmds => namesAfterSeq (namesAfter names cmd) cmds

end

/-- The names in scope behind declarations. -/
def namesOf (names : Names) (ds : List Decl) : Names :=
  ds.foldl (fun names d => names.bind d.name (.storage d.ty)) names

def naming : Pass Ty TypedExpr Names where
  behind names cmds := some (namesAfterSeq names cmds)
  onTrue names _ _ := some names
  onFalse names _ _ _ := some names
  round names header := some (names.bind header.iter (.counter header))

/-- The names in scope at a command. -/
def Program.namesAt (p : TypedProgram) : Owner → List Descent → Option (Names × TypedCommand)
  | .function k, path => do
    let f ← p.defs[k]?
    naming.visit (namesOf (fun _ => none) f.params) f.body path
  | .root, path => do naming.visit (namesOf (fun _ => none) p.decls) (← p.body) path

/-! ### Names of the checker -/

namespace Typing

/-- The environments in which the checker meets commands. -/
def checking : Pass (Option Ty) Expr (Context × Env) where
  behind s cmds := (checkSeq s.1 s.2 cmds).toOption.map fun r => (s.1, r.2)
  onTrue s _ _ := some (s.1, s.2.enter)
  onFalse s _ _ _ := some (s.1, s.2.enter)
  round s header := some ({ s.1 with parallel := s.1.parallel || header.isParallel },
    s.2.enter.rebind header.iter (.iterator (.idx header.stop header.unroll)))

theorem checkSeq_item {ctx : Context} {env env' : Env} {cmds : List SourceCommand}
    {typed : List TypedCommand} (checked : checkSeq ctx env cmds = .ok (typed, env')) {k : Nat}
    {cmd : TypedCommand} (found : typed[k]? = some cmd) :
    ∃ mid source next, checkSeq ctx env (cmds.take k) = .ok (typed.take k, mid) ∧
      cmds[k]? = some source ∧ checkCommand ctx mid source = .ok (cmd, next) := by
  induction cmds generalizing env typed k with
  | nil =>
    cases checked
    cases found
  | cons source cmds ih =>
    simp only [checkSeq, bind_ok_iff, pure_ok_iff, Prod.mk.injEq] at checked
    obtain ⟨⟨first, mid⟩, firstChecked, ⟨others, _⟩, rest, rfl, rfl⟩ := checked
    cases k with
    | zero =>
      cases found
      exact ⟨env, source, mid, rfl, rfl, firstChecked⟩
    | succ k =>
      obtain ⟨inner, written, next, before, among, itemChecked⟩ := ih rest found
      refine ⟨inner, written, next, ?_, among, itemChecked⟩
      simp only [List.take_succ_cons, checkSeq, firstChecked, ok_bind, before]
      rfl

theorem checkFunctions_item {funcs funcs' : List (String × List Decl)}
    {fs : List (Function (Option Ty) Expr)} {typed : List (Function Ty TypedExpr)}
    (checked : (checkFunctions funcs fs).result = .ok (typed, funcs')) {k : Nat}
    {f : Function Ty TypedExpr} (found : typed[k]? = some f) :
    ∃ earlier source, (checkFunctions funcs (fs.take k)).result = .ok (typed.take k, earlier) ∧
      fs[k]? = some source ∧ checkFunction earlier source = .ok f := by
  induction fs generalizing funcs typed k with
  | nil =>
    cases checked
    cases found
  | cons source fs ih =>
    simp only [checkFunctions, Outcome.result_bind, Outcome.result_lift, Outcome.result_tell,
      Outcome.result_pure, bind_ok_iff, Except.ok.injEq, Prod.mk.injEq] at checked
    obtain ⟨first, firstChecked, _, _, ⟨others, _⟩, rest, rfl, rfl⟩ := checked
    cases k with
    | zero =>
      cases found
      exact ⟨funcs, source, rfl, rfl, firstChecked⟩
    | succ k =>
      obtain ⟨earlier, written, before, among, itemChecked⟩ := ih rest found
      refine ⟨earlier, written, ?_, among, itemChecked⟩
      simp only [List.take_succ_cons, checkFunctions, Outcome.result_bind, Outcome.result_lift,
        firstChecked, ok_bind, Outcome.result_tell, before, Outcome.result_pure]

end Typing

/-- The environment in which the checker meets a command. -/
def Program.checkedAt (p : SourceProgram) :
    Owner → List Descent → Option ((Typing.Context × Typing.Env) × SourceCommand)
  | .function k, path => do
    let (_, funcs) ← (Typing.checkFunctions [] (p.defs.take k)).result.toOption
    let f ← p.defs[k]?
    let env ← (Typing.checkParams f.text {} f.params).toOption
    Typing.checking.visit ({ funcs }, env) f.body path
  | .root, path => do
    let (_, funcs) ← (Typing.checkFunctions [] p.defs).result.toOption
    let env ← (Typing.checkDecls {} p.decls).toOption
    Typing.checking.visit ({ funcs }, env) (← p.body) path

/-! ### Resolution -/

namespace Banking

/-- Both environments know each name as the text binds it. The split also knows hidden registers,
under names that the text does not bind. -/
structure Resolves (hidden : List String) (names : Names) (types : Typing.Env) (env : Env) : Prop where
  checker : ∀ name, types.get? name = (names name).map Binder.checked
  split : ∀ name, env.get? name =
    ((names name).map (Binder.banked name)).or (if name ∈ hidden then some .scalar else none)
  unbound : ∀ name ∈ hidden, names name = none

namespace Resolves

variable {hidden : List String} {names : Names} {types types' : Typing.Env} {env : Env}

theorem empty : Resolves [] (fun _ => none) {} {} :=
  ⟨fun _ => rfl, fun _ => rfl, nofun⟩

theorem enter (resolves : Resolves hidden names types env) :
    Resolves hidden names types.enter env.enter :=
  ⟨resolves.checker, resolves.split, resolves.unbound⟩

theorem bind (resolves : Resolves hidden names types env) {name : String} (visible : name ∉ hidden)
    (binder : Binder) : Resolves hidden (names.bind name binder) (types.rebind name binder.checked)
      (env.rebind name (binder.banked name)) := by
  refine ⟨fun other => ?_, fun other => ?_, fun other register => ?_⟩
  · rw [Scope.get?_rebind, resolves.checker, Names.bind]
    split <;> rfl
  · rw [Scope.get?_rebind, resolves.split, Names.bind]
    split
    · next same => rw [same]; rfl
    · rfl
  · rw [Names.bind, if_neg]
    · exact resolves.unbound other register
    · rintro rfl
      exact visible register

/-- The checker binds a name that is new in its scope. -/
theorem declare (resolves : Resolves hidden names types env) {name : String} (visible : name ∉ hidden)
    (binder : Binder) (fresh : types.bind? name binder.checked = some types') :
    Resolves hidden (names.bind name binder) types' (env.rebind name (binder.banked name)) := by
  rw [Scope.eq_rebind_of_bind? fresh]
  exact resolves.bind visible binder

end Resolves

mutual

theorem Resolves.after {hidden : List String} {names : Names} {ctx : Typing.Context}
    {types types' : Typing.Env} {env : Env} {cmd : TypedCommand}
    (resolves : Resolves hidden names types env) (apart : ∀ name ∈ hidden, name ∉ binders cmd) :
    Typing.CheckedCommand ctx types cmd types' →
      Resolves hidden (namesAfter names cmd) types' (after env cmd)
  | .decl _ fresh =>
    resolves.declare (fun register => apart _ register List.mem_cons_self) (.storage _) fresh
  | .define _ _ _ fresh =>
    resolves.declare (fun register => apart _ register List.mem_cons_self) (.value _) fresh
  | .seq checked => resolves.afterSeq apart checked
  | .branch .. | .loop .. | .update .. | .reduce .. | .call .. | .eval .. | .advance .. | .skip =>
    resolves

theorem Resolves.afterSeq {hidden : List String} {names : Names} {ctx : Typing.Context}
    {types types' : Typing.Env} {env : Env} {cmds : List TypedCommand}
    (resolves : Resolves hidden names types env) (apart : ∀ name ∈ hidden, name ∉ bindersOfSeq cmds) :
    Typing.CheckedSeq ctx types cmds types' →
      Resolves hidden (namesAfterSeq names cmds) types' (afterSeq env cmds)
  | .nil => resolves
  | .cons first rest =>
    (resolves.after (fun name register bound => apart name register (List.mem_append_left _ bound))
      first).afterSeq
      (fun name register bound => apart name register (List.mem_append_right _ bound)) rest

end

theorem Resolves.declared {names : Names} {types types' : Typing.Env} {env : Env} {ds : List Decl}
    (resolves : Resolves [] names types env) (checked : Typing.CheckedDecls types ds types') :
    Resolves [] (namesOf names ds) types' (declared env ds) := by
  induction checked generalizing names env with
  | nil => exact resolves
  | @cons _ _ _ d _ _ fresh _ ih => exact ih (resolves.declare List.not_mem_nil (.storage d.ty) fresh)

/-- A new hidden register. -/
theorem Resolves.hide {hidden : List String} {names : Names} {types : Typing.Env} {env : Env}
    (resolves : Resolves hidden names types env) {register : String}
    (free : register ∉ env.names) :
    Resolves (register :: hidden) names types (env.rebind register .scalar) := by
  have unbound : names register = none := by
    have absent := Scope.get?_eq_none_of_not_mem free
    rw [resolves.split, Option.or_eq_none_iff, Option.map_eq_none_iff] at absent
    exact absent.1
  refine ⟨resolves.checker, fun name => ?_, ?_⟩
  · rw [Scope.get?_rebind, resolves.split]
    by_cases same : name = register
    · simp [same, unbound]
    · simp [same]
  · rintro name (_ | ⟨_, register⟩)
    · exact unbound
    · exact resolves.unbound name register

theorem Resolves.congr {hidden others : List String} {names : Names} {types : Typing.Env} {env : Env}
    (resolves : Resolves hidden names types env) (same : ∀ name, name ∈ others ↔ name ∈ hidden) :
    Resolves others names types env := by
  refine ⟨resolves.checker, fun name => ?_, fun name register => ?_⟩
  · rw [resolves.split]
    simp only [same]
  · exact resolves.unbound name ((same name).mp register)

/-- Setting up rotations adds hidden registers under names that are not taken. -/
theorem Resolves.setUpRotations {hidden : List String} {names : Names} {types : Typing.Env} {env : Env}
    (resolves : Resolves hidden names types env) {statements : Statements} {body : TypedCommand}
    {taken : List String} {arrays : List (String × Nat)} {prologue : Prologue}
    (success : (setUpRotations statements body env taken arrays).result = .ok prologue) :
    Resolves (prologue.rotations.map (·.2.register) ++ hidden) names types prologue.env ∧
      ∀ name ∈ prologue.rotations.map (·.2.register), name ∉ taken := by
  induction arrays generalizing hidden env taken prologue with
  | nil =>
    cases success
    exact ⟨resolves, nofun⟩
  | cons entry arrays ih =>
    obtain ⟨array, pos⟩ := entry
    obtain ⟨layout, banks, _, _, ⟨_, rest⟩ | ⟨register, ty, inner, named, _, _, rest, rfl⟩⟩ :=
      setUpRotations_cons success
    · exact ih resolves rest
    · have free := not_mem_of_unboundName named
      obtain ⟨resolved, apart⟩ := ih (resolves.hide free.1) rest
      refine ⟨resolved.congr fun name => ?_, List.forall_mem_cons.mpr ⟨free.2, ?_⟩⟩
      · simp only [List.map_cons, List.mem_append, List.mem_cons]
        tauto
      · exact fun name member inside => apart name member (List.mem_cons_of_mem _ inside)

/-! ### One step -/

/-- The three passes meet one command: the checker its source, and the split its typed form. -/
structure Meets (hidden : List String) (ctx : Typing.Context) (types : Typing.Env)
    (source : SourceCommand) (names : Names) (env : Env) (cmd : TypedCommand) : Prop where
  formed : Typing.WellFormed types
  checked : ∃ types', Typing.checkCommand ctx types source = .ok (cmd, types')
  resolves : Resolves hidden names types env
  apart : ∀ name ∈ hidden, name ∉ binders cmd

theorem toOption_eq_some_iff {ε α : Type} {x : Except ε α} {a : α} :
    x.toOption = some a ↔ x = .ok a := by
  cases x <;> simp [Except.toOption]

theorem bindersOfSeq_append (cmds others : List TypedCommand) :
    bindersOfSeq (cmds ++ others) = bindersOfSeq cmds ++ bindersOfSeq others := by
  induction cmds with
  | nil => rfl
  | cons cmd cmds ih => rw [List.cons_append, bindersOfSeq, ih, bindersOfSeq, List.append_assoc]

theorem bindersOfSeq_item {cmds : List TypedCommand} {k : Nat} {cmd : TypedCommand}
    (found : cmds[k]? = some cmd) :
    bindersOfSeq (cmds.take k) ⊆ bindersOfSeq cmds ∧ binders cmd ⊆ bindersOfSeq cmds := by
  obtain ⟨lt, rfl⟩ := List.getElem?_eq_some_iff.mp found
  have parts : bindersOfSeq cmds =
      bindersOfSeq (cmds.take k) ++ (binders cmds[k] ++ bindersOfSeq (cmds.drop (k + 1))) := by
    rw [← bindersOfSeq, List.getElem_cons_drop, ← bindersOfSeq_append, List.take_append_drop]
  rw [parts]
  exact ⟨List.subset_append_left _ _,
    List.subset_append_of_subset_right _ (List.subset_append_left _ _)⟩

/-- Wherever the split goes from a command, the checker went too, and both resolve names there as the
text does. -/
theorem Meets.descend {hidden : List String} {tctx : Typing.Context} {types : Typing.Env}
    {source : SourceCommand} {names : Names} {ctx : Context} {env env' : Env}
    {cmd cmd' : TypedCommand} {step : Descent} (meets : Meets hidden tctx types source names env cmd)
    (went : Pass.Descends (splitting ctx) env env' cmd step cmd') :
    ∃ tctx' types' source' names', Pass.Descends naming names names' cmd step cmd' ∧
      Pass.Descends Typing.checking (tctx, types) (tctx', types') source step source' ∧
      Meets hidden tctx' types' source' names' env' cmd' := by
  obtain ⟨formed, ⟨types', checked⟩, resolves, apart⟩ := meets
  have annotates := Typing.annotates_checkCommand source checked
  cases went with
  | @item _ k cmds _ behind found =>
    cases annotates with
    | seq _ _ =>
      simp only [Typing.checkCommand, bind_ok_iff, pure_ok_iff, Prod.mk.injEq, Command.seq.injEq,
        true_and] at checked
      obtain ⟨⟨_, _⟩, seqChecked, rfl, rfl⟩ := checked
      obtain ⟨mid, written, next, before, among, itemChecked⟩ := Typing.checkSeq_item seqChecked found
      obtain ⟨earlier, later⟩ := bindersOfSeq_item found
      obtain ⟨⟨banked, _⟩, split, rfl⟩ := Option.map_eq_some_iff.mp behind
      obtain ⟨_, rfl⟩ := bankSeq_ok _ (toOption_eq_some_iff.mp split)
      obtain ⟨seqTyped, formedMid⟩ := Typing.checkSeq_ok formed _ before
      refine ⟨tctx, mid, written, _, .item rfl found, .item ?_ among, formedMid, ⟨_, itemChecked⟩, ?_, ?_⟩
      · simp [Typing.checking, before, Except.toOption]
      · exact resolves.afterSeq (fun name register bound => apart name register (earlier bound)) seqTyped
      · exact fun name register bound => apart name register (later bound)
  | onTrue met =>
    obtain ⟨_, _, rfl⟩ := Option.map_eq_some_iff.mp met
    cases annotates with
    | branch _ _ _ _ =>
      obtain ⟨_, _, _, _, _, _, _, yes, _, same, _⟩ := Typing.checkCommand_branch checked
      cases same
      refine ⟨tctx, types.enter, _, names, .onTrue rfl, .onTrue rfl, formed.enter, ⟨_, yes⟩,
        resolves.enter, ?_⟩
      exact fun name register bound => apart name register (List.mem_append_left _ bound)
  | onFalse met =>
    simp only [splitting, bind, Option.bind_eq_some_iff, pure, Option.some.injEq] at met
    obtain ⟨_, _, _, _, rfl⟩ := met
    cases annotates with
    | branch _ _ _ second =>
      cases second with
      | some _ =>
        obtain ⟨_, _, _, _, _, _, _, _, no, same, _⟩ := Typing.checkCommand_branch checked
        cases same
        simp only [Typing.checkElse, bind_ok_iff, pure_ok_iff, Option.some.injEq] at no
        obtain ⟨⟨_, _⟩, no, rfl⟩ := no
        refine ⟨tctx, types.enter, _, names, .onFalse rfl, .onFalse rfl, formed.enter, ⟨_, no⟩,
          resolves.enter, ?_⟩
        exact fun name register bound => apart name register (List.mem_append_right _ bound)
  | @round _ header _ met =>
    obtain ⟨last, ends, rfl⟩ := Option.map_eq_some_iff.mp met
    obtain ⟨_, rfl⟩ := Word.sub_eq_ok_iff.mp (toOption_eq_some_iff.mp ends)
    cases annotates with
    | loop _ _ _ =>
      simp only [Typing.checkCommand, bind_ok_iff, pure_ok_iff, Prod.mk.injEq, Command.loop.injEq,
        true_and] at checked
      obtain ⟨_, range, ⟨_, _⟩, inner, rfl, rfl⟩ := checked
      refine ⟨_, _, _, _, .round rfl, .round rfl, (Typing.checkHeader_ok range).wellFormed formed,
        ⟨_, inner⟩, ?_, ?_⟩
      · exact resolves.enter.bind (fun register => apart _ register List.mem_cons_self) (.counter header)
      · exact fun name register bound => apart name register (List.mem_cons_of_mem _ bound)

/-- Along every path on which the split gets somewhere. -/
theorem Meets.visit {hidden : List String} {tctx : Typing.Context} {types : Typing.Env}
    {source : SourceCommand} {names : Names} {ctx : Context} {env env' : Env}
    {cmd cmd' : TypedCommand} {path : List Descent}
    (meets : Meets hidden tctx types source names env cmd)
    (reached : (splitting ctx).visit env cmd path = some (env', cmd')) :
    ∃ tctx' types' source' names', naming.visit names cmd path = some (names', cmd') ∧
      Typing.checking.visit (tctx, types) source path = some ((tctx', types'), source') ∧
      Meets hidden tctx' types' source' names' env' cmd' := by
  induction path generalizing tctx types source names env cmd with
  | nil =>
    cases reached
    exact ⟨tctx, types, source, names, rfl, rfl, meets⟩
  | cons step path ih =>
    rw [Pass.visit] at reached
    obtain ⟨⟨mid, inner⟩, went, reached⟩ := Option.bind_eq_some_iff.mp reached
    obtain ⟨_, _, _, _, named, checked, met⟩ := meets.descend (Pass.descend_eq_some_iff.mp went)
    obtain ⟨tctx', types', source', names', namedRest, checkedRest, met⟩ := ih met reached
    exact ⟨tctx', types', source', names', Pass.visit_cons_of named namedRest,
      Pass.visit_cons_of checked checkedRest, met⟩

/-! ### Programs -/

/-- From the start of a component body on. -/
theorem Meets.reachedIn {statements : Statements} {tctx : Typing.Context} {types : Typing.Env}
    {source : SourceCommand} {names : Names} {env : Env} {body : TypedCommand}
    {path : List Descent} {r : Reached} (formed : Typing.WellFormed types) {after : Typing.Env}
    (checked : Typing.checkCommand tctx types source = .ok (body, after))
    (resolves : Resolves [] names types env) (reached : reachedIn statements env body path = some r) :
    ∃ tctx' types' source' names', naming.visit names body path = some (names', r.cmd) ∧
      Typing.checking.visit (tctx, types) source path = some ((tctx', types'), source') ∧
      Meets r.hidden tctx' types' source' names' r.env r.cmd := by
  simp only [Banking.reachedIn, bind, Option.bind_eq_some_iff, toOption_eq_some_iff, pure,
    Option.some.injEq] at reached
  obtain ⟨prologue, setUp, ⟨last, cmd⟩, visited, rfl⟩ := reached
  obtain ⟨resolved, apart⟩ := resolves.setUpRotations setUp
  rw [List.append_nil] at resolved
  exact Meets.visit ⟨formed, ⟨_, checked⟩, resolved, apart⟩ visited

theorem meets_of_reached {p : SourceProgram} {typed : TypedProgram} {statements : Statements}
    (checked : p.check.result = .ok typed) {owner : Owner} {path : List Descent} {r : Reached}
    (reached : typed.reached statements owner path = some r) :
    ∃ tctx types source names, typed.namesAt owner path = some (names, r.cmd) ∧
      p.checkedAt owner path = some ((tctx, types), source) ∧
      Meets r.hidden tctx types source names r.env r.cmd := by
  simp only [Program.check, Outcome.result_bind, Outcome.result_lift, Outcome.result_tell,
    Outcome.result_pure, bind_ok_iff, Except.ok.injEq] at checked
  obtain ⟨⟨defs, funcs⟩, functions, types, decls, body, bodyChecked, _, _, rfl⟩ := checked
  cases owner with
  | function k =>
    simp only [Program.reached, bind, Option.bind_eq_some_iff, toOption_eq_some_iff] at reached
    obtain ⟨_, _, f, found, ⟨_, env⟩, storage, reached⟩ := reached
    obtain ⟨earlier, source, before, among, checked⟩ := Typing.checkFunctions_item functions found
    obtain ⟨types, body, _, _, params, checkedBody, rfl⟩ := Typing.checkFunction_body checked
    obtain ⟨declared, formed, _⟩ := Typing.checkParams_ok Typing.WellFormed.empty params
    have resolves := Resolves.empty.declared declared
    rw [← bankDecls_env storage] at resolves
    obtain ⟨tctx, types', source', names, named, visited, meets⟩ :=
      Meets.reachedIn formed checkedBody resolves reached
    refine ⟨tctx, types', source', names, ?_, ?_, meets⟩
    · simp only [Program.namesAt, found, bind, Option.bind, named]
    · simp only [Program.checkedAt, before, among, params, Except.toOption, bind, Option.bind, visited]
  | root =>
    simp only [Program.reached, bind, Option.bind_eq_some_iff, toOption_eq_some_iff] at reached
    obtain ⟨_, _, ⟨_, env⟩, storage, _, _, cmd, given, reached⟩ := reached
    subst given
    cases source : p.body with
    | none =>
      rw [source] at bodyChecked
      cases bodyChecked
    | some written =>
      simp only [source, Typing.checkElse, bind_ok_iff, pure_ok_iff, Option.some.injEq] at bodyChecked
      obtain ⟨⟨_, _⟩, checked, rfl⟩ := bodyChecked
      obtain ⟨declared, formed⟩ := Typing.checkDecls_ok Typing.WellFormed.empty decls
      have resolves := Resolves.empty.declared declared
      rw [← bankDecls_env storage] at resolves
      obtain ⟨tctx, types', source', names, named, visited, meets⟩ :=
        Meets.reachedIn formed checked resolves reached
      refine ⟨tctx, types', source', names, ?_, ?_, meets⟩
      · simp only [Program.namesAt, bind, Option.bind, named]
      · simp only [Program.checkedAt, functions, decls, source, Except.toOption, bind, Option.bind,
          visited]

/-! ### Layouts and intervals -/

section

variable {hidden : List String} {names : Names} {types types' : Typing.Env} {env : Env}
  {tctx : Typing.Context}

theorem Resolves.binder {name : String} {binding : Typing.Binding}
    (resolves : Resolves hidden names types env) (visible : types.get? name = some binding) :
    ∃ binder, names name = some binder ∧ binder.checked = binding ∧
      env.get? name = some (binder.banked name) := by
  rw [resolves.checker] at visible
  obtain ⟨binder, bound, same⟩ := Option.map_eq_some_iff.mp visible
  exact ⟨binder, bound, same, by rw [resolves.split, bound]; rfl⟩

/-- An array that the checker sees has its layout. -/
theorem Resolves.layoutOf {array : String} {elem : Ty} {dims : List Dim}
    (resolves : Resolves hidden names types env) (visible : types.get? array = some (.array elem dims)) :
    layoutOf env array = .ok ⟨array, elem, dims⟩ := by
  obtain ⟨binder, _, same, found⟩ := resolves.binder visible
  have storage : binder = .storage (.array elem dims) := by
    cases binder with
    | storage ty => cases ty <;> cases same; rfl
    | value ty => cases same
    | counter header => cases same
  rw [Banking.layoutOf, found, storage]
  rfl

/-- A range is that of the loop which binds the name innermost. -/
theorem Resolves.interval {ty : Ty} {name : String} {range : Interval}
    (resolves : Resolves hidden names types env)
    (taken : Interval.ofIndex? env (.var ty name) = some range) :
    ∃ header, names name = some (.counter header) ∧ range = ⟨header.start, header.stop - 1⟩ := by
  rw [Interval.ofIndex?] at taken
  split at taken
  · next range' found =>
    cases taken
    rw [resolves.split] at found
    cases bound : names name with
    | none =>
      rw [bound] at found
      simp at found
    | some binder =>
      rw [bound] at found
      cases binder with
      | storage ty => cases ty <;> cases found
      | value ty => cases found
      | counter header =>
        cases found
        exact ⟨header, rfl, rfl⟩
  · cases taken

mutual

/-- Every array that a checked expression names is visible. -/
theorem array_of_mem_arraysOf {array : String} : {e : TypedExpr} →
    Typing.CheckedExpr tctx types e → array ∈ arraysOf e →
      ∃ elem dims, types.get? array = some (.array elem dims)
  | _, .binop left right _, member => by
    rcases List.mem_append.mp member with inLeft | inRight
    · exact array_of_mem_arraysOf left inLeft
    · exact array_of_mem_arraysOf right inRight
  | _, .access bound indices, member => by
    rcases List.mem_cons.mp member with rfl | inside
    · exact ⟨_, _, bound⟩
    · exact array_of_mem_arraysOfAll indices inside

theorem array_of_mem_arraysOfAll {array : String} : {dims : List Dim} → {idxs : List TypedExpr} →
    Typing.CheckedIndices tctx types dims idxs → array ∈ arraysOfAll idxs →
      ∃ elem dims, types.get? array = some (.array elem dims)
  | _, _, .cons checked _ _ rest, member => by
    rcases List.mem_append.mp member with first | later
    · exact array_of_mem_arraysOf checked first
    · exact array_of_mem_arraysOfAll rest later

end

theorem array_of_mem_arguments {args : List String} {params : List Decl}
    (checked : Typing.CheckedArguments types args params) :
    ∀ array ∈ args, ∃ elem dims, types.get? array = some (.array elem dims) := by
  induction checked with
  | nil => exact nofun
  | cons bound _ _ ih => exact List.forall_mem_cons.mpr ⟨⟨_, _, bound⟩, ih⟩

/-- Any failure but a missing layout. -/
def Grounded (f : Failure) : Prop := ∀ array, f ≠ .error (.internal (.noLayout array))

theorem lenient_grounded : Lenient (fun _ => True) Grounded :=
  ⟨fun _ _ => nofun, nofun, nofun, nofun⟩

theorem Resolves.found (resolves : Resolves hidden names types env) {arrays : List String}
    (visible : ∀ array ∈ arrays, ∃ elem dims, types.get? array = some (.array elem dims)) :
    ∀ array ∈ arrays, Fails Grounded (Banking.layoutOf env array) := by
  intro array member
  obtain ⟨elem, dims, bound⟩ := visible array member
  rw [resolves.layoutOf bound]
  exact .pure _

theorem Resolves.read (resolves : Resolves hidden names types env) {e : TypedExpr}
    (checked : Typing.CheckedExpr tctx types e) (ctx : Context) (pos : Nat) :
    Fails Grounded (read ctx env pos e).result :=
  fails_read lenient_grounded trivial env e
    (resolves.found fun _ member => array_of_mem_arraysOf checked member)

theorem Resolves.write (resolves : Resolves hidden names types env) {target : TypedExpr}
    (place : Typing.CheckedTarget tctx types target) (ctx : Context) (pos : Nat) :
    Fails Grounded (write ctx env pos target).result := by
  refine fails_write lenient_grounded trivial env (resolves.found fun array member => ?_)
  cases place with
  | register _ => cases member
  | element checked => exact array_of_mem_arraysOf checked member

/-- A checked command finds the layouts that it asks for. -/
theorem StopsAt.grounded {ctx : Context} {cmd : TypedCommand} {f : Failure}
    (stops : StopsAt ctx env cmd f) (resolves : Resolves hidden names types env)
    (checked : Typing.CheckedCommand tctx types cmd types') : Grounded f := by
  cases stops with
  | decl _ _ => exact nofun
  | loop _ => exact nofun
  | advance _ _ => exact nofun
  | define failed =>
    cases checked with
    | define value _ _ _ => exact resolves.read value _ _ _ failed
  | branch failed =>
    cases checked with
    | branch value _ _ _ => exact resolves.read value _ _ _ failed
  | updateTarget failed =>
    cases checked with
    | update place _ _ => exact resolves.write place _ _ _ failed
  | updateValue failed =>
    cases checked with
    | update _ value _ => exact resolves.read value _ _ _ failed
  | reduceTarget failed =>
    cases checked with
    | reduce place _ _ _ => exact resolves.write place _ _ _ failed
  | reduceValue failed =>
    cases checked with
    | reduce _ _ value _ => exact resolves.read value _ _ _ failed
  | eval failed =>
    cases checked with
    | call _ given =>
      have found := resolves.found (array_of_mem_arguments given)
      exact fails_read lenient_grounded trivial _ (.app .void _ _) found _ failed
    | eval value => exact resolves.read value _ _ _ failed

end

/-- At every command that the split of a checked program reaches, the checker was there too, and both
resolve names as the text does. A range is taken only from the loop that binds the name innermost, and
no array lacks its layout. -/
theorem toBanks_resolves {p : SourceProgram} {typed : TypedProgram}
    (checked : p.check.result = .ok typed) (statements : Statements) :
    (∀ owner path r, typed.reached statements owner path = some r →
      ∃ tctx types source names, typed.namesAt owner path = some (names, r.cmd) ∧
        p.checkedAt owner path = some ((tctx, types), source) ∧ Typing.Annotates source r.cmd ∧
        Resolves r.hidden names types r.env ∧
        ∀ ty name range, Interval.ofIndex? r.env (.var ty name) = some range →
          ∃ header, names name = some (.counter header) ∧ range = ⟨header.start, header.stop - 1⟩) ∧
      ∀ array, (typed.toBanks statements).result ≠ .error (.error (.internal (.noLayout array))) := by
  constructor
  · intro owner path r reached
    obtain ⟨tctx, types, source, names, named, visited, meets⟩ := meets_of_reached checked reached
    obtain ⟨_, found⟩ := meets.checked
    exact ⟨tctx, types, source, names, named, visited, Typing.annotates_checkCommand _ found,
      meets.resolves, fun _ _ _ taken => meets.resolves.interval taken⟩
  · intro array failed
    have grounded : Fails Grounded (typed.toBanks statements).result := by
      refine Program.fails_of_reached lenient_grounded fun owner path r reached ctx f stops => ?_
      obtain ⟨_, _, _, _, _, _, meets⟩ := meets_of_reached checked reached
      obtain ⟨_, found⟩ := meets.checked
      exact stops.grounded meets.resolves (Typing.checkCommand_ok meets.formed _ found).1
    exact grounded _ failed array rfl

/-- Clears an array in a function, then reads it in a loop that counts with the iterator of the loop
around it, and rotates it. -/
def recounting : SourceProgram where
  decls := [⟨0, "a", .array (.ubit 8) [⟨4, 2⟩]⟩]
  defs := [⟨1, "clear", [⟨2, "m", .array (.ubit 8) [⟨4, 2⟩]⟩],
    .loop 3 ⟨"i", 0, 2, none⟩ (.update 4 (.access "m" [.var "i"]) (.int 0))⟩]
  body := some (.seq 5 [.eval 6 (.app "clear" [.var "a"]),
    .loop 7 ⟨"i", 0, 4, none⟩ (.seq 8 [
      .loop 9 ⟨"i", 2, 4, none⟩ (.define 10 "x" none (.access "a" [.var "i"])), .advance 11 "a"])])

/-- In the inner loop the split takes the range of the inner iterator, and it knows one hidden
register. -/
theorem toBanks_resolves_recounting : ∃ typed r, recounting.check.result = .ok typed ∧
    typed.reached (.ofProgram recounting) .root [.item 1, .round, .item 0, .round] = some r ∧
    (r.hidden, Interval.ofIndex? r.env (.var .bool "i")) = (["a_bank"], some ⟨2, 3⟩) ∧
    (∃ tctx types source names,
      typed.namesAt .root [.item 1, .round, .item 0, .round] = some (names, r.cmd) ∧
      recounting.checkedAt .root [.item 1, .round, .item 0, .round] = some ((tctx, types), source) ∧
      Typing.Annotates source r.cmd ∧ Resolves r.hidden names types r.env) ∧
    ∀ array, (typed.toBanks (.ofProgram recounting)).result ≠
      .error (.error (.internal (.noLayout array))) := by
  have computed : ∃ typed, recounting.check.result = .ok typed ∧
      (typed.reached (.ofProgram recounting) .root [.item 1, .round, .item 0, .round]).map
        (fun r => (r.hidden, Interval.ofIndex? r.env (.var .bool "i"))) =
        some (["a_bank"], some ⟨2, 3⟩) := exists_ok_of_map (by decide +kernel)
  obtain ⟨typed, checked, found⟩ := computed
  obtain ⟨r, reached, known⟩ := Option.map_eq_some_iff.mp found
  obtain ⟨resolved, grounded⟩ := toBanks_resolves checked (.ofProgram recounting)
  obtain ⟨tctx, types, source, names, named, visited, annotates, resolves, _⟩ :=
    resolved _ _ r reached
  exact ⟨typed, r, checked, reached, known,
    ⟨tctx, types, source, names, named, visited, annotates, resolves⟩, grounded⟩

end Banking

end BankedLoops
