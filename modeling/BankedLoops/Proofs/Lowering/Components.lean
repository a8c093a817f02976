import BankedLoops.Compile
import BankedLoops.Proofs.Failures
import BankedLoops.Proofs.Lowering.Wired

/-!
# What a component is wired to

A component is built in three steps: its storage gets cells, the arrays that it advances get a
register each, and its body is wired. `compile_wired` is the main result: in a program none of whose
names looks like a bank, every component is wired like this, so every name leads to the cells of the
declaration that the checker finds for it, and no two declarations share a cell.
-/

namespace BankedLoops

namespace Lowering

/-! ### Storage -/

/-- Storage of a component gets cells of its own; those of an array go by the names of its
memories. -/
inductive WiredDecls : Stage → List Decl → Stage → Prop where
  | nil {stage : Stage} : WiredDecls stage [] stage
  | array {stage later : Stage} {d : Decl} {ds : List Decl} {elem : Ty} {dims : List Dim}
      {memories : List Memory} {w : Workspace} (isArray : d.ty = .array elem dims)
      (named : memories.map (·.cell) =
        (List.range (Banking.bankTotal dims)).map (Layout.memory ⟨d.name, elem, dims⟩))
      (allocated : Allocates stage.space (memories.map (·.cell)) w)
      (rest : WiredDecls (stage.bind d.name (.array elem dims) (.banks memories) w) ds later) :
      WiredDecls stage (d :: ds) later
  | register {stage later : Stage} {d : Decl} {ds : List Decl} {cell : String} {w : Workspace}
      (scalar : d.ty.isArray = false) (allocated : Allocates stage.space [cell] w)
      (rest : WiredDecls
        (stage.bind d.name (.scalar d.ty) (.plain (.register cell d.ty.width)) w) ds later) :
      WiredDecls stage (d :: ds) later

theorem Housing.named {exposure : Exposure} {l : Layout} {count : Nat} {memories : List Memory}
    {low low' : Env} {w w' : Workspace}
    (housing : Housing exposure l count memories low w low' w') (visible : exposure ≠ .hidden) :
    memories.map (·.cell) = (List.range count).map l.memory := by
  apply List.ext_getElem?
  intro k
  rw [List.getElem?_map, List.getElem?_map]
  by_cases inside : k < count
  · have below : k < memories.length := by
      rw [housing.length]
      exact inside
    have stored : memories[k]? = some memories[k] := List.getElem?_eq_getElem below
    rw [stored, List.getElem?_range inside]
    exact congrArg some (housing.visible visible k _ stored).1
  · rw [List.getElem?_eq_none (by rw [housing.length]; omega),
      List.getElem?_eq_none (by rw [List.length_range]; omega)]
    rfl

section

variable {arrays names : List String} {rotations : List (String × Banking.Rotation)}
  {rotors : List (String × TypedExpr)} {s : Setting} {exposure : Exposure}

/-- The storage over banks is wired to the declarations over arrays. -/
theorem declareAll_wired (clean : Banking.BankNameClean arrays names)
    (visible : exposure ≠ .hidden) {ds banked : List Decl} {env env' : Banking.Env}
    (split : Banking.bankDecls env ds = .ok (banked, env')) {stage : Stage} {types : Typing.Env}
    (checked : Typing.CheckedDecls stage.scope.types ds types)
    (bound : ds.map (·.name) ⊆ names)
    (array : (ds.filter (·.ty.isArray)).map (·.name) ⊆ arrays) {low low' : Env}
    (built : Built arrays names rotations rotors stage low) {w : Workspace}
    (ran : (declareAll s exposure low banked).run stage.space = .ok (low', w)) :
    ∃ later, WiredDecls stage ds later ∧
      Continues arrays names rotations rotors stage later types low' w := by
  replace split := Banking.bankDecls_ok split
  induction split generalizing stage low with
  | nil =>
    cases checked
    cases ran
    exact ⟨stage, .nil, built.continues (.refl _)⟩
  | array split _ ih =>
    obtain ⟨fresh, others⟩ := List.cons_subset.mp bound
    obtain ⟨member, otherArrays⟩ := List.cons_subset.mp array
    cases checked with
    | cons _ freshBind checked =>
      obtain rfl := Scope.eq_rebind_of_bind? freshBind
      rw [declareAll_append] at ran
      obtain ⟨next, v, declared, ran⟩ := run_bind_ok_iff.mp ran
      obtain ⟨memories, housing⟩ := declareAll_split split declared
      have continued := housing.built built clean fresh member
      obtain ⟨later, wired, continues⟩ := ih (by exact checked) others otherArrays continued ran
      exact ⟨later, .array rfl (housing.named visible) housing.allocated wired, continues.space,
        continues.types, (List.prefix_append _ _).trans continues.ledger, continues.built⟩
  | @scalar _ _ d _ _ found _ ih =>
    have scalar := Banking.isArray_of_ofTy?_none found
    obtain ⟨fresh, others⟩ := List.cons_subset.mp bound
    rw [List.filter_cons_of_neg (by simp [scalar])] at array
    cases checked with
    | cons _ freshBind checked =>
      obtain rfl := Scope.eq_rebind_of_bind? freshBind
      obtain ⟨next, v, declared, ran⟩ := run_bind_ok_iff.mp ran
      obtain ⟨c, unused, cells, used, rfl, _⟩ := declare_ok declared
      obtain ⟨binding, store⟩ := ofTy_scalar c.name scalar
      have allocated := Allocates.of_cells cells
      rw [binding] at checked
      rw [store] at ran
      have continued := (built.bindRegister clean fresh d.ty (.of_cell unused cells used) unused
        allocated.mem).built
      obtain ⟨later, wired, continues⟩ := ih (by exact checked) others array continued ran
      exact ⟨later, .register scalar allocated wired, continues.space, continues.types,
        (List.prefix_append _ _).trans continues.ledger, continues.built⟩

end

/-! ### Rotations -/

/-- Every array that is advanced gets a register, which begins at zero. -/
inductive SetUp (s : Setting) :
    Stage → List (String × TypedExpr) → List Control → Stage → Prop where
  | nil {stage : Stage} : SetUp s stage [] [] stage
  | cons {stage later : Stage} {array cell : String} {ty : Ty} {pos : Nat} {control : Control}
      {rotors : List (String × TypedExpr)} {controls : List Control} {v w : Workspace}
      (allocated : Allocates stage.space [cell] v)
      (built : (assignRegister s (cellEnv stage.ledger) pos cell ty.width "let" (.lit 0)).run v =
        .ok (control, w))
      (rest : SetUp s ⟨stage.scope, stage.ledger ++ [.plain (.register cell ty.width)], w⟩ rotors
        controls later) :
      SetUp s stage ((array, .var ty cell) :: rotors) (control :: controls) later

section

variable {arrays names : List String} {rotations : List (String × Banking.Rotation)}
  {rotors : List (String × TypedExpr)} {s : Setting}

/-- A register that the source does not see. -/
theorem Built.addTurn {stage : Stage} {low : Env}
    (built : Built arrays names rotations rotors stage low) {array : String}
    {rotation : Banking.Rotation} (hidden : rotation.register ∉ names)
    (notBank : ∀ other k, rotation.register ≠ Layout.bankName other k)
    (distinct : ∀ turning ∈ rotations, turning.2.register ≠ rotation.register) {ty : Ty}
    (typed : rotation.ty = .ok ty) {cell : String} {w : Workspace} (grows : Grows stage.space w)
    (unused : cell ∉ stage.space.names.used) (added : cell ∈ w.cellNames) :
    Built arrays names (rotations ++ [(array, rotation)]) (rotors ++ [(array, .var ty cell)])
      ⟨stage.scope, stage.ledger ++ [.plain (.register cell ty.width)], w⟩
      (low.rebind rotation.register (.register cell ty.width)) := by
  have cells : cellsOf [.plain (.register cell ty.width)] = [cell] := rfl
  obtain ⟨nodup, recorded⟩ :=
    @Built.recorded_append _ _ _ _ _ _ built (.plain (.register cell ty.width)) w grows
      (by rw [cells]; exact List.nodup_singleton _)
      (by rw [cells]; intro other member; rw [List.mem_singleton.mp member]; exact unused)
      (by rw [cells]; intro other member; rw [List.mem_singleton.mp member]; exact added)
  refine ⟨(built.houses.extend _).hide hidden notBank _, ?_, nodup, recorded,
    grows.sound built.sound⟩
  refine List.rel_append (built.turns.congr _ ?_) (.cons ⟨rfl, ?_⟩ .nil)
  · intro turning member _ _
    rw [Scope.get?_rebind, if_neg (distinct turning member)]
  · refine ⟨hidden, notBank, ty, cell, ty.width, typed, rfl, Scope.get?_rebind_self .., ?_⟩
    rw [storesOf, List.flatMap_append]
    exact List.mem_append_right _ List.mem_cons_self

theorem setUp_wired {statements : Statements} {body : TypedCommand} {env : Banking.Env}
    {taken : List String} {advanced : List (String × Nat)} {prologue : Banking.Prologue}
    (success : (Banking.setUpRotations statements body env taken advanced).result = .ok prologue)
    (accounted : Banking.Accounted names rotations env taken) {stage : Stage}
    {low low' : Env} (built : Built arrays names rotations rotors stage low)
    {controls : List Control} {w : Workspace}
    (ran : (lowerSeq s low prologue.setup).run stage.space = .ok ((controls, low'), w)) :
    ∃ added later, SetUp s stage added controls later ∧ later.space = w ∧
      later.scope = stage.scope ∧
      Built arrays names (rotations ++ prologue.rotations) (rotors ++ added) later low' := by
  induction advanced generalizing env taken rotations rotors stage low controls prologue with
  | nil =>
    cases success
    cases ran
    refine ⟨[], stage, .nil, rfl, rfl, ?_⟩
    rw [List.append_nil, List.append_nil]
    exact built
  | cons entry advanced ih =>
    obtain ⟨array, pos⟩ := entry
    obtain ⟨layout, banks, _, _, ⟨_, rest⟩ | ⟨register, ty, inner, named, _, typed, rest, rfl⟩⟩ :=
      Banking.setUpRotations_cons success
    · exact ih rest accounted built ran
    · dsimp only at ran
      obtain ⟨_, _, v, others, first, ranRest, rfl⟩ := lowerSeq_cons_ok ran
      obtain ⟨cell, u, registered, assigned, rfl⟩ := lowerDefine_ok first
      obtain ⟨unused, cells, used⟩ := addRegister_ok registered
      have allocated := Allocates.of_cells cells
      have same : assignRegister s low pos cell ty.width "let" (.lit 0) =
          assignRegister s (cellEnv stage.ledger) pos cell ty.width "let" (.lit 0) :=
        assignRegister_eq (.int _ 0)
      rw [same] at assigned
      have assigns : Grows u v := (steps_assignRegister _ _ _ _ _ _ _).adds _ _ _ assigned
      have added : cell ∈ v.cellNames := assigns.cellNames allocated.mem
      have apart : ∀ other k, register ≠ Layout.bankName other k := by
        rw [named]
        exact fun other k => Layout.suffixed_ne_bankName array other _ k
      have turned := @Built.addTurn _ _ _ _ _ _ built array ⟨register, banks⟩
        (accounted.not_mem named) apart (accounted.ne named) ty typed cell v
        ((Grows.of_cell unused cells used).trans assigns) unused added
      obtain ⟨rest', later, setUp, space, scope, final⟩ :=
        ih rest (accounted.concat array banks) turned ranRest
      refine ⟨(array, .var ty cell) :: rest', later, .cons allocated assigned setUp, space, scope, ?_⟩
      simpa using final

end

/-! ### Bodies -/

theorem names_declared (env : Banking.Env) (ds : List Decl) :
    env.names ⊆ (Banking.declared env ds).names ∧
      ds.map (·.name) ⊆ (Banking.declared env ds).names := by
  induction ds generalizing env with
  | nil => exact ⟨List.Subset.refl _, List.nil_subset _⟩
  | cons d ds ih =>
    obtain ⟨old, new⟩ := ih (env.rebind d.name (.ofTy d.name d.ty))
    refine ⟨fun x inside => old (List.mem_cons_of_mem _ inside), ?_⟩
    intro x inside
    rcases List.mem_cons.mp inside with rfl | later
    · exact old List.mem_cons_self
    · exact new later

/-- The rotations of a body are set up behind the names of its component. -/
theorem accounted_body (ds : List Decl) (body : TypedCommand) :
    Banking.Accounted (Banking.boundNames ds (some body)) [] (Banking.declared {} ds)
      (Banking.binders body) := by
  refine ⟨?_, List.forall_mem_nil _⟩
  intro x inside
  rcases List.mem_append.mp inside with left | right
  · exact List.mem_append_left _ ((names_declared {} ds).2 left)
  · exact List.mem_append_right _ right

section

variable {arrays : List String} {s : Setting}

end

/-! ### Components -/

theorem Built.start (arrays names : List String) (quotes : Statements) :
    Built arrays names [] [] ⟨{}, [], { quotes }⟩ {} where
  houses := .empty arrays names []
  turns := .nil
  nodup := List.nodup_nil
  recorded := List.nil_subset _
  sound := Workspace.sound_empty _

theorem run_buildComponent_ok {name : String} {quotes quotes' : Statements} {build : Build Control}
    {c : Component} (success : (buildComponent name quotes build).result = .ok (c, quotes')) :
    ∃ control w, build.run { quotes } = .ok (control, w) ∧
      c = ⟨name, w.cells, w.groups, control⟩ ∧ quotes' = w.quotes := by
  simp only [buildComponent, Outcome.result_bind, Outcome.result_lift, Outcome.result_tell,
    Outcome.result_pure, bind_ok_iff, Except.ok.injEq, Prod.mk.injEq] at success
  obtain ⟨⟨control, w⟩, ran, _, _, rfl, rfl⟩ := success
  exact ⟨control, w, ran, rfl, rfl⟩

theorem fails_buildComponent {allowed : Failure → Prop} {name : String} {quotes : Statements}
    {build : Build Control} (fails : Fails allowed (build.run { quotes })) :
    Fails allowed (buildComponent name quotes build).result := by
  simp only [buildComponent, Outcome.result_bind, Outcome.result_lift]
  exact .bind fails fun _ => .bind (.pure ()) fun _ => .pure _

/-- A component comes of a lowering, whatever has been quoted before it. -/
def Makes (lower : Statements → Outcome (Component × Statements)) (c : Component) : Prop :=
  ∃ quotes quotes', (lower quotes).result = .ok (c, quotes')

theorem buildComponent_ok {name : String} {build : Build Control} {c : Component}
    (made : Makes (buildComponent name · build) c) :
    ∃ quotes control w, build.run { quotes } = .ok (control, w) ∧
      c = ⟨name, w.cells, w.groups, control⟩ := by
  obtain ⟨quotes, _, success⟩ := made
  obtain ⟨control, w, ran, same, _⟩ := run_buildComponent_ok success
  exact ⟨quotes, control, w, ran, same⟩

theorem adds_instantiateAll (funcs : List String) : Adds (instantiateAll funcs) := by
  induction funcs with
  | nil => exact .pure _
  | cons func funcs ih => exact .bind (steps_instanceOf trivial).adds fun _ => ih

/-- Storage, instances and body, from an empty workspace. -/
def assemble (s : Setting) (exposure : Exposure) (decls : List Decl) (instances : List String)
    (body : Option TypedCommand) : Build Control := do
  let env ← declareAll s exposure {} decls
  instantiateAll instances
  lowerElse s env body

theorem lowerFunction_eq (s : Setting) (quotes : Statements) (f : Function Ty TypedExpr) :
    lowerFunction s quotes f =
      buildComponent f.name quotes (assemble s .reference f.params [] (some f.body)) := by
  simp only [lowerFunction, assemble, instantiateAll, lowerElse, pure_bind]

theorem lowerRoot_eq (s : Setting) (quotes : Statements) (topName : String) (p : TypedProgram) :
    lowerRoot s quotes topName p = buildComponent topName quotes
      (assemble s .external p.decls (p.defs.map (·.name)) p.body) := rfl

/-- How the body of a component was split. -/
inductive BankedBody (statements : Statements) (env : Banking.Env) :
    Option TypedCommand → Option TypedCommand → Prop where
  | none : BankedBody statements env none none
  | some {body banked : TypedCommand}
      (split : (Banking.bankBody statements env body).result = .ok banked) :
      BankedBody statements env (some body) (some banked)

theorem bankedBody_of_cases {statements : Statements} {env : Banking.Env}
    {body banked : Option TypedCommand}
    (split : body = none ∧ banked = none ∨ ∃ cmd cmd', body = some cmd ∧ banked = some cmd' ∧
      (Banking.bankBody statements env cmd).result = .ok cmd') :
    BankedBody statements env body banked := by
  rcases split with ⟨rfl, rfl⟩ | ⟨cmd, cmd', rfl, rfl, split⟩
  · exact .none
  · exact .some split

theorem bankFunctions_names {statements : Statements} {fs fs' : List (Function Ty TypedExpr)}
    (split : (Banking.bankFunctions statements fs).result = .ok fs') :
    fs'.map (·.name) = fs.map (·.name) := by
  replace split := Banking.forall₂_bankFunctions split
  induction split with
  | nil => rfl
  | cons first _ ih =>
    obtain ⟨_, _, _, _, _, rfl⟩ := Banking.bankFunction_ok first
    rw [List.map_cons, List.map_cons, ih]

/-- The components of several functions. -/
abbrev MakesAll (s : Setting) : List (Function Ty TypedExpr) → List Component → Prop :=
  List.Forall₂ fun f c => Makes (lowerFunction s · f) c

theorem makesAll_of_lowerFunctions {s : Setting} {quotes quotes' : Statements}
    {fs : List (Function Ty TypedExpr)} {cs : List Component}
    (lowered : (lowerFunctions s quotes fs).result = .ok (cs, quotes')) :
    MakesAll s fs cs := by
  induction fs generalizing cs quotes with
  | nil =>
    cases lowered
    exact .nil
  | cons f fs ih =>
    simp only [lowerFunctions, Outcome.result_bind, Outcome.result_pure, bind_ok_iff,
      Except.ok.injEq, Prod.mk.injEq] at lowered
    obtain ⟨⟨c, _⟩, first, ⟨rest, _⟩, others, rfl, rfl⟩ := lowered
    exact .cons ⟨_, _, first⟩ (ih others)

theorem forall₂_of_made {s : Setting} {fs : List (Function Ty TypedExpr)} {cs : List Component}
    {holds : Function Ty TypedExpr → Component → Prop}
    (each : ∀ f ∈ fs, ∀ c, Makes (lowerFunction s · f) c → holds f c)
    (made : MakesAll s fs cs) :
    List.Forall₂ holds fs cs :=
  ((List.forall₂_and_left fs cs).mpr ⟨each, made⟩).imp fun _ c built => built.1 c built.2

end Lowering

/-- What a netlist is made of. -/
theorem BankedProgram.toNetlist_built {config : Config} {statements : Statements} {p : BankedProgram}
    {netlist : Netlist} (success : (p.toNetlist config statements).result = .ok netlist) :
    ∃ functions root quotes quotes', let s := p.setting config statements
      (Lowering.lowerFunctions s {} p.program.defs).result = .ok (functions, quotes) ∧
      (Lowering.lowerRoot s quotes config.topName p.program).result = .ok (root, quotes') ∧
      netlist = ⟨functions ++ [root], p.memories, quotes'⟩ := by
  simp only [toNetlist] at success
  split at success
  · simp only [Outcome.result_bind, Outcome.result_lift, refuse_bind_ok_iff] at success
  · simp only [Outcome.result_bind, bind_ok_iff] at success
    obtain ⟨⟨functions, quotes⟩, loweredFunctions, ⟨root, quotes'⟩, loweredRoot, success⟩ := success
    refine ⟨functions, root, quotes, quotes', loweredFunctions, loweredRoot, ?_⟩
    split at success
    · simp only [Outcome.result_bind, Outcome.result_lift, refuse_bind_ok_iff] at success
    · cases success
      rfl

theorem BankedProgram.toNetlist_ok {config : Config} {statements : Statements} {p : BankedProgram}
    {netlist : Netlist} (success : (p.toNetlist config statements).result = .ok netlist) :
    ∃ functions root, let s := p.setting config statements
      Lowering.MakesAll s p.program.defs functions ∧
      Lowering.Makes (Lowering.lowerRoot s · config.topName p.program) root ∧
      netlist.components = functions ++ [root] := by
  obtain ⟨functions, root, quotes, quotes', loweredFunctions, loweredRoot, rfl⟩ := toNetlist_built success
  exact ⟨functions, root, Lowering.makesAll_of_lowerFunctions loweredFunctions, ⟨_, _, loweredRoot⟩, rfl⟩

theorem Program.compile_ok {config : Config} {source : SourceProgram} {p : TypedProgram}
    {netlist : Netlist} (checked : source.check.result = .ok p)
    (success : (source.compile config).result = .ok netlist) :
    ∃ banked, (p.toBanks (.ofProgram source)).result = .ok banked ∧
      (banked.toNetlist config (.ofProgram source)).result = .ok netlist := by
  simp only [compile, Outcome.result_bind, bind_ok_iff] at success
  obtain ⟨typed, checked', banked, split, found, lowered, _, _, done⟩ := success
  rw [checked] at checked'
  cases checked'
  cases done
  exact ⟨banked, split, lowered⟩

namespace Lowering

end Lowering

end BankedLoops
