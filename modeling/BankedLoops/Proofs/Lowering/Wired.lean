import BankedLoops.Proofs.Lowering.Rules
import BankedLoops.Proofs.Lowering.Uses

/-!
# What a command is wired to

`Wired` says what is built for a command of the source, in terms of declarations: every declaration
gets cells of its own, and every other command is lowered with the cells of the declarations that
its names lead to in place of the names. `lowerCommand_wired` says that a command over banks is wired
like this.
-/

namespace BankedLoops

namespace Lowering

/-! ### Banks of an array -/

/-- The cells that are added are those of the given names. -/
def Allocates (w : Workspace) (cells : List String) (w' : Workspace) : Prop :=
  w'.cellNames = w.cellNames ++ cells

theorem Allocates.of_cells {w w' : Workspace} {c : Cell} (cells : w'.cells = w.cells ++ [c]) :
    Allocates w [c.name] w' := by
  rw [Allocates, Workspace.cellNames, cells, List.map_append]
  rfl

theorem Allocates.mem {w w' : Workspace} {cell : String} (allocated : Allocates w [cell] w') :
    cell ∈ w'.cellNames := by
  rw [allocated]
  exact List.mem_append_right _ List.mem_cons_self

/-- The memories of the first `count` banks have been allocated and bound. -/
structure Housing (exposure : Exposure) (l : Layout) (count : Nat) (memories : List Memory)
    (low : Env) (w : Workspace) (low' : Env) (w' : Workspace) : Prop where
  length : memories.length = count
  found : ∀ k m, memories[k]? = some m → low'.get? (l.memory k) = some (.memory m)
  shaped : ∀ m ∈ memories, m.sizes = l.dims.map Dim.bank ∧ m.width = l.elem.width
  kept : ∀ key, (∀ k, key ≠ l.memory k) → low'.get? key = low.get? key
  used : w'.names.used = (memories.map (·.cell)).reverse ++ w.names.used
  distinct : (memories.map (·.cell)).Nodup
  fresh : ∀ m ∈ memories, m.cell ∉ w.names.used
  allocated : Allocates w (memories.map (·.cell)) w'
  grows : Grows w w'
  visible : exposure ≠ .hidden → ∀ k m, memories[k]? = some m → m.cell = l.memory k ∧
    ∃ c ∈ w'.cells, c.name = m.cell ∧ c.isExternal = decide (exposure = .external)

theorem declareAll_append (s : Setting) (exposure : Exposure) (env : Env) (ds es : List Decl) :
    declareAll s exposure env (ds ++ es) =
      declareAll s exposure env ds >>= fun env => declareAll s exposure env es := by
  induction ds generalizing env with
  | nil => simp only [List.nil_append, declareAll, pure_bind]
  | cons d ds ih => simp only [List.cons_append, declareAll, ih, bind_assoc]

theorem Housing.empty (exposure : Exposure) (l : Layout) (low : Env) (w : Workspace) :
    Housing exposure l 0 [] low w low w where
  length := rfl
  found := nofun
  shaped := nofun
  kept := fun _ _ => rfl
  used := rfl
  distinct := List.nodup_nil
  fresh := nofun
  allocated := (List.append_nil _).symm
  grows := .refl w
  visible := nofun

/-- The next bank. -/
theorem Housing.next {exposure : Exposure} {l : Layout} {count : Nat} {memories : List Memory}
    {low next low' : Env} {w v w' : Workspace} {s : Setting} {pos : Nat}
    (housing : Housing exposure l count memories low w next v)
    (lt : count < Banking.bankTotal l.dims)
    (ran : (declare s next ⟨pos, l.memory count, l.bankTy⟩ exposure).run v = .ok (low', w')) :
    ∃ m, Housing exposure l (count + 1) (memories ++ [m]) low w low' w' := by
  obtain ⟨c, fresh, cells, used, rfl, seen⟩ := declare_ok ran
  have added : Grows v w' := .of_cell fresh cells used
  have store : Store.ofTy c.name l.bankTy =
      .memory ⟨c.name, l.dims.map Dim.bank, l.elem.width⟩ := by
    simp only [Layout.bankTy, Store.ofTy, List.map_map]
    rfl
  rw [store]
  refine ⟨⟨c.name, l.dims.map Dim.bank, l.elem.width⟩, ?_⟩
  have position {k : Nat} {m : Memory}
      (inside : (memories ++ [⟨c.name, l.dims.map Dim.bank, l.elem.width⟩])[k]? = some m) :
      (k < count ∧ memories[k]? = some m) ∨
        (k = count ∧ m = ⟨c.name, l.dims.map Dim.bank, l.elem.width⟩) := by
    rcases Nat.lt_trichotomy k count with below | same | above
    · rw [List.getElem?_append_left (by rw [housing.length]; exact below)] at inside
      exact .inl ⟨below, inside⟩
    · have last : memories.length ≤ count := Nat.le_of_eq housing.length
      rw [same, List.getElem?_append_right last, housing.length, Nat.sub_self] at inside
      exact .inr ⟨same, (Option.some.inj inside).symm⟩
    · rw [List.getElem?_eq_none] at inside
      · cases inside
      · rw [List.length_append, housing.length]
        exact above
  rw [housing.used] at fresh used
  constructor
  · rw [List.length_append, housing.length]
    rfl
  · intro k m inside
    rw [Scope.get?_rebind]
    rcases position inside with ⟨below, old⟩ | ⟨rfl, rfl⟩
    · rw [if_neg]
      · exact housing.found k m old
      · intro same
        exact absurd (Layout.memory_inj (Nat.lt_trans below lt) lt same) (Nat.ne_of_lt below)
    · rw [if_pos rfl]
  · intro m member
    rcases List.mem_append.mp member with old | new
    · exact housing.shaped m old
    · rw [List.mem_singleton.mp new]
      exact ⟨rfl, rfl⟩
  · intro key other
    rw [Scope.get?_rebind, if_neg (other count)]
    exact housing.kept key other
  · rw [used, List.map_append, List.reverse_append]
    rfl
  · rw [List.map_append]
    refine List.nodup_append.mpr ⟨housing.distinct, List.nodup_singleton _, ?_⟩
    intro old inside new member same
    rw [same, List.mem_singleton.mp member] at inside
    exact fresh (List.mem_append_left _ (List.mem_reverse.mpr inside))
  · intro m member
    rcases List.mem_append.mp member with old | new
    · exact housing.fresh m old
    · rw [List.mem_singleton.mp new]
      exact fun member => fresh (List.mem_append_right _ member)
  · rw [Allocates, Workspace.cellNames, cells, List.map_append, List.map_append,
      ← List.append_assoc]
    exact congrArg (· ++ [c.name]) housing.allocated
  · exact housing.grows.trans added
  · intro visible k m inside
    rcases position inside with ⟨_, old⟩ | ⟨rfl, rfl⟩
    · obtain ⟨same, cell, member, named, external⟩ := housing.visible visible k m old
      exact ⟨same, cell, added.cells.subset member, named, external⟩
    · obtain ⟨same, external⟩ := seen rfl visible
      refine ⟨same, c, ?_, rfl, external⟩
      rw [cells]
      exact List.mem_append_right _ List.mem_cons_self

/-- Declaring the banks of an array allocates and binds all of them. -/
theorem declareAll_split {s : Setting} {exposure : Exposure} {l : Layout} {pos : Nat}
    {ds : List Decl} {low low' : Env} {w w' : Workspace} (split : l.split pos = .ok ds)
    (ran : (declareAll s exposure low ds).run w = .ok (low', w')) :
    ∃ memories, Housing exposure l (Banking.bankTotal l.dims) memories low w low' w' := by
  have general (count : Nat) (bounded : count ≤ Banking.bankTotal l.dims) {low' : Env}
      {w' : Workspace} (ran : (declareAll s exposure low ((List.range count).map fun k =>
        ⟨pos, l.memory k, l.bankTy⟩)).run w = .ok (low', w')) :
      ∃ memories, Housing exposure l count memories low w low' w' := by
    induction count generalizing low' w' with
    | zero =>
      cases ran
      exact ⟨[], .empty exposure l low w⟩
    | succ count ih =>
      rw [List.range_succ, List.map_append, declareAll_append] at ran
      obtain ⟨next, v, first, ran⟩ := run_bind_ok_iff.mp ran
      obtain ⟨memories, housing⟩ := ih (Nat.le_of_succ_le bounded) first
      obtain ⟨last, v', declared, ran⟩ := run_bind_ok_iff.mp ran
      obtain ⟨rfl, rfl⟩ := run_pure_ok_iff.mp ran
      obtain ⟨m, housing⟩ := housing.next bounded declared
      exact ⟨_, housing⟩
  rw [Layout.split_eq split] at ran
  exact general _ (Nat.le_refl _) ran

/-! ### Commands -/

mutual

/-- What is built for a command. A declaration adds exactly the cells that the ledger lists for it.
Any other command is checked in the scope of its stage, and lowered with cells in place of its names,
in the environment in which every cell goes by its own name. -/
inductive Wired (s : Setting) (rotors : List (String × TypedExpr)) :
    Stage → TypedCommand → Control → Stage → Prop where
  | array {stage : Stage} {pos : Nat} {name : String} {elem : Ty} {dims : List Dim}
      {memories : List Memory} {w : Workspace} (count : memories.length = Banking.bankTotal dims)
      (allocated : Allocates stage.space (memories.map (·.cell)) w) :
      Wired s rotors stage (.decl pos name (.array elem dims)) .empty
        (stage.bind name (.array elem dims) (.banks memories) w)
  | register {stage : Stage} {pos : Nat} {name cell : String} {ty : Ty} {w : Workspace}
      (scalar : ty.isArray = false) (allocated : Allocates stage.space [cell] w) :
      Wired s rotors stage (.decl pos name ty) .empty
        (stage.bind name (.scalar ty) (.plain (.register cell ty.width)) w)
  | define {stage : Stage} {pos : Nat} {name cell : String} {ty : Ty} {init init' : TypedExpr}
      {control : Control} {v w : Workspace} {tctx : Typing.Context}
      (allocated : Allocates stage.space [cell] v)
      (checked : Typing.CheckedExpr tctx stage.scope.types init)
      (value : Located stage.scope stage.ledger rotors init init')
      (built : (assignRegister s (cellEnv stage.ledger) pos cell ty.width "let" init').run v =
        .ok (control, w)) :
      Wired s rotors stage (.define pos name ty init) control
        (stage.bind name (.scalar ty) (.plain (.register cell ty.width)) w)
  | seq {stage later : Stage} {pos : Nat} {cmds : List TypedCommand} {controls : List Control}
      (all : WiredSeq s rotors stage cmds controls later) :
      Wired s rotors stage (.seq pos cmds) (.sequence controls) later
  | branch {stage middle later : Stage} {pos : Nat} {cond cond' : TypedExpr}
      {onTrue : TypedCommand} {onFalse : Option TypedCommand} {pin : Pin} {group : Option String}
      {before : List Control} {yes no : Control} {w : Workspace} {tctx : Typing.Context}
      (checked : Typing.CheckedExpr tctx stage.scope.types cond)
      (value : Located stage.scope stage.ledger rotors cond cond')
      (built : (lowerCondition s (cellEnv stage.ledger) pos cond').run stage.space =
        .ok ((pin, group, before), w))
      (taken : Wired s rotors (stage.enter w) onTrue yes middle)
      (skipped : WiredElse s rotors ((stage.leave middle).enter middle.space) onFalse no later) :
      Wired s rotors stage (.branch pos cond onTrue onFalse)
        (.sequence (before ++ [.branch pin group yes no])) (stage.leave later)
  | loop {stage later : Stage} {pos : Nat} {header : LoopHeader} {body : TypedCommand}
      {frame : LoopFrame} {control : Control} {w : Workspace}
      (framed : (addLoop header).run stage.space = .ok (frame, w))
      (round : Wired s rotors ((stage.enter w).bind header.iter
        (.iterator (.idx header.stop header.unroll))
        (.plain (.iterator frame.reg frame.slice frame.width)) w) body control later) :
      Wired s rotors stage (.loop pos header body)
        (.sequence [s.enable frame.init pos, .loop (.out frame.lt) (some frame.cond)
          (.sequence [control, s.enable frame.incr pos]) (some (header.stop - header.start))])
        (((stage.leave later).quote s pos).quote s pos)
  | update {stage : Stage} {pos : Nat} {target target' value value' : TypedExpr}
      {control : Control} {w : Workspace} {tctx : Typing.Context}
      (checkedPlace : Typing.CheckedTarget tctx stage.scope.types target)
      (checked : Typing.CheckedExpr tctx stage.scope.types value)
      (place : Located stage.scope stage.ledger rotors target target')
      (read : Located stage.scope stage.ledger rotors value value')
      (built : (lowerUpdate s (cellEnv stage.ledger) pos target' value').run stage.space =
        .ok (control, w)) :
      Wired s rotors stage (.update pos target value) control { stage with space := w }
  | reduce {stage : Stage} {pos : Nat} {op : BinOp} {target target' value value' : TypedExpr}
      {control : Control} {w : Workspace} {tctx : Typing.Context}
      (checkedPlace : Typing.CheckedTarget tctx stage.scope.types target)
      (checked : Typing.CheckedExpr tctx stage.scope.types value)
      (place : Located stage.scope stage.ledger rotors target target')
      (read : Located stage.scope stage.ledger rotors value value')
      (built : (lowerReduce s (cellEnv stage.ledger) pos op target' value').run stage.space =
        .ok (control, w)) :
      Wired s rotors stage (.reduce pos op target value) control { stage with space := w }
  | call {stage : Stage} {pos : Nat} {ty : Ty} {func cell : String} {args params : List String}
      {memories : List Memory} {w : Workspace} {decls : List Decl}
      (signature : s.signatures.lookup func = some params)
      (checked : Typing.CheckedArguments stage.scope.types args decls)
      (given : LocatedArguments stage.scope stage.ledger args memories)
      (count : params.length = memories.length)
      (instantiated : (instanceOf func).run stage.space = .ok (cell, w)) :
      Wired s rotors stage (.eval pos (.app ty func args))
        (.invoke cell (params.zip (memories.map (·.cell))) (s.position pos))
        { stage with space := w.quote s pos }
  | eval {stage : Stage} {pos : Nat} {e e' : TypedExpr} {controls : List Control} {w : Workspace}
      {tctx : Typing.Context} (checked : Typing.CheckedExpr tctx stage.scope.types e)
      (value : Located stage.scope stage.ledger rotors e e')
      (built : (discard s (cellEnv stage.ledger) pos e').run stage.space = .ok (controls, w)) :
      Wired s rotors stage (.eval pos e) (.sequence controls) { stage with space := w }
  | rotate {stage : Stage} {pos : Nat} {array : String} {rotor next : TypedExpr}
      {control : Control} {w : Workspace} (rotated : rotors.lookup array = some rotor)
      (spans : Over [rotor] next)
      (built : (lowerUpdate s (cellEnv stage.ledger) pos rotor next).run stage.space =
        .ok (control, w)) :
      Wired s rotors stage (.advance pos array) control { stage with space := w }
  | still {stage : Stage} {pos : Nat} {array : String} (fixed : rotors.lookup array = none) :
      Wired s rotors stage (.advance pos array) .empty stage
  | skip {stage : Stage} {pos : Nat} : Wired s rotors stage (.skip pos) .empty stage

inductive WiredSeq (s : Setting) (rotors : List (String × TypedExpr)) :
    Stage → List TypedCommand → List Control → Stage → Prop where
  | nil {stage : Stage} : WiredSeq s rotors stage [] [] stage
  | cons {stage middle later : Stage} {cmd : TypedCommand} {cmds : List TypedCommand}
      {control : Control} {controls : List Control} (first : Wired s rotors stage cmd control middle)
      (rest : WiredSeq s rotors middle cmds controls later) :
      WiredSeq s rotors stage (cmd :: cmds) (control :: controls) later

inductive WiredElse (s : Setting) (rotors : List (String × TypedExpr)) :
    Stage → Option TypedCommand → Control → Stage → Prop where
  | none {stage : Stage} : WiredElse s rotors stage none .empty stage
  | some {stage later : Stage} {cmd : TypedCommand} {control : Control}
      (wired : Wired s rotors stage cmd control later) :
      WiredElse s rotors stage (some cmd) control later

end

/-- The construction goes on from a stage to a later one. -/
structure Continues (arrays names : List String) (rotations : List (String × Banking.Rotation))
    (rotors : List (String × TypedExpr)) (stage later : Stage) (types : Typing.Env) (low : Env)
    (w : Workspace) : Prop where
  space : later.space = w
  types : later.scope.types = types
  ledger : stage.ledger <+: later.ledger
  built : Built arrays names rotations rotors later low

section

variable {arrays names : List String} {rotors : List (String × TypedExpr)} {s : Setting}
  {ctx : Banking.Context} {rotations : List (String × Banking.Rotation)}

/-- A command that declares nothing. -/
theorem Built.continues {stage : Stage} {low : Env}
    (built : Built arrays names rotations rotors stage low) {w : Workspace}
    (grows : Grows stage.space w) :
    Continues arrays names rotations rotors stage { stage with space := w } stage.scope.types
      low w :=
  ⟨rfl, rfl, List.prefix_rfl, built.grow grows⟩

/-- A scalar gets a register. -/
theorem Built.bindRegister {stage : Stage} {low : Env}
    (built : Built arrays names rotations rotors stage low)
    (clean : Banking.BankNameClean arrays names) {name cell : String} (bound : name ∈ names)
    (ty : Ty) {w : Workspace} (grows : Grows stage.space w) (unused : cell ∉ stage.space.names.used)
    (added : cell ∈ w.cellNames) :
    Continues arrays names rotations rotors stage
      (stage.bind name (.scalar ty) (.plain (.register cell ty.width)) w)
      (stage.scope.types.rebind name (.scalar ty)) (low.rebind name (.register cell ty.width)) w :=
  ⟨rfl, rfl, List.prefix_append _ _, built.bindPlain clean bound (by simp)
    (.scalar (Scope.get?_rebind_self ..)) grows unused added⟩

theorem ofTy_scalar (cell : String) {ty : Ty} (scalar : ty.isArray = false) :
    Typing.Binding.ofTy ty = .scalar ty ∧ Store.ofTy cell ty = .register cell ty.width := by
  cases ty with
  | array elem dims => cases scalar
  | _ => exact ⟨rfl, rfl⟩

theorem lowerSeq_decls (low : Env) (pos : Nat) (ds : List Decl) (same : ∀ d ∈ ds, d.pos = pos) :
    lowerSeq s low (ds.map fun d => .decl pos d.name d.ty) = (do
      let low ← declareAll s .hidden low ds
      pure (List.replicate ds.length .empty, low)) := by
  induction ds generalizing low with
  | nil => simp only [List.map_nil, lowerSeq, declareAll, pure_bind, List.length_nil,
      List.replicate_zero]
  | cons d ds ih =>
    have first : d.pos = pos := same d List.mem_cons_self
    subst first
    simp only [List.map_cons, lowerSeq, lowerCommand, declareAll, bind_assoc, pure_bind,
      ih _ fun e member => same e (List.mem_cons_of_mem _ member), List.length_cons,
      List.replicate_succ]

theorem sequence_replicate_empty (n : Nat) : Control.sequence (List.replicate n .empty) = .empty := by
  have items : (List.replicate n Control.empty).flatMap Control.items = [] := by
    rw [List.flatMap_eq_nil_iff]
    intro control member
    rw [List.eq_of_mem_replicate member]
    rfl
  rw [Control.sequence, items]

/-- The declarations of the banks as a command. -/
theorem lowerCommand_declBanks {layout : Layout} {pos : Nat} {cmd : TypedCommand}
    (split : Banking.declBanks layout pos = .ok cmd) {low low' : Env} {w w' : Workspace}
    {control : Control} (ran : (lowerCommand s low cmd).run w = .ok ((control, low'), w')) :
    control = .empty ∧ ∃ memories, Housing .hidden layout (Banking.bankTotal layout.dims) memories
      low w low' w' := by
  obtain ⟨ds, banks, form⟩ := Banking.declBanks_split split
  have same : ∀ d ∈ ds, d.pos = pos := by
    rw [Layout.split_eq banks]
    intro d member
    obtain ⟨k, _, rfl⟩ := List.mem_map.mp member
    rfl
  suffices declares : control = .empty ∧ (declareAll s .hidden low ds).run w = .ok (low', w') from
    ⟨declares.1, declareAll_split banks declares.2⟩
  obtain ⟨d, rfl, rfl⟩ | ⟨_, rfl⟩ := form
  · have first : d.pos = pos := same d List.mem_cons_self
    subst first
    cases lowerCommand_ok ran with
    | decl declared => exact ⟨rfl, run_bind_ok_iff.mpr ⟨_, _, declared, rfl⟩⟩
  · rw [lowerCommand, lowerSeq_decls low pos ds same, bind_assoc] at ran
    obtain ⟨next, v, declared, ran⟩ := run_bind_ok_iff.mp ran
    cases ran
    exact ⟨sequence_replicate_empty _, declared⟩

theorem bindArguments_eq {low : Env} {args : List String} {memories : List Memory}
    (given : List.Forall₂ (fun arg m => low.get? arg = some (.memory m)) args memories)
    (params : List String) :
    bindArguments low params args = pure (params.zip (memories.map (·.cell))) := by
  induction given generalizing params with
  | nil => cases params <;> rfl
  | cons first _ ih =>
    cases params with
    | nil => rfl
    | cons param params =>
      simp only [bindArguments, memoryOf_eq first, ih, pure_bind, List.map_cons, List.zip_cons_cons]

theorem lowerCall_given {low : Env} {pos : Nat} {func : String} {args : List String}
    {memories : List Memory} {w w' : Workspace} {control : Control}
    (given : List.Forall₂ (fun arg m => low.get? arg = some (.memory m)) args memories)
    (ran : (lowerCall s low pos func args).run w = .ok (control, w')) :
    ∃ params cell, s.signatures.lookup func = some params ∧ params.length = memories.length ∧
      (∃ v, (instanceOf func).run w = .ok (cell, v) ∧ w' = v.quote s pos) ∧
      control = .invoke cell (params.zip (memories.map (·.cell))) (s.position pos) := by
  obtain ⟨params, refs, cell, _, _, signature, counted, bound, instantiated, quoted, rfl⟩ :=
    lowerCall_ok ran
  rw [bindArguments_eq given] at bound
  obtain ⟨rfl, rfl⟩ := run_pure_ok_iff.mp bound
  exact ⟨params, cell, signature, counted.trans given.length_eq, ⟨_, instantiated, quoted⟩, rfl⟩

/-- The bank of an array moves on in the register that rotates it. -/
theorem lowerCommand_step {rotation : Banking.Rotation} {rotor : TypedExpr} {stage : Stage}
    {low low' : Env} {pos : Nat} {step : TypedCommand} {control : Control} {w : Workspace}
    (nodup : (cellsOf stage.ledger).Nodup) (turn : Turn names stage.ledger low rotation rotor)
    (stepped : rotation.step pos = .ok step)
    (ran : (lowerCommand s low step).run stage.space = .ok ((control, low'), w)) :
    low' = low ∧ ∃ next, Over [rotor] next ∧
      (lowerUpdate s (cellEnv stage.ledger) pos rotor next).run stage.space = .ok (control, w) := by
  obtain ⟨ty, next, typed, spans, rfl⟩ := Over.step stepped
  obtain ⟨next', overNext, renames⟩ := spans.renames (.cons (turn.renames nodup typed) .nil)
  obtain ⟨ty', cell, width, typed', rfl, found, member⟩ := turn.stored
  rw [typed] at typed'
  cases typed'
  have place : RenamesTarget low (cellEnv stage.ledger) (.var ty rotation.register) (.var ty cell) :=
    .register ty found (@get?_cellEnv _ nodup (.register cell width) member)
  cases lowerCommand_ok ran with
  | update updated =>
    rw [lowerUpdate_eq place renames] at updated
    exact ⟨rfl, next', overNext, updated⟩

theorem Housing.built {exposure : Exposure} {l : Layout} {memories : List Memory}
    {low low' : Env} {stage : Stage} {w : Workspace}
    (housing : Housing exposure l (Banking.bankTotal l.dims) memories low stage.space low' w)
    (built : Built arrays names rotations rotors stage low)
    (clean : Banking.BankNameClean arrays names) (bound : l.name ∈ names) (array : l.name ∈ arrays) :
    Built arrays names rotations rotors
      (stage.bind l.name (.array l.elem l.dims) (.banks memories) w) low' := by
  have new : Housed low' l.name (.array l.elem l.dims) (.banks memories) :=
    .array housing.length housing.found housing.shaped
  have added : memories.map (·.cell) ⊆ w.cellNames := by
    rw [housing.allocated]
    exact List.subset_append_right _ _
  exact built.bindArray clean bound array new housing.kept housing.grows housing.distinct
    housing.fresh added

/-- Lowering the command `cmd'` over banks wires the command `cmd` over arrays. -/
def WiresCommand (arrays names : List String) (rotors : List (String × TypedExpr)) (s : Setting)
    (ctx : Banking.Context) (env : Banking.Env) (cmd cmd' : TypedCommand) : Prop :=
  ∀ ⦃tctx : Typing.Context⦄ ⦃stage : Stage⦄ ⦃types : Typing.Env⦄ ⦃low low' : Env⦄
    ⦃control : Control⦄ ⦃w : Workspace⦄, Typing.CheckedCommand tctx stage.scope.types cmd types →
    Banking.Agrees stage.scope.types env → Banking.binders cmd ⊆ names →
    Banking.arraysIn cmd ⊆ arrays → Built arrays names ctx.rotations rotors stage low →
    (lowerCommand s low cmd').run stage.space = .ok ((control, low'), w) →
    ∃ later, Wired s rotors stage cmd control later ∧
      Continues arrays names ctx.rotations rotors stage later types low' w

def WiresSeq (arrays names : List String) (rotors : List (String × TypedExpr)) (s : Setting)
    (ctx : Banking.Context) (env : Banking.Env) (cmds cmds' : List TypedCommand) : Prop :=
  ∀ ⦃tctx : Typing.Context⦄ ⦃stage : Stage⦄ ⦃types : Typing.Env⦄ ⦃low low' : Env⦄
    ⦃controls : List Control⦄ ⦃w : Workspace⦄, Typing.CheckedSeq tctx stage.scope.types cmds types →
    Banking.Agrees stage.scope.types env → Banking.bindersOfSeq cmds ⊆ names →
    Banking.arraysInSeq cmds ⊆ arrays → Built arrays names ctx.rotations rotors stage low →
    (lowerSeq s low cmds').run stage.space = .ok ((controls, low'), w) →
    ∃ later, WiredSeq s rotors stage cmds controls later ∧
      Continues arrays names ctx.rotations rotors stage later types low' w

def WiresElse (arrays names : List String) (rotors : List (String × TypedExpr)) (s : Setting)
    (ctx : Banking.Context) (env : Banking.Env) (cmd cmd' : Option TypedCommand) : Prop :=
  ∀ ⦃tctx : Typing.Context⦄ ⦃stage : Stage⦄ ⦃low : Env⦄ ⦃control : Control⦄ ⦃w : Workspace⦄,
    Typing.CheckedElse tctx stage.scope.types cmd → Banking.Agrees stage.scope.types env →
    Banking.bindersOfElse cmd ⊆ names → Banking.arraysInElse cmd ⊆ arrays →
    Built arrays names ctx.rotations rotors stage low →
    (lowerElse s low cmd').run stage.space = .ok (control, w) →
    ∃ later types low', WiredElse s rotors stage cmd control later ∧
      Continues arrays names ctx.rotations rotors stage later types low' w

variable {env : Banking.Env} {pos : Nat}

theorem wires_array (clean : Banking.BankNameClean arrays names) {name : String} {ty : Ty}
    {layout : Layout} {banks : TypedCommand} (found : Layout.ofTy? name ty = some layout)
    (split : Banking.declBanks layout pos = .ok banks) :
    WiresCommand arrays names rotors s ctx env (.decl pos name ty) banks := by
  intro tctx stage types low low' control w checked agrees bound array built ran
  obtain ⟨rfl, memories, housing⟩ := lowerCommand_declBanks split ran
  cases checked with
  | decl _ fresh =>
    rw [Scope.eq_rebind_of_bind? fresh]
    cases ty with
    | array elem dims =>
      cases found
      exact ⟨_, .array housing.length housing.allocated, rfl, rfl, List.prefix_append _ _,
        housing.built built clean (bound (by simp [Banking.binders]))
          (array (by simp [Banking.arraysIn, Ty.isArray]))⟩
    | _ => cases found

theorem wires_scalar (clean : Banking.BankNameClean arrays names) {name : String} {ty : Ty}
    (found : Layout.ofTy? name ty = none) :
    WiresCommand arrays names rotors s ctx env (.decl pos name ty) (.decl pos name ty) := by
  intro tctx stage types low low' control w checked agrees bound array built ran
  cases lowerCommand_ok ran with
  | decl declared =>
    obtain ⟨c, unused, cells, used, rfl, _⟩ := declare_ok declared
    have scalar := Banking.isArray_of_ofTy?_none found
    obtain ⟨binding, store⟩ := ofTy_scalar c.name scalar
    have allocated := Allocates.of_cells cells
    cases checked with
    | decl _ fresh =>
      rw [Scope.eq_rebind_of_bind? fresh, binding, store]
      exact ⟨_, .register scalar allocated, built.bindRegister clean
        (bound (by simp [Banking.binders])) ty (.of_cell unused cells used) unused allocated.mem⟩

theorem wires_define (clean : Banking.BankNameClean arrays names) {name : String} {ty : Ty}
    {init init' : TypedExpr} (value : Banking.ReadAs ctx env init init') :
    WiresCommand arrays names rotors s ctx env (.define pos name ty init)
      (.define pos name ty init') := by
  intro tctx stage types low low' control w checked agrees bound array built ran
  cases lowerCommand_ok ran with
  | define added assigned =>
    obtain ⟨unused, cells, used⟩ := addRegister_ok added
    have allocated := Allocates.of_cells cells
    cases checked with
    | define checked _ _ fresh =>
      obtain ⟨l, located, renames⟩ := located_read built agrees checked value
      rw [Scope.eq_rebind_of_bind? fresh]
      rw [assignRegister_eq renames] at assigned
      have later : Grows _ w := (steps_assignRegister _ _ _ _ _ _ _).adds _ _ _ assigned
      exact ⟨_, .define allocated checked located assigned, built.bindRegister clean
        (bound (by simp [Banking.binders])) ty (((steps_addRegister _ _).adds _ _ _ added).trans later) unused
        (later.cellNames allocated.mem)⟩

theorem wires_seq {cmds cmds' : List TypedCommand}
    (all : WiresSeq arrays names rotors s ctx env cmds cmds') :
    WiresCommand arrays names rotors s ctx env (.seq pos cmds) (.seq pos cmds') := by
  intro tctx stage types low low' control w checked agrees bound array built ran
  cases lowerCommand_ok ran with
  | seq lowered =>
    cases checked with
    | seq checked =>
      obtain ⟨later, wired, continues⟩ := all checked agrees bound array built lowered
      exact ⟨later, .seq wired, continues⟩

theorem wires_branch {cond cond' : TypedExpr} {onTrue onTrue' : TypedCommand}
    {onFalse onFalse' : Option TypedCommand} (value : Banking.ReadAs ctx env cond cond')
    (yes : WiresCommand arrays names rotors s ctx env.enter onTrue onTrue')
    (no : WiresElse arrays names rotors s ctx env.enter onFalse onFalse') :
    WiresCommand arrays names rotors s ctx env (.branch pos cond onTrue onFalse)
      (.branch pos cond' onTrue' onFalse') := by
  intro tctx stage types low low' control w checked agrees bound array built ran
  cases lowerCommand_ok ran with
  | @branch _ _ _ _ _ _ _ _ _ _ v v' _ driven loweredYes loweredNo =>
    cases checked with
    | branch checked _ yesChecked noChecked =>
      obtain ⟨l, located, renames⟩ := located_read built agrees checked value
      rw [lowerCondition_eq renames] at driven
      have grows : Grows stage.space v := (steps_lowerCondition _ _ _ _).adds _ _ _ driven
      have entered : Built arrays names ctx.rotations rotors (stage.enter v) low.enter :=
        built.enter grows
      obtain ⟨middle, wiredYes, continuesYes⟩ := @yes _ (stage.enter v) _ _ _ _ _ yesChecked
        agrees.enter
        (fun x member => bound (List.mem_append_left _ member))
        (fun x member => array (List.mem_append_left _ member)) entered loweredYes
      obtain rfl := continuesYes.space
      have resumed : Built arrays names ctx.rotations rotors
          ((stage.leave middle).enter middle.space) low.enter :=
        (built.leave continuesYes.built continuesYes.ledger).enter (.refl _)
      obtain ⟨later, _, _, wiredNo, continuesNo⟩ := @no _ ((stage.leave middle).enter middle.space) _
        _ _ noChecked agrees.enter
        (fun x member => bound (List.mem_append_right _ member))
        (fun x member => array (List.mem_append_right _ member)) resumed loweredNo
      have ledger : stage.ledger <+: later.ledger := continuesYes.ledger.trans continuesNo.ledger
      exact ⟨_, .branch checked located driven wiredYes wiredNo, continuesNo.space, rfl, ledger,
        built.leave continuesNo.built ledger⟩

theorem wires_loop (clean : Banking.BankNameClean arrays names) {header : LoopHeader}
    {body body' : TypedCommand} (round : WiresCommand arrays names rotors s ctx
      (env.enter.rebind header.iter (.iterator ⟨header.start, header.stop - 1⟩)) body body') :
    WiresCommand arrays names rotors s ctx env (.loop pos header body) (.loop pos header body') := by
  intro tctx stage types low low' control w checked agrees bound array built ran
  cases lowerCommand_ok ran with
  | @loop _ _ _ frame _ _ v _ framed lowered =>
    obtain ⟨unused, added, grows⟩ := addLoop_ok framed
    cases checked with
    | loop range checked =>
      let iterator : Store := .iterator frame.reg frame.slice frame.width
      let inside : Stage := (stage.enter v).bind header.iter
        (.iterator (.idx header.stop header.unroll)) (.plain iterator) v
      have entered : Built arrays names ctx.rotations rotors inside
          (low.enter.rebind header.iter iterator) :=
        (built.enter (.refl _)).bindPlain clean (bound List.mem_cons_self) (by simp)
          (.iterator (Scope.get?_rebind_self ..)) grows unused added
      obtain ⟨later, wired, continues⟩ := @round _ inside _ _ _ _ _ checked (agrees.round range)
        (fun x member => bound (List.mem_cons_of_mem _ member)) array entered lowered
      obtain rfl := continues.space
      have ledger : stage.ledger <+: later.ledger := (List.prefix_append _ _).trans continues.ledger
      exact ⟨_, .loop framed wired, rfl, rfl, ledger,
        ((built.leave continues.built ledger).quote s pos).quote s pos⟩

theorem wires_update {target target' value value' : TypedExpr}
    (place : Banking.WrittenAs ctx env target target') (read : Banking.ReadAs ctx env value value') :
    WiresCommand arrays names rotors s ctx env (.update pos target value)
      (.update pos target' value') := by
  intro tctx stage types low low' control w checked agrees bound array built ran
  cases lowerCommand_ok ran with
  | update updated =>
    cases checked with
    | update placeChecked checked _ =>
      obtain ⟨target', locatedTarget, renamesTarget⟩ := located_target built agrees placeChecked place
      obtain ⟨value', located, renames⟩ := located_read built agrees checked read
      rw [lowerUpdate_eq renamesTarget renames] at updated
      exact ⟨_, .update placeChecked checked locatedTarget located updated,
        built.continues ((steps_lowerUpdate _ _ _ _ _).adds _ _ _ updated)⟩

theorem wires_reduce {op : BinOp} {target target' value value' : TypedExpr}
    (place : Banking.WrittenAs ctx env target target') (read : Banking.ReadAs ctx env value value') :
    WiresCommand arrays names rotors s ctx env (.reduce pos op target value)
      (.reduce pos op target' value') := by
  intro tctx stage types low low' control w checked agrees bound array built ran
  cases lowerCommand_ok ran with
  | reduce updated =>
    cases checked with
    | reduce placeChecked _ checked _ =>
      obtain ⟨target', locatedTarget, renamesTarget⟩ := located_target built agrees placeChecked place
      obtain ⟨value', located, renames⟩ := located_read built agrees checked read
      rw [lowerReduce_eq renamesTarget renames] at updated
      exact ⟨_, .reduce placeChecked checked locatedTarget located updated,
        built.continues ((steps_lowerReduce _ _ _ _ _ _).adds _ _ _ updated)⟩

theorem wires_eval {e e' : TypedExpr} (value : Banking.ReadAs ctx env e e') :
    WiresCommand arrays names rotors s ctx env (.eval pos e) (.eval pos e') := by
  intro tctx stage types low low' control w checked agrees bound array built ran
  cases checked with
  | call defined given =>
    cases value with
    | app split =>
      cases lowerCommand_ok ran with
      | call called =>
        obtain ⟨memories, located, housed⟩ := located_arguments built (agrees.bankedArguments given split)
        obtain ⟨params, cell, signature, count, ⟨v, instantiated, rfl⟩, rfl⟩ :=
          lowerCall_given housed called
        exact ⟨_, .call signature given located count instantiated,
          built.continues (((steps_instanceOf trivial).adds _ _ _ instantiated).trans (.of_eq rfl rfl))⟩
      | eval other _ => exact absurd rfl (other _ _ _)
  | eval checked =>
    cases lowerEval_ok (value.ne_app checked.ne_app) ran with
    | call _ => exact absurd rfl (value.ne_app checked.ne_app _ _ _)
    | eval _ discarded =>
      obtain ⟨l, located, renames⟩ := located_read built agrees checked value
      rw [discard_eq renames] at discarded
      exact ⟨_, .eval checked located discarded, built.continues ((steps_discard _ _ _ _).adds _ _ _ discarded)⟩

theorem wires_rotate {array : String} {rotation : Banking.Rotation} {step : TypedCommand}
    (rotated : ctx.rotations.lookup array = some rotation) (stepped : rotation.step pos = .ok step) :
    WiresCommand arrays names rotors s ctx env (.advance pos array) step := by
  intro tctx stage types low low' control w checked agrees bound array built ran
  obtain ⟨rotor, found, turn⟩ := built.turns.lookup_some rotated
  obtain ⟨rfl, next, spans, updated⟩ := lowerCommand_step built.nodup turn stepped ran
  cases checked
  exact ⟨_, .rotate found spans updated,
    built.continues ((steps_lowerUpdate _ _ _ _ _).adds _ _ _ updated)⟩

theorem wires_still {array : String} (fixed : ctx.rotations.lookup array = none) :
    WiresCommand arrays names rotors s ctx env (.advance pos array) (.skip pos) := by
  intro tctx stage types low low' control w checked agrees bound array built ran
  cases lowerCommand_ok ran
  cases checked
  exact ⟨_, .still (built.turns.lookup_none fixed), built.continues (.refl _)⟩

theorem wires_skip : WiresCommand arrays names rotors s ctx env (.skip pos) (.skip pos) := by
  intro tctx stage types low low' control w checked agrees bound array built ran
  cases lowerCommand_ok ran
  cases checked
  exact ⟨_, .skip, built.continues (.refl _)⟩

theorem wires_nil : WiresSeq arrays names rotors s ctx env [] [] := by
  intro tctx stage types low low' controls w checked agrees bound array built ran
  obtain ⟨rfl, rfl, rfl⟩ := lowerSeq_nil_ok ran
  cases checked
  exact ⟨_, .nil, built.continues (.refl _)⟩

theorem wires_cons {cmd cmd' : TypedCommand} {cmds cmds' : List TypedCommand}
    (first : WiresCommand arrays names rotors s ctx env cmd cmd')
    (rest : WiresSeq arrays names rotors s ctx (Banking.after env cmd) cmds cmds') :
    WiresSeq arrays names rotors s ctx env (cmd :: cmds) (cmd' :: cmds') := by
  intro tctx stage types low low' controls w checked agrees bound array built ran
  obtain ⟨_, _, _, _, lowered, loweredRest, rfl⟩ := lowerSeq_cons_ok ran
  cases checked with
  | cons checked checkedRest =>
    obtain ⟨middle, wired, continues⟩ := first checked agrees
      (fun x member => bound (List.mem_append_left _ member))
      (fun x member => array (List.mem_append_left _ member)) built lowered
    have after := agrees.after checked
    obtain rfl := continues.types
    obtain rfl := continues.space
    obtain ⟨later, wiredRest, continuesRest⟩ := rest checkedRest after
      (fun x member => bound (List.mem_append_right _ member))
      (fun x member => array (List.mem_append_right _ member)) continues.built loweredRest
    exact ⟨later, .cons wired wiredRest, continuesRest.space, continuesRest.types,
      continues.ledger.trans continuesRest.ledger, continuesRest.built⟩

theorem wires_none : WiresElse arrays names rotors s ctx env none none := by
  intro tctx stage low control w checked agrees bound array built ran
  obtain ⟨rfl, rfl⟩ := lowerElse_none_ok ran
  exact ⟨_, _, _, .none, built.continues (.refl _)⟩

theorem wires_some {cmd cmd' : TypedCommand}
    (wires : WiresCommand arrays names rotors s ctx env cmd cmd') :
    WiresElse arrays names rotors s ctx env (some cmd) (some cmd') := by
  intro tctx stage low control w checked agrees bound array built ran
  obtain ⟨_, lowered⟩ := lowerElse_some_ok ran
  cases checked with
  | some checked =>
    obtain ⟨later, wired, continues⟩ := wires checked agrees bound array built lowered
    exact ⟨later, _, _, .some wired, continues⟩

mutual

/-- A command over banks is wired to the declarations of the command over arrays. -/
theorem lowerCommand_wired (clean : Banking.BankNameClean arrays names) {env : Banking.Env} :
    {cmd cmd' : TypedCommand} → Banking.BankedCommand ctx env cmd cmd' →
      WiresCommand arrays names rotors s ctx env cmd cmd'
  | _, _, .array found split => wires_array clean found split
  | _, _, .scalar found => wires_scalar clean found
  | _, _, .define value => wires_define clean value
  | _, _, .seq all => wires_seq (lowerSeq_wired clean all)
  | _, _, .branch value yes no =>
    wires_branch value (lowerCommand_wired clean yes) (lowerElse_wired clean no)
  | _, _, .loop _ round => wires_loop clean (lowerCommand_wired clean round)
  | _, _, .update place read => wires_update place read
  | _, _, .reduce place read => wires_reduce place read
  | _, _, .eval value => wires_eval value
  | _, _, .rotate rotated stepped => wires_rotate rotated stepped
  | _, _, .still fixed => wires_still fixed
  | _, _, .skip => wires_skip

theorem lowerSeq_wired (clean : Banking.BankNameClean arrays names) {env : Banking.Env} :
    {cmds cmds' : List TypedCommand} → Banking.BankedSeq ctx env cmds cmds' →
      WiresSeq arrays names rotors s ctx env cmds cmds'
  | _, _, .nil => wires_nil
  | _, _, .cons first rest =>
    wires_cons (lowerCommand_wired clean first) (lowerSeq_wired clean rest)

theorem lowerElse_wired (clean : Banking.BankNameClean arrays names) {env : Banking.Env} :
    {cmd cmd' : Option TypedCommand} → Banking.BankedElse ctx env cmd cmd' →
      WiresElse arrays names rotors s ctx env cmd cmd'
  | _, _, .none => wires_none
  | _, _, .some banked => wires_some (lowerCommand_wired clean banked)

end

end

end Lowering

end BankedLoops
