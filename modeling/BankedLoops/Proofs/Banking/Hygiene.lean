import BankedLoops.Proofs.Banking.Origins
import BankedLoops.Proofs.Banking.OverBanks
import BankedLoops.Proofs.Banking.Variables

/-!
# Hidden registers capture nothing

The registers that rotate arrays get names that nothing else in their component has: no storage, no
declaration, `let` or loop of the body, and no bank of any array. So behind the set-up of the
registers each of their names comes from its own `let`, wherever it stands, and every variable of the
source is defined, assigned and read as before.
-/

namespace BankedLoops

namespace Banking

namespace Prologue

/-- A split body behind the set-up of its registers. -/
def before (prologue : Prologue) (inner : TypedCommand) : TypedCommand :=
  if prologue.setup.isEmpty then inner else .seq inner.pos (prologue.setup ++ [inner])

/-- The place of the split body there. -/
def front (prologue : Prologue) : List Descent :=
  if prologue.setup.isEmpty then [] else [.item prologue.setup.length]

end Prologue

/-- Names that nothing of a component has, and no bank of any array. -/
structure Hidden (ds : List Decl) (body : TypedCommand) (names : List String) : Prop where
  distinct : names.Nodup
  notStored : ∀ name ∈ names, ∀ d ∈ ds, d.name ≠ name
  notBound : ∀ name ∈ names, ∀ cmd ∈ body.preorder, cmd.bound? ≠ some name
  notBank : ∀ name ∈ names, ∀ array k, name ≠ Layout.bankName array k

/-- The commands that set registers to zero, one for each. -/
def SetsUp (registers : List String) (setup : List TypedCommand) : Prop :=
  List.Forall₂ (fun register cmd =>
    ∃ pos width, cmd = .define pos register (.ubit width) (.lit 0)) registers setup

/-- A command of the source next to its split form, with the origins of names in the source, in the
split body on its own and behind the set-up of the registers. Only the name of a bank may hide a
variable. -/
structure Undisturbed (registers : List String) (layouts : List Layout) (front : List Descent)
    (source split behind : Origins) (cmd cmd' : TypedCommand) : Prop where
  definition : cmd'.definition? = cmd.definition?
  assigned : ∀ name ∉ registers, (cmd'.assigned? = some name ↔ cmd.assigned? = some name)
  uses : Keeps registers cmd.vars cmd'.vars
  shown : ∀ v ∈ cmd.vars, v.2 ∉ registers
  kept : ∀ v ∈ cmd.vars, (∀ l ∈ layouts, ∀ k, v.2 ≠ Layout.bankName l.name k) →
    split v.2 = source v.2
  moved : ∀ name ∉ registers, behind name = (split name).map (Origin.inside front)

/-- Whether hidden registers capture nothing in a component, and nothing captures them. -/
def Hygienic (statements : Statements) (c c' : List Decl × TypedCommand) : Prop :=
  ∃ prologue inner last,
    (setUpRotations statements c.2 (declared {} c.1) (binders c.2) (firstOfEach (advances c.2))).result =
      .ok prologue ∧
    (bankCommand ⟨statements, prologue.rotations⟩ prologue.env c.2).result = .ok (inner, last) ∧
    c'.2 = prologue.before inner ∧ Hidden c.1 c.2 prologue.registers ∧
    SetsUp prologue.registers prologue.setup ∧
    (∀ path s cmd, resolvedAt c'.1 c'.2 path = some (s, cmd) → ∀ v ∈ cmd.vars, ∀ j,
      prologue.registers[j]? = some v.2 → s.origins v.2 = some (.command [.item j])) ∧
    ∀ path s cmd, resolvedAt c.1 c.2 path = some (s, cmd) → ∃ split behind cmd',
      resolvedAt c'.1 inner path = some (split, cmd') ∧
      resolvedAt c'.1 c'.2 (prologue.front ++ path) = some (behind, cmd') ∧
      Undisturbed prologue.registers (layoutsOf c.1 c.2) prologue.front s.origins split.origins
        behind.origins cmd cmd'

/-! ### Names of registers -/

mutual

theorem mem_binders_of_bound {name : String} {inner : TypedCommand} (bound : inner.bound? = some name) :
    (cmd : TypedCommand) → inner ∈ cmd.preorder → name ∈ binders cmd
  | .seq _ cmds, inside => by
    rcases List.mem_cons.mp inside with rfl | inside
    · cases bound
    · exact mem_bindersOfSeq_of_bound bound cmds inside
  | .branch _ _ onTrue onFalse, inside => by
    rcases List.mem_cons.mp inside with rfl | inside
    · cases bound
    · rcases List.mem_append.mp inside with inTrue | inFalse
      · exact List.mem_append_left _ (mem_binders_of_bound bound onTrue inTrue)
      · exact List.mem_append_right _ (mem_bindersOfElse_of_bound bound onFalse inFalse)
  | .loop _ header body, inside => by
    rcases List.mem_cons.mp inside with rfl | inside
    · cases bound
      exact List.mem_cons_self
    · exact List.mem_cons_of_mem _ (mem_binders_of_bound bound body inside)
  | .decl .., inside | .define .., inside => by
    obtain rfl := List.mem_singleton.mp inside
    cases bound
    exact List.mem_cons_self
  | .update .., inside | .reduce .., inside | .eval .., inside | .advance .., inside | .skip _, inside => by
    obtain rfl := List.mem_singleton.mp inside
    cases bound

theorem mem_bindersOfSeq_of_bound {name : String} {inner : TypedCommand}
    (bound : inner.bound? = some name) : (cmds : List TypedCommand) →
      inner ∈ Command.preorderSeq cmds → name ∈ bindersOfSeq cmds
  | cmd :: cmds, inside => by
    rcases List.mem_append.mp inside with first | later
    · exact List.mem_append_left _ (mem_binders_of_bound bound cmd first)
    · exact List.mem_append_right _ (mem_bindersOfSeq_of_bound bound cmds later)

theorem mem_bindersOfElse_of_bound {name : String} {inner : TypedCommand}
    (bound : inner.bound? = some name) : (cmd : Option TypedCommand) →
      inner ∈ Command.preorderElse cmd → name ∈ bindersOfElse cmd
  | some cmd, inside => mem_binders_of_bound bound cmd inside

end

section

variable {statements : Statements} {body : TypedCommand} {env : Env} {taken : List String}
  {entries : List (String × Nat)} {prologue : Prologue}

/-- Registers are set up under new names that no bank has. -/
theorem registers_of_setUp
    (success : (setUpRotations statements body env taken entries).result = .ok prologue) :
    prologue.registers.Nodup ∧ SetsUp prologue.registers prologue.setup ∧
      ∀ name ∈ prologue.registers, name ∉ env.names ∧ name ∉ taken ∧
        ∀ array k, name ≠ Layout.bankName array k := by
  induction entries generalizing env taken prologue with
  | nil =>
    cases success
    exact ⟨List.nodup_nil, .nil, nofun⟩
  | cons entry entries ih =>
    obtain ⟨array, pos⟩ := entry
    obtain ⟨_, _, _, _, ⟨_, rest⟩ | ⟨register, ty, inner, named, _, typed, rest, rfl⟩⟩ :=
      setUpRotations_cons success
    · exact ih rest
    · obtain ⟨distinct, setUp, others⟩ := ih rest
      obtain ⟨hidden, free⟩ := not_mem_of_unboundName named
      cases Rotation.eq_of_ty typed
      refine ⟨List.nodup_cons.mpr ⟨fun again => ?_, distinct⟩, .cons ⟨pos, _, rfl⟩ setUp,
        List.forall_mem_cons.mpr ⟨⟨hidden, free, fun other k => ?_⟩, fun name member => ?_⟩⟩
      · exact (others register again).2.1 List.mem_cons_self
      · exact named ▸ Layout.suffixed_ne_bankName array other _ k
      · obtain ⟨hidden, free, notBank⟩ := others name member
        exact ⟨fun visible => hidden (List.mem_cons_of_mem _ visible),
          fun before => free (List.mem_cons_of_mem _ before), notBank⟩

end

theorem mem_names_declared {ds : List Decl} {env : Env} {name : String}
    (member : name ∈ ds.map (·.name) ∨ name ∈ env.names) : name ∈ (declared env ds).names := by
  induction ds generalizing env with
  | nil => exact member.resolve_left List.not_mem_nil
  | cons d ds ih =>
    refine ih ?_
    rcases member with stored | visible
    · rcases List.mem_cons.mp stored with rfl | later
      · exact .inr List.mem_cons_self
      · exact .inl later
    · exact .inr (List.mem_cons_of_mem _ visible)

/-! ### Names that the split binds -/

theorem binders_declBanks {l : Layout} {pos : Nat} {cmd : TypedCommand}
    (split : declBanks l pos = .ok cmd) {name : String} (bound : name ∈ binders cmd) :
    ∃ k, name = l.memory k := by
  have listed (ds : List Decl) : bindersOfSeq (ds.map fun d => .decl pos d.name d.ty) =
      ds.map (·.name) := by
    induction ds with
    | nil => rfl
    | cons d ds ih => rw [List.map_cons, bindersOfSeq, ih]; rfl
  obtain ⟨ds, named, form⟩ := declBanks_split split
  have inside : name ∈ ds.map (·.name) := by
    obtain ⟨d, rfl, rfl⟩ | ⟨_, rfl⟩ := form
    · exact bound
    · exact listed ds ▸ bound
  rw [Layout.split_eq named, List.map_map] at inside
  obtain ⟨k, _, rfl⟩ := List.mem_map.mp inside
  exact ⟨k, rfl⟩

mutual

/-- The split binds the names of the source and names of banks. -/
theorem binders_split {ctx : Context} {name : String} : {env : Env} → {cmd cmd' : TypedCommand} →
    BankedCommand ctx env cmd cmd' → name ∈ binders cmd' →
    name ∈ binders cmd ∨ ∃ array k, name = Layout.bankName array k
  | _, _, _, .array found split, bound => by
    obtain ⟨_, _, _, rfl⟩ := isArray_of_ofTy? found
    obtain ⟨k, rfl⟩ := binders_declBanks split bound
    unfold Layout.memory
    split
    · exact .inl List.mem_cons_self
    · exact .inr ⟨_, k, rfl⟩
  | _, _, _, .scalar _, bound | _, _, _, .define _, bound => .inl bound
  | _, _, _, .seq all, bound => bindersOfSeq_split all bound
  | _, _, _, .branch _ yes no, bound => by
    rcases List.mem_append.mp bound with inTrue | inFalse
    · exact (binders_split yes inTrue).imp_left (List.mem_append_left _)
    · exact (bindersOfElse_split no inFalse).imp_left (List.mem_append_right _)
  | _, _, _, .loop _ round, bound => by
    rcases List.mem_cons.mp bound with rfl | inside
    · exact .inl List.mem_cons_self
    · exact (binders_split round inside).imp_left (List.mem_cons_of_mem _)
  | _, _, _, .rotate _ stepped, bound => by
    obtain ⟨_, _, rfl, _⟩ := step_eq stepped
    cases bound
  | _, _, _, .update .., bound | _, _, _, .reduce .., bound | _, _, _, .eval _, bound
  | _, _, _, .still _, bound | _, _, _, .skip, bound => nomatch bound

theorem bindersOfSeq_split {ctx : Context} {name : String} : {env : Env} →
    {cmds cmds' : List TypedCommand} → BankedSeq ctx env cmds cmds' → name ∈ bindersOfSeq cmds' →
    name ∈ bindersOfSeq cmds ∨ ∃ array k, name = Layout.bankName array k
  | _, _, _, .nil, bound => nomatch bound
  | _, _, _, .cons first rest, bound => by
    rcases List.mem_append.mp bound with here | later
    · exact (binders_split first here).imp_left (List.mem_append_left _)
    · exact (bindersOfSeq_split rest later).imp_left (List.mem_append_right _)

theorem bindersOfElse_split {ctx : Context} {name : String} : {env : Env} →
    {cmd cmd' : Option TypedCommand} → BankedElse ctx env cmd cmd' → name ∈ bindersOfElse cmd' →
    name ∈ bindersOfElse cmd ∨ ∃ array k, name = Layout.bankName array k
  | _, _, _, .none, bound => nomatch bound
  | _, _, _, .some banked, bound => binders_split banked bound

end

/-! ### Origins of variables -/

/-- Every name that the checker sees comes from somewhere, and a variable from the same place in the
split, unless a bank has its name. -/
def Alike (layouts : List Layout) (types : Typing.Env) (source split : Origins) : Prop :=
  ∀ name binding, types.get? name = some binding → (source name).isSome = true ∧
    ((∀ elem dims, binding ≠ .array elem dims) →
      (∀ l ∈ layouts, ∀ k, name ≠ Layout.bankName l.name k) → split name = source name)

section

variable {layouts : List Layout} {types types' : Typing.Env} {source split : Origins}
  {tctx : Typing.Context} {ctx : Context} {env : Env}

theorem Alike.enter (alike : Alike layouts types source split) :
    Alike layouts types.enter source split := alike

theorem Alike.rebind (alike : Alike layouts types source split) (name : String)
    (binding : Typing.Binding) (path : List Descent) :
    Alike layouts (types.rebind name binding) (source.bind name (.command path))
      (split.bind name (.command path)) := by
  intro other found visible
  rw [Scope.get?_rebind] at visible
  unfold Origins.bind
  by_cases same : other = name
  · rw [if_pos same, if_pos same]
    exact ⟨rfl, fun _ _ => rfl⟩
  · rw [if_neg same] at visible ⊢
    rw [if_neg same]
    exact alike other found visible

/-- The banks of an array are no variables. -/
theorem Alike.array (alike : Alike layouts types source split) {l : Layout} (among : l ∈ layouts)
    {pos : Nat} {banks : TypedCommand} (declared : declBanks l pos = .ok banks) (path : List Descent) :
    Alike layouts (types.rebind l.name (.array l.elem l.dims)) (source.bind l.name (.command path))
      (split.after path banks) := by
  intro other found visible
  rw [Scope.get?_rebind] at visible
  unfold Origins.bind
  by_cases same : other = l.name
  · rw [if_pos same] at visible ⊢
    cases visible
    exact ⟨rfl, fun plain => absurd rfl (plain _ _)⟩
  · rw [if_neg same] at visible ⊢
    refine ⟨(alike other found visible).1, fun plain apart => ?_⟩
    rw [after_of_not_bound, (alike other found visible).2 plain apart]
    intro bound
    obtain ⟨k, isBank⟩ := binders_declBanks declared bound
    unfold Layout.memory at isBank
    split at isBank
    · exact same isBank
    · exact apart l among k isBank

mutual

theorem Alike.after {path : List Descent} {types types' : Typing.Env} {env : Env}
    {source split : Origins} {cmd cmd' : TypedCommand} (alike : Alike layouts types source split) :
    Typing.CheckedCommand tctx types cmd types' → BankedCommand ctx env cmd cmd' →
    layoutsIn cmd ⊆ layouts → Alike layouts types' (source.after path cmd) (split.after path cmd')
  | .decl _ fresh, .array found split, among => by
    obtain ⟨_, _, rfl, rfl⟩ := isArray_of_ofTy? found
    rw [Scope.eq_rebind_of_bind? fresh]
    exact alike.array (among List.mem_cons_self) split path
  | .decl _ fresh, .scalar _, _ => by
    rw [Scope.eq_rebind_of_bind? fresh]
    exact alike.rebind _ _ path
  | .define _ _ _ fresh, .define _, _ => by
    rw [Scope.eq_rebind_of_bind? fresh]
    exact alike.rebind _ _ path
  | .seq checked, .seq all, among => alike.afterSeq checked all among
  | .advance _, .rotate _ stepped, _ => by
    obtain ⟨_, _, rfl, _⟩ := step_eq stepped
    exact alike
  | .branch .., .branch .., _ | .loop .., .loop .., _ | .update .., .update .., _
  | .reduce .., .reduce .., _ | .call .., .eval _, _ | .eval _, .eval _, _
  | .advance _, .still _, _ | .skip, .skip, _ => alike

theorem Alike.afterSeq {path : List Descent} {types types' : Typing.Env} {env : Env}
    {source split : Origins} {k : Nat} {cmds cmds' : List TypedCommand}
    (alike : Alike layouts types source split) : Typing.CheckedSeq tctx types cmds types' →
    BankedSeq ctx env cmds cmds' → layoutsInSeq cmds ⊆ layouts →
    Alike layouts types' (source.afterSeq path k cmds) (split.afterSeq path k cmds')
  | .nil, .nil, _ => alike
  | .cons first rest, .cons first' rest', among => by
    obtain ⟨here, later⟩ := List.append_subset.mp among
    exact (alike.after first first' here).afterSeq rest rest' later

end

end

/-! ### Into a component -/

theorem bankedSeq_item {ctx : Context} {env : Env} {cmds cmds' : List TypedCommand}
    (all : BankedSeq ctx env cmds cmds') {k : Nat} {cmd : TypedCommand} (found : cmds[k]? = some cmd) :
    ∃ cmd', cmds'[k]? = some cmd' ∧ BankedSeq ctx env (cmds.take k) (cmds'.take k) ∧
      BankedCommand ctx (afterSeq env (cmds.take k)) cmd cmd' := by
  induction cmds generalizing env cmds' k with
  | nil => cases found
  | cons first cmds ih =>
    cases all with
    | cons here rest =>
      cases k with
      | zero =>
        cases found
        exact ⟨_, rfl, .nil, here⟩
      | succ k =>
        obtain ⟨cmd', listed, before, inside⟩ := ih rest found
        exact ⟨cmd', listed, .cons here before, inside⟩

theorem BankedSeq.length_eq {ctx : Context} {env : Env} {cmds cmds' : List TypedCommand}
    (all : BankedSeq ctx env cmds cmds') : cmds'.length = cmds.length := by
  induction cmds generalizing env cmds' with
  | nil =>
    cases all
    rfl
  | cons cmd cmds ih =>
    cases all with
    | cons _ rest => rw [List.length_cons, List.length_cons, ih rest]

/-- A checked command and its split form, and the origins of the names at both. -/
structure Tracks (layouts : List Layout) (ctx : Context) (s t : Whereabouts) (cmd cmd' : TypedCommand) :
    Prop where
  place : t.path = s.path
  typed : ∃ tctx types types' env, Typing.CheckedCommand tctx types cmd types' ∧ Agrees types env ∧
    BankedCommand ctx env cmd cmd' ∧ Alike layouts types s.origins t.origins
  among : layoutsIn cmd ⊆ layouts

namespace Tracks

variable {layouts : List Layout} {ctx : Context} {s s' t : Whereabouts} {cmd cmd' inner : TypedCommand}

theorem descend {step : Descent} (tracks : Tracks layouts ctx s t cmd cmd')
    (went : resolving.Descends s s' cmd step inner) : ∃ t' inner',
      resolving.Descends t t' cmd' step inner' ∧ Tracks layouts ctx s' t' inner inner' := by
  obtain ⟨place, ⟨tctx, types, types', env, checked, agrees, split, alike⟩, among⟩ := tracks
  obtain ⟨path, source⟩ := s
  obtain ⟨_, origins⟩ := t
  obtain rfl : _ = path := place
  cases went with
  | @item _ k cmds _ behind found =>
    cases behind
    cases checked with
    | seq checked =>
      cases split with
      | @seq _ _ _ cmds' all =>
        obtain ⟨inner', listed, before, inside⟩ := bankedSeq_item all found
        obtain ⟨_, _, typed, typedInside⟩ := checkedSeq_item checked found
        have reaches := (layoutsInSeq_item found).subset
        refine ⟨_, inner', .item rfl listed, ?_, ⟨_, _, _, _, typedInside, agrees.afterSeq typed, inside,
          alike.afterSeq typed before fun l inside =>
            among (reaches (List.mem_append_left _ inside))⟩,
          fun l inside => among (reaches (List.mem_append_right _ inside))⟩
        rw [before.length_eq]
  | onTrue met =>
    cases met
    cases checked with
    | branch _ _ yes _ =>
      cases split with
      | branch _ yes' _ =>
        exact ⟨_, _, .onTrue rfl, rfl, ⟨_, _, _, _, yes, agrees.enter, yes', alike⟩,
          fun l inside => among (List.mem_append_left _ inside)⟩
  | onFalse met =>
    cases met
    cases checked with
    | branch _ _ _ no =>
      cases split with
      | branch _ _ no' =>
        cases no with
        | some no =>
          cases no' with
          | some no' =>
            exact ⟨_, _, .onFalse rfl, rfl, ⟨_, _, _, _, no, agrees.enter, no', alike⟩,
              fun l inside => among (List.mem_append_right _ inside)⟩
  | round met =>
    cases met
    cases checked with
    | loop range checked =>
      cases split with
      | loop _ round =>
        exact ⟨_, _, .round rfl, rfl, ⟨_, _, _, _, checked, agrees.round range, round,
          alike.enter.rebind _ _ _⟩, among⟩

theorem visit {path : List Descent} (tracks : Tracks layouts ctx s t cmd cmd')
    (met : resolving.visit s cmd path = some (s', inner)) : ∃ t' inner',
      resolving.visit t cmd' path = some (t', inner') ∧ Tracks layouts ctx s' t' inner inner' := by
  induction path generalizing s t cmd cmd' with
  | nil =>
    cases met
    exact ⟨t, cmd', rfl, tracks⟩
  | cons step path ih =>
    obtain ⟨_, _, went, rest⟩ := Pass.visit_cons_eq_some_iff.mp met
    obtain ⟨_, _, here, tracks⟩ := tracks.descend went
    obtain ⟨t', inner', deeper, tracks⟩ := ih tracks rest
    exact ⟨t', inner', Pass.visit_cons_of here deeper, tracks⟩

end Tracks

/-! ### The start of a component -/

theorem mem_of_checkedDecls {types types' : Typing.Env} {ds : List Decl}
    (checked : Typing.CheckedDecls types ds types') {name : String} {binding : Typing.Binding}
    (visible : types'.get? name = some binding) :
    (∃ d ∈ ds, d.name = name ∧ binding = .ofTy d.ty) ∨ types.get? name = some binding := by
  induction checked with
  | nil => exact .inr visible
  | @cons types _ _ d _ _ fresh _ ih =>
    rcases ih visible with ⟨e, member, named⟩ | before
    · exact .inl ⟨e, List.mem_cons_of_mem _ member, named⟩
    · rw [Scope.eq_rebind_of_bind? fresh, Scope.get?_rebind] at before
      split at before
      · next same =>
        cases before
        exact .inl ⟨d, List.mem_cons_self, same.symm, rfl⟩
      · exact .inr before

theorem ofDecls_of_mem {ds : List Decl} {d : Decl} (member : d ∈ ds) :
    Origins.ofDecls ds d.name = some .storage :=
  if_pos (List.mem_map.mpr ⟨d, member, rfl⟩)

/-- Storage that is no array is kept. -/
theorem alike_ofDecls {types : Typing.Env} {ds : List Decl} (checked : Typing.CheckedDecls {} ds types)
    (layouts : List Layout) :
    Alike layouts types (.ofDecls ds) (.ofDecls (ds.flatMap memoriesOfDecl)) := by
  intro name binding visible
  obtain ⟨d, member, rfl, rfl⟩ := (mem_of_checkedDecls checked visible).resolve_right nofun
  rw [ofDecls_of_mem member]
  refine ⟨rfl, fun plain _ => ofDecls_of_mem (List.mem_flatMap.mpr ⟨d, member, ?_⟩)⟩
  unfold memoriesOfDecl
  split
  · next elem dims isArray =>
    rw [isArray] at plain
    exact absurd rfl (plain elem dims)
  · exact List.mem_singleton_self d

theorem mem_of_ofDecls {ds : List Decl} {name : String}
    (stored : (Origins.ofDecls ds name).isSome = true) : name ∈ ds.map (·.name) := by
  by_contra absent
  rw [Origins.ofDecls, if_neg absent] at stored
  cases stored

theorem ofDecls_inside (ds : List Decl) (front : List Descent) (name : String) :
    (Origins.ofDecls ds name).map (Origin.inside front) = Origins.ofDecls ds name := by
  unfold Origins.ofDecls
  split <;> rfl

/-- Each register comes from its own `let`, and the other names from where they came from. -/
theorem SetsUp.origins {registers : List String} {setup : List TypedCommand}
    (setsUp : SetsUp registers setup) (o : Origins) (path : List Descent) (k : Nat) :
    (∀ name ∉ registers, o.afterSeq path k setup name = o name) ∧
      (registers.Nodup → ∀ j name, registers[j]? = some name →
        o.afterSeq path k setup name = some (.command (path ++ [.item (k + j)]))) := by
  induction setsUp generalizing o k with
  | nil => exact ⟨fun _ _ => rfl, nofun⟩
  | @cons register cmd registers setup set _ ih =>
    obtain ⟨pos, width, rfl⟩ := set
    obtain ⟨others, theirs⟩ := ih (o.bind register (.command (path ++ [.item k]))) (k + 1)
    constructor
    · intro name free
      rw [List.mem_cons, not_or] at free
      exact (others name free.2).trans (if_neg free.1)
    · intro distinct j name found
      rw [List.nodup_cons] at distinct
      cases j with
      | zero =>
        cases found
        exact (others register distinct.1).trans (if_pos rfl)
      | succ j =>
        rw [← Nat.succ_add_eq_add_succ]
        exact theirs distinct.2 j name found

section

variable {prologue : Prologue} {inner : TypedCommand}

/-- A place of the split body, behind the set-up. -/
theorem visit_before {o : Origins} {path : List Descent} {s : Whereabouts} {cmd : TypedCommand}
    (met : resolving.visit ⟨prologue.front, o.afterSeq [] 0 prologue.setup⟩ inner path = some (s, cmd)) :
    resolving.visit ⟨[], o⟩ (prologue.before inner) (prologue.front ++ path) = some (s, cmd) := by
  unfold Prologue.front at met ⊢
  unfold Prologue.before
  split at met
  · next none =>
    rw [if_pos none, if_pos none]
    rw [List.isEmpty_iff.mp none] at met
    exact met
  · next some =>
    rw [if_neg some, if_neg some]
    refine Pass.visit_cons_of (.item ?_ (List.getElem?_concat_length ..)) met
    rw [List.take_left]
    rfl

/-- A place behind the set-up is one of the split body, unless nothing is read there. -/
theorem visit_of_before {o : Origins} {path : List Descent} {s : Whereabouts} {cmd : TypedCommand}
    {registers : List String} (setsUp : SetsUp registers prologue.setup)
    (met : resolving.visit ⟨[], o⟩ (prologue.before inner) path = some (s, cmd)) :
    cmd.vars = [] ∨ ∃ rest,
      resolving.visit ⟨prologue.front, o.afterSeq [] 0 prologue.setup⟩ inner rest = some (s, cmd) := by
  unfold Prologue.before at met
  unfold Prologue.front
  split at met
  · next none =>
    rw [if_pos none, List.isEmpty_iff.mp none]
    exact .inr ⟨path, met⟩
  · next some =>
    rw [if_neg some]
    cases path with
    | nil =>
      cases met
      exact .inl rfl
    | cons step path =>
      obtain ⟨mid, next, went, rest⟩ := Pass.visit_cons_eq_some_iff.mp met
      cases went with
      | @item _ k _ _ behind found =>
        cases behind
        rcases Nat.lt_trichotomy k prologue.setup.length with early | rfl | late
        · -- A `let` of a register has nothing inside and reads nothing.
          rw [List.getElem?_append_left early] at found
          obtain ⟨lt, rfl⟩ := List.getElem?_eq_some_iff.mp found
          obtain ⟨pos, width, isLet⟩ := setsUp.get (setsUp.length_eq ▸ lt) lt
          rw [List.get_eq_getElem] at isLet
          rw [isLet] at rest
          cases path with
          | nil =>
            cases rest
            exact .inl rfl
          | cons step path =>
            obtain ⟨_, _, went, _⟩ := Pass.visit_cons_eq_some_iff.mp rest
            cases went
        · rw [List.getElem?_concat_length] at found
          cases found
          rw [List.take_left] at rest
          exact .inr ⟨path, rest⟩
        · rw [List.getElem?_eq_none (by rw [List.length_append, List.length_singleton]; omega)] at found
          cases found

theorem bankBody_before {statements : Statements} {env : Env} {body body' : TypedCommand}
    (success : (bankBody statements env body).result = .ok body') :
    ∃ prologue inner last, (setUpRotations statements body env (binders body)
        (firstOfEach (advances body))).result = .ok prologue ∧
      (bankCommand ⟨statements, prologue.rotations⟩ prologue.env body).result = .ok (inner, last) ∧
      body' = prologue.before inner := by
  simp only [bankBody, Outcome.result_bind, bind_ok_iff] at success
  obtain ⟨prologue, setUp, ⟨inner, last⟩, split, success⟩ := success
  refine ⟨prologue, inner, last, setUp, split, ?_⟩
  unfold Prologue.before
  split at success <;> cases success
  · next none => rw [if_pos none]
  · next some => rw [if_neg some]

end

/-! ### Components -/

section

variable {tctx : Typing.Context} {types types' : Typing.Env}

/-- A binding of a scalar or of an iterator. -/
def Plain (binding : Typing.Binding) : Prop := ∀ elem dims, binding ≠ .array elem dims

mutual

theorem plain_of_mem_vars {v : Ty × String} : {e : TypedExpr} → Typing.CheckedExpr tctx types e →
    v ∈ e.vars → ∃ binding, types.get? v.2 = some binding ∧ Plain binding
  | _, .scalar bound, inside | _, .iterator bound, inside => by
    rw [List.mem_singleton.mp inside]
    exact ⟨_, bound, nofun⟩
  | _, .binop left right _, inside => by
    rcases List.mem_append.mp inside with inLeft | inRight
    · exact plain_of_mem_vars left inLeft
    · exact plain_of_mem_vars right inRight
  | _, .access _ indices, inside => plain_of_mem_varsOf indices inside

theorem plain_of_mem_varsOf {v : Ty × String} : {dims : List Dim} → {idxs : List TypedExpr} →
    Typing.CheckedIndices tctx types dims idxs → v ∈ TypedExpr.varsOf idxs →
    ∃ binding, types.get? v.2 = some binding ∧ Plain binding
  | _, _, .cons checked _ _ rest, inside => by
    rcases List.mem_append.mp inside with here | later
    · exact plain_of_mem_vars checked here
    · exact plain_of_mem_varsOf rest later

end

/-- The variables of a checked command are visible. -/
theorem plain_of_command {cmd : TypedCommand} (checked : Typing.CheckedCommand tctx types cmd types')
    {v : Ty × String} (inside : v ∈ cmd.vars) :
    ∃ binding, types.get? v.2 = some binding ∧ Plain binding := by
  have placed {target : TypedExpr} (place : Typing.CheckedTarget tctx types target)
      (inside : v ∈ target.vars) : ∃ binding, types.get? v.2 = some binding ∧ Plain binding := by
    cases place with
    | register bound =>
      rw [List.mem_singleton.mp inside]
      exact ⟨_, bound, nofun⟩
    | element checked => exact plain_of_mem_vars checked inside
  cases checked with
  | define value _ _ _ => exact plain_of_mem_vars value inside
  | branch value _ _ _ => exact plain_of_mem_vars value inside
  | update place value _ =>
    exact (List.mem_append.mp inside).elim (placed place) (plain_of_mem_vars value)
  | reduce place _ value _ =>
    exact (List.mem_append.mp inside).elim (placed place) (plain_of_mem_vars value)
  | eval value => exact plain_of_mem_vars value inside
  | _ => cases inside

theorem hygienic_of_bankBody {statements : Statements} {ds : List Decl} {body body' : TypedCommand}
    (decls : Typing.CheckedDecls {} ds types) (checked : Typing.CheckedCommand tctx types body types')
    (success : (bankBody statements (declared {} ds) body).result = .ok body') :
    Hygienic statements (ds, body) (ds.flatMap memoriesOfDecl, body') := by
  obtain ⟨prologue, inner, last, setUp, split, rfl⟩ := bankBody_before success
  obtain ⟨distinct, setsUp, free⟩ := registers_of_setUp setUp
  have hidden : Hidden ds body prologue.registers := by
    refine ⟨distinct, fun name member d stored same => ?_, fun name member cmd inside bound => ?_,
      fun name member => (free name member).2.2⟩
    · exact (free name member).1 (mem_names_declared (.inl (List.mem_map.mpr ⟨d, stored, same⟩)))
    · exact (free name member).2.1 (mem_binders_of_bound bound body inside)
  have banked := (bankCommand_ok body split).1
  have apart : ∀ name ∈ binders inner, name ∉ prologue.registers := by
    intro name bound member
    rcases binders_split banked bound with bound | ⟨array, k, isBank⟩
    · exact (free name member).2.1 bound
    · exact hidden.notBank name member array k isBank
  have start : Tracks (layoutsOf ds body) ⟨statements, prologue.rotations⟩ ⟨[], .ofDecls ds⟩
      ⟨[], .ofDecls (ds.flatMap memoriesOfDecl)⟩ body inner :=
    ⟨rfl, ⟨_, _, _, _, checked, (Agrees.empty.declared decls).setUpRotations setUp, banked,
      alike_ofDecls decls _⟩, List.subset_append_right _ _⟩
  have shifted : Shifted prologue.registers prologue.front
      ((Origins.ofDecls (ds.flatMap memoriesOfDecl)).afterSeq [] 0 prologue.setup)
      (.ofDecls (ds.flatMap memoriesOfDecl))
      ((Origins.ofDecls (ds.flatMap memoriesOfDecl)).afterSeq [] 0 prologue.setup) :=
    ⟨fun _ _ => rfl, fun name visible => by rw [ofDecls_inside, (setsUp.origins _ _ _).1 name visible]⟩
  refine ⟨prologue, inner, last, setUp, split, rfl, hidden, setsUp, ?_, ?_⟩
  · intro path s cmd met v inside j register
    rcases visit_of_before setsUp met with none | ⟨rest, met⟩
    · rw [none] at inside
      cases inside
    · have unbound := fun bound => apart _ bound (List.mem_of_getElem? register)
      have own := (setsUp.origins (.ofDecls (ds.flatMap memoriesOfDecl)) [] 0).2 distinct j _ register
      rw [Nat.zero_add] at own
      exact (origins_of_not_bound unbound met).trans own
  · intro path s cmd met
    obtain ⟨t, cmd', found, tracks⟩ := start.visit met
    obtain ⟨behind, deeper, _, shifted⟩ := shifted.visit apart
      (show (Whereabouts.mk prologue.front _).path = _ from (List.append_nil _).symm) found
    obtain ⟨_, ⟨_, _, _, _, checked, agrees, split, alike⟩, _⟩ := tracks
    have known := prologue.registered statements
    refine ⟨t, behind, cmd', found, visit_before deeper, definition_command split,
      fun name user => assigned_command known split user, keeps_command known agrees checked split,
      fun v inside register => ?_, fun v inside notBank => ?_, shifted.shown⟩
    · obtain ⟨binding, visible, _⟩ := plain_of_command checked inside
      have unbound := fun bound => (free _ register).2.1 bound
      have somewhere := (alike _ _ visible).1
      rw [origins_of_not_bound unbound met] at somewhere
      obtain ⟨d, stored, same⟩ := List.mem_map.mp (mem_of_ofDecls somewhere)
      exact hidden.notStored _ register d stored same
    · obtain ⟨binding, visible, plain⟩ := plain_of_command checked inside
      exact (alike _ _ visible).2 plain notBank

end

/-- The registers that rotate the arrays of a component capture nothing, and nothing captures them:
their names differ from each other and from every name of the component and of a bank, so each is
resolved to the `let` that sets it up, wherever the split body reads it or sets it, and every variable
of the source is defined, assigned and read as before. -/
theorem toBanks_hygienic {p : SourceProgram} {typed : TypedProgram} {statements : Statements}
    {banked : BankedProgram} (checked : p.check.result = .ok typed)
    (split : (typed.toBanks statements).result = .ok banked) :
    List.Forall₂ (Hygienic statements) typed.components banked.program.components := by
  have wellTyped := Typing.checkedProgram_of_check checked
  have components := (List.forall₂_and_left _ _).mpr
    ⟨fun c (member : c ∈ typed.components) => wellTyped.component member, Program.forall₂_split split⟩
  refine components.imp ?_
  rintro ⟨ds, body⟩ ⟨banked, body'⟩ ⟨⟨_, _, _, decls, checked⟩, storage, success⟩
  obtain rfl := bankDecls_eq storage
  exact hygienic_of_bankBody decls checked success

/-- Rotates two arrays, one of which has the name that the register of the other would get. The names
that come next are those of a `let` and of a `let` in a branch. -/
def crowded : SourceProgram where
  decls := [⟨0, "a", .array (.ubit 8) [⟨4, 2⟩]⟩, ⟨1, "a_bank", .array (.ubit 8) [⟨4, 2⟩]⟩]
  defs := []
  body := some (.seq 2 [.define 3 "a_bank_1" none (.access "a" [.int 0]), .advance 4 "a",
    .advance 5 "a_bank", .branch 6 (.bool true)
      (.seq 7 [.define 8 "a_bank_bank" none (.access "a_bank" [.int 3])]) none])

/-- The registers come first. -/
theorem toBanks_hygienic_crowded : ∃ typed banked, crowded.check.result = .ok typed ∧
    (typed.toBanks (.ofProgram crowded)).result = .ok banked ∧
    banked.program.components.map (fun c => binders c.2) =
      [["a_bank_2", "a_bank_bank_1", "a_bank_1", "a_bank_bank"]] ∧
    List.Forall₂ (Hygienic (.ofProgram crowded)) typed.components banked.program.components := by
  have computed : ∃ built : TypedProgram × BankedProgram, (do
      let typed ← crowded.check.result
      let banked ← (typed.toBanks (.ofProgram crowded)).result
      pure (typed, banked)) = .ok built ∧ built.2.program.components.map (fun c => binders c.2) =
        [["a_bank_2", "a_bank_bank_1", "a_bank_1", "a_bank_bank"]] :=
    exists_ok_of_map (by decide +kernel)
  obtain ⟨built, success, bound⟩ := computed
  simp only [bind_ok_iff, pure_ok_iff] at success
  obtain ⟨typed, checked, banked, split, rfl⟩ := success
  exact ⟨typed, banked, checked, split, bound, toBanks_hygienic checked split⟩

end Banking

end BankedLoops
