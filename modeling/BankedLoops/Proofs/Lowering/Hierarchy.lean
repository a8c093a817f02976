import BankedLoops.Proofs.Compile
import BankedLoops.Proofs.Lowering.Calls

/-!
# The hierarchy of components

The components of a netlist form a hierarchy: each has a name of its own and instantiates, once at
most, only components before it. What an invocation passes on are memories, one for each memory that
the invoked component refers to.
-/

namespace BankedLoops

/-- The component that a cell instantiates, if it is not a primitive. -/
def Cell.component? (c : Cell) : Option String :=
  match c.prototype with
  | .primitive .. => none
  | .component name => some name

def Cell.IsMemory (c : Cell) : Prop :=
  ∃ (dims : Nat) (params : List Nat), c.prototype = .primitive s!"seq_mem_d{dims}" params

/-- The memories that a component is given by those that invoke it. -/
def Component.references (c : Component) : List Cell := c.cells.filter (·.isReference)

/-- A component invokes an instance of `callee` and passes a memory on for each of its references, in
their order. If `alike` holds, the two are of one kind. -/
structure Component.Invokes (alike : Prop) (c callee : Component) (cell : String)
    (refs : List (String × String)) : Prop where
  instance_ : ∃ i ∈ c.cells, i.name = cell ∧ i.prototype = .component callee.name
  passed : List.Forall₂ (fun ref r => ref.1 = r.name ∧ ∃ m ∈ c.cells, m.name = ref.2 ∧ m.IsMemory ∧
    (alike → m.prototype = r.prototype)) refs callee.references

structure Netlist.Hierarchical (alike : Prop) (n : Netlist) : Prop where
  distinct : (n.components.map (·.name)).Nodup
  single : ∀ c ∈ n.components, (c.cells.filterMap Cell.component?).Nodup
  earlier : ∀ (i : Nat) (c : Component), n.components[i]? = some c →
    ∀ name ∈ c.cells.filterMap Cell.component?, ∃ j < i, ∃ callee : Component,
      n.components[j]? = some callee ∧ callee.name = name
  invocations : ∀ (i : Nat) (c : Component), n.components[i]? = some c →
    ∀ call ∈ c.control.invocations, ∃ j < i, ∃ callee : Component,
      n.components[j]? = some callee ∧ c.Invokes alike callee call.1 call.2

namespace Lowering

/-! ### Instances -/

/-- The function that a cell instantiates, with the name of the cell. -/
def instantiated? (c : Cell) : Option (String × String) := c.component?.map (·, c.name)

/-- The workspace keeps account of its instances, and no function has two. -/
structure Workspace.Instanced (allowed : String → Prop) (w : Workspace) : Prop where
  listed : w.cells.filterMap instantiated? = w.instances.reverse
  single : (w.instances.map Prod.fst).Nodup
  permitted : ∀ entry ∈ w.instances, allowed entry.1

section

variable {allowed : String → Prop} {w w' : Workspace}

theorem Step.instanced (step : Step allowed w w') (instanced : w.Instanced allowed) :
    w'.Instanced allowed := by
  obtain ⟨listed, single, permitted⟩ := instanced
  cases step with
  | note cells _ instances => exact ⟨by rw [cells, instances, listed], by rwa [instances], by rwa [instances]⟩
  | take _ cells instances => exact ⟨by rw [cells, instances, listed], by rwa [instances], by rwa [instances]⟩
  | install _ _ cells instances =>
    refine ⟨?_, by rwa [instances], by rwa [instances]⟩
    rw [cells, instances, List.filterMap_append, listed]
    exact List.append_nil _
  | instantiate allows first _ _ cells instances =>
    refine ⟨?_, ?_, ?_⟩
    · rw [cells, instances, List.filterMap_append, listed, List.reverse_cons]
      rfl
    · rw [instances, List.map_cons, List.nodup_cons]
      refine ⟨fun inside => ?_, single⟩
      obtain ⟨entry, member, same⟩ := List.mem_map.mp inside
      have different := List.lookup_eq_none_iff.mp first entry member
      exact absurd same.symm (by simpa using different)
    · rw [instances]
      exact List.forall_mem_cons.mpr ⟨allows, permitted⟩

theorem Stepped.instanced (built : Stepped allowed w w') (instanced : w.Instanced allowed) :
    w'.Instanced allowed := by
  induction built with
  | refl => exact instanced
  | tail _ step ih => exact step.instanced ih

theorem Workspace.Instanced.components (instanced : w.Instanced allowed) :
    w.cells.filterMap Cell.component? = (w.instances.map Prod.fst).reverse := by
  have entries : w.cells.filterMap Cell.component? =
      (w.cells.filterMap instantiated?).map Prod.fst := by
    rw [List.map_filterMap]
    congr
    funext c
    rw [instantiated?, Option.map_map]
    exact (Option.map_id' (x := c.component?)).symm
  rw [entries, instanced.listed, List.map_reverse]

theorem Workspace.Instanced.cell (instanced : w.Instanced allowed) {func cell : String}
    (member : (func, cell) ∈ w.instances) :
    ∃ i ∈ w.cells, i.name = cell ∧ i.prototype = .component func := by
  rw [← List.mem_reverse, ← instanced.listed, List.mem_filterMap] at member
  obtain ⟨i, inside, entry⟩ := member
  obtain ⟨name, isComponent, same⟩ := Option.map_eq_some_iff.mp entry
  cases same
  refine ⟨i, inside, rfl, ?_⟩
  unfold Cell.component? at isComponent
  split at isComponent
  · cases isComponent
  · next same =>
    cases isComponent
    exact same

/-! ### Memories seen from outside -/

/-- Whether a cell is seen from outside in the given way. -/
def Exposure.shows : Exposure → Cell → Bool
  | .hidden, _ => false
  | .external, c => c.isExternal
  | .reference, c => c.isReference

theorem Exposure.shows_plain (exposure : Exposure) (name : String) (prototype : Prototype) :
    exposure.shows { name, prototype } = false := by
  cases exposure <;> rfl

theorem Step.filter_shows (step : Step allowed w w') (exposure : Exposure) :
    w'.cells.filter exposure.shows = w.cells.filter exposure.shows := by
  cases step with
  | note cells _ _ => rw [cells]
  | take _ cells _ => rw [cells]
  | install _ _ cells _ =>
    rw [cells, List.filter_append, List.filter_singleton, exposure.shows_plain]
    exact List.append_nil _
  | instantiate _ _ _ _ cells _ =>
    rw [cells, List.filter_append, List.filter_singleton, exposure.shows_plain]
    exact List.append_nil _

theorem Stepped.filter_shows (built : Stepped allowed w w') (exposure : Exposure) :
    w'.cells.filter exposure.shows = w.cells.filter exposure.shows := by
  induction built with
  | refl => rfl
  | tail _ step ih => rw [step.filter_shows, ih]

/-- The cells of the arrays among declarations, under the names of the arrays. -/
def arrayCells (exposure : Exposure) (ds : List Decl) : List Cell :=
  (ds.filter (·.ty.isArray)).map fun d => cellOf d exposure d.name

theorem arrayCells_cons (exposure : Exposure) {d : Decl} (isArray : d.ty.isArray = true) (ds : List Decl) :
    arrayCells exposure (d :: ds) = cellOf d exposure d.name :: arrayCells exposure ds := by
  simp [arrayCells, isArray]

theorem shows_cellOf {exposure : Exposure} (visible : exposure ≠ .hidden) (d : Decl) (name : String) :
    exposure.shows (cellOf d exposure name) = d.ty.isArray := by
  unfold cellOf
  cases d.ty <;> cases exposure <;> first | rfl | exact absurd rfl visible

theorem declareAll_instanced {s : Setting} {exposure : Exposure} {env env' : Env} {ds : List Decl}
    (ran : (declareAll s exposure env ds).run w = .ok (env', w')) (instanced : w.Instanced allowed) :
    w'.Instanced allowed := by
  induction ds generalizing env w with
  | nil =>
    cases ran
    exact instanced
  | cons d ds ih =>
    obtain ⟨next, v, declared, rest⟩ := run_bind_ok_iff.mp ran
    obtain ⟨name, declares⟩ := declares_of_run declared
    have plain : instantiated? (cellOf d exposure name) = none := by
      unfold cellOf
      split <;> rfl
    refine ih rest ⟨?_, ?_, ?_⟩
    · rw [declares.cells, declares.instances, List.filterMap_append, instanced.listed,
        List.filterMap_cons_none plain]
      exact List.append_nil _
    · rw [declares.instances]
      exact instanced.single
    · rw [declares.instances]
      exact instanced.permitted

theorem declareAll_shown {s : Setting} {exposure : Exposure} (visible : exposure ≠ .hidden)
    {env env' : Env} {ds : List Decl} (ran : (declareAll s exposure env ds).run w = .ok (env', w')) :
    w'.cells.filter exposure.shows = w.cells.filter exposure.shows ++ arrayCells exposure ds := by
  induction ds generalizing env w with
  | nil =>
    cases ran
    exact (List.append_nil _).symm
  | cons d ds ih =>
    obtain ⟨next, v, declared, rest⟩ := run_bind_ok_iff.mp ran
    obtain ⟨name, declares⟩ := declares_of_run declared
    rw [ih rest, declares.cells, List.filter_append, List.filter_singleton, shows_cellOf visible,
      List.append_assoc]
    congr 1
    cases isArray : d.ty.isArray with
    | false => simp [arrayCells, isArray]
    | true =>
      obtain rfl := declares.kept isArray visible
      exact (arrayCells_cons exposure isArray ds).symm

end

/-! ### Components -/

/-- What came of assembling a component that sees the functions `funcs`. -/
structure Composed (exact : Prop) (s : Setting) (funcs : List (String × List Decl))
    (exposure : Exposure) (ds : List Decl) (control : Control) (v : Workspace) : Prop where
  named : v.cellNames.Nodup
  instanced : v.Instanced fun func => ∃ params, funcs.lookup func = some params
  shown : v.cells.filter exposure.shows = arrayCells exposure ds
  invoked : Invoked exact s funcs v control.invocations

theorem steps_instantiateAll {allowed blamed : String → Prop} {funcs : List String}
    (permitted : ∀ func ∈ funcs, allowed func) :
    Steps allowed blamed (instantiateAll funcs) fun _ => True := by
  induction funcs with
  | nil => exact .pure trivial
  | cons func funcs ih =>
    obtain ⟨first, rest⟩ := List.forall_mem_cons.mp permitted
    exact .bind (steps_instanceOf first) fun _ _ => ih rest

theorem assemble_composed {exact : Prop} {quotes : Statements} {s : Setting} {funcs : List (String × List Decl)}
    {exposure : Exposure} (visible : exposure ≠ .hidden) {ds : List Decl} {instances : List String}
    {body : Option TypedCommand} {control : Control} {v : Workspace} (tidy : TidyBody ds body)
    (typed : exact → PhysicalBody ds body) (fits : exact → CallsFitElse funcs (slotsOf {} ds) body)
    (seen : Seen funcs (calleesOfElse body)) (seenInstances : Seen funcs instances)
    (ran : (assemble s exposure ds instances body).run { quotes } = .ok (control, v)) :
    Composed exact s funcs exposure ds control v := by
  obtain ⟨env, declared, declaring, ran⟩ := run_bind_ok_iff.mp ran
  obtain ⟨_, instantiated, instantiating, ran⟩ := run_bind_ok_iff.mp ran
  obtain ⟨first, furnished⟩ := declareAll_furnished (Workspace.legal_empty exact _)
    ⟨legalEnv_empty _, Matches.empty _⟩ tidy.decls declaring
  have second := instantiateAll_planned first.extends_.legal instantiating
  have lowers := lowersOptional_of_run second.extends_.legal (furnished.mono second.extends_.cells)
    tidy.body typed ran
  have built : Stepped (fun func => ∃ params, funcs.lookup func = some params) declared v :=
    ((steps_instantiateAll seenInstances).ok instantiating).1.trans
      ((steps_lowerElse s env body seen fun _ _ => trivial).ok ran).1
  have sited : Sited instantiated.cells env :=
    (declareAll_sited (.empty _) declaring).mono second.extends_.cells
  have stored : Grows { quotes } declared := adds_declareAll _ _ _ _ _ _ _ declaring
  have sound : v.Sound := built.grows.sound (stored.sound (Workspace.sound_empty _))
  refine ⟨sound.nodup, built.instanced (declareAll_instanced declaring ⟨rfl, List.nodup_nil, nofun⟩),
    ?_, lowersOptional_invoked body lowers sited fits⟩
  rw [built.filter_shows, declareAll_shown visible declaring]
  rfl

/-! ### Pairs of parameters and arguments -/

/-- A memory that is declared like a reference is of its kind. -/
theorem memory_alike {exact : Prop} {slots : Slots} {env : Env} {arg : String} {m : Memory}
    (matched : Matches slots env) (found : env.get? arg = some (.memory m)) {d : Decl}
    (fits : exact → slots.get? arg = some (.ofTy d.ty)) :
    exact → m.prototype = (cellOf d .reference d.name).prototype := by
  intro known
  obtain ⟨store, visible, slot⟩ := matched arg _ (fits known)
  rw [found] at visible
  cases visible
  cases given : d.ty with
  | array elem dims =>
    rw [given] at slot
    cases slot
    rw [cellOf, given, Memory.prototype, List.length_map]
  | _ =>
    rw [given] at slot
    cases slot

theorem passed_of_bound {exact : Prop} {slots : Slots} {env : Env} {cells : List Cell}
    {refs : List (String × String)} {args : List String} {ds : List Decl}
    (matched : Matches slots env) (sited : Sited cells env)
    (memories : List.Forall₂ (fun ref arg => ∃ m, env.get? arg = some (.memory m) ∧ ref.2 = m.cell)
      refs args)
    (named : refs.map Prod.fst = ds.map (·.name)) (arrays : ∀ d ∈ ds, d.ty.isArray = true)
    (fits : exact → List.Forall₂ (fun d arg => slots.get? arg = some (.ofTy d.ty)) ds args) :
    List.Forall₂ (fun ref r => ref.1 = r.name ∧ ∃ m ∈ cells, m.name = ref.2 ∧ m.IsMemory ∧
      (exact → m.prototype = r.prototype)) refs (arrayCells .reference ds) := by
  induction memories generalizing ds with
  | nil =>
    cases ds with
    | nil => exact .nil
    | cons d ds => cases named
  | cons found _ ih =>
    cases ds with
    | nil => cases named
    | cons d ds =>
      obtain ⟨isArray, others⟩ := List.forall_mem_cons.mp arrays
      obtain ⟨first, rest⟩ := List.cons.inj named
      obtain ⟨m, visible, given⟩ := found
      have pairs := ih rest others fun known => (List.forall₂_cons.mp (fits known)).2
      obtain ⟨c, member, named, prototype⟩ := sited _ m visible
      rw [arrayCells_cons _ isArray]
      refine .cons ⟨?_, c, member, named.trans given.symm, ⟨_, _, prototype⟩, ?_⟩ pairs
      · rw [cellOf_name]
        exact first
      · rw [prototype]
        exact memory_alike matched visible fun known => (List.forall₂_cons.mp (fits known)).1

/-! ### Functions -/

/-- What the checker knows after the given functions. -/
def signedBy (fs : List (Function Ty TypedExpr)) : List (String × List Decl) :=
  (fs.map fun f => (f.name, f.params)).reverse

theorem signedBy_cons (f : Function Ty TypedExpr) (fs : List (Function Ty TypedExpr)) :
    signedBy (f :: fs) = signedBy fs ++ [(f.name, f.params)] := List.reverse_cons

theorem mem_of_lookup {β : Type} {entries : List (String × β)} {key : String} {value : β}
    (found : entries.lookup key = some value) : (key, value) ∈ entries := by
  obtain ⟨l, l', same, _⟩ := List.lookup_eq_some_iff.mp found
  rw [same]
  exact List.mem_append_right _ List.mem_cons_self

theorem mem_of_signedBy {fs : List (Function Ty TypedExpr)} {func : String} {params : List Decl}
    (found : (signedBy fs).lookup func = some params) : ∃ f ∈ fs, f.name = func ∧ f.params = params := by
  obtain ⟨f, member, same⟩ := List.mem_map.mp (List.mem_reverse.mp (mem_of_lookup found))
  cases same
  exact ⟨f, member, rfl, rfl⟩

theorem seen_names (fs : List (Function Ty TypedExpr)) : Seen (signedBy fs) (fs.map (·.name)) := by
  intro func inside
  obtain ⟨f, member, rfl⟩ := List.mem_map.mp inside
  rw [← Option.ne_none_iff_exists']
  intro missing
  have different := List.lookup_eq_none_iff.mp missing (f.name, f.params)
    (List.mem_reverse.mpr (List.mem_map.mpr ⟨f, member, rfl⟩))
  simp at different

theorem mem_of_signaturesOf {fs : List (Function Ty TypedExpr)} {func : String} {params : List String}
    (found : (signaturesOf fs).lookup func = some params) :
    ∃ f ∈ fs, f.name = func ∧ f.params.map (·.name) = params := by
  obtain ⟨f, member, same⟩ := List.mem_map.mp (List.mem_reverse.mp (mem_of_lookup found))
  cases same
  exact ⟨f, member, rfl, rfl⟩

/-- Names that go into a list one after another, each of them when it is not there yet, differ. -/
theorem nodup_cons_of_lookup {α β : Type} {name : α → String} {x : α} {xs : List α}
    {known : List (String × β)} {value : β} (unlisted : known.lookup (name x) = none)
    (nodup : (xs.map name).Nodup)
    (others : ∀ y ∈ xs, ((name x, value) :: known).lookup (name y) = none) :
    ((x :: xs).map name).Nodup ∧ ∀ y ∈ x :: xs, known.lookup (name y) = none := by
  have apart (y : α) (member : y ∈ xs) : name y ≠ name x ∧ known.lookup (name y) = none := by
    have missing := others y member
    rw [List.lookup_cons] at missing
    split at missing
    · cases missing
    · next different => exact ⟨by simpa using different, missing⟩
  constructor
  · rw [List.map_cons, List.nodup_cons]
    refine ⟨fun inside => ?_, nodup⟩
    obtain ⟨y, member, same⟩ := List.mem_map.mp inside
    exact (apart y member).1 same
  · exact List.forall_mem_cons.mpr ⟨unlisted, fun y member => (apart y member).2⟩

section

variable {funcs funcs' : List (String × List Decl)} {fs : List (Function Ty TypedExpr)}

theorem funcs_eq_signedBy (checked : Typing.CheckedFunctions funcs fs funcs') :
    funcs' = signedBy fs ++ funcs := by
  induction checked with
  | nil => rfl
  | cons _ _ ih => rw [ih, signedBy_cons, List.append_assoc, List.singleton_append]

/-- A function sees those before it. -/
theorem checkedFunction_at (checked : Typing.CheckedFunctions funcs fs funcs') {i : Nat}
    {f : Function Ty TypedExpr} (found : fs[i]? = some f) :
    Typing.CheckedFunction (signedBy (fs.take i) ++ funcs) f := by
  induction checked generalizing i with
  | nil => cases found
  | cons first _ ih =>
    cases i with
    | zero =>
      cases found
      exact first
    | succ i =>
      rw [List.take_succ_cons, signedBy_cons, List.append_assoc]
      exact ih found

theorem nodup_names (checked : Typing.CheckedFunctions funcs fs funcs') :
    (fs.map (·.name)).Nodup ∧ ∀ f ∈ fs, funcs.lookup f.name = none := by
  induction checked with
  | nil => exact ⟨List.nodup_nil, nofun⟩
  | cons first _ ih => exact nodup_cons_of_lookup first.unnamed ih.1 ih.2

end

theorem lowerFunctions_names {s : Setting} {fs : List (Function Ty TypedExpr)} {cs : List Component}
    (lowered : MakesAll s fs cs) : cs.map (·.name) = fs.map (·.name) := by
  have named : List.Forall₂ (fun f c => f.name = c.name) fs cs := by
    refine forall₂_of_made (fun f _ c built => ?_) lowered
    obtain ⟨_, _, _, _, rfl⟩ := buildComponent_ok built
    rfl
  rw [eq_comm, ← List.forall₂_eq_eq_eq, List.forall₂_map_left_iff, List.forall₂_map_right_iff]
  exact named

theorem isArray_of_memoriesOfDecl {d e : Decl} (isArray : d.ty.isArray = true)
    (member : e ∈ Banking.memoriesOfDecl d) : e.ty.isArray = true := by
  unfold Banking.memoriesOfDecl at member
  split at member
  · obtain ⟨_, _, rfl⟩ := List.mem_map.mp member
    rfl
  · rw [List.mem_singleton.mp member]
    exact isArray

/-! ### Programs -/

/-- A function and what became of it. -/
structure FunctionAt (s : Setting) (p : TypedProgram) (banked : BankedProgram)
    (functions : List Component) (i : Nat) (f f' : Function Ty TypedExpr) (control : Control)
    (v : Workspace) : Prop where
  split : banked.program.defs[i]? = some f'
  lowered : functions[i]? = some ⟨f.name, v.cells, v.groups, control⟩
  name : f'.name = f.name
  params : f'.params = f.params.flatMap Banking.memoriesOfDecl
  arrays : ∀ d ∈ f'.params, d.ty.isArray = true
  composed : Composed p.BankNameClean s (signedBy (p.defs.take i)) .reference f'.params control v

section

variable {statements : Statements} {p : TypedProgram} {banked : BankedProgram} {s : Setting}
  {functions : List Component} {root : Component}

theorem functionAt_of_lowered (checked : Typing.CheckedProgram p)
    (written : p.Written TypedExpr.Written) (split : (p.toBanks statements).result = .ok banked)
    (lowered : MakesAll s banked.program.defs functions) {i : Nat}
    {f : Function Ty TypedExpr} (found : p.defs[i]? = some f) :
    ∃ f' control v, FunctionAt s p banked functions i f f' control v := by
  have tidy := Program.tidy_toBanks written split
  have typed (clean : p.BankNameClean) := Program.physical_toBanks checked written clean split
  obtain ⟨_, splitFunctions, _⟩ := Program.toBanks_ok split
  obtain ⟨funcs, _, defs, _, _⟩ := checked
  obtain ⟨f', foundSplit, bankedFunction⟩ := getElem?_of_forall₂ (Banking.forall₂_bankFunctions splitFunctions)
    found
  obtain ⟨c, foundLowered, built⟩ := getElem?_of_forall₂ lowered foundSplit
  have member := List.mem_of_getElem? found
  have member' := List.mem_of_getElem? foundSplit
  have function := checkedFunction_at defs found
  rw [List.append_nil] at function
  obtain ⟨params, env, body, splitParams, splitBody, rfl⟩ := Banking.bankFunction_ok bankedFunction
  obtain ⟨types, types', declared, checkedBody⟩ := function.body
  simp only [lowerFunction_eq] at built
  obtain ⟨_, control, v, ran, rfl⟩ := buildComponent_ok built
  refine ⟨_, control, v, foundSplit, foundLowered, rfl, Banking.bankDecls_eq splitParams, ?_, ?_⟩
  · intro d inside
    rw [Banking.bankDecls_eq splitParams, List.mem_flatMap] at inside
    obtain ⟨e, among, inside⟩ := inside
    exact isArray_of_memoriesOfDecl (function.arrays e among) inside
  · exact assemble_composed (by simp) (tidy.functions _ member')
      (fun clean => (typed clean).functions _ member')
      (fun clean => callsFit_component (clean.functions f member) splitParams (.some splitBody) declared
        (.some checkedBody) (written.params f member) (written.functions f member))
      (seen_component (.some splitBody) (.some checkedBody)) (List.forall_mem_nil _) ran

theorem root_composed (checked : Typing.CheckedProgram p)
    (written : p.Written TypedExpr.Written) (split : (p.toBanks statements).result = .ok banked)
    {topName : String} (lowered : Makes (lowerRoot s · topName banked.program) root) :
    ∃ control v, root = ⟨topName, v.cells, v.groups, control⟩ ∧
      Composed p.BankNameClean s (signedBy p.defs) .external banked.program.decls control v := by
  have tidy := Program.tidy_toBanks written split
  have typed (clean : p.BankNameClean) := Program.physical_toBanks checked written clean split
  obtain ⟨env, splitFunctions, storage, _, splitBody⟩ := Program.toBanks_ok split
  obtain ⟨funcs, types, defs, decls, body⟩ := checked
  have known := funcs_eq_signedBy defs
  rw [List.append_nil] at known
  subst known
  have splitBody := bankedBody_of_cases splitBody
  simp only [lowerRoot_eq, bankFunctions_names splitFunctions] at lowered
  obtain ⟨_, control, v, ran, rfl⟩ := buildComponent_ok lowered
  refine ⟨control, v, rfl, assemble_composed (by simp) tidy.root (fun clean => (typed clean).root)
    (fun clean => callsFit_component clean.root storage splitBody decls body written.decls written.body)
    (seen_component splitBody body) (seen_names p.defs) ran⟩

variable {config : Config} {netlist : Netlist}

/-- Every component sees the functions before it. -/
theorem composed_at (checked : Typing.CheckedProgram p) (written : p.Written TypedExpr.Written)
    (split : (p.toBanks statements).result = .ok banked)
    (loweredFunctions : MakesAll s banked.program.defs functions) {topName : String}
    (loweredRoot : Makes (lowerRoot s · topName banked.program) root) {i : Nat} {c : Component}
    (found : (functions ++ [root])[i]? = some c) :
    ∃ name exposure ds control v, c = ⟨name, v.cells, v.groups, control⟩ ∧
      Composed p.BankNameClean s (signedBy (p.defs.take i)) exposure ds control v := by
  obtain ⟨_, splitFunctions, _⟩ := Program.toBanks_ok split
  have count : functions.length = p.defs.length := by
    rw [(Banking.forall₂_bankFunctions splitFunctions).length_eq]
    exact loweredFunctions.length_eq.symm
  by_cases inside : i < functions.length
  · rw [List.getElem?_append_left inside] at found
    obtain ⟨f, defined⟩ : ∃ f, p.defs[i]? = some f :=
      ⟨_, List.getElem?_eq_getElem (count ▸ inside)⟩
    obtain ⟨f', control, v, function⟩ := functionAt_of_lowered checked written split loweredFunctions
      defined
    cases function.lowered.symm.trans found
    exact ⟨_, _, _, control, v, rfl, function.composed⟩
  · have last : i = functions.length ∧ root = c := by
      rw [List.getElem?_append_right (Nat.le_of_not_lt inside), List.getElem?_singleton] at found
      split at found
      · next zero =>
        cases found
        exact ⟨by omega, rfl⟩
      · cases found
    obtain ⟨rfl, rfl⟩ := last
    obtain ⟨control, v, rfl, composed⟩ := root_composed checked written split loweredRoot
    rw [count, List.take_length]
    exact ⟨_, _, _, control, v, rfl, composed⟩

/-- What a component sees is a function before it. -/
theorem callee_at (checked : Typing.CheckedProgram p) (written : p.Written TypedExpr.Written)
    (split : (p.toBanks statements).result = .ok banked)
    (lowered : MakesAll s banked.program.defs functions) {i : Nat} {func : String}
    (seen : ∃ params, (signedBy (p.defs.take i)).lookup func = some params) :
    ∃ j < i, ∃ f f' control v, f ∈ p.defs ∧ f.name = func ∧
      FunctionAt s p banked functions j f f' control v := by
  obtain ⟨params, found⟩ := seen
  obtain ⟨f, member, rfl, _⟩ := mem_of_signedBy found
  obtain ⟨j, defined⟩ := List.mem_iff_getElem?.mp member
  rw [List.getElem?_take] at defined
  split at defined
  · next before =>
    obtain ⟨f', control, v, function⟩ := functionAt_of_lowered checked written split lowered defined
    exact ⟨j, before, f, f', control, v, List.mem_of_getElem? defined, rfl, function⟩
  · cases defined

end

theorem FunctionAt.invokes {p : TypedProgram} {banked : BankedProgram} {s : Setting}
    {functions : List Component} {j : Nat} {f f' : Function Ty TypedExpr} {control : Control}
    {v : Workspace} (function : FunctionAt s p banked functions j f f' control v)
    (signatures : s.signatures = signaturesOf banked.program.defs)
    (distinct : (p.defs.map (·.name)).Nodup) (same : banked.program.defs.map (·.name) = p.defs.map (·.name))
    (defined : f ∈ p.defs) {i : Nat} {exposure : Exposure} {ds : List Decl} {control' : Control}
    {v' : Workspace}
    (caller : Composed p.BankNameClean s (signedBy (p.defs.take i)) exposure ds control' v')
    {cell : String} {refs : List (String × String)} {slots : Slots} {env : Env} {args : List String}
    (invoked : InvokedFrom p.BankNameClean s (signedBy (p.defs.take i)) v' cell refs f.name slots env
      args) (name : String) :
    Component.Invokes p.BankNameClean ⟨name, v'.cells, v'.groups, control'⟩
      ⟨f.name, v.cells, v.groups, control⟩ cell refs := by
  refine ⟨caller.instanced.cell invoked.instance_, ?_⟩
  have shown : Component.references ⟨f.name, v.cells, v.groups, control⟩ =
      arrayCells .reference f'.params := function.composed.shown
  have params := invoked.params
  rw [signatures] at params
  obtain ⟨g', among, named, params⟩ := mem_of_signaturesOf params
  have isCallee : g' = f' := List.inj_on_of_nodup_map (same ▸ distinct) among
    (List.mem_of_getElem? function.split) (named.trans function.name.symm)
  subst isCallee
  rw [shown]
  refine passed_of_bound invoked.matched invoked.sited invoked.memories params.symm function.arrays fun clean => ?_
  obtain ⟨given, found, fits⟩ := invoked.fits clean
  obtain ⟨g, earlier, named, rfl⟩ := mem_of_signedBy found
  have isCalled : g = f := List.inj_on_of_nodup_map distinct (List.mem_of_mem_take earlier) defined named
  subst isCalled
  rw [function.params]
  exact fits

theorem topName_unused {config : Config} {statements : Statements} {p : BankedProgram}
    {netlist : Netlist} (success : (p.toNetlist config statements).result = .ok netlist) :
    config.topName ∉ p.program.defs.map (·.name) := by
  simp only [BankedProgram.toNetlist] at success
  split at success
  · simp only [Outcome.result_bind, Outcome.result_lift, refuse_bind_ok_iff] at success
  · next unused =>
    intro inside
    obtain ⟨f, member, same⟩ := List.mem_map.mp inside
    rw [Option.not_isSome_iff_eq_none, List.lookup_eq_none_iff] at unused
    have different := unused (f.name, f.params.map (·.name))
      (List.mem_reverse.mpr (List.mem_map.mpr ⟨f, member, rfl⟩))
    exact absurd same.symm (by simpa using different)

/-- The components of a netlist have different names. -/
theorem nodup_components {config : Config} {statements : Statements} {p : TypedProgram}
    {banked : BankedProgram} {netlist : Netlist} (checked : Typing.CheckedProgram p)
    (split : (p.toBanks statements).result = .ok banked)
    (lowered : (banked.toNetlist config statements).result = .ok netlist) :
    (netlist.components.map (·.name)).Nodup := by
  have unused := topName_unused lowered
  obtain ⟨functions, root, loweredFunctions, loweredRoot, components⟩ :=
    BankedProgram.toNetlist_ok lowered
  obtain ⟨_, splitFunctions, _⟩ := Program.toBanks_ok split
  obtain ⟨_, _, defs, _⟩ := checked
  simp only [lowerRoot_eq] at loweredRoot
  obtain ⟨_, _, _, _, rfl⟩ := buildComponent_ok loweredRoot
  rw [components, List.map_append, lowerFunctions_names loweredFunctions, List.map_singleton,
    List.nodup_append]
  refine ⟨bankFunctions_names splitFunctions ▸ (nodup_names defs).1, List.nodup_singleton _, ?_⟩
  rintro name inside _ last rfl
  rw [List.mem_singleton.mp last] at inside
  exact unused inside

theorem toNetlist_hierarchical {config : Config} {statements : Statements} {p : TypedProgram}
    {banked : BankedProgram} {netlist : Netlist} (checked : Typing.CheckedProgram p)
    (written : p.Written TypedExpr.Written) (split : (p.toBanks statements).result = .ok banked)
    (lowered : (banked.toNetlist config statements).result = .ok netlist) :
    netlist.Hierarchical p.BankNameClean := by
  have distinctComponents := nodup_components checked split lowered
  obtain ⟨functions, root, loweredFunctions, loweredRoot, components⟩ :=
    BankedProgram.toNetlist_ok lowered
  obtain ⟨_, splitFunctions, _⟩ := Program.toBanks_ok split
  have same := bankFunctions_names splitFunctions
  have distinct : (p.defs.map (·.name)).Nodup := by
    obtain ⟨_, _, defs, _⟩ := checked
    exact (nodup_names defs).1
  have later {j : Nat} {c : Component} (found : functions[j]? = some c) :
      netlist.components[j]? = some c := by
    rw [components, List.getElem?_append_left (List.getElem?_eq_some_iff.mp found).1, found]
  refine ⟨distinctComponents, ?_, ?_, ?_⟩
  · intro c member
    obtain ⟨i, found⟩ := List.mem_iff_getElem?.mp member
    rw [components] at found
    obtain ⟨_, _, _, _, v, rfl, composed⟩ := composed_at checked written split loweredFunctions
      loweredRoot found
    rw [composed.instanced.components, List.nodup_reverse]
    exact composed.instanced.single
  · intro i c found func inside
    rw [components] at found
    obtain ⟨_, _, _, _, v, rfl, composed⟩ := composed_at checked written split loweredFunctions
      loweredRoot found
    rw [composed.instanced.components, List.mem_reverse] at inside
    obtain ⟨entry, member, rfl⟩ := List.mem_map.mp inside
    obtain ⟨j, before, f, _, _, _, _, named, function⟩ := callee_at checked written split
      loweredFunctions (composed.instanced.permitted entry member)
    exact ⟨j, before, _, later function.lowered, named⟩
  · intro i c found call member
    rw [components] at found
    obtain ⟨name, _, _, _, v, rfl, composed⟩ := composed_at checked written split loweredFunctions
      loweredRoot found
    obtain ⟨func, slots, env, args, invoked⟩ := composed.invoked call member
    obtain ⟨j, before, f, _, _, _, defined, rfl, function⟩ := callee_at checked written split
      loweredFunctions (composed.instanced.permitted _ invoked.instance_)
    exact ⟨j, before, _, later function.lowered,
      function.invokes rfl distinct same defined composed invoked name⟩

end Lowering

theorem check_of_parse {text : String} {source : SourceProgram} {p : TypedProgram}
    (parsed : parse text = .ok source) (accepted : source.check.result = .ok p) :
    (check text).result = .ok p := by
  simp only [check, Outcome.result_bind, bind_ok_iff, lift_diagnosed_ok_iff]
  exact ⟨source, parsed, accepted⟩

/-- The components of a compiled text form a hierarchy. If the text binds no name of a bank, every
memory that an invocation passes on is of the kind that it is passed for. -/
theorem compile_hierarchical {config : Config} {text : String} {netlist : Netlist}
    (compiled : (compile config text).result = .ok netlist) :
    ∃ p, (check text).result = .ok p ∧ netlist.Hierarchical p.BankNameClean := by
  obtain ⟨source, p, banked, parsed, accepted, split, lowered⟩ := compile_ok compiled
  exact ⟨p, check_of_parse parsed accepted, Lowering.toNetlist_hierarchical (Typing.checkedProgram_of_check accepted)
    (Program.check_written (parse_written parsed) accepted) split lowered⟩

/-- The root passes its array to one function, which passes it on to another. -/
def passingOn : String :=
  "decl a: ubit<8>[4 bank 2]; def f(m: ubit<8>[4 bank 2]) \x7b m[0] := 1; \x7d " ++
    "def g(n: ubit<8>[4 bank 2]) \x7b f(n); \x7d if (true) \x7b g(a); f(a); \x7d"

theorem passingOn_clean {p : TypedProgram} (checked : (check passingOn).result = .ok p) :
    p.BankNameClean := by
  have short : ∃ q, (check passingOn).result = .ok q ∧ q.hasShortNames = true :=
    exists_ok_of_map (by decide +kernel)
  obtain ⟨q, checked', short⟩ := short
  cases checked.symm.trans checked'
  exact Program.clean_of_hasShortNames short

theorem compile_hierarchical_passingOn : ∃ netlist p, (compile {} passingOn).result = .ok netlist ∧
    netlist.components.map (·.control.invocations.length) = [0, 1, 2] ∧
    (check passingOn).result = .ok p ∧ p.BankNameClean ∧ netlist.Hierarchical p.BankNameClean := by
  have computed : ∃ netlist, (compile {} passingOn).result = .ok netlist ∧
      netlist.components.map (·.control.invocations.length) = [0, 1, 2] :=
    exists_ok_of_map (by decide +kernel)
  obtain ⟨netlist, compiled, counted⟩ := computed
  obtain ⟨p, checked, hierarchical⟩ := compile_hierarchical compiled
  exact ⟨netlist, p, compiled, counted, checked, passingOn_clean checked, hierarchical⟩

end BankedLoops
