import Mathlib.Algebra.BigOperators.Group.List.Basic
import BankedLoops.Proofs.Typing.Blame
import BankedLoops.Proofs.Lowering.Hierarchy

/-!
# The table of memories

A netlist tells which external memories hold each array of the program. The table is exact: it names
every external memory of the root once, and the memories of an array have room for its elements.
-/

namespace BankedLoops

/-- The number of elements of a memory: the product of its sizes, which stand between the width of an
element and the widths of the addresses. -/
def Cell.capacity (c : Cell) : Nat :=
  match c.prototype with
  | .primitive _ (_ :: params) => (params.take (params.length / 2)).prod
  | _ => 0

/-- The external memories that hold an array. -/
structure Component.Holds (root : Component) (elem : Ty) (dims : List Dim) (banks : List String) :
    Prop where
  count : banks.length = (dims.map fun d => d.size / d.bank).prod
  cells : ∀ bank ∈ banks, ∃ c, root.cell? bank = some c ∧ c.isExternal = true ∧
    c.prototype = .primitive s!"seq_mem_d{dims.length}"
      (elem.width :: dims.map (·.bank) ++ dims.map fun d => bitsNeeded (d.bank - 1))
  capacity : ((banks.filterMap root.cell?).map Cell.capacity).sum = (dims.map (·.size)).prod

/-- The table of a netlist tells where the arrays among the declarations are. -/
structure Netlist.Tabulates (n : Netlist) (root : Component) (ds : List Decl) : Prop where
  keys : (n.memories.entries.map Prod.fst).Perm ((ds.filter (·.ty.isArray)).map (·.name))
  single : (n.memories.entries.map Prod.fst).Nodup
  arrays : ∀ d ∈ ds, ∀ elem dims, d.ty = .array elem dims → ∃ banks,
    n.memories.get? d.name = some banks ∧ root.Holds elem dims banks
  external : (n.memories.entries.flatMap Prod.snd).Perm
    (((n.components.flatMap (·.cells)).filter (·.isExternal)).map (·.name))
  apart : (n.memories.entries.flatMap Prod.snd).Nodup

namespace Lowering

/-! ### Entries -/

/-- The entry of a declaration, if it is an array. -/
def entryOf? (d : Decl) : Option (String × List String) :=
  match d.ty with
  | .array elem dims => some (d.name, Banking.memoryNames d.name elem dims)
  | _ => none

theorem entryOf?_array {d : Decl} {elem : Ty} {dims : List Dim} (isArray : d.ty = .array elem dims) :
    entryOf? d = some (d.name, Banking.memoryNames d.name elem dims) := by
  rw [entryOf?, isArray]

theorem entryOf?_scalar {d : Decl} (scalar : d.ty.isArray = false) : entryOf? d = none := by
  unfold entryOf?
  split
  · next isArray =>
    rw [isArray] at scalar
    cases scalar
  · rfl

theorem keys_entries (ds : List Decl) :
    (ds.filterMap entryOf?).map Prod.fst = (ds.filter (·.ty.isArray)).map (·.name) := by
  induction ds with
  | nil => rfl
  | cons d ds ih =>
    cases given : d.ty with
    | array elem dims =>
      rw [List.filterMap_cons_some (entryOf?_array given), List.filter_cons_of_pos (by rw [given]; rfl),
        List.map_cons, List.map_cons, ih]
    | _ =>
      rw [List.filterMap_cons_none (entryOf?_scalar (by rw [given]; rfl)),
        List.filter_cons_of_neg (by rw [given]; exact nofun), ih]

/-- The table has the entries of the declarations. -/
theorem memoriesOf_perm {ds : List Decl} {table memories : Table String (List String)}
    (tabled : Banking.memoriesOf table ds = .ok memories)
    (distinct : (ds.map (·.name) ++ table.entries.map Prod.fst).Nodup) :
    memories.entries.Perm (ds.filterMap entryOf? ++ table.entries) := by
  induction ds generalizing table with
  | nil =>
    cases tabled
    exact .refl _
  | cons d ds ih =>
    rw [List.map_cons, List.cons_append] at distinct
    obtain ⟨absent, others⟩ := List.nodup_cons.mp distinct
    unfold Banking.memoriesOf at tabled
    cases given : d.ty with
    | array elem dims =>
      simp only [given, Layout.ofTy?, bind_ok_iff, lift_ok_iff] at tabled
      obtain ⟨banks, named, tabled⟩ := tabled
      rw [Banking.banks_eq_memoryNames named] at tabled
      have fresh : d.name ∉ table.entries.map Prod.fst := fun inside =>
        absent (List.mem_append_right _ inside)
      have inserted : (Table.insertInto d.name (Banking.memoryNames d.name elem dims) _).Perm _ :=
        Table.insertInto_perm fresh
      have next := ih tabled (((inserted.map Prod.fst).append_left _).nodup_iff.mpr
        (List.nodup_middle.mpr distinct))
      rw [List.filterMap_cons_some (entryOf?_array given), List.cons_append]
      exact next.trans ((inserted.append_left _).trans List.perm_middle)
    | _ =>
      simp only [given, Layout.ofTy?] at tabled
      rw [List.filterMap_cons_none (entryOf?_scalar (by rw [given]; rfl))]
      exact ih tabled others

theorem nodup_decls {types types' : Typing.Env} {ds : List Decl}
    (checked : Typing.CheckedDecls types ds types') :
    (ds.map (·.name)).Nodup ∧ ∀ d ∈ ds, types.inner.lookup d.name = none := by
  induction checked with
  | nil => exact ⟨List.nodup_nil, nofun⟩
  | @cons types _ _ d _ _ fresh _ ih =>
    have unbound : types.inner.lookup d.name = none := by
      unfold Scope.bind? at fresh
      split at fresh
      · cases fresh
      · assumption
    obtain rfl := Scope.eq_rebind_of_bind? fresh
    exact nodup_cons_of_lookup unbound ih.1 ih.2

/-! ### Cells -/

/-- The external cell of a memory of an array. -/
def memoryCell (elem : Ty) (dims : List Dim) (name : String) : Cell where
  name
  prototype := .primitive s!"seq_mem_d{dims.length}"
    (elem.width :: dims.map (·.bank) ++ dims.map fun d => bitsNeeded (d.bank - 1))
  isExternal := true

theorem cellOf_memory (pos : Nat) (elem : Ty) (dims : List Dim) (name : String) :
    cellOf ⟨pos, name, Banking.memoryTy elem dims⟩ .external name = memoryCell elem dims name := by
  rw [cellOf, memoryCell, Banking.memoryTy, Banking.bankDims]
  simp [Dim.unbanked, Function.comp_def]

theorem arrayCells_array {d : Decl} {elem : Ty} {dims : List Dim} (isArray : d.ty = .array elem dims) :
    arrayCells .external (Banking.memoriesOfDecl d) =
      (Banking.memoryNames d.name elem dims).map (memoryCell elem dims) := by
  have all : ∀ e ∈ Banking.memoriesOfDecl d, e.ty.isArray = true := fun e member =>
    isArray_of_memoriesOfDecl (by rw [isArray]; rfl) member
  rw [arrayCells, List.filter_eq_self.mpr all, Banking.memoriesOfDecl, isArray, List.map_map]
  exact List.map_congr_left fun name _ => cellOf_memory d.pos elem dims name

theorem arrayCells_append (exposure : Exposure) (ds es : List Decl) :
    arrayCells exposure (ds ++ es) = arrayCells exposure ds ++ arrayCells exposure es := by
  rw [arrayCells, List.filter_append, List.map_append]
  rfl

theorem mem_arrayCells {ds : List Decl} {d : Decl} (member : d ∈ ds) {elem : Ty} {dims : List Dim}
    (isArray : d.ty = .array elem dims) {bank : String}
    (named : bank ∈ Banking.memoryNames d.name elem dims) :
    memoryCell elem dims bank ∈ arrayCells .external (ds.flatMap Banking.memoriesOfDecl) := by
  obtain ⟨before, after, rfl⟩ := List.append_of_mem member
  rw [List.flatMap_append, List.flatMap_cons, arrayCells_append, arrayCells_append,
    arrayCells_array isArray]
  exact List.mem_append_right _ (List.mem_append_left _ (List.mem_map_of_mem named))

/-- The external cells of the root go by the names in the table. -/
theorem names_arrayCells (ds : List Decl) :
    (arrayCells .external (ds.flatMap Banking.memoriesOfDecl)).map (·.name) =
      (ds.filterMap entryOf?).flatMap Prod.snd := by
  induction ds with
  | nil => rfl
  | cons d ds ih =>
    rw [List.flatMap_cons, arrayCells_append, List.map_append, ih]
    cases given : d.ty with
    | array elem dims =>
      rw [arrayCells_array given, List.filterMap_cons_some (entryOf?_array given), List.flatMap_cons,
        List.map_map]
      congr 1
      exact List.map_id _
    | _ =>
      have scalar : d.ty.isArray = false := by
        rw [given]
        rfl
      have alone : Banking.memoriesOfDecl d = [d] := by
        rw [Banking.memoriesOfDecl, given]
      rw [alone, List.filterMap_cons_none (entryOf?_scalar scalar), arrayCells,
        List.filter_cons_of_neg (by rw [scalar]; exact Bool.false_ne_true)]
      rfl

theorem steps_instantiated (s : Setting) (env : Env) (instances : List String)
    (body : Option TypedCommand) :
    Steps (fun _ => True) (fun _ => True) (do instantiateAll instances; lowerElse s env body) fun _ => True :=
  (steps_instantiateAll fun _ _ => trivial).bind fun _ _ =>
    steps_lowerElse s env body (fun _ _ => trivial) fun _ _ => trivial

theorem declareAll_internal {s : Setting} {env env' : Env} {ds : List Decl} {w w' : Workspace}
    (ran : (declareAll s .reference env ds).run w = .ok (env', w')) :
    w'.cells.filter (·.isExternal) = w.cells.filter (·.isExternal) := by
  induction ds generalizing env w with
  | nil =>
    cases ran
    rfl
  | cons d ds ih =>
    obtain ⟨next, v, declared, rest⟩ := run_bind_ok_iff.mp ran
    obtain ⟨name, declares⟩ := declares_of_run declared
    have hidden : (cellOf d .reference name).isExternal = false := by
      unfold cellOf
      split <;> rfl
    rw [ih rest, declares.cells, List.filter_append, List.filter_singleton, hidden]
    exact List.append_nil _

/-- The memories of a function are its callers'. -/
theorem lowerFunction_internal {s : Setting} {f : Function Ty TypedExpr} {c : Component}
    (lowered : Makes (lowerFunction s · f) c) : c.cells.filter (·.isExternal) = [] := by
  simp only [lowerFunction_eq] at lowered
  obtain ⟨_, control, v, ran, rfl⟩ := buildComponent_ok lowered
  obtain ⟨env, declared, declaring, ran⟩ := run_bind_ok_iff.mp ran
  have built := ((steps_instantiated s env [] (some f.body)).ok ran).1
  exact (built.filter_shows .external).trans (declareAll_internal declaring)

theorem lowerFunctions_internal {s : Setting} {fs : List (Function Ty TypedExpr)}
    {cs : List Component} (lowered : MakesAll s fs cs) :
    (cs.flatMap (·.cells)).filter (·.isExternal) = [] := by
  have each : List.Forall₂ (fun _ c => c.cells.filter (·.isExternal) = []) fs cs :=
    forall₂_of_made (fun _ _ _ => lowerFunction_internal) lowered
  clear lowered
  induction each with
  | nil => rfl
  | cons first _ ih => rw [List.flatMap_cons, List.filter_append, first, ih, List.nil_append]

theorem capacity_memoryCell (elem : Ty) (dims : List Dim) (name : String) :
    (memoryCell elem dims name).capacity = (dims.map (·.bank)).prod := by
  have half : (dims.length + dims.length) / 2 = dims.length := by omega
  simp [memoryCell, Cell.capacity, half]

theorem bankTotal_eq (dims : List Dim) :
    Banking.bankTotal dims = (dims.map fun d => d.size / d.bank).prod := by
  induction dims with
  | nil => rfl
  | cons d dims ih => rw [Banking.bankTotal, ih, List.map_cons, List.prod_cons]

/-- The banks of an array have room for exactly its elements. -/
theorem bankTotal_mul {dims : List Dim} (divided : Banking.Divided dims) :
    Banking.bankTotal dims * (dims.map (·.bank)).prod = (dims.map (·.size)).prod := by
  rw [bankTotal_eq, ← List.prod_map_mul]
  congr 1
  refine List.map_congr_left fun d member => ?_
  exact (Banking.splitsEvenly_iff.mp (divided d member)).2.2

theorem holds_memoryNames {root : Component} {array : String} {elem : Ty} {dims : List Dim}
    (divided : Banking.Divided dims) (found : ∀ bank ∈ Banking.memoryNames array elem dims,
      root.cell? bank = some (memoryCell elem dims bank)) :
    root.Holds elem dims (Banking.memoryNames array elem dims) where
  count := by rw [Banking.memoryNames, List.length_map, List.length_range, bankTotal_eq]
  cells := fun bank member => ⟨_, found bank member, rfl, rfl⟩
  capacity := by
    have cells : (Banking.memoryNames array elem dims).filterMap root.cell? =
        (Banking.memoryNames array elem dims).map (memoryCell elem dims) := by
      rw [List.filterMap_congr found]
      exact congrFun List.filterMap_eq_map _
    have each : (Cell.capacity ∘ memoryCell elem dims) = fun _ => (dims.map (·.bank)).prod :=
      funext (capacity_memoryCell elem dims)
    rw [cells, List.map_map, each, List.map_const', List.sum_const_nat,
      Banking.memoryNames, List.length_map, List.length_range, bankTotal_mul divided]

/-! ### Netlists -/

theorem toNetlist_memories {config : Config} {statements : Statements} {p : BankedProgram}
    {netlist : Netlist} (success : (p.toNetlist config statements).result = .ok netlist) :
    netlist.memories = p.memories := by
  obtain ⟨_, _, _, _, _, _, rfl⟩ := BankedProgram.toNetlist_built success
  rfl

theorem toNetlist_tabulates {config : Config} {statements : Statements} {p : TypedProgram}
    {banked : BankedProgram} {netlist : Netlist} (checked : Typing.CheckedProgram p)
    (written : p.Written TypedExpr.Written) (split : (p.toBanks statements).result = .ok banked)
    (lowered : (banked.toNetlist config statements).result = .ok netlist) :
    ∃ root, netlist.components.getLast? = some root ∧ root.name = config.topName ∧
      netlist.Tabulates root p.decls := by
  obtain ⟨functions, root, loweredFunctions, loweredRoot, components⟩ :=
    BankedProgram.toNetlist_ok lowered
  obtain ⟨control, v, rfl, composed⟩ := root_composed checked written split loweredRoot
  obtain ⟨env, _, storage, tabled, _⟩ := Program.toBanks_ok split
  obtain ⟨_, types, _, decls, _⟩ := checked
  have shown : v.cells.filter (·.isExternal) =
      arrayCells .external (p.decls.flatMap Banking.memoriesOfDecl) := by
    rw [← Banking.bankDecls_eq storage]
    exact composed.shown
  have distinct := (nodup_decls decls).1
  have entries := memoriesOf_perm tabled (by simpa using distinct)
  rw [List.append_nil, ← toNetlist_memories lowered] at entries
  have keys := entries.map Prod.fst
  rw [keys_entries] at keys
  have single : (netlist.memories.entries.map Prod.fst).Nodup :=
    keys.nodup_iff.mpr ((List.filter_sublist.map _).nodup distinct)
  have everywhere : (netlist.components.flatMap (·.cells)).filter (·.isExternal) =
      v.cells.filter (·.isExternal) := by
    rw [components, List.flatMap_append, List.filter_append, lowerFunctions_internal loweredFunctions,
      List.flatMap_singleton, List.nil_append]
  have external := entries.flatMap_right Prod.snd
  rw [← names_arrayCells, ← shown, ← everywhere] at external
  refine ⟨_, by rw [components, List.getLast?_concat], rfl, keys, single, ?_, external, ?_⟩
  · intro d member elem dims isArray
    refine ⟨_, Table.get?_of_mem single (entries.mem_iff.mpr
      (List.mem_filterMap.mpr ⟨d, member, entryOf?_array isArray⟩)), holds_memoryNames ?_ ?_⟩
    · have valid := decls.declared member
      rw [isArray] at valid
      exact (Typing.declared_array valid).2
    · intro bank inside
      have listed := mem_arrayCells member isArray inside
      rw [← shown] at listed
      exact @cell?_eq_some ⟨config.topName, v.cells, v.groups, control⟩ composed.named _
        (List.mem_of_mem_filter listed)
  · rw [everywhere] at external
    exact external.nodup_iff.mpr ((List.filter_sublist.map _).nodup composed.named)

/-! ### Failures -/

/-- A construction that may blame any statement. -/
abbrev UsualFailure : Failure → Prop := Usual fun _ => True

theorem Ends.fails {α : Type} {blamed : String → Prop} {R : α → Workspace → Prop}
    {ran : Except Failure (α × Workspace)} (ends : Ends blamed R ran) : Fails (Usual blamed) ran := by
  cases ends with
  | ok _ => exact .pure _
  | error usual =>
    intro f failed
    cases failed
    exact usual

theorem declareAll_ends {blamed : String → Prop} {s : Setting} {ds : List Decl}
    (described : ∀ d ∈ ds, blamed (s.statements.describe d.pos)) (exposure : Exposure) (env : Env)
    (w : Workspace) : Ends blamed (fun _ v => w.names.Counted → v.names.Counted)
      ((declareAll s exposure env ds).run w) := by
  induction ds generalizing env w with
  | nil => exact .ok id
  | cons d ds ih =>
    obtain ⟨first, others⟩ := List.forall_mem_cons.mp described
    refine (declare_ends first env exposure w).bind fun env v ⟨_, declares⟩ => ?_
    exact (ih others env v).mono fun _ _ rest counted => rest (declares.given.counted counted)

/-- A component is built as usual, and never counts ahead of its names. -/
theorem assemble_ends (s : Setting) (exposure : Exposure) (ds : List Decl) (instances : List String)
    (body : Option TypedCommand) (quotes : Statements) : Ends (fun _ => True)
      (fun _ v => v.names.Counted) ((assemble s exposure ds instances body).run { quotes }) :=
  (declareAll_ends (fun _ _ => trivial) exposure {} { quotes }).bind fun env v declared =>
    (steps_instantiated s env instances body v).mono fun _ _ ⟨built, _⟩ =>
      built.counted (declared nofun)

theorem usual_assemble (s : Setting) (name : String) (exposure : Exposure) (ds : List Decl)
    (instances : List String) (body : Option TypedCommand) (quotes : Statements) :
    Fails UsualFailure (buildComponent name quotes (assemble s exposure ds instances body)).result :=
  fails_buildComponent (assemble_ends s exposure ds instances body quotes).fails

theorem usual_lowerFunctions (s : Setting) (quotes : Statements) (fs : List (Function Ty TypedExpr)) :
    Fails UsualFailure (lowerFunctions s quotes fs).result := by
  induction fs generalizing quotes with
  | nil => exact .pure _
  | cons f fs ih =>
    simp only [lowerFunctions, Outcome.result_bind, lowerFunction_eq]
    exact .bind (usual_assemble _ _ _ _ _ _ _) fun _ => .bind (ih _) fun _ => .pure _

/-- The memories that the split into banks lists are external cells of the root. -/
theorem usual_toNetlist {p : TypedProgram} {statements : Statements} {banked : BankedProgram}
    (split : (p.toBanks statements).result = .ok banked) (config : Config) (described : Statements) :
    Fails UsualFailure (banked.toNetlist config described).result := by
  obtain ⟨_, _, storage, tabled, _⟩ := Program.toBanks_ok split
  simp only [BankedProgram.toNetlist]
  split
  · simp only [Outcome.result_bind, Outcome.result_lift]
    exact .refuse_bind .config _
  · simp only [Outcome.result_bind]
    refine .bind (usual_lowerFunctions _ _ _) fun _ => ?_
    rw [lowerRoot_eq]
    refine .bind_of_ok (usual_assemble _ _ _ _ _ _ _) fun root lowered => ?_
    rw [external_memories tabled storage ⟨_, _, lowered⟩]
    exact .bind (.pure ()) fun _ => .pure _

/-- No failure is that of a hidden memory. -/
abbrev Overt {α : Type} (x : Except Failure α) : Prop :=
  Fails (fun f => ∀ bank array, f ≠ .error (.internal (.notExternal bank array))) x

theorem Usual.overt {blamed : String → Prop} {f : Failure} (usual : Usual blamed f) :
    ∀ bank array, f ≠ .error (.internal (.notExternal bank array)) := by
  rintro bank array rfl
  cases usual with
  | internal other => exact other bank array rfl

theorem overt_compile (config : Config) (text : String) : Overt (compile config text).result := by
  simp only [compile, Outcome.result_bind]
  rcases parse_ends text with ⟨source, parsed, _⟩ | ⟨e, failed, blames⟩
  · rw [parsed]
    refine .bind (.pure source) fun source => .bind (.pure ()) fun _ => ?_
    simp only [Program.compile, Outcome.result_bind]
    refine .bind (source.fails_check.mono ?_) fun p => ?_
    · rintro _ ⟨_, _ | _⟩ bank array same <;> cases same
    refine .bind_of_ok ((p.fails_toBanks _).mono ?_) fun banked split => ?_
    · rintro _ (_ | _) bank array same <;> cases same
    exact .bind ((usual_toNetlist split config _).mono fun _ => Usual.overt) fun _ =>
      .bind (.pure ()) fun _ => .pure _
  · rw [failed]
    rintro _ rejected bank array rfl
    cases rejected
    cases blames

end Lowering

/-- The table of a compiled text is exact, and compiling fails for no memory that is not external. -/
theorem compile_memories (config : Config) (text : String) :
    (∀ bank array, (compile config text).result ≠
      .error (.error (.internal (.notExternal bank array)))) ∧
    ∀ netlist, (compile config text).result = .ok netlist → ∃ p root,
      (check text).result = .ok p ∧ netlist.components.getLast? = some root ∧
      root.name = config.topName ∧ netlist.Tabulates root p.decls := by
  constructor
  · exact fun bank array failed => Lowering.overt_compile config text _ failed bank array rfl
  · intro netlist compiled
    obtain ⟨source, p, banked, parsed, accepted, split, lowered⟩ := compile_ok compiled
    obtain ⟨root, last, named, table⟩ := Lowering.toNetlist_tabulates
      (Typing.checkedProgram_of_check accepted)
      (Program.check_written (parse_written parsed) accepted) split lowered
    exact ⟨p, root, check_of_parse parsed accepted, last, named, table⟩

/-- An array next to a register that has the name of one of its memories. -/
def besideRegister : String :=
  "decl a: ubit<8>[4 bank 2]; decl a_b0: ubit<8>; decl c: bit<4>[6 bank 3][2 bank 1]; a[3] := a_b0;"

theorem compile_memories_besideRegister : ∃ netlist p root,
    (compile {} besideRegister).result = .ok netlist ∧ netlist.memories.entries =
      [("a", ["a_b0", "a_b1"]), ("c", ["c_b0", "c_b1", "c_b2", "c_b3"])] ∧
    (check besideRegister).result = .ok p ∧ netlist.components.getLast? = some root ∧
    root.name = "main" ∧ netlist.Tabulates root p.decls := by
  have computed : ∃ netlist, (compile {} besideRegister).result = .ok netlist ∧
      netlist.memories.entries =
        [("a", ["a_b0", "a_b1"]), ("c", ["c_b0", "c_b1", "c_b2", "c_b3"])] :=
    exists_ok_of_map (by decide +kernel)
  obtain ⟨netlist, compiled, entries⟩ := computed
  obtain ⟨p, root, checked, last, named, table⟩ := (compile_memories {} besideRegister).2 netlist compiled
  exact ⟨netlist, p, root, compiled, entries, checked, last, named, table⟩

end BankedLoops
