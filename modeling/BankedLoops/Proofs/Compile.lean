import BankedLoops.Proofs.Lowering.Demand
import BankedLoops.Proofs.Lowering.Refusals
import BankedLoops.Proofs.Tables

/-!
# How a compilation ends

A checked program whose indices are settled is compiled, or it is refused because it has no hardware
form or because of the configuration. It never shows a broken promise between two passes.
-/

namespace BankedLoops

namespace Lowering

/-! ### Bodies -/

theorem builds_setUp (s : Setting) {statements : Statements} {body : TypedCommand}
    {env : Banking.Env} {taken : List String} {advanced : List (String × Nat)}
    {prologue : Banking.Prologue}
    (success : (Banking.setUpRotations statements body env taken advanced).result = .ok prologue)
    (low : Env) : Builds (lowerSeq s low prologue.setup) := by
  induction advanced generalizing env taken prologue low with
  | nil =>
    cases success
    rw [lowerSeq]
    exact .pure _
  | cons entry advanced ih =>
    obtain ⟨array, pos⟩ := entry
    obtain ⟨layout, banks, _, _, ⟨_, rest⟩ | ⟨register, ty, inner, _, _, _, rest, rfl⟩⟩ :=
      Banking.setUpRotations_cons success
    · exact ih rest low
    · have zero : Lowerable low (.lit 0) := .lit 0
      dsimp only
      rw [lowerSeq, lowerCommand]
      refine .bind (.bind (builds_addRegister _ _) fun _ => .bind (zero.builds_assign s pos _ _
        (.lit (Word.capacity_pos _))) fun _ => .pure _) fun _ => ?_
      exact .bind (ih rest _) fun _ => .pure _

/-- Every index of a body meets a condition, once the rotations are set up. -/
def Meets (met : Banking.IndexSite → Prop) (statements : Statements) (ds : List Decl)
    (body : TypedCommand) : Prop :=
  ∀ prologue, (Banking.setUpRotations statements body (Banking.declared {} ds)
      (Banking.binders body) (Banking.firstOfEach (Banking.advances body))).result = .ok prologue →
    ∀ site ∈ Banking.sitesOfCommand prologue.env body, met site

section

variable {allowed : Failure → Prop} {met : Banking.IndexSite → Prop} (ends : Endings allowed met)
  {s : Setting}

include ends

theorem fails_lowerBody {arrays : List String} {ds : List Decl} {body banked : TypedCommand}
    {statements : Statements}
    (clean : Banking.BankNameClean arrays (Banking.boundNames ds (some body)))
    (split : (Banking.bankBody statements (Banking.declared {} ds) body).result = .ok banked)
    (meets : Meets met statements ds body) {tctx : Typing.Context} {stage : Stage}
    {types : Typing.Env} (checked : Typing.CheckedCommand tctx stage.scope.types body types)
    (formed : Typing.WellFormed stage.scope.types)
    (agrees : Banking.Agrees stage.scope.types (Banking.declared {} ds))
    (knows : Knows s tctx.funcs) (array : Banking.arraysIn body ⊆ arrays) {low : Env}
    (built : Built arrays (Banking.boundNames ds (some body)) [] [] stage low) :
    Fails allowed ((lowerCommand s low banked).run stage.space) := by
  obtain ⟨prologue, inner, setUp, banked, rfl⟩ := Banking.bankBody_ok split
  have accounted := accounted_body ds body
  have binders : Banking.binders body ⊆ Banking.boundNames ds (some body) :=
    List.subset_append_right _ _
  have agreed := agrees.setUpRotations setUp
  have sites := meets prologue setUp
  split
  · next empty =>
    rw [List.isEmpty_iff] at empty
    have none : (lowerSeq s low prologue.setup).run stage.space = .ok (([], low), stage.space) := by
      rw [empty, lowerSeq]
      rfl
    obtain ⟨rotors, started, registers, _, _, turned⟩ := setUp_wired setUp accounted built none
    cases registers with
    | nil =>
      exact fails_lowerCommand ends clean banked checked ⟨formed, agreed, turned, knows⟩ binders
        array sites
  · rw [lowerCommand, lowerSeq_append]
    refine fails_run_bind ?_ fun _ _ _ => fails_run_pure _ _
    refine fails_run_bind ((builds_setUp s setUp low).fails ends.crowded _) ?_
    rintro ⟨controls, next⟩ v started
    obtain ⟨rotors, middle, _, rfl, scope, turned⟩ := setUp_wired setUp accounted built started
    rw [← scope] at checked formed agreed
    refine fails_run_bind ?_ fun _ _ _ => fails_run_pure _ _
    rw [lowerSeq]
    refine fails_run_bind (fails_lowerCommand ends clean banked checked
      ⟨formed, agreed, turned, knows⟩ binders array sites) fun _ _ _ => ?_
    simp only [lowerSeq, pure_bind]
    exact fails_run_pure _ _

end

/-! ### Components -/

theorem nonEmpty_bankDecls {env env' : Banking.Env} {ds banked : List Decl}
    (split : Banking.bankDecls env ds = .ok (banked, env'))
    (declared : ∀ d ∈ ds, Typing.declaredFault? d.ty = .ok none) : ∀ d ∈ banked, NonEmpty d.ty := by
  replace split := Banking.bankDecls_ok split
  induction split with
  | nil => exact nofun
  | @array _ _ _ _ _ dims _ _ _ split _ ih =>
    obtain ⟨valid, others⟩ := List.forall_mem_cons.mp declared
    have divided : Banking.Divided dims := (Typing.declared_array valid).2
    exact List.forall_mem_append.mpr
      ⟨fun d inBanks => (nonEmpty_split divided split d inBanks).1, ih others⟩
  | @scalar _ _ d _ _ found _ ih =>
    obtain ⟨_, others⟩ := List.forall_mem_cons.mp declared
    refine List.forall_mem_cons.mpr ⟨?_, ih others⟩
    cases ty : d.ty with
    | array elem dims =>
      rw [ty] at found
      cases found
    | _ => trivial

theorem builds_instantiateAll (funcs : List String) : Builds (instantiateAll funcs) := by
  induction funcs with
  | nil => exact .pure _
  | cons func funcs ih => exact .bind (builds_instanceOf func) fun _ => ih

/-- A component of a checked program ends as its simple commands do. -/
theorem fails_component {allowed : Failure → Prop} {met : Banking.IndexSite → Prop}
    (ends : Endings allowed met) {s : Setting} {exposure : Exposure} (visible : exposure ≠ .hidden)
    {ds banked : List Decl} {env : Banking.Env} {body body' : Option TypedCommand}
    {statements : Statements} {instances : List String}
    (clean : Banking.BankNameClean (Banking.arrayNames ds body) (Banking.boundNames ds body))
    (split : Banking.bankDecls {} ds = .ok (banked, env))
    (splitBody : BankedBody statements env body body') {tctx : Typing.Context} {types : Typing.Env}
    (decls : Typing.CheckedDecls {} ds types) (checked : Typing.CheckedElse tctx types body)
    (meets : ∀ cmd, body = some cmd → Meets met statements ds cmd) (knows : Knows s tctx.funcs)
    (name : String) (quotes : Statements) :
    Fails allowed (buildComponent name quotes (assemble s exposure banked instances body')).result := by
  apply fails_buildComponent
  refine fails_run_bind (Fails.mono (regular_declareAll s {} (nonEmpty_bankDecls split
    fun _ => decls.declared) exposure _) ends.permitted) ?_
  intro low v declared
  obtain ⟨stored, _, continues⟩ := declareAll_wired clean visible split (by exact decls)
    (List.subset_append_left _ _) (List.subset_append_left _ _)
    (Built.start (Banking.arrayNames ds body) (Banking.boundNames ds body) quotes) declared
  obtain rfl := continues.space
  refine fails_run_bind ((builds_instantiateAll instances).fails ends.crowded _) ?_
  intro _ w instantiated
  have built := continues.built.grow (adds_instantiateAll _ _ _ _ instantiated)
  obtain rfl := Banking.bankDecls_env split
  cases splitBody with
  | none =>
    rw [lowerElse]
    exact fails_run_pure _ _
  | @some cmd cmd' split =>
    cases checked with
    | some checked =>
      have agrees := Banking.Agrees.empty.declared decls
      have formed := decls.wellFormed Typing.WellFormed.empty
      rw [← continues.types] at checked agrees formed
      rw [lowerElse]
      exact fails_run_bind (fails_lowerBody ends clean split (meets cmd rfl) (by exact checked)
        (by exact formed) (by exact agrees) knows (List.subset_append_right _ _) built)
        fun _ _ _ => fails_run_pure _ _

/-! ### Signatures -/

theorem lookup_checkedFunctions {funcs funcs' : List (String × List Decl)}
    {fs : List (Function Ty TypedExpr)} (checked : Typing.CheckedFunctions funcs fs funcs')
    {func : String} {params : List Decl} (found : funcs.lookup func = some params) :
    funcs'.lookup func = some params := by
  induction checked with
  | nil => exact found
  | @cons funcs _ f _ first _ ih =>
    apply ih
    rw [List.lookup_cons]
    split
    · next same =>
      rw [eq_of_beq same, first.unnamed] at found
      cases found
    · exact found

theorem signaturesOf_cons (f : Function Ty TypedExpr) (fs : List (Function Ty TypedExpr)) :
    signaturesOf (f :: fs) = signaturesOf fs ++ [(f.name, f.params.map (·.name))] := by
  rw [signaturesOf, List.map_cons, List.reverse_cons]
  rfl

/-- A function takes as many memories as its parameters have. -/
theorem lookup_signaturesOf {statements : Statements} {funcs funcs' : List (String × List Decl)}
    {fs fs' : List (Function Ty TypedExpr)} (checked : Typing.CheckedFunctions funcs fs funcs')
    (split : (Banking.bankFunctions statements fs).result = .ok fs') {func : String}
    {params : List Decl} (found : funcs'.lookup func = some params) :
    (∃ names, (signaturesOf fs').lookup func = some names ∧ names.length = memoryCounts params) ∨
      (signaturesOf fs').lookup func = none ∧ funcs.lookup func = some params := by
  replace split := Banking.forall₂_bankFunctions split
  induction checked generalizing fs' with
  | nil =>
    cases split
    exact .inr ⟨rfl, found⟩
  | @cons funcs _ f fs first _ ih =>
    obtain _ | ⟨banked, others⟩ := split
    obtain ⟨params', env, body, splitParams, _, rfl⟩ := Banking.bankFunction_ok banked
    rw [signaturesOf_cons, List.lookup_append]
    rcases ih found others with ⟨names, listed, count⟩ | ⟨missing, earlier⟩
    · rw [listed]
      exact .inl ⟨names, rfl, count⟩
    · rw [missing, Option.none_or, List.lookup_cons]
      rw [List.lookup_cons] at earlier
      dsimp only
      split at earlier
      · cases earlier
        refine .inl ⟨_, rfl, ?_⟩
        rw [List.length_map]
        exact length_bankDecls splitParams
      · exact .inr ⟨rfl, earlier⟩

theorem fails_lowerFunctions {allowed : Failure → Prop} {met : Banking.IndexSite → Prop}
    (ends : Endings allowed met) {s : Setting} {statements : Statements}
    {funcs funcs' : List (String × List Decl)} {fs fs' : List (Function Ty TypedExpr)}
    (checked : Typing.CheckedFunctions funcs fs funcs') (knows : Knows s funcs')
    (clean : ∀ f ∈ fs, Banking.BankNameClean (Banking.arrayNames f.params (some f.body))
      (Banking.boundNames f.params (some f.body)))
    (meets : ∀ f ∈ fs, Meets met statements f.params f.body)
    (split : (Banking.bankFunctions statements fs).result = .ok fs') (quotes : Statements) :
    Fails allowed (lowerFunctions s quotes fs').result := by
  replace split := Banking.forall₂_bankFunctions split
  induction checked generalizing fs' quotes with
  | nil =>
    cases split
    exact .pure _
  | @cons funcs _ f fs first others ih =>
    obtain _ | ⟨banked, splitRest⟩ := split
    obtain ⟨params, env, body, splitParams, splitBody, rfl⟩ := Banking.bankFunction_ok banked
    obtain ⟨types, types', decls, checked⟩ := first.body
    have known : Knows s funcs := by
      intro func params found
      refine knows func params (lookup_checkedFunctions (.cons first others) found)
    have meetsBody : ∀ cmd, some f.body = some cmd → Meets met statements f.params cmd := by
      intro cmd same
      cases same
      exact meets f List.mem_cons_self
    simp only [lowerFunctions, Outcome.result_bind, lowerFunction_eq]
    refine .bind (fails_component ends (by simp) (clean f List.mem_cons_self) splitParams
      (.some splitBody) decls (.some checked) meetsBody known f.name quotes) fun made => ?_
    exact .bind (ih knows (fun g member => clean g (List.mem_cons_of_mem _ member))
      (fun g member => meets g (List.mem_cons_of_mem _ member)) made.2 splitRest) fun _ => .pure _

/-! ### External memories -/

theorem adds_declareAll (s : Setting) (exposure : Exposure) (env : Env) (ds : List Decl) :
    Adds (declareAll s exposure env ds) := by
  induction ds generalizing env with
  | nil => exact .pure _
  | cons d ds ih => exact .bind (adds_declare _ _ _ _) fun env => ih env

theorem declareAll_external {s : Setting} {env env' : Env} {ds : List Decl} {w w' : Workspace}
    (ran : (declareAll s .external env ds).run w = .ok (env', w')) :
    ∀ d ∈ ds, d.ty.isArray = true → ∃ c ∈ w'.cells, c.name = d.name ∧ c.isExternal = true := by
  induction ds generalizing env w with
  | nil => exact nofun
  | cons d ds ih =>
    obtain ⟨next, v, declared, rest⟩ := run_bind_ok_iff.mp ran
    intro other member isArray
    rcases List.mem_cons.mp member with rfl | later
    · obtain ⟨c, _, cells, _, _, seen⟩ := declare_ok declared
      obtain ⟨named, external⟩ := seen isArray (by simp)
      have grows := adds_declareAll _ _ _ _ _ _ _ rest
      refine ⟨c, grows.cells.subset ?_, named, external⟩
      rw [cells]
      exact List.mem_append_right _ List.mem_cons_self
    · exact ih rest other later isArray

/-- The table lists memories that are declared. -/
theorem memoriesOf_declared {table memories : Table String (List String)} {env env' : Banking.Env}
    {ds banked : List Decl} (tabled : Banking.memoriesOf table ds = .ok memories)
    (split : Banking.bankDecls env ds = .ok (banked, env')) {entry : String × List String}
    (member : entry ∈ memories.entries) : entry ∈ table.entries ∨
      ∀ bank ∈ entry.2, ∃ d ∈ banked, d.name = bank ∧ d.ty.isArray = true := by
  replace split := Banking.bankDecls_ok split
  induction split generalizing table with
  | nil =>
    cases tabled
    exact .inl member
  | @array _ _ pos name elem dims _ banks _ split _ ih =>
    simp only [Banking.memoriesOf, Layout.ofTy?, bind_ok_iff, lift_ok_iff] at tabled
    obtain ⟨names, named, tabled⟩ := tabled
    rcases ih tabled with old | declared
    · rcases Table.mem_insertInto old with rfl | old
      · refine .inr fun bank inside => ?_
        dsimp only at inside
        rw [Layout.banks_eq named] at inside
        obtain ⟨k, below, rfl⟩ := List.mem_map.mp inside
        refine ⟨⟨pos, Layout.memory ⟨name, elem, dims⟩ k, Layout.bankTy ⟨name, elem, dims⟩⟩,
          List.mem_append_left _ ?_, rfl, rfl⟩
        rw [Layout.split_eq split]
        exact List.mem_map.mpr ⟨k, below, rfl⟩
      · exact .inl old
    · refine .inr fun bank inside => ?_
      obtain ⟨other, listed, named⟩ := declared bank inside
      exact ⟨other, List.mem_append_right _ listed, named⟩
  | scalar found _ ih =>
    simp only [Banking.memoriesOf, found] at tabled
    rcases ih tabled with old | declared
    · exact .inl old
    · refine .inr fun bank inside => ?_
      obtain ⟨other, listed, named⟩ := declared bank inside
      exact ⟨other, List.mem_cons_of_mem _ listed, named⟩

theorem cell?_eq_some {c : Component} (nodup : (c.cells.map (·.name)).Nodup) {cell : Cell}
    (member : cell ∈ c.cells) : c.cell? cell.name = some cell :=
  find?_of_nodup nodup member fun _ => beq_iff_eq

theorem hiddenBank?_eq_none {root : Component} {memories : Table String (List String)}
    (external : ∀ entry ∈ memories.entries, ∀ bank ∈ entry.2, ∃ cell,
      root.cell? bank = some cell ∧ cell.isExternal = true) : hiddenBank? root memories = none := by
  rw [hiddenBank?, List.findSome?_eq_none_iff]
  intro entry member
  rw [Option.map_eq_none_iff, List.find?_eq_none]
  intro bank inside
  obtain ⟨cell, found, seen⟩ := external entry member bank inside
  simp [found, seen]

/-- The memories of the root's arrays are external cells of the root. -/
theorem external_memories {s : Setting} {ds banked : List Decl} {env : Banking.Env}
    {body : Option TypedCommand} {instances : List String} {memories : Table String (List String)}
    (tabled : Banking.memoriesOf {} ds = .ok memories)
    (split : Banking.bankDecls {} ds = .ok (banked, env)) {name : String} {root : Component}
    (lowered : Makes (buildComponent name · (assemble s .external banked instances body)) root) :
    hiddenBank? root memories = none := by
  obtain ⟨quotes, control, w, ran, rfl⟩ := buildComponent_ok lowered
  obtain ⟨low, v, declared, rest⟩ := run_bind_ok_iff.mp ran
  have stored : Grows { quotes } v := adds_declareAll _ _ _ _ _ _ _ declared
  have grows : Grows v w :=
    (adds_instantiateAll instances).bind
      (fun _ => (steps_lowerElse s low body (fun _ _ => trivial) fun _ _ => trivial).adds) _ _ _ rest
  have sound : w.Sound := grows.sound (stored.sound (Workspace.sound_empty _))
  apply hiddenBank?_eq_none
  intro entry member bank inside
  rcases memoriesOf_declared tabled split member with none | listed
  · cases none
  · obtain ⟨d, member, rfl, isArray⟩ := listed bank inside
    obtain ⟨cell, allocated, named, external⟩ := declareAll_external declared d member isArray
    refine ⟨cell, ?_, external⟩
    rw [← named]
    exact cell?_eq_some (by exact sound.nodup) (grows.cells.subset allocated)

end Lowering

/-- The lowering of a checked program ends as its simple commands do: in particular it keeps the
promise that splitting relies on. -/
theorem BankedProgram.fails_toNetlist {allowed : Failure → Prop} {met : Banking.IndexSite → Prop}
    (ends : Lowering.Endings allowed met) {statements : Statements} {p : TypedProgram}
    {banked : BankedProgram} (checked : Typing.CheckedProgram p) (clean : p.BankNameClean)
    (functions : ∀ f ∈ p.defs, Lowering.Meets met statements f.params f.body)
    (root : ∀ cmd, p.body = some cmd → Lowering.Meets met statements p.decls cmd)
    (split : (p.toBanks statements).result = .ok banked) (config : Config)
    (described : Statements) : Fails allowed (banked.toNetlist config described).result := by
  obtain ⟨env, splitFunctions, storage, tabled, splitBody⟩ := Program.toBanks_ok split
  obtain ⟨funcs, types, defs, decls, body⟩ := checked
  have known : Lowering.Knows (banked.setting config described) funcs := by
    intro func params found
    rcases Lowering.lookup_signaturesOf defs splitFunctions found with listed | ⟨_, none⟩
    · exact listed
    · cases none
  simp only [toNetlist]
  split
  · simp only [Outcome.result_bind, Outcome.result_lift]
    exact .refuse_bind (ends.permitted _ (.config _)) _
  · simp only [Outcome.result_bind]
    refine .bind (Lowering.fails_lowerFunctions ends defs known clean.functions functions
      splitFunctions _) fun functions => ?_
    rw [Lowering.lowerRoot_eq]
    refine .bind_of_ok (Lowering.fails_component ends (by simp) clean.root storage
      (Lowering.bankedBody_of_cases splitBody) decls body root known _ _) ?_
    rintro ⟨root, quotes⟩ lowered
    rw [Lowering.external_memories tabled storage ⟨_, _, lowered⟩]
    exact .pure _

/-- A settled program is lowered, or refused for lack of hardware or because of the configuration. -/
theorem BankedProgram.regular_toNetlist {statements : Statements} {p : TypedProgram}
    {banked : BankedProgram} (checked : Typing.CheckedProgram p) (settled : p.Settled statements)
    (few : banked.program.FewNames) (split : (p.toBanks statements).result = .ok banked)
    (config : Config) : Regular (banked.toNetlist config statements).result := by
  intro f failed
  have crowded := fails_toNetlist Lowering.settled_endings checked settled.clean
    (fun _ member => (settled.function member).sites) (fun _ present => (settled.root present).sites)
    split config statements f failed
  cases crowded with
  | permitted permitted => exact permitted
  | overflow => exact absurd rfl (counts_toNetlist few config statements _ failed)

/-- A program that the checker accepts, whose indices are settled and whose names can be counted is
compiled, or refused because it has no hardware form or because of the configuration. -/
theorem Program.regular_compile {source : SourceProgram} {p : TypedProgram}
    (checked : source.check.result = .ok p) (settled : p.Settled (.ofProgram source))
    (nameable : p.Nameable (.ofProgram source)) (config : Config) :
    Regular (source.compile config).result := by
  have accepted := Typing.checkedProgram_of_check checked
  simp only [compile, Outcome.result_bind, checked]
  refine .bind (.ok p) fun typed same => ?_
  cases same
  refine .bind (regular_toBanks accepted settled) fun banked split => ?_
  exact .bind (BankedProgram.regular_toNetlist accepted settled (nameable banked split) split config)
    fun _ _ => .ok _

/-- Once a text is read, its compilation is that of the program it writes. -/
theorem result_compile {config : Config} {text : String} {source : SourceProgram}
    (parsed : parse text = .ok source) :
    (compile config text).result = (source.compile config).result := by
  simp only [compile, Outcome.result_bind, parsed]
  rfl

/-- How the compilation of a checked and settled program ends whose names can be counted, whatever text
it was read from: with a netlist, or with a refusal for lack of hardware or because of the
configuration. -/
theorem compile_ends {source : SourceProgram} {p : TypedProgram}
    (checked : source.check.result = .ok p) (settled : p.Settled (.ofProgram source))
    (nameable : p.Nameable (.ofProgram source)) (config : Config) :
    (∀ text, parse text = .ok source →
      (compile config text).result = (source.compile config).result) ∧
    ((∃ netlist, (source.compile config).result = .ok netlist) ∨
      (∃ stmt fault, (source.compile config).result = .error (.error (.capability stmt fault))) ∨
      ∃ fault, (source.compile config).result = .error (.error (.config fault))) := by
  refine ⟨fun text parsed => result_compile parsed, ?_⟩
  rcases (Program.regular_compile checked settled nameable config).cases with ended | ⟨f, failed, permitted⟩
  · exact .inl ended
  · cases permitted with
    | capability stmt fault => exact .inr (.inl ⟨stmt, fault, failed⟩)
    | config fault => exact .inr (.inr ⟨fault, failed⟩)

namespace Lowering

/-- Reads all of an array of two banks: `for (let i = 0..4) { let x = a[i]; }`. -/
def sweep : SourceProgram where
  decls := [⟨0, "a", .array (.ubit 8) [⟨4, 2⟩]⟩]
  defs := []
  body := some (.loop 2 ⟨"i", 0, 4, none⟩ (.define 4 "x" none (.access "a" [.var "i"])))

def sweepTyped : TypedProgram where
  decls := sweep.decls
  defs := []
  body := some (.loop 2 ⟨"i", 0, 4, none⟩
    (.define 4 "x" (.ubit 8) (.access (.ubit 8) "a" [.var (.idx 4 none) "i"])))

theorem sweepTyped_settled : sweepTyped.Settled (.ofProgram sweep) where
  clean := ⟨nofun, Banking.clean_of_short (by decide)⟩
  params := nofun
  storage := by
    intro d member
    rw [List.mem_singleton.mp member]
    exact ⟨by decide, by decide, by decide⟩
  bodies := by
    intro ds body member
    cases List.mem_singleton.mp member
    refine ⟨nofun, nofun, ?_⟩
    intro prologue setUp site inBody
    cases setUp
    rw [List.mem_singleton.mp inBody]
    -- The iterator passes through both banks, so the bank is known at run time only.
    exact ⟨nofun, nofun, by decide⟩

theorem sweepTyped_nameable : sweepTyped.Nameable (.ofProgram sweep) :=
  Program.nameable_of_computed (by decide +kernel)

/-- The sweep is compiled. -/
theorem compile_ends_sweep :
    sweep.check.result = .ok sweepTyped ∧ sweepTyped.Settled (.ofProgram sweep) ∧
      sweepTyped.Nameable (.ofProgram sweep) ∧
      ((∃ netlist, (sweep.compile {}).result = .ok netlist) ∨
        (∃ stmt fault, (sweep.compile {}).result = .error (.error (.capability stmt fault))) ∨
        ∃ fault, (sweep.compile {}).result = .error (.error (.config fault))) :=
  ⟨rfl, sweepTyped_settled, sweepTyped_nameable,
    (compile_ends rfl sweepTyped_settled sweepTyped_nameable {}).2⟩

end Lowering

end BankedLoops
