import BankedLoops.Proofs.Lowering.Hardware
import BankedLoops.Proofs.Lowering.Tidy

/-!
# Netlists of source texts

Every component of a netlist is planned from its storage and its body, so what holds of planned
components holds of all of them. Nothing is asked of the names in the text.
-/

namespace BankedLoops

namespace Lowering

/-! ### Functions -/

theorem mem_bankFunctions {statements : Statements} {fs fs' : List (Function Ty TypedExpr)}
    (split : (Banking.bankFunctions statements fs).result = .ok fs') {f' : Function Ty TypedExpr}
    (member : f' ∈ fs') : ∃ f ∈ fs, (Banking.bankFunction statements f).result = .ok f' :=
  exists_mem_of_related (Banking.forall₂_bankFunctions split) member

end Lowering

open Lowering

/-- Whether `holds` of the storage and the body of every component. -/
structure Program.Bodies (holds : List Decl → Option TypedCommand → Prop) (p : TypedProgram) :
    Prop where
  functions : ∀ f ∈ p.defs, holds f.params (some f.body)
  root : holds p.decls p.body

/-- The names of a body are those of its storage, which it uses as their types tell. -/
def Lowering.PhysicalBody (ds : List Decl) (body : Option TypedCommand) : Prop :=
  PhysicalElse (slotsOf {} ds) body

/-- The components of a netlist are planned. -/
theorem BankedProgram.toNetlist_planned {exact : Prop} {config : Config} {statements : Statements}
    {p : BankedProgram} {netlist : Netlist} (tidy : p.program.Bodies TidyBody)
    (typed : exact → p.program.Bodies PhysicalBody)
    (lowered : (p.toNetlist config statements).result = .ok netlist) {c : Component}
    (member : c ∈ netlist.components) :
    ∃ name quotes control w, c = ⟨name, w.cells, w.groups, control⟩ ∧
      Planned exact { quotes } [control] w := by
  obtain ⟨functions, root, loweredFunctions, loweredRoot, components⟩ := toNetlist_ok lowered
  rw [components, List.mem_append, List.mem_singleton] at member
  rcases member with inside | rfl
  · obtain ⟨f, among, built⟩ := exists_mem_of_related loweredFunctions inside
    simp only [lowerFunction_eq] at built
    obtain ⟨_, control, w, ran, rfl⟩ := buildComponent_ok built
    exact ⟨_, _, control, w, rfl, assemble_planned (tidy.functions f among)
      (fun known => (typed known).functions f among) ran⟩
  · simp only [lowerRoot_eq] at loweredRoot
    obtain ⟨_, control, w, ran, rfl⟩ := buildComponent_ok loweredRoot
    exact ⟨_, _, control, w, rfl, assemble_planned tidy.root (fun known => (typed known).root) ran⟩

theorem Program.tidy_toBanks {p : TypedProgram} {statements : Statements} {banked : BankedProgram}
    (written : p.Written TypedExpr.Written) (split : (p.toBanks statements).result = .ok banked) :
    banked.program.Bodies TidyBody := by
  obtain ⟨env, splitFunctions, storage, _, splitBody⟩ := Program.toBanks_ok split
  constructor
  · intro f' member
    obtain ⟨f, inside, splitFunction⟩ := mem_bankFunctions splitFunctions member
    obtain ⟨params, env, body, splitParams, splitBody, rfl⟩ := Banking.bankFunction_ok splitFunction
    exact ⟨tidy_bankDecls (written.params f inside) splitParams,
      tidy_bankBody (written.functions f inside) splitBody⟩
  · exact ⟨tidy_bankDecls written.decls storage,
      tidy_bankedBody written.body (bankedBody_of_cases splitBody)⟩

theorem lift_diagnosed_ok_iff {α : Type} {x : Except CompileError α} {a : α} :
    (liftM x : Outcome α).result = .ok a ↔ x = .ok a := by
  cases x with
  | error e =>
    show (Except.error (.error e) : Except Failure α) = .ok a ↔ _
    simp
  | ok b =>
    show (Except.ok b : Except Failure α) = .ok a ↔ _
    simp

/-- The passes that a compiled text went through. -/
theorem compile_ok {config : Config} {text : String} {netlist : Netlist}
    (compiled : (compile config text).result = .ok netlist) :
    ∃ source p banked, parse text = .ok source ∧ source.check.result = .ok p ∧
      (p.toBanks (.ofProgram source)).result = .ok banked ∧
      (banked.toNetlist config (.ofProgram source)).result = .ok netlist := by
  simp only [compile, Outcome.result_bind, Outcome.result_tell, bind_ok_iff,
    lift_diagnosed_ok_iff] at compiled
  obtain ⟨source, parsed, _, _, compiled⟩ := compiled
  simp only [Program.compile, Outcome.result_bind, bind_ok_iff] at compiled
  obtain ⟨p, checked, banked, split, found, lowered, _, _, done⟩ := compiled
  cases done
  exact ⟨source, p, banked, parsed, checked, split, lowered⟩

theorem planned_of_compile {config : Config} {text : String} {netlist : Netlist}
    (compiled : (compile config text).result = .ok netlist) {c : Component}
    (member : c ∈ netlist.components) :
    ∃ name quotes control w, c = ⟨name, w.cells, w.groups, control⟩ ∧
      Planned False { quotes } [control] w := by
  obtain ⟨source, p, banked, parsed, checked, split, lowered⟩ := compile_ok compiled
  have written := Program.check_written (parse_written parsed) checked
  exact BankedProgram.toNetlist_planned (Program.tidy_toBanks written split) False.elim lowered member

/-- Adds up the elements of an array of two banks that another array numbers, as long as the sum is
small. -/
def gather : String :=
  "decl a: ubit<8>[4 bank 2]; decl b: ubit<2>[4]; let s: ubit<8> = 0; " ++
    "for (let i = 0..4) \x7b if (s < 9) \x7b s += a[b[i]]; \x7d \x7d"

theorem gather_compiles : ∃ netlist, (compile {} gather).result = .ok netlist ∧
    netlist.components.map (·.groups.length) = [9] :=
  exists_ok_of_map (by decide +kernel)

/-- Every group of a compiled text is well wired. -/
theorem compile_wellWired {config : Config} {text : String} {netlist : Netlist}
    (compiled : (compile config text).result = .ok netlist) :
    ∀ c ∈ netlist.components, ∀ g ∈ c.groups, c.WellWired g := by
  intro c member
  obtain ⟨name, _, control, w, rfl, planned⟩ := planned_of_compile compiled member
  exact planned.wellWired name

/-- The select of the read is itself read, and its comparisons tell the two banks apart. -/
theorem compile_wellWired_gather : ∃ netlist, (compile {} gather).result = .ok netlist ∧
    netlist.components.map (·.groups.length) = [9] ∧
    ∀ c ∈ netlist.components, ∀ g ∈ c.groups, c.WellWired g := by
  obtain ⟨netlist, compiled, counted⟩ := gather_compiles
  exact ⟨netlist, compiled, counted, compile_wellWired compiled⟩

/-- Every component of a compiled text names only what it has, and its control schedules each of its
groups once. -/
theorem compile_closed {config : Config} {text : String} {netlist : Netlist}
    (compiled : (compile config text).result = .ok netlist) :
    ∀ c ∈ netlist.components, c.Closed := by
  intro c member
  obtain ⟨name, _, control, w, rfl, planned⟩ := planned_of_compile compiled member
  exact planned.closed name

theorem compile_closed_gather : ∃ netlist, (compile {} gather).result = .ok netlist ∧
    netlist.components.map (·.groups.length) = [9] ∧ ∀ c ∈ netlist.components, c.Closed := by
  obtain ⟨netlist, compiled, counted⟩ := gather_compiles
  exact ⟨netlist, compiled, counted, compile_closed compiled⟩

end BankedLoops
