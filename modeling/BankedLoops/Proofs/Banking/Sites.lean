import Mathlib.Data.List.Forall2
import BankedLoops.Proofs.Banking.Agreement

/-!
# Index sites

The places of a program where an array is indexed: an index, the dimension it selects in, and the
environment in which arrays are split there. In a checked program every site is well typed.
-/

namespace BankedLoops

/-- The storage and the body of every component: the functions, then the root. -/
def Program.components (p : TypedProgram) : List (List Decl × TypedCommand) :=
  p.defs.map (fun f => (f.params, f.body)) ++ p.body.toList.map fun body => (p.decls, body)

theorem Program.mem_components_of_defs {p : TypedProgram} {f : Function Ty TypedExpr}
    (member : f ∈ p.defs) : (f.params, f.body) ∈ p.components :=
  List.mem_append_left _ (List.mem_map.mpr ⟨f, member, rfl⟩)

theorem Program.mem_components_root {p : TypedProgram} {body : TypedCommand}
    (present : p.body = some body) : (p.decls, body) ∈ p.components :=
  List.mem_append_right _ (by rw [present]; exact List.mem_cons_self)

/-- The storage and the bodies of a split program are those of the program, split. -/
theorem Program.forall₂_split {statements : Statements} {p : TypedProgram} {banked : BankedProgram}
    (split : (p.toBanks statements).result = .ok banked) :
    List.Forall₂ (fun c c' => Banking.bankDecls {} c.1 = .ok (c'.1, Banking.declared {} c.1) ∧
        (Banking.bankBody statements (Banking.declared {} c.1) c.2).result = .ok c'.2)
      p.components banked.program.components := by
  obtain ⟨env, functions, storage, _, root⟩ := toBanks_ok split
  refine List.rel_append ?_ ?_
  · rw [List.forall₂_map_left_iff, List.forall₂_map_right_iff]
    refine (Banking.forall₂_bankFunctions functions).imp fun f f' banked => ?_
    obtain ⟨params, inner, body, params_split, body_split, rfl⟩ := Banking.bankFunction_ok banked
    rw [← Banking.bankDecls_env params_split]
    exact ⟨params_split, body_split⟩
  · rcases root with ⟨absent, none⟩ | ⟨body, body', given, present, body_split⟩
    · rw [absent, none]
      exact .nil
    · obtain rfl := Banking.bankDecls_env storage
      rw [given, present]
      exact .cons ⟨storage, body_split⟩ .nil

/-- The bodies of a split program are the split bodies. -/
theorem Program.forall₂_components {statements : Statements} {p : TypedProgram}
    {banked : BankedProgram} (split : (p.toBanks statements).result = .ok banked) :
    List.Forall₂ (fun c c' => (Banking.bankBody statements (Banking.declared {} c.1) c.2).result = .ok c'.2)
      p.components banked.program.components :=
  (forall₂_split split).imp fun _ _ related => related.2

namespace Banking

/-- An index into one dimension of an array. -/
structure IndexSite where
  env : Env
  idx : TypedExpr
  dim : Dim

mutual

/-- The sites of an expression, those in indices included. -/
def sitesOf (env : Env) : TypedExpr → List IndexSite
  | .binop _ _ lhs rhs => sitesOf env lhs ++ sitesOf env rhs
  | .access _ array idxs =>
    match env.get? array with
    | some (.array layout) => sitesOfIndices env idxs layout.dims
    | _ => []
  | _ => []

def sitesOfIndices (env : Env) : List TypedExpr → List Dim → List IndexSite
  | idx :: idxs, dim :: dims => ⟨env, idx, dim⟩ :: sitesOf env idx ++ sitesOfIndices env idxs dims
  | _, _ => []

end

mutual

/-- The sites of a command. -/
def sitesOfCommand (env : Env) : TypedCommand → List IndexSite
  | .define _ _ _ init => sitesOf env init
  | .seq _ cmds => sitesOfSeq env cmds
  | .branch _ cond onTrue onFalse =>
    sitesOf env cond ++ sitesOfCommand env.enter onTrue ++ sitesOfElse env.enter onFalse
  | .loop _ header body =>
    sitesOfCommand (env.enter.rebind header.iter (.iterator ⟨header.start, header.stop - 1⟩)) body
  | .update _ target value => sitesOf env target ++ sitesOf env value
  | .reduce _ _ target value => sitesOf env target ++ sitesOf env value
  | .eval _ e => sitesOf env e
  | _ => []

def sitesOfSeq (env : Env) : List TypedCommand → List IndexSite
  | [] => []
  | cmd :: cmds => sitesOfCommand env cmd ++ sitesOfSeq (after env cmd) cmds

def sitesOfElse (env : Env) : Option TypedCommand → List IndexSite
  | none => []
  | some cmd => sitesOfCommand env cmd

end

/-- A well-typed index into an evenly divided dimension, in an environment that agrees with the
checker's. -/
def CheckedSite (site : IndexSite) : Prop :=
  ∃ ctx types, Typing.WellFormed types ∧ Agrees types site.env ∧
    Typing.CheckedExpr ctx types site.idx ∧ Typing.IndexFits site.dim site.idx.ty ∧
    site.dim.splitsEvenly = .ok true

variable {ctx : Typing.Context} {types types' : Typing.Env} {env : Env}

mutual

theorem checkedSite_of_mem (formed : Typing.WellFormed types) (agrees : Agrees types env)
    {site : IndexSite} : {e : TypedExpr} → Typing.CheckedExpr ctx types e → site ∈ sitesOf env e →
      CheckedSite site
  | _, .binop left right _, member => by
    rcases List.mem_append.mp member with inLeft | inRight
    · exact checkedSite_of_mem formed agrees left inLeft
    · exact checkedSite_of_mem formed agrees right inRight
  | _, .access bound indices, member => by
    obtain ⟨found, visible, same⟩ := agrees _ _ bound
    cases same
    simp only [sitesOf, visible] at member
    exact checkedSite_of_mem_indices formed agrees indices (formed.array bound).2 member

theorem checkedSite_of_mem_indices (formed : Typing.WellFormed types) (agrees : Agrees types env)
    {site : IndexSite} : {dims : List Dim} → {idxs : List TypedExpr} →
      Typing.CheckedIndices ctx types dims idxs → (∀ d ∈ dims, d.splitsEvenly = .ok true) →
      site ∈ sitesOfIndices env idxs dims → CheckedSite site
  | _, _, .cons checked fits _ rest, divided, member => by
    simp only [sitesOfIndices, List.cons_append, List.mem_cons, List.mem_append] at member
    rcases member with rfl | inner | later
    · exact ⟨ctx, types, formed, agrees, checked, fits, divided _ List.mem_cons_self⟩
    · exact checkedSite_of_mem formed agrees checked inner
    · exact checkedSite_of_mem_indices formed agrees rest
        (fun d inside => divided d (List.mem_cons_of_mem _ inside)) later

end

theorem checkedSite_of_mem_target (formed : Typing.WellFormed types) (agrees : Agrees types env)
    {site : IndexSite} {target : TypedExpr} (place : Typing.CheckedTarget ctx types target)
    (member : site ∈ sitesOf env target) : CheckedSite site := by
  cases place with
  | register _ => cases member
  | element checked => exact checkedSite_of_mem formed agrees checked member

mutual

theorem checkedSite_of_mem_command {ctx : Typing.Context} {types types' : Typing.Env}
    {env : Env} (formed : Typing.WellFormed types) (agrees : Agrees types env)
    {site : IndexSite} : {cmd : TypedCommand} → Typing.CheckedCommand ctx types cmd types' →
      site ∈ sitesOfCommand env cmd → CheckedSite site
  | _, .define value _ _ _, member => checkedSite_of_mem formed agrees value member
  | _, .seq checked, member => checkedSite_of_mem_seq formed agrees checked member
  | _, .branch value _ yes no, member => by
    simp only [sitesOfCommand, List.mem_append] at member
    rcases member with (inCond | inTrue) | inFalse
    · exact checkedSite_of_mem formed agrees value inCond
    · exact checkedSite_of_mem_command formed.enter agrees.enter yes inTrue
    · exact checkedSite_of_mem_else formed.enter agrees.enter no inFalse
  | _, .loop range checked, member =>
    checkedSite_of_mem_command (range.wellFormed formed) (agrees.round range) checked member
  | _, .update place checked _, member => by
    rcases List.mem_append.mp member with inTarget | inValue
    · exact checkedSite_of_mem_target formed agrees place inTarget
    · exact checkedSite_of_mem formed agrees checked inValue
  | _, .reduce place _ checked _, member => by
    rcases List.mem_append.mp member with inTarget | inValue
    · exact checkedSite_of_mem_target formed agrees place inTarget
    · exact checkedSite_of_mem formed agrees checked inValue
  | _, .eval value, member => checkedSite_of_mem formed agrees value member

theorem checkedSite_of_mem_seq {ctx : Typing.Context} {types types' : Typing.Env}
    {env : Env} (formed : Typing.WellFormed types) (agrees : Agrees types env)
    {site : IndexSite} : {cmds : List TypedCommand} → Typing.CheckedSeq ctx types cmds types' →
      site ∈ sitesOfSeq env cmds → CheckedSite site
  | _, .cons first rest, member => by
    rcases List.mem_append.mp member with inFirst | inRest
    · exact checkedSite_of_mem_command formed agrees first inFirst
    · exact checkedSite_of_mem_seq (first.wellFormed formed) (agrees.after first) rest inRest

theorem checkedSite_of_mem_else {ctx : Typing.Context} {types : Typing.Env}
    {env : Env} (formed : Typing.WellFormed types) (agrees : Agrees types env)
    {site : IndexSite} : {cmd : Option TypedCommand} → Typing.CheckedElse ctx types cmd →
      site ∈ sitesOfElse env cmd → CheckedSite site
  | _, .some checked, member => checkedSite_of_mem_command formed agrees checked member

end

end Banking

namespace Typing

/-- The body of a component is checked behind its storage. -/
theorem CheckedProgram.component {p : TypedProgram} (checked : CheckedProgram p)
    {ds : List Decl} {body : TypedCommand} (member : (ds, body) ∈ p.components) :
    ∃ ctx types types', CheckedDecls {} ds types ∧ CheckedCommand ctx types body types' := by
  obtain ⟨funcs, env, functions, decls, root⟩ := checked
  rcases List.mem_append.mp member with inDefs | inRoot
  · obtain ⟨f, defined, same⟩ := List.mem_map.mp inDefs
    cases same
    obtain ⟨earlier, checked⟩ := functions.mem defined
    obtain ⟨types, types', params, body⟩ := checked.body
    exact ⟨_, types, types', params, body⟩
  · obtain ⟨cmd, found, same⟩ := List.mem_map.mp inRoot
    cases same
    rw [Option.mem_toList] at found
    rw [found] at root
    cases root with
    | some body => exact ⟨_, env, _, decls, body⟩

end Typing

/-- In a checked program every index site is well typed, also behind the set-up of rotations. -/
theorem Banking.checkedSite_of_component {p : TypedProgram} (checked : Typing.CheckedProgram p)
    {ds : List Decl} {body : TypedCommand} (member : (ds, body) ∈ p.components)
    {statements : Statements} {taken : List String} {arrays : List (String × Nat)}
    {prologue : Prologue}
    (setUp : (setUpRotations statements body (declared {} ds) taken arrays).result = .ok prologue)
    {site : IndexSite} (inBody : site ∈ sitesOfCommand prologue.env body) : CheckedSite site := by
  obtain ⟨ctx, types, types', decls, commands⟩ := checked.component member
  exact checkedSite_of_mem_command (decls.wellFormed Typing.WellFormed.empty)
    ((Agrees.empty.declared decls).setUpRotations setUp) commands inBody

end BankedLoops
