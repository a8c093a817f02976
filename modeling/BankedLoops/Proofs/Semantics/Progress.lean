import Mathlib.Data.List.Forall2
import BankedLoops.Banking.Program
import BankedLoops.Proofs.Semantics.Growth
import BankedLoops.Proofs.Typing.Soundness

/-!
# Checked programs do not get stuck

A run of a checked program that advances no array ends, or stops at an index: every name that the
program uses has storage of the declared kind, and every call finds its function.
-/

namespace BankedLoops

/-- No component advances an array. -/
structure Program.IsStill (p : TypedProgram) : Prop where
  functions : ∀ f ∈ p.defs, Banking.advances f.body = []
  root : Banking.advancesOfElse p.body = []

namespace Semantics

/-- A computation that ends or stops at an index. -/
def Runs {α : Type} (x : Except Stop α) : Prop :=
  x ≠ .error .stuck

namespace Runs

variable {α β : Type}

theorem ok (a : α) : Runs (.ok a : Except Stop α) := nofun

theorem index : Runs (.error .index : Except Stop α) := nofun

theorem bind {x : Except Stop α} {f : α → Except Stop β} (first : Runs x)
    (rest : ∀ a, x = .ok a → Runs (f a)) : Runs (x >>= f) := by
  cases x with
  | ok a => exact rest a rfl
  | error stop =>
    cases stop with
    | index => exact nofun
    | stuck => exact absurd rfl first

theorem map {x : Except Stop α} (f : α → β) (first : Runs x) : Runs (x.map f) := by
  cases x with
  | ok a => exact nofun
  | error stop =>
    cases stop with
    | index => exact nofun
    | stuck => exact absurd rfl first

theorem orStuck {x : Option α} {a : α} (found : x = some a) : Runs (orStuck x) := by
  rw [found]
  exact nofun

theorem ok_or_index {x : Except Stop α} (runs : Runs x) :
    x = .error .index ∨ ∃ a, x = .ok a := by
  cases x with
  | ok a => exact .inr ⟨a, rfl⟩
  | error stop =>
    cases stop with
    | index => exact .inl rfl
    | stuck => exact absurd rfl runs

end Runs

/-! ### Storage -/

/-- The storage behind a name of the given kind. -/
inductive Located (s : State) : Typing.Binding → Slot → Prop where
  | scalar {ty : Ty} {loc : Nat} (allocated : loc < s.scalars.length) :
      Located s (.scalar ty) (.scalar loc)
  | iterator (ty : Ty) (v : Nat) : Located s (.iterator ty) (.iterator v)
  | array {elem : Ty} {ds : List Dim} {loc : Nat} (allocated : s.shapes[loc]? = some ds) :
      Located s (.array elem ds) (.array loc)

/-- Every name that the checker sees has storage of its kind. -/
def Stored (types : Typing.Env) (env : Env) (s : State) : Prop :=
  ∀ name binding, types.get? name = some binding →
    ∃ slot, env.get? name = some slot ∧ Located s binding slot

theorem Located.extend {s t : State} (extends_ : Extends s t) {binding : Typing.Binding}
    {slot : Slot} (located : Located s binding slot) : Located t binding slot := by
  cases located with
  | scalar allocated => exact .scalar (Nat.lt_of_lt_of_le allocated extends_.scalars)
  | iterator ty v => exact .iterator ty v
  | array allocated => exact .array (getElem?_of_isPrefix extends_.shapes allocated)

namespace Stored

variable {types types' : Typing.Env} {env : Env} {s t : State}

theorem extend (stored : Stored types env s) (extends_ : Extends s t) : Stored types env t := by
  intro name binding bound
  obtain ⟨slot, found, located⟩ := stored name binding bound
  exact ⟨slot, found, located.extend extends_⟩

theorem enter (stored : Stored types env s) : Stored types.enter env.enter s := stored

theorem rebind (stored : Stored types env s) {name : String} {binding : Typing.Binding}
    {slot : Slot} (located : Located s binding slot) :
    Stored (types.rebind name binding) (env.rebind name slot) s := by
  intro other found bound
  rw [Scope.get?_rebind] at bound ⊢
  split at bound
  · next same =>
    cases bound
    exact ⟨slot, if_pos same, located⟩
  · next different =>
    rw [if_neg different]
    exact stored other found bound

theorem bind (stored : Stored types env s) {name : String} {binding : Typing.Binding}
    {slot : Slot} (fresh : types.bind? name binding = some types')
    (located : Located s binding slot) : Stored types' (env.rebind name slot) s := by
  rw [Scope.eq_rebind_of_bind? fresh]
  exact stored.rebind located

theorem define (stored : Stored types env s) {name : String} {ty : Ty} (v : Nat)
    (fresh : types.bind? name (.scalar ty) = some types') :
    Stored types' (env.rebind name (.scalar s.scalars.length)) (s.pushScalar v) := by
  refine (stored.extend (.pushScalar s v)).bind fresh (.scalar ?_)
  rw [State.pushScalar, List.length_append]
  exact Nat.lt_succ_self _

theorem allocate (stored : Stored types env s) (m : Machine) {name : String} {ty : Ty}
    (fresh : types.bind? name (.ofTy ty) = some types') :
    Stored types' (allocate m env s name ty).1 (allocate m env s name ty).2 := by
  cases ty with
  | array elem ds =>
    refine (stored.extend (.pushMemory s _)).bind fresh (.array ?_)
    have length : s.shapes.length = s.memories.length := List.length_map _
    rw [State.shapes_pushMemory, ← length, List.getElem?_append_right (Nat.le_refl _), Nat.sub_self]
    rfl
  | _ => exact stored.define _ fresh

theorem allocateAll (stored : Stored types env s) (m : Machine) {ds : List Decl}
    (checked : Typing.CheckedDecls types ds types') :
    Stored types' (allocateAll m env s ds).1 (allocateAll m env s ds).2 := by
  induction checked generalizing env s with
  | nil => exact stored
  | cons _ fresh _ ih => exact ih (stored.allocate m fresh)

end Stored

/-! ### Expressions -/

section

variable {ctx : Typing.Context} {types : Typing.Env} {env : Env} {s : State} {m : Machine}

theorem elementAt_runs (stored : Stored types env s) {array : String} {elem : Ty} {ds : List Dim}
    (bound : types.get? array = some (.array elem ds)) (is : List Nat) :
    Runs (elementAt env s array is) := by
  obtain ⟨slot, found, located⟩ := stored array _ bound
  cases located with
  | array allocated =>
    rw [State.shapes, List.getElem?_map, Option.map_eq_some_iff] at allocated
    obtain ⟨a, held, rfl⟩ := allocated
    simp only [elementAt, arrayOf?, found, held, orStuck_some, ok_bind]
    split
    · exact .ok _
    · exact .index

/-- An element that an access names is in the store. -/
theorem get?_elementAt {array : String} {is : List Nat} {place : Place}
    (found : elementAt env s array is = .ok place) : ∃ v, s.get? place = some v := by
  simp only [elementAt, bind_ok_iff, orStuck_ok_iff] at found
  obtain ⟨loc, _, a, held, found⟩ := found
  split at found
  · cases found
    exact ⟨a.contents is, by rw [State.get?, held]; rfl⟩
  · cases found

mutual

theorem eval_runs (stored : Stored types env s) {index : Bool} :
    {e : TypedExpr} → Typing.CheckedExpr ctx types e → Runs (eval m env s index e)
  | _, .int n => .ok n
  | _, .bool b => .ok b.toNat
  | .var _ name, .scalar bound => by
    obtain ⟨slot, found, located⟩ := stored name _ bound
    cases located with
    | scalar allocated =>
      simp only [eval, scalarOf?, found]
      exact .orStuck (List.getElem?_eq_getElem allocated)
  | .var _ name, .iterator bound => by
    obtain ⟨slot, found, located⟩ := stored name _ bound
    cases located with
    | iterator ty v =>
      simp only [eval, scalarOf?, found]
      exact .ok v
  | .binop ty op lhs rhs, .binop left right _ => by
    refine .bind (eval_runs stored left) fun a _ => .bind (eval_runs stored right) fun b _ => ?_
    split
    · exact .index
    · exact .ok _
  | .access _ array idxs, .access bound indices => by
    refine .bind (evalIndices_runs stored indices) fun is _ =>
      .bind (elementAt_runs stored bound is) fun place found => ?_
    obtain ⟨v, held⟩ := get?_elementAt found
    exact .orStuck held

theorem evalIndices_runs (stored : Stored types env s) :
    {ds : List Dim} → {idxs : List TypedExpr} → Typing.CheckedIndices ctx types ds idxs →
      Runs (evalIndices m env s idxs)
  | _, _, .nil => .ok []
  | _, _, .cons checked _ _ rest =>
    .bind (eval_runs stored checked) fun i _ =>
      .bind (evalIndices_runs stored rest) fun is _ => .ok (i :: is)

end

/-- The target of an assignment has a place in the store. -/
theorem placeOf_runs (stored : Stored types env s) {target : TypedExpr}
    (checked : Typing.CheckedTarget ctx types target) :
    Runs (placeOf m env s target) ∧
      ∀ place, placeOf m env s target = .ok place → ∃ v, s.get? place = some v := by
  cases checked with
  | register bound =>
    obtain ⟨slot, found, located⟩ := stored _ _ bound
    cases located with
    | scalar allocated =>
      simp only [placeOf, found]
      refine ⟨.ok _, ?_⟩
      intro place same
      cases same
      exact ⟨_, List.getElem?_eq_getElem allocated⟩
  | element checked =>
    cases checked with
    | access bound indices =>
      refine ⟨.bind (evalIndices_runs stored indices) fun is _ => elementAt_runs stored bound is, ?_⟩
      intro place found
      simp only [placeOf, bind_ok_iff] at found
      obtain ⟨is, _, found⟩ := found
      exact get?_elementAt found

end

/-! ### Commands -/

/-- Arrays of the types of parameters. -/
def Fits (s : State) (params : List Decl) (locs : List Nat) : Prop :=
  List.Forall₂ (fun d loc => ∃ elem ds, d.ty = .array elem ds ∧ s.shapes[loc]? = some ds) params locs

/-- Every function can be called with arrays of the types of its parameters. -/
def Callable (funcs : List (String × List Decl)) (procs : List (String × Procedure)) : Prop :=
  ∀ func params, funcs.lookup func = some params →
    ∃ proc, procs.lookup func = some proc ∧ ∀ locs s, Fits s params locs → Runs (proc locs s)

theorem arraysOf?_fits {types : Typing.Env} {env : Env} {s : State} (stored : Stored types env s)
    {args : List String} {params : List Decl} (given : Typing.CheckedArguments types args params) :
    ∃ locs, arraysOf? env args = some locs ∧ Fits s params locs := by
  induction given with
  | nil => exact ⟨[], rfl, .nil⟩
  | cons bound same _ ih =>
    obtain ⟨locs, found, fits⟩ := ih
    obtain ⟨slot, visible, located⟩ := stored _ _ bound
    cases located with
    | @array _ _ loc allocated =>
      refine ⟨loc :: locs, ?_, .cons ⟨_, _, same, allocated⟩ fits⟩
      simp only [arraysOf?, arrayOf?, visible, found, bind, Option.bind_some]

theorem foldlM_runs {step : State → Nat → Except Stop State} {P : State → Prop}
    (keeps : ∀ s i t, P s → step s i = .ok t → P t) (runs : ∀ s i, P s → Runs (step s i))
    (xs : List Nat) {s : State} (holds : P s) : Runs (xs.foldlM step s) := by
  induction xs generalizing s with
  | nil => exact .ok s
  | cons x xs ih =>
    rw [List.foldlM_cons]
    exact .bind (runs s x holds) fun t stepped => ih (keeps s x t holds stepped)

section

variable {m : Machine} {procs : List (String × Procedure)}

mutual

theorem exec_stored {ctx : Typing.Context} {types types' : Typing.Env} {env : Env} {s : State}
    {cmd : TypedCommand} (grows : Grows procs) (stored : Stored types env s) {r : Env × State} :
      Typing.CheckedCommand ctx types cmd types' → exec m procs env s cmd = .ok r →
      Stored types' r.1 r.2
  | .decl _ fresh, executed => by
    cases executed
    exact stored.allocate m fresh
  | .define _ _ _ fresh, executed => by
    simp only [exec, bind_ok_iff, Except.ok.injEq] at executed
    obtain ⟨v, _, rfl⟩ := executed
    exact stored.define v fresh
  | .seq checked, executed => execSeq_stored grows stored checked executed
  | .branch .., executed => by
    have grown := exec_grows grows _ executed
    simp only [exec, bind_ok_iff] at executed
    obtain ⟨v, _, executed⟩ := executed
    split at executed <;>
    · rw [map_ok_iff] at executed
      obtain ⟨_, _, rfl⟩ := executed
      exact stored.extend grown
  | .loop .., executed => by
    have grown := exec_grows grows _ executed
    simp only [exec, bind_ok_iff, Except.ok.injEq] at executed
    obtain ⟨_, _, rfl⟩ := executed
    exact stored.extend grown
  | .update .., executed => by
    have grown := exec_grows grows _ executed
    simp only [exec, bind_ok_iff, Except.ok.injEq] at executed
    obtain ⟨_, _, _, _, rfl⟩ := executed
    exact stored.extend grown
  | .reduce .., executed => by
    have grown := exec_grows grows _ executed
    simp only [exec, bind_ok_iff, Except.ok.injEq] at executed
    obtain ⟨_, _, _, _, _, _, rfl⟩ := executed
    exact stored.extend grown
  | .call .., executed => by
    have grown := exec_grows grows _ executed
    simp only [exec, bind_ok_iff, Except.ok.injEq] at executed
    obtain ⟨_, _, _, _, _, _, rfl⟩ := executed
    exact stored.extend grown
  | .eval checked, executed => by
    have grown := exec_grows grows _ executed
    rw [exec_eval checked.ne_app, map_ok_iff] at executed
    obtain ⟨_, _, rfl⟩ := executed
    exact stored.extend grown
  | .advance _, executed => by cases executed
  | .skip, executed => by
    cases executed
    exact stored

theorem execSeq_stored {ctx : Typing.Context} {types types' : Typing.Env} {env : Env} {s : State}
    {cmds : List TypedCommand} (grows : Grows procs) (stored : Stored types env s) {r : Env × State} :
      Typing.CheckedSeq ctx types cmds types' → execSeq m procs env s cmds = .ok r →
      Stored types' r.1 r.2
  | .nil, executed => by
    cases executed
    exact stored
  | .cons first rest, executed => by
    simp only [execSeq, bind_ok_iff] at executed
    obtain ⟨next, executed, executedRest⟩ := executed
    exact execSeq_stored grows (exec_stored grows stored first executed) rest executedRest

end

mutual

/-- A checked command that advances nothing ends or stops at an index. -/
theorem exec_runs {funcs : List (String × List Decl)} (grows : Grows procs)
    (callable : Callable funcs procs) {ctx : Typing.Context} {types types' : Typing.Env} {env : Env}
    {s : State} {cmd : TypedCommand} (same : ctx.funcs = funcs) (stored : Stored types env s) :
      Typing.CheckedCommand ctx types cmd types' → Banking.advances cmd = [] →
      Runs (exec m procs env s cmd)
  | .decl _ _, _ => .ok _
  | .define value _ _ _, _ => .bind (eval_runs stored value) fun _ _ => .ok _
  | .seq checked, still => execSeq_runs grows callable same stored checked still
  | .branch value _ yes no, still => by
    obtain ⟨stillYes, stillNo⟩ := List.append_eq_nil_iff.mp still
    refine .bind (eval_runs stored value) fun v _ => ?_
    split
    · exact .map _ (exec_runs grows callable same stored.enter yes stillYes)
    · exact .map _ (execElse_runs grows callable same stored.enter no stillNo)
  | .loop _ checked, still => by
    refine .bind (foldlM_runs (P := Stored types env) ?_ ?_ _ stored) fun _ _ => .ok _
    · intro before i behind held stepped
      rw [map_ok_iff] at stepped
      obtain ⟨r, stepped, rfl⟩ := stepped
      exact held.extend (exec_grows grows _ stepped)
    · intro before i held
      exact .map _ (exec_runs grows callable (by exact same) (held.enter.rebind (.iterator _ i))
        checked still)
  | .update place checked _, _ =>
    .bind (placeOf_runs stored place).1 fun _ _ =>
      .bind (eval_runs stored checked) fun _ _ => .ok _
  | .reduce place _ checked _, _ => by
    obtain ⟨runs, held⟩ := placeOf_runs stored place
    refine .bind runs fun place found => ?_
    obtain ⟨v, old⟩ := held place found
    exact .bind (.orStuck old) fun _ _ => .bind (eval_runs stored checked) fun _ _ => .ok _
  | .call defined given, _ => by
    obtain ⟨proc, found, runs⟩ := callable _ _ (same ▸ defined)
    obtain ⟨locs, located, fits⟩ := arraysOf?_fits stored given
    simp only [exec, found, located, orStuck_some, ok_bind]
    exact .bind (runs locs s fits) fun _ _ => .ok _
  | .eval checked, _ => by
    rw [exec_eval checked.ne_app]
    exact .map _ (eval_runs stored checked)
  | .skip, _ => .ok _

theorem execSeq_runs {funcs : List (String × List Decl)} (grows : Grows procs)
    (callable : Callable funcs procs) {ctx : Typing.Context} {types types' : Typing.Env} {env : Env}
    {s : State} {cmds : List TypedCommand} (same : ctx.funcs = funcs) (stored : Stored types env s) :
      Typing.CheckedSeq ctx types cmds types' → Banking.advancesOfSeq cmds = [] →
      Runs (execSeq m procs env s cmds)
  | .nil, _ => .ok _
  | .cons first rest, still => by
    obtain ⟨stillFirst, stillRest⟩ := List.append_eq_nil_iff.mp still
    refine .bind (exec_runs grows callable same stored first stillFirst) fun r executed => ?_
    exact execSeq_runs grows callable same (exec_stored grows stored first executed) rest stillRest

theorem execElse_runs {funcs : List (String × List Decl)} (grows : Grows procs)
    (callable : Callable funcs procs) {ctx : Typing.Context} {types : Typing.Env} {env : Env}
    {s : State} {cmd : Option TypedCommand} (same : ctx.funcs = funcs) (stored : Stored types env s) :
      Typing.CheckedElse ctx types cmd → Banking.advancesOfElse cmd = [] →
      Runs (execElse m procs env s cmd)
  | .none, _ => .ok _
  | .some checked, still => .map _ (exec_runs grows callable same stored checked still)

end

/-! ### Programs -/

theorem bindParams_stored {types types' : Typing.Env} {env : Env} {s : State} {ds : List Decl}
    (checked : Typing.CheckedDecls types ds types') {locs : List Nat} (fits : Fits s ds locs)
    (stored : Stored types env s) :
    ∃ env', bindParams env ds locs = some env' ∧ Stored types' env' s := by
  induction checked generalizing env locs with
  | nil =>
    cases fits
    exact ⟨env, rfl, stored⟩
  | cons _ fresh _ ih =>
    cases fits with
    | cons first rest =>
      obtain ⟨elem, dims, array, allocated⟩ := first
      rw [array] at fresh
      exact ih rest (stored.bind fresh (.array allocated))

theorem procedure_runs {funcs : List (String × List Decl)} (grows : Grows procs)
    (callable : Callable funcs procs) {f : Function Ty TypedExpr}
    (checked : Typing.CheckedFunction funcs f) (still : Banking.advances f.body = [])
    {locs : List Nat} {s : State} (fits : Fits s f.params locs) :
    Runs (procedure m procs f locs s) := by
  obtain ⟨types, types', params, body⟩ := checked.body
  have empty : Stored {} {} s := by
    intro name binding bound
    cases bound
  obtain ⟨env, bound, stored⟩ := bindParams_stored params fits empty
  simp only [procedure, bound, orStuck_some, ok_bind]
  exact .map _ (exec_runs grows callable rfl stored body still)

theorem Callable.link {funcs funcs' : List (String × List Decl)} (grows : Grows procs)
    (callable : Callable funcs procs) {fs : List (Function Ty TypedExpr)}
    (checked : Typing.CheckedFunctions funcs fs funcs')
    (still : ∀ f ∈ fs, Banking.advances f.body = []) : Callable funcs' (link m procs fs) := by
  induction checked generalizing procs with
  | nil => exact callable
  | @cons funcs _ f _ first _ ih =>
    refine ih (grows.cons f) ?_ fun g member => still g (List.mem_cons_of_mem _ member)
    intro func params defined
    rw [List.lookup_cons] at defined ⊢
    split at defined
    · cases defined
      exact ⟨_, rfl, fun locs s fits =>
        procedure_runs grows callable first (still f List.mem_cons_self) fits⟩
    · exact callable func params defined

/-- A checked program that advances nothing ends or stops at an index. -/
theorem runProgram_runs {p : TypedProgram} (checked : Typing.CheckedProgram p)
    (still : p.IsStill) (m : Machine) : Runs (runProgram m p) := by
  obtain ⟨funcs, types, defs, decls, body⟩ := checked
  obtain ⟨functions, root⟩ := still
  have empty : Stored {} {} {} := by
    intro name binding bound
    cases bound
  have none : Callable [] [] := by
    intro func params defined
    cases defined
  have stored := empty.allocateAll m decls
  have callable : Callable funcs (link m [] p.defs) := none.link .nil defs functions
  unfold runProgram
  split
  · exact .ok _
  · next cmd given =>
    rw [given] at body root
    cases body with
    | some checked => exact exec_runs (Grows.nil.link p.defs) callable rfl stored checked root

end

end Semantics

end BankedLoops
