import BankedLoops.Proofs.Banking.Variables
import BankedLoops.Proofs.Semantics.Growth

/-!
# What a run leaves alone

A scalar keeps its value in a run that assigns to none of the names that lead to it. A function runs on
arrays only, so a call keeps every scalar that it finds.
-/

namespace BankedLoops

/-- A command that binds names for the commands after it. -/
def Command.declares {τ ε : Type} : Command τ ε → Bool
  | .decl .. | .define .. | .seq .. => true
  | _ => false

namespace Semantics

theorem env_of_exec {m : Machine} {procs : List (String × Procedure)} {env : Env} {s : State}
    {cmd : TypedCommand} (quiet : cmd.declares = false) {r : Env × State}
    (run : exec m procs env s cmd = .ok r) : r.1 = env := by
  cases cmd with
  | decl | define | seq => cases quiet
  | branch pos cond onTrue onFalse =>
    simp only [exec, bind_ok_iff] at run
    obtain ⟨_, _, run⟩ := run
    split at run
    all_goals
      obtain ⟨_, _, rfl⟩ := map_ok_iff.mp run
      rfl
  | loop pos header body =>
    simp only [exec, bind_ok_iff, Except.ok.injEq] at run
    obtain ⟨_, _, rfl⟩ := run
    rfl
  | update pos target value =>
    simp only [exec, bind_ok_iff, Except.ok.injEq] at run
    obtain ⟨_, _, _, _, rfl⟩ := run
    rfl
  | reduce pos op target value =>
    simp only [exec, bind_ok_iff, Except.ok.injEq] at run
    obtain ⟨_, _, _, _, _, _, rfl⟩ := run
    rfl
  | eval pos e =>
    by_cases call : ∃ ty func args, e = .app ty func args
    · obtain ⟨ty, func, args, rfl⟩ := call
      simp only [exec, bind_ok_iff, Except.ok.injEq] at run
      obtain ⟨_, _, _, _, _, _, rfl⟩ := run
      rfl
    · rw [exec_eval (fun ty func args same => call ⟨ty, func, args, same⟩), map_ok_iff] at run
      obtain ⟨_, _, rfl⟩ := run
      rfl
  | advance => cases run
  | skip =>
    cases run
    rfl

/-- A scalar has this value, and no other names lead to it. -/
structure Holds (names : List String) (loc v : Nat) (env : Env) (s : State) : Prop where
  only : ∀ name, env.get? name = some (.scalar loc) → name ∈ names
  value : s.get? (.scalar loc) = some v

namespace Holds

variable {names : List String} {loc v : Nat} {env : Env} {s t : State}

theorem enter (holds : Holds names loc v env s) : Holds names loc v env.enter s :=
  ⟨holds.only, holds.value⟩

/-- The names are those that lead to the scalar outside. -/
theorem leave {env' : Env} {w : Nat} (outside : Holds names loc v env s)
    (holds : Holds names loc w env' t) : Holds names loc w env t :=
  ⟨outside.only, holds.value⟩

theorem rebind (holds : Holds names loc v env s) {name : String} {slot : Slot}
    (other : slot ≠ .scalar loc) : Holds names loc v (env.rebind name slot) s where
  only := by
    intro name' bound
    rw [Scope.get?_rebind] at bound
    split at bound
    · exact absurd (Option.some.inj bound) other
    · exact holds.only name' bound
  value := holds.value

/-- New scalars are stored behind it. -/
theorem push (holds : Holds names loc v env s) (name : String) (w : Nat) :
    Holds names loc v (env.rebind name (.scalar s.scalars.length)) (s.pushScalar w) := by
  have old : loc < s.scalars.length := (List.getElem?_eq_some_iff.mp holds.value).1
  refine ⟨(holds.rebind ?_).only, ?_⟩
  · intro same
    cases same
    exact Nat.lt_irrefl _ old
  · exact (List.getElem?_append_left old).trans holds.value

theorem allocate (holds : Holds names loc v env s) (m : Machine) (name : String) (ty : Ty) :
    Holds names loc v (allocate m env s name ty).1 (allocate m env s name ty).2 := by
  unfold Semantics.allocate
  split
  · exact ⟨(holds.rebind (by intro same; cases same)).only, holds.value⟩
  · exact holds.push _ _

theorem set (holds : Holds names loc v env s) (w : Nat) {place : Place} (other : place ≠ .scalar loc) :
    Holds names loc v env (s.set w place) where
  only := holds.only
  value := by rw [State.get?_set, if_neg other.symm, holds.value]

end Holds

/-- Only a variable is stored in a scalar. -/
theorem placeOf_eq_scalar {m : Machine} {env : Env} {s : State} {target : TypedExpr} {loc : Nat}
    (found : placeOf m env s target = .ok (.scalar loc)) :
    ∃ ty name, target = .var ty name ∧ env.get? name = some (.scalar loc) := by
  have element {array : String} {is : List Nat} : elementAt env s array is ≠ .ok (.scalar loc) := by
    intro found
    simp only [elementAt, bind_ok_iff] at found
    obtain ⟨_, _, _, _, found⟩ := found
    split at found <;> cases found
  cases target with
  | var ty name =>
    simp only [placeOf] at found
    split at found
    · next bound =>
      cases found
      exact ⟨ty, name, rfl, bound⟩
    · cases found
  | access ty array idxs | mem ty array idxs =>
    simp only [placeOf, bind_ok_iff] at found
    obtain ⟨_, _, found⟩ := found
    exact absurd found element
  | _ => cases found

/-- Every procedure keeps the scalars that it finds. -/
def Spares (procs : List (String × Procedure)) : Prop :=
  ∀ func proc, procs.lookup func = some proc → ∀ locs s t, proc locs s = .ok t →
    ∀ loc v, s.get? (.scalar loc) = some v → t.get? (.scalar loc) = some v

section

variable {m : Machine} {procs : List (String × Procedure)} {names : List String} {loc v : Nat}

theorem Holds.assign {env : Env} {s : State} (holds : Holds names loc v env s) {target : TypedExpr}
    {place : Place} (found : placeOf m env s target = .ok place)
    (unassigned : ∀ ty name, target = .var ty name → name ∉ names) (w : Nat) :
    Holds names loc v env (s.set w place) := by
  refine holds.set w ?_
  rintro rfl
  obtain ⟨ty, name, same, bound⟩ := placeOf_eq_scalar found
  exact unassigned ty name same (holds.only name bound)

mutual

theorem exec_holds (spares : Spares procs) : (cmd : TypedCommand) →
    (∀ inner ∈ cmd.preorder, ∀ name, inner.assigned? = some name → name ∉ names) → {env : Env} →
    {s : State} → Holds names loc v env s → {r : Env × State} → exec m procs env s cmd = .ok r →
    Holds names loc v r.1 r.2
  | .decl _ name ty, _, env, s, holds, r, run => by
    cases run
    exact holds.allocate m name ty
  | .define _ name _ init, _, env, s, holds, r, run => by
    simp only [exec, bind_ok_iff, Except.ok.injEq] at run
    obtain ⟨w, _, rfl⟩ := run
    exact holds.push name w
  | .seq _ cmds, unassigned, env, s, holds, r, run =>
    execSeq_holds spares cmds (fun inner inside => unassigned inner (List.mem_cons_of_mem _ inside)) holds run
  | .branch _ cond onTrue onFalse, unassigned, env, s, holds, r, run => by
    simp only [exec, bind_ok_iff] at run
    obtain ⟨w, _, run⟩ := run
    rw [Command.preorder, List.forall_mem_cons, List.forall_mem_append] at unassigned
    split at run
    · rw [map_ok_iff] at run
      obtain ⟨inner, taken, rfl⟩ := run
      have inside := exec_holds spares onTrue unassigned.2.1 holds.enter taken
      exact holds.leave inside
    · rw [map_ok_iff] at run
      obtain ⟨t, taken, rfl⟩ := run
      exact execElse_holds spares onFalse unassigned.2.2 holds taken
  | .loop _ header body, unassigned, env, s, holds, r, run => by
    simp only [exec, bind_ok_iff, Except.ok.injEq] at run
    obtain ⟨t, rounds, rfl⟩ := run
    refine foldlM_keeps (P := Holds names loc v env) ?_ holds rounds
    intro before i _ behind holds round
    rw [map_ok_iff] at round
    obtain ⟨inner, round, rfl⟩ := round
    have inside := exec_holds spares body
      (fun inner inside => unassigned inner (List.mem_cons_of_mem _ inside))
      (holds.enter.rebind (by exact nofun)) round
    exact holds.leave inside
  | .update _ target value, unassigned, env, s, holds, r, run => by
    simp only [exec, bind_ok_iff, Except.ok.injEq] at run
    obtain ⟨place, found, w, _, rfl⟩ := run
    refine holds.assign found ?_ w
    rintro ty name rfl
    exact unassigned _ List.mem_cons_self name rfl
  | .reduce _ op target value, unassigned, env, s, holds, r, run => by
    simp only [exec, bind_ok_iff, orStuck_ok_iff, Except.ok.injEq] at run
    obtain ⟨place, found, old, _, w, _, rfl⟩ := run
    refine holds.assign found ?_ _
    rintro ty name rfl
    exact unassigned _ List.mem_cons_self name rfl
  | .eval _ e, _, env, s, holds, r, run => by
    by_cases call : ∃ ty func args, e = .app ty func args
    · obtain ⟨ty, func, args, rfl⟩ := call
      simp only [exec, bind_ok_iff, orStuck_ok_iff, Except.ok.injEq] at run
      obtain ⟨proc, found, locs, _, t, called, rfl⟩ := run
      exact ⟨holds.only, spares _ proc found locs s t called loc v holds.value⟩
    · rw [exec_eval (fun ty func args same => call ⟨ty, func, args, same⟩), map_ok_iff] at run
      obtain ⟨w, _, rfl⟩ := run
      exact holds
  | .skip _, _, env, s, holds, r, run => by
    cases run
    exact holds

theorem execSeq_holds (spares : Spares procs) : (cmds : List TypedCommand) →
    (∀ inner ∈ Command.preorderSeq cmds, ∀ name, inner.assigned? = some name → name ∉ names) → {env : Env} →
    {s : State} → Holds names loc v env s → {r : Env × State} → execSeq m procs env s cmds = .ok r →
    Holds names loc v r.1 r.2
  | [], _, env, s, holds, r, run => by
    cases run
    exact holds
  | cmd :: cmds, unassigned, env, s, holds, r, run => by
    simp only [execSeq, bind_ok_iff] at run
    obtain ⟨next, first, rest⟩ := run
    rw [Command.preorderSeq, List.forall_mem_append] at unassigned
    exact execSeq_holds spares cmds unassigned.2 (exec_holds spares cmd unassigned.1 holds first) rest

theorem execElse_holds (spares : Spares procs) : (cmd : Option TypedCommand) →
    (∀ inner ∈ Command.preorderElse cmd, ∀ name, inner.assigned? = some name → name ∉ names) → {env : Env} →
    {s t : State} → Holds names loc v env s → execElse m procs env.enter s cmd = .ok t →
    Holds names loc v env t
  | none, _, env, s, t, holds, run => by
    cases run
    exact holds
  | some cmd, unassigned, env, s, t, holds, run => by
    rw [execElse, map_ok_iff] at run
    obtain ⟨inner, run, rfl⟩ := run
    exact holds.leave (exec_holds spares cmd unassigned holds.enter run)

end

end

theorem bindParams_get? {env bound : Env} {params : List Decl} {locs : List Nat}
    (given : bindParams env params locs = some bound) {name : String} {slot : Slot}
    (visible : bound.get? name = some slot) : (∃ loc, slot = .array loc) ∨ env.get? name = some slot := by
  induction params generalizing env locs with
  | nil =>
    cases locs with
    | nil =>
      cases given
      exact .inr visible
    | cons => cases given
  | cons d params ih =>
    cases locs with
    | nil => cases given
    | cons loc locs =>
      rcases ih given with array | before
      · exact .inl array
      · rw [Scope.get?_rebind] at before
        split at before
        · cases before
          exact .inl ⟨loc, rfl⟩
        · exact .inr before

/-- No name of a function leads to a scalar when it begins. -/
theorem procedure_spares {m : Machine} {procs : List (String × Procedure)} (spares : Spares procs)
    (f : Function Ty TypedExpr) {locs : List Nat} {s t : State}
    (run : procedure m procs f locs s = .ok t) {loc v : Nat} (value : s.get? (.scalar loc) = some v) :
    t.get? (.scalar loc) = some v := by
  simp only [procedure, bind_ok_iff, orStuck_ok_iff, map_ok_iff] at run
  obtain ⟨env, given, inner, body, rfl⟩ := run
  have holds : Holds [] loc v env s := by
    refine ⟨fun name bound => ?_, value⟩
    rcases bindParams_get? given bound with ⟨_, array⟩ | before
    · cases array
    · cases before
  exact (exec_holds spares f.body (fun _ _ _ _ => List.not_mem_nil) holds body).value

theorem Spares.nil : Spares [] := by
  intro func proc found
  cases found

theorem Spares.link {m : Machine} {procs : List (String × Procedure)} (spares : Spares procs)
    (fs : List (Function Ty TypedExpr)) : Spares (link m procs fs) := by
  induction fs generalizing procs with
  | nil => exact spares
  | cons f fs ih =>
    refine ih fun func proc found locs s t run loc v value => ?_
    rw [List.lookup_cons] at found
    split at found
    · cases found
      exact procedure_spares spares f run value
    · exact spares func proc found locs s t run loc v value

end Semantics

end BankedLoops
