import BankedLoops.Proofs.Semantics.Run

/-!
# Storage is never given back

A run only adds to the store: the scalars and arrays that it began with keep their locations, and the
arrays keep their dimensions.
-/

namespace BankedLoops

theorem getElem?_of_isPrefix {α : Type} {xs ys : List α} (front : xs <+: ys) {k : Nat} {x : α}
    (found : xs[k]? = some x) : ys[k]? = some x := by
  obtain ⟨rest, rfl⟩ := front
  rw [List.getElem?_append_left (List.getElem?_eq_some_iff.mp found).1]
  exact found

namespace Semantics

@[simp]
theorem State.shapes_pushMemory (s : State) (a : Memory) :
    (s.pushMemory a).shapes = s.shapes ++ [a.dims] := by
  rw [pushMemory, shapes, List.map_append]
  rfl

/-- A store that holds at least the storage of another. -/
structure Extends (s t : State) : Prop where
  scalars : s.scalars.length ≤ t.scalars.length
  shapes : s.shapes <+: t.shapes

namespace Extends

variable {s t u : State}

theorem refl (s : State) : Extends s s := ⟨Nat.le_refl _, List.prefix_rfl⟩

theorem trans (first : Extends s t) (second : Extends t u) : Extends s u :=
  ⟨Nat.le_trans first.scalars second.scalars, first.shapes.trans second.shapes⟩

theorem pushScalar (s : State) (v : Nat) : Extends s (s.pushScalar v) where
  scalars := by
    rw [State.pushScalar, List.length_append]
    omega
  shapes := List.prefix_rfl

theorem pushMemory (s : State) (a : Memory) : Extends s (s.pushMemory a) where
  scalars := Nat.le_refl _
  shapes := by
    rw [State.shapes_pushMemory]
    exact List.prefix_append _ _

theorem set (s : State) (v : Nat) (place : Place) : Extends s (s.set v place) where
  scalars := by
    cases place with
    | scalar loc => exact Nat.le_of_eq List.length_set.symm
    | element loc idxs => exact Nat.le_refl _
  shapes := State.shapes_set .. ▸ List.prefix_rfl

end Extends

theorem allocate_grows (m : Machine) (env : Env) (s : State) (name : String) (ty : Ty) :
    Extends s (allocate m env s name ty).2 := by
  unfold allocate
  split
  · exact .pushMemory s _
  · exact .pushScalar s _

/-- Every procedure keeps the arrays that it finds. -/
def Grows (procs : List (String × Procedure)) : Prop :=
  ∀ func proc, procs.lookup func = some proc → ∀ locs s t, proc locs s = .ok t →
    Extends s t

theorem foldlM_grows {α : Type} {step : State → α → Except Stop State}
    (grows : ∀ s a t, step s a = .ok t → Extends s t) {xs : List α} {s t : State}
    (run : xs.foldlM step s = .ok t) : Extends s t := by
  refine foldlM_keeps (P := Extends s) ?_ (.refl s) run
  intro before x _ behind grown stepped
  exact grown.trans (grows before x behind stepped)

mutual

theorem exec_grows {m : Machine} {procs : List (String × Procedure)} (grows : Grows procs) :
    (cmd : TypedCommand) → {env : Env} → {s : State} → {r : Env × State} →
      exec m procs env s cmd = .ok r → Extends s r.2
  | .decl _ name ty, env, s, r, run => by
    cases run
    exact allocate_grows m env s name ty
  | .define _ name ty init, env, s, r, run => by
    simp only [exec, bind_ok_iff, Except.ok.injEq] at run
    obtain ⟨v, _, rfl⟩ := run
    exact .pushScalar s v
  | .seq _ cmds, env, s, r, run => execSeq_grows grows cmds run
  | .branch _ cond onTrue onFalse, env, s, r, run => by
    simp only [exec, bind_ok_iff] at run
    obtain ⟨v, _, run⟩ := run
    split at run
    · rw [map_ok_iff] at run
      obtain ⟨inner, taken, rfl⟩ := run
      have grown := exec_grows grows onTrue taken
      exact grown
    · rw [map_ok_iff] at run
      obtain ⟨t, taken, rfl⟩ := run
      exact execElse_grows grows onFalse taken
  | .loop _ header body, env, s, r, run => by
    simp only [exec, bind_ok_iff, Except.ok.injEq] at run
    obtain ⟨t, rounds, rfl⟩ := run
    refine foldlM_grows ?_ rounds
    intro before i behind round
    rw [map_ok_iff] at round
    obtain ⟨inner, round, rfl⟩ := round
    exact exec_grows grows body round
  | .update _ target value, env, s, r, run => by
    simp only [exec, bind_ok_iff, Except.ok.injEq] at run
    obtain ⟨place, _, v, _, rfl⟩ := run
    exact .set s _ place
  | .reduce _ op target value, env, s, r, run => by
    simp only [exec, bind_ok_iff, orStuck_ok_iff, Except.ok.injEq] at run
    obtain ⟨place, _, old, _, v, _, rfl⟩ := run
    exact .set s _ place
  | .eval _ e, env, s, r, run => by
    by_cases call : ∃ ty func args, e = .app ty func args
    · obtain ⟨ty, func, args, rfl⟩ := call
      simp only [exec, bind_ok_iff, orStuck_ok_iff, Except.ok.injEq] at run
      obtain ⟨proc, found, locs, _, t, called, rfl⟩ := run
      exact grows _ proc found locs s t called
    · rw [exec_eval (fun ty func args same => call ⟨ty, func, args, same⟩),
        map_ok_iff] at run
      obtain ⟨v, _, rfl⟩ := run
      exact .refl _
  | .skip _, env, s, r, run => by
    cases run
    exact .refl _

theorem execSeq_grows {m : Machine} {procs : List (String × Procedure)} (grows : Grows procs) :
    (cmds : List TypedCommand) → {env : Env} → {s : State} → {r : Env × State} →
      execSeq m procs env s cmds = .ok r → Extends s r.2
  | [], env, s, r, run => by
    cases run
    exact .refl _
  | cmd :: cmds, env, s, r, run => by
    simp only [execSeq, bind_ok_iff] at run
    obtain ⟨next, first, rest⟩ := run
    exact (exec_grows grows cmd first).trans (execSeq_grows grows cmds rest)

theorem execElse_grows {m : Machine} {procs : List (String × Procedure)} (grows : Grows procs) :
    (cmd : Option TypedCommand) → {env : Env} → {s t : State} →
      execElse m procs env s cmd = .ok t → Extends s t
  | none, env, s, t, run => by
    cases run
    exact .refl _
  | some cmd, env, s, t, run => by
    rw [execElse, map_ok_iff] at run
    obtain ⟨inner, run, rfl⟩ := run
    exact exec_grows grows cmd run

end

theorem procedure_grows {m : Machine} {procs : List (String × Procedure)} (grows : Grows procs)
    (f : Function Ty TypedExpr) {locs : List Nat} {s t : State}
    (run : procedure m procs f locs s = .ok t) : Extends s t := by
  simp only [procedure, bind_ok_iff, orStuck_ok_iff, map_ok_iff] at run
  obtain ⟨env, _, inner, body, rfl⟩ := run
  exact exec_grows grows f.body body

theorem Grows.nil : Grows [] := by
  intro func proc found
  cases found

theorem Grows.cons {m : Machine} {procs : List (String × Procedure)} (grows : Grows procs)
    (f : Function Ty TypedExpr) : Grows ((f.name, procedure m procs f) :: procs) := by
  intro func proc found locs s t run
  rw [List.lookup_cons] at found
  split at found
  · cases found
    exact procedure_grows grows f run
  · exact grows func proc found locs s t run

theorem Grows.link {m : Machine} {procs : List (String × Procedure)} (grows : Grows procs)
    (fs : List (Function Ty TypedExpr)) : Grows (link m procs fs) := by
  induction fs generalizing procs with
  | nil => exact grows
  | cons f fs ih => exact ih (grows.cons f)

theorem allocateAll_grows (m : Machine) (env : Env) (s : State) (ds : List Decl) :
    Extends s (allocateAll m env s ds).2 := by
  induction ds generalizing env s with
  | nil => exact .refl _
  | cons d ds ih => exact (allocate_grows m env s d.name d.ty).trans (ih _ _)

end Semantics

end BankedLoops
