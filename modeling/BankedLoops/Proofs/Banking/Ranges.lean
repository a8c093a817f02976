import BankedLoops.Proofs.Banking.Accesses
import BankedLoops.Proofs.Banking.Hygiene
import BankedLoops.Proofs.Banking.Simulation
import BankedLoops.Proofs.Semantics.Frames
import BankedLoops.Proofs.Semantics.Moments

/-!
# Indices at the moments of a run

Wherever a run of a split component is, the iterators of the loops around are in the ranges that the split
knows, unless a bank has the name of one. So the value of an index that is evaluated without wrapping is a
number of its type and lies in its interval, whatever advances the run has made.
-/

namespace BankedLoops

namespace Banking

open Semantics

/-- The iterators of a run are in the ranges of their loops, unless a bank hides them. -/
def Ranged (env : Env) (run : Semantics.Env) : Prop :=
  ∀ name range, env.get? name = some (.iterator range) →
    (∃ v, run.get? name = some (.iterator v) ∧ range.lo ≤ v ∧ v ≤ range.hi) ∨
      ∃ loc, run.get? name = some (.array loc)

namespace Ranged

variable {env : Env} {run run' : Semantics.Env}

theorem empty (run : Semantics.Env) : Ranged {} run := by
  intro name range bound
  cases bound

theorem enter (ranged : Ranged env run) : Ranged env.enter run.enter := ranged

theorem rebind (ranged : Ranged env run) (name : String) {binding : Binding} {slot : Slot}
    (new : ∀ range, binding = .iterator range →
      ∃ v, slot = .iterator v ∧ range.lo ≤ v ∧ v ≤ range.hi) :
    Ranged (env.rebind name binding) (run.rebind name slot) := by
  intro other range bound
  rw [Scope.get?_rebind] at bound ⊢
  by_cases same : other = name
  · rw [if_pos same] at bound ⊢
    obtain ⟨v, rfl, between⟩ := new range (Option.some.inj bound)
    exact .inl ⟨v, rfl, between⟩
  · rw [if_neg same] at bound ⊢
    exact ranged other range bound

/-- What is no iterator hides one. -/
theorem hide (ranged : Ranged env run) (name : String) {binding : Binding}
    (other : ∀ range, binding ≠ .iterator range) : Ranged (env.rebind name binding) run := by
  intro name' range bound
  rw [Scope.get?_rebind] at bound
  split at bound
  · exact absurd (Option.some.inj bound) (other range)
  · exact ranged name' range bound

theorem declared (ranged : Ranged env run) (ds : List Decl) : Ranged (declared env ds) run := by
  induction ds generalizing env with
  | nil => exact ranged
  | cons d ds ih =>
    refine ih (ranged.hide d.name fun range => ?_)
    unfold Binding.ofTy
    intro same
    split at same <;> cases same

theorem setUpRotations (ranged : Ranged env run) {statements : Statements} {body : TypedCommand}
    {taken : List String} {entries : List (String × Nat)} {prologue : Prologue}
    (success : (setUpRotations statements body env taken entries).result = .ok prologue) :
    Ranged prologue.env run := by
  induction entries generalizing env taken prologue with
  | nil =>
    cases success
    exact ranged
  | cons entry entries ih =>
    obtain ⟨array, pos⟩ := entry
    obtain ⟨_, _, _, _, ⟨_, rest⟩ | ⟨register, _, inner, _, _, _, rest, rfl⟩⟩ := setUpRotations_cons success
    · exact ih ranged rest
    · have hidden : Ranged (env.rebind register .scalar) run := ranged.hide register (by exact nofun)
      have kept : Ranged inner.env run := ih hidden rest
      exact kept

/-- Banks hide some names. -/
theorem array (ranged : Ranged env run) (l : Layout)
    (banks : ∀ name, run'.get? name = run.get? name ∨ ∃ loc, run'.get? name = some (.array loc)) :
    Ranged (env.rebind l.name (.array l)) run' := by
  intro other range bound
  rcases banks other with same | hidden
  · rw [same]
    exact ranged.hide l.name (by exact nofun) other range bound
  · exact .inr hidden

end Ranged

/-- Banks hide other names, and nothing else does. -/
theorem bindBanks_hides (run : Semantics.Env) (l : Layout) (start count : Nat) (name : String) :
    (bindBanks run l start count).get? name = run.get? name ∨
      ∃ loc, (bindBanks run l start count).get? name = some (.array loc) := by
  induction count with
  | zero => exact .inl rfl
  | succ count ih =>
    rw [bindBanks, Scope.get?_rebind]
    split
    · exact .inr ⟨_, rfl⟩
    · exact ih

section

variable {m : Machine} {procs : List (String × Procedure)} {ctx : Context}

mutual

theorem Ranged.after : {env : Env} → {cmd cmd' : TypedCommand} → BankedCommand ctx env cmd cmd' →
    {run : Semantics.Env} → {s : State} → Ranged env run → {r : Semantics.Env × State} →
    exec m procs run s cmd' = .ok r → Ranged (after env cmd) r.1
  | _, .decl _ name _, _, .array found split, run, s, ranged, r, ran => by
    obtain ⟨elem, dims, rfl, rfl⟩ := isArray_of_ofTy? found
    obtain ⟨ds, listed, runs⟩ := declBanks_exec split
    rw [runs, allocateAll_split m run s listed] at ran
    cases ran
    exact ranged.array ⟨name, elem, dims⟩ (bindBanks_hides _ _ _ _)
  | env, .decl _ name ty, _, .scalar found, run, s, ranged, r, ran => by
    cases ran
    cases ty with
    | array elem dims => cases found
    | _ => exact ranged.rebind _ nofun
  | _, _, _, .define _, run, s, ranged, r, ran => by
    simp only [exec, bind_ok_iff, Except.ok.injEq] at ran
    obtain ⟨_, _, rfl⟩ := ran
    exact ranged.rebind _ nofun
  | _, _, _, .seq all, run, s, ranged, r, ran => Ranged.afterSeq all ranged ran
  | _, _, _, .rotate _ stepped, run, s, ranged, r, ran => by
    obtain ⟨_, _, rfl, _⟩ := step_eq stepped
    rw [env_of_exec rfl ran]
    exact ranged
  | _, _, _, .branch .., run, s, ranged, r, ran | _, _, _, .loop .., run, s, ranged, r, ran
  | _, _, _, .update .., run, s, ranged, r, ran | _, _, _, .reduce .., run, s, ranged, r, ran
  | _, _, _, .eval _, run, s, ranged, r, ran | _, _, _, .still _, run, s, ranged, r, ran
  | _, _, _, .skip, run, s, ranged, r, ran => by
    rw [env_of_exec rfl ran]
    exact ranged

theorem Ranged.afterSeq : {env : Env} → {cmds cmds' : List TypedCommand} → BankedSeq ctx env cmds cmds' →
    {run : Semantics.Env} → {s : State} → Ranged env run → {r : Semantics.Env × State} →
    execSeq m procs run s cmds' = .ok r → Ranged (afterSeq env cmds) r.1
  | _, _, _, .nil, run, s, ranged, r, ran => by
    cases ran
    exact ranged
  | _, _, _, .cons first rest, run, s, ranged, r, ran => by
    simp only [execSeq, bind_ok_iff] at ran
    obtain ⟨_, here, later⟩ := ran
    exact Ranged.afterSeq rest (Ranged.after first ranged here) later

end

end

/-! ### At a moment -/

/-- A command is checked in an environment that the split has. -/
def TypedIn (env : Env) (cmd : TypedCommand) : Prop :=
  ∃ tctx types types', Typing.CheckedCommand tctx types cmd types' ∧ Typing.WellFormed types ∧
    Agrees types env

namespace TypedIn

variable {ctx : Context} {env env' : Env} {cmd inner : TypedCommand}

theorem descend {step : Descent} (typed : TypedIn env cmd)
    (went : (splitting ctx).Descends env env' cmd step inner) : TypedIn env' inner := by
  obtain ⟨tctx, types, types', checked, formed, agrees⟩ := typed
  cases went with
  | item passed found =>
    obtain ⟨_, success, rfl⟩ := Option.map_eq_some_iff.mp passed
    obtain ⟨_, last⟩ := bankSeq_ok _ (toOption_eq_some_iff.mp success)
    rw [last]
    cases checked with
    | seq checked =>
      obtain ⟨_, _, behind, inside⟩ := checkedSeq_item checked found
      exact ⟨_, _, _, inside, behind.wellFormed formed, agrees.afterSeq behind⟩
  | onTrue met =>
    obtain ⟨_, _, rfl⟩ := Option.map_eq_some_iff.mp met
    cases checked with
    | branch _ _ inside _ => exact ⟨_, _, _, inside, formed.enter, agrees.enter⟩
  | onFalse met =>
    simp only [splitting, bind, Option.bind_eq_some_iff, pure, Option.some.injEq] at met
    obtain ⟨_, _, _, _, rfl⟩ := met
    cases checked with
    | branch _ _ _ inside =>
      cases inside with
      | some inside => exact ⟨_, _, _, inside, formed.enter, agrees.enter⟩
  | round met =>
    obtain ⟨_, ends, rfl⟩ := Option.map_eq_some_iff.mp met
    obtain ⟨_, rfl⟩ := Word.sub_eq_ok_iff.mp (toOption_eq_some_iff.mp ends)
    cases checked with
    | loop range inside => exact ⟨_, _, _, inside, range.wellFormed formed, agrees.round range⟩

theorem visit {path : List Descent} (typed : TypedIn env cmd)
    (met : (splitting ctx).visit env cmd path = some (env', inner)) : TypedIn env' inner := by
  induction path generalizing env cmd with
  | nil =>
    cases met
    exact typed
  | cons step path ih =>
    obtain ⟨_, _, went, rest⟩ := Pass.visit_cons_eq_some_iff.mp met
    exact ih (typed.descend went) rest

end TypedIn

/-- A command and its split form, in an environment that a run of the split form gets to. -/
structure Underway (ctx : Context) (env : Env) (run : Semantics.Env) (cmd cmd' : TypedCommand) : Prop where
  split : BankedCommand ctx env cmd cmd'
  ranged : Ranged env run

namespace Underway

variable {m : Machine} {procs : List (String × Procedure)} {ctx : Context} {env env' : Env}
  {run run' : Semantics.Env} {s s' : State} {cmd cmd' inner inner' : TypedCommand}

theorem descend {step : Descent} (underway : Underway ctx env run cmd cmd')
    (went : (splitting ctx).Descends env env' cmd step inner)
    (entered : Enters m procs run s cmd' step run' s' inner') : Underway ctx env' run' inner inner' := by
  obtain ⟨split, ranged⟩ := underway
  cases went with
  | item passed found =>
    obtain ⟨_, success, rfl⟩ := Option.map_eq_some_iff.mp passed
    obtain ⟨_, last⟩ := bankSeq_ok _ (toOption_eq_some_iff.mp success)
    rw [last]
    cases split with
    | seq all =>
      cases entered with
      | item found' before =>
        obtain ⟨_, listed, earlier, here⟩ := bankedSeq_item all found
        obtain rfl := Option.some.inj (found'.symm.trans listed)
        exact ⟨here, Ranged.afterSeq earlier ranged before⟩
  | onTrue met =>
    obtain ⟨_, _, rfl⟩ := Option.map_eq_some_iff.mp met
    cases split with
    | branch _ yes _ =>
      cases entered with
      | onTrue => exact ⟨yes, ranged.enter⟩
  | onFalse met =>
    simp only [splitting, bind, Option.bind_eq_some_iff, pure, Option.some.injEq] at met
    obtain ⟨_, _, _, _, rfl⟩ := met
    cases split with
    | branch _ _ no =>
      cases no with
      | some no =>
        cases entered with
        | onFalse => exact ⟨no, ranged.enter⟩
  | round met =>
    obtain ⟨_, ends, rfl⟩ := Option.map_eq_some_iff.mp met
    obtain ⟨_, rfl⟩ := Word.sub_eq_ok_iff.mp (toOption_eq_some_iff.mp ends)
    cases split with
    | loop _ round =>
      cases entered with
      | @round _ i _ _ _ low high =>
        refine ⟨round, ranged.enter.rebind _ ?_⟩
        rintro _ ⟨⟩
        exact ⟨i, rfl, low, Nat.le_sub_one_of_lt high⟩

/-- Wherever the run is, if the split gets there. -/
theorem moment {now : Moment} (underway : Underway ctx env run cmd cmd')
    (member : now ∈ moments m procs run s cmd')
    (met : (splitting ctx).visit env cmd now.path = some (env', inner)) : Ranged env' now.env := by
  obtain ⟨path, run', s'⟩ := now
  induction path generalizing env run s cmd cmd' with
  | nil =>
    cases met
    rcases cases_of_mem_moments member with same | ⟨_, _, _, _, _, _, _, same⟩
    · cases same
      exact underway.ranged
    · cases same
  | cons step path ih =>
    rcases cases_of_mem_moments member with same | ⟨_, _, _, _, entered, ⟨_, _, _⟩, inside, same⟩
    · cases same
    · cases same
      obtain ⟨_, _, went, rest⟩ := Pass.visit_cons_eq_some_iff.mp met
      exact ih (underway.descend went entered) inside rest

end Underway

/-! ### Indices -/

section

variable {tctx : Typing.Context} {types : Typing.Env} {ctx : Context} {env : Env} {m : Machine}
  {run : Semantics.Env} {s : State}

/-- Where none of its operations wraps, an index with an interval has a value there. -/
theorem between_of_eval (agrees : Agrees types env) (ranged : Ranged env run) : (e : TypedExpr) →
    Typing.CheckedExpr tctx types e → {range : Interval} → Interval.ofIndex? env e = some range →
    {v : Nat} → eval m run s true e = .ok v →
    Whole e.ty ∧ v < Word.capacity e.ty.width ∧ range.lo ≤ v ∧ v ≤ range.hi
  | .int ty n, checked, range, found, v, value => by
    cases checked
    cases found
    cases value
    exact ⟨⟨rfl, rfl, rfl⟩, lt_capacity_bitsNeeded _, Nat.le_refl _, Nat.le_refl _⟩
  | .var ty name, checked, range, found, v, value => by
    simp only [Interval.ofIndex?] at found
    split at found
    · next seen =>
      cases found
      cases checked with
      | scalar bound =>
        obtain ⟨_, visible, same⟩ := agrees name _ bound
        cases same
        rw [seen] at visible
        cases visible
      | iterator bound =>
        obtain ⟨_, visible, same⟩ := agrees name _ bound
        cases same with
        | @iterator _ stop unroll _ =>
          rw [seen] at visible
          cases visible
          simp only [eval, scalarOf?] at value
          rcases ranged name _ seen with ⟨w, located, between⟩ | ⟨loc, hidden⟩
          · rw [located] at value
            cases value
            exact ⟨⟨rfl, rfl, rfl⟩, Nat.lt_of_le_of_lt between.2 (lt_capacity_bitsNeeded _), between⟩
          · rw [hidden] at value
            cases value
    · cases found
  | .binop ty op lhs rhs, checked, range, found, v, value => by
    cases checked with
    | binop left right typed =>
      obtain ⟨arithmetic, ⟨x, leftFound⟩, ⟨y, rightFound⟩⟩ := ofIndex?_binop found
      simp only [eval, bind_ok_iff] at value
      obtain ⟨a, leftValue, b, rightValue, value⟩ := value
      obtain ⟨leftWhole, leftLt, leftIn⟩ := between_of_eval agrees ranged lhs left leftFound leftValue
      obtain ⟨rightWhole, rightLt, rightIn⟩ := between_of_eval agrees ranged rhs right rightFound rightValue
      have whole := leftWhole.binopType rightWhole arithmetic typed
      split at value
      · cases value
      · next fits =>
        cases value
        refine ⟨whole, operation_lt .., ?_⟩
        have fits : wraps op ty lhs.ty rhs.ty a b = false := by simpa using fits
        have exactly := result_of_not_wraps m.product whole.2.2 whole.2.1 fits
        rw [result_unsigned leftWhole.2.1 rightWhole.2.1 leftLt rightLt] at exactly
        simp only [Interval.ofIndex?, leftFound, rightFound, bind, Option.bind_some] at found
        cases op with
        | add =>
          have between := add?_contains found leftIn rightIn
          simp only [exact] at exactly
          omega
        | sub =>
          obtain ⟨le, between⟩ := sub?_contains found leftIn rightIn
          simp only [exact] at exactly
          omega
        | mul =>
          have between := mul?_contains found leftIn rightIn
          simp only [exact] at exactly
          rw [← Int.natCast_mul, Int.natCast_inj] at exactly
          rw [← exactly]
          exact between
        | _ => cases arithmetic

/-- The value of an index inside its dimension is a number of its type. -/
theorem lt_capacity_of_eval (formed : Typing.WellFormed types) (agrees : Agrees types env)
    (ranged : Ranged env run) {idx idx' : TypedExpr} {dim : Dim} {v : Nat}
    (checked : Typing.CheckedExpr tctx types idx) (fits : Typing.IndexFits dim idx.ty)
    (read : ReadAs ctx env idx idx') (value : eval m run s true idx' = .ok v) (inside : v < dim.size) :
    v < Word.capacity idx'.ty.width := by
  rw [read.ty_eq]
  cases checked with
  | int n =>
    cases read
    cases value
    exact lt_capacity_bitsNeeded v
  | bool b => cases fits
  | scalar bound =>
    cases formed _ _ bound with
    | scalar storable => exact fits_of_storable storable fits inside
  | @iterator ty name bound =>
    cases read
    obtain ⟨_, visible, same⟩ := agrees _ _ bound
    cases same with
    | @iterator start stop unroll _ =>
      have found : Interval.ofIndex? env (.var (.idx stop unroll) name) = some ⟨start, stop - 1⟩ := by
        simp only [Interval.ofIndex?, visible]
      have checked : Typing.CheckedExpr tctx types (.var (.idx stop unroll) name) := .iterator bound
      exact (between_of_eval agrees ranged _ checked found value).2.1
  | binop left right typed =>
    cases read
    simp only [eval, bind_ok_iff] at value
    obtain ⟨_, _, _, _, value⟩ := value
    split at value
    · cases value
    · cases value
      exact operation_lt ..
  | access bound indices => exact fits_of_storable (formed.array bound).1 fits inside

theorem indexValue_of_eval (formed : Typing.WellFormed types) (agrees : Agrees types env)
    (ranged : Ranged env run) {idx idx' : TypedExpr} {dim : Dim} {v : Nat}
    (checked : Typing.CheckedExpr tctx types idx) (fits : Typing.IndexFits dim idx.ty)
    (read : ReadAs ctx env idx idx') (value : eval m run s true idx' = .ok v) (inside : v < dim.size) :
    IndexValue env m run s idx' v where
  value := eval_of_index idx' value
  represents := by
    refine .of_unsigned ?_ (lt_capacity_of_eval formed agrees ranged checked fits read value inside)
    rw [read.ty_eq]
    exact indexFits_unsigned fits
  between := by
    intro range found
    obtain rfl := read.eq_of_interval found
    exact (between_of_eval agrees ranged _ checked found value).2.2

/-- The indices of an access at the values that they have. -/
theorem indexValues_of_evalIndices (formed : Typing.WellFormed types) (agrees : Agrees types env)
    (ranged : Ranged env run) {pos : Nat} {dims : List Dim} {idxs idxs' : List TypedExpr} {is : List Nat}
    (checked : Typing.CheckedIndices tctx types dims idxs)
    (reads : List.Forall₂ (fun idx idx' => (read ctx env pos idx).result = .ok idx') idxs idxs')
    (values : evalIndices m run s idxs' = .ok is) (within : inside dims is = true) :
    List.Forall₂ (IndexValue env m run s) idxs' is := by
  induction reads generalizing dims is with
  | nil =>
    cases values
    exact .nil
  | cons here _ ih =>
    simp only [evalIndices, bind_ok_iff, Except.ok.injEq] at values
    obtain ⟨i, value, is, values, rfl⟩ := values
    cases checked with
    | cons first fits _ rest =>
      simp only [inside, Bool.and_eq_true, decide_eq_true_eq] at within
      exact .cons (indexValue_of_eval formed agrees ranged first fits (read_ok _ here) value within.1)
        (ih rest values within.2)

end

end Banking

end BankedLoops
