import BankedLoops.Proofs.Names
import BankedLoops.Proofs.Typing.Soundness
import BankedLoops.Proofs.Banking.Rules

/-!
# Two views of the names in scope

Splitting arrays into banks threads an environment of its own. Wherever the checker sees a name,
that environment has the matching binding: an array its layout, an iterator its range, a register a
scalar. The hidden registers of rotations take none of these names.
-/

namespace BankedLoops

theorem Scope.mem_names_of_get? {α : Type} {s : Scope α} {name : String} {value : α}
    (bound : s.get? name = some value) : name ∈ s.names := by
  obtain ⟨scope, member, found⟩ := List.exists_of_findSome?_eq_some bound
  have inScope : (name, value) ∈ scope := by
    rw [List.lookup_eq_some_iff] at found
    obtain ⟨front, back, same, _⟩ := found
    simp [same]
  exact List.mem_map.mpr ⟨_, List.mem_flatten.mpr ⟨scope, member, inScope⟩, rfl⟩

theorem Scope.get?_eq_none_of_not_mem {α : Type} {s : Scope α} {name : String} (free : name ∉ s.names) :
    s.get? name = none :=
  Option.eq_none_iff_forall_ne_some.mpr fun _ bound => free (mem_names_of_get? bound)

namespace Typing

mutual

/-- A command keeps the environment well formed. -/
theorem CheckedCommand.wellFormed {ctx : Context} {env env' : Env} {cmd : TypedCommand}
    (formed : WellFormed env) : CheckedCommand ctx env cmd env' → WellFormed env'
  | .decl declared fresh => formed.bind (Binding.wellFormed_ofTy declared) fresh
  | .define _ storable _ fresh => formed.bind (.scalar storable) fresh
  | .seq checked => checked.wellFormed formed
  | .branch .. => formed
  | .loop .. => formed
  | .update .. => formed
  | .reduce .. => formed
  | .call .. => formed
  | .eval .. => formed
  | .advance .. => formed
  | .skip => formed

theorem CheckedSeq.wellFormed {ctx : Context} {env env' : Env} {cmds : List TypedCommand}
    (formed : WellFormed env) : CheckedSeq ctx env cmds env' → WellFormed env'
  | .nil => formed
  | .cons first rest => rest.wellFormed (first.wellFormed formed)

end

theorem CheckedDecls.wellFormed {env env' : Env} {ds : List Decl} (formed : WellFormed env)
    (checked : CheckedDecls env ds env') : WellFormed env' := by
  induction checked with
  | nil => exact formed
  | cons declared fresh _ ih => exact ih (formed.bind (Binding.wellFormed_ofTy declared) fresh)

theorem CheckedHeader.wellFormed {env : Env} {h : LoopHeader} (range : CheckedHeader h)
    (formed : WellFormed env) :
    WellFormed (env.enter.rebind h.iter (.iterator (.idx h.stop h.unroll))) :=
  formed.enter.rebind (.iterator h.unroll (Nat.zero_lt_of_lt range.runs))

end Typing

namespace Banking

/-- The two bindings of a name. -/
inductive Corresponds (name : String) : Typing.Binding → Binding → Prop where
  | scalar (ty : Ty) : Corresponds name (.scalar ty) .scalar
  | iterator {start stop : Nat} (unroll : Option Nat) (runs : start < stop) :
      Corresponds name (.iterator (.idx stop unroll)) (.iterator ⟨start, stop - 1⟩)
  | array (elem : Ty) (dims : List Dim) : Corresponds name (.array elem dims) (.array ⟨name, elem, dims⟩)

/-- Every name that the checker sees has the matching binding. -/
def Agrees (types : Typing.Env) (env : Env) : Prop :=
  ∀ name binding, types.get? name = some binding →
    ∃ found, env.get? name = some found ∧ Corresponds name binding found

namespace Agrees

variable {types types' : Typing.Env} {env : Env}

/-- The layout of an array is that of its declaration. -/
theorem layout_eq (agrees : Agrees types env) {array : String} {elem : Ty} {dims : List Dim}
    {layout : Layout} (declared : types.get? array = some (.array elem dims))
    (bound : env.get? array = some (.array layout)) : layout = ⟨array, elem, dims⟩ := by
  obtain ⟨found, visible, corresponds⟩ := agrees _ _ declared
  rw [bound] at visible
  cases visible
  cases corresponds
  rfl

theorem empty : Agrees {} {} := by
  intro name binding bound
  cases bound

theorem enter (agrees : Agrees types env) : Agrees types.enter env.enter := agrees

theorem rebind (agrees : Agrees types env) {name : String} {binding : Typing.Binding}
    {found : Binding} (new : Corresponds name binding found) :
    Agrees (types.rebind name binding) (env.rebind name found) := by
  intro other visible bound
  rw [Scope.get?_rebind] at bound ⊢
  split at bound
  · next same =>
    cases bound
    subst same
    exact ⟨found, by rw [if_pos rfl], new⟩
  · next different =>
    rw [if_neg different]
    exact agrees other visible bound

theorem bind (agrees : Agrees types env) {name : String} {binding : Typing.Binding}
    {found : Binding} (fresh : types.bind? name binding = some types')
    (new : Corresponds name binding found) : Agrees types' (env.rebind name found) := by
  rw [Scope.eq_rebind_of_bind? fresh]
  exact agrees.rebind new

end Agrees

/-- The memories of the arguments of a call, those of each argument in its turn. -/
inductive BankedArguments (types : Typing.Env) (env : Env) :
    List String → List Decl → List String → Prop where
  | nil : BankedArguments types env [] [] []
  | cons {arg : String} {args : List String} {param : Decl} {params : List Decl} {elem : Ty}
      {dims : List Dim} {names banks : List String}
      (declared : types.get? arg = some (.array elem dims)) (same : param.ty = .array elem dims)
      (bound : env.get? arg = some (.array ⟨arg, elem, dims⟩))
      (named : Layout.banks ⟨arg, elem, dims⟩ = .ok names)
      (others : BankedArguments types env args params banks) :
      BankedArguments types env (arg :: args) (param :: params) (names ++ banks)

theorem Agrees.bankedArguments {types : Typing.Env} {env : Env} (agrees : Agrees types env)
    {args banks : List String} {params : List Decl} (given : Typing.CheckedArguments types args params)
    (split : banksOf env args = .ok banks) : BankedArguments types env args params banks := by
  induction given generalizing banks with
  | nil =>
    cases split
    exact .nil
  | cons declared same _ ih =>
    simp only [banksOf, bind_ok_iff, lift_ok_iff, pure_ok_iff] at split
    obtain ⟨layout, found, names, named, rest, others, rfl⟩ := split
    have bound := layoutOf_ok found
    obtain rfl := agrees.layout_eq declared bound
    exact .cons declared same bound named (ih others)

theorem corresponds_ofTy (name : String) (ty : Ty) :
    Corresponds name (Typing.Binding.ofTy ty) (Binding.ofTy name ty) := by
  cases ty with
  | array elem dims => exact .array elem dims
  | _ => exact .scalar _

mutual

theorem Agrees.after {ctx : Typing.Context} {types types' : Typing.Env} {env : Env}
    {cmd : TypedCommand} (agrees : Agrees types env) :
    Typing.CheckedCommand ctx types cmd types' → Agrees types' (after env cmd)
  | .decl _ fresh => agrees.bind fresh (corresponds_ofTy _ _)
  | .define _ _ _ fresh => agrees.bind fresh (.scalar _)
  | .seq checked => agrees.afterSeq checked
  | .branch .. => agrees
  | .loop .. => agrees
  | .update .. => agrees
  | .reduce .. => agrees
  | .call .. => agrees
  | .eval .. => agrees
  | .advance .. => agrees
  | .skip => agrees

theorem Agrees.afterSeq {ctx : Typing.Context} {types types' : Typing.Env} {env : Env}
    {cmds : List TypedCommand} (agrees : Agrees types env) :
    Typing.CheckedSeq ctx types cmds types' → Agrees types' (afterSeq env cmds)
  | .nil => agrees
  | .cons first rest => (agrees.after first).afterSeq rest

end

theorem Agrees.declared {types types' : Typing.Env} {env : Env} {ds : List Decl}
    (agrees : Agrees types env) (checked : Typing.CheckedDecls types ds types') :
    Agrees types' (declared env ds) := by
  induction checked generalizing env with
  | nil => exact agrees
  | cons _ fresh _ ih => exact ih (agrees.bind fresh (corresponds_ofTy _ _))

theorem Agrees.round {types : Typing.Env} {env : Env} {h : LoopHeader} (agrees : Agrees types env)
    (range : Typing.CheckedHeader h) :
    Agrees (types.enter.rebind h.iter (.iterator (.idx h.stop h.unroll)))
      (env.enter.rebind h.iter (.iterator ⟨h.start, h.stop - 1⟩)) :=
  agrees.enter.rebind (.iterator h.unroll range.runs)

/-! ### Hidden registers -/

/-- A hidden register is neither visible nor taken. -/
theorem unboundName_not_mem (base : String) (env : Env) (taken : List String) :
    unboundName base env taken ∉ env.names ++ taken :=
  FreeName.firstFree_not_mem (FreeName.suffixed_injective base) _ _

theorem not_mem_of_unboundName {base register : String} {env : Env} {taken : List String}
    (named : register = unboundName base env taken) : register ∉ env.names ∧ register ∉ taken := by
  have free := unboundName_not_mem base env taken
  rw [← named, List.mem_append, not_or] at free
  exact free

/-- The names of a component and the registers of its rotations are visible or taken. -/
structure Accounted (names : List String) (rotations : List (String × Rotation)) (env : Env)
    (taken : List String) : Prop where
  names : names ⊆ env.names ++ taken
  registers : ∀ turning ∈ rotations, turning.2.register ∈ env.names ++ taken

namespace Accounted

variable {names : List String} {rotations : List (String × Rotation)} {env : Env}
  {taken : List String} {base register : String}

theorem not_mem (accounted : Accounted names rotations env taken)
    (named : register = unboundName base env taken) : register ∉ names := by
  obtain ⟨unbound, free⟩ := not_mem_of_unboundName named
  intro inside
  exact (List.mem_append.mp (accounted.names inside)).elim unbound free

theorem ne (accounted : Accounted names rotations env taken)
    (named : register = unboundName base env taken) :
    ∀ turning ∈ rotations, turning.2.register ≠ register := by
  obtain ⟨unbound, free⟩ := not_mem_of_unboundName named
  rintro turning member rfl
  exact (List.mem_append.mp (accounted.registers turning member)).elim unbound free

/-- The register of another rotation is visible and taken too. -/
theorem concat (accounted : Accounted names rotations env taken) (array : String) (banks : Nat) :
    Accounted names (rotations ++ [(array, ⟨register, banks⟩)]) (env.rebind register .scalar)
      (register :: taken) := by
  have more : env.names ++ taken ⊆ (env.rebind register .scalar).names ++ (register :: taken) :=
    List.append_subset.mpr
      ⟨List.Subset.trans (List.subset_cons_self _ _) (List.subset_append_left _ _),
        List.Subset.trans (List.subset_cons_self _ _) (List.subset_append_right _ _)⟩
  refine ⟨List.Subset.trans accounted.names more, ?_⟩
  rw [List.forall_mem_append, List.forall_mem_singleton]
  exact ⟨fun turning member => more (accounted.registers turning member),
    List.mem_append_left _ List.mem_cons_self⟩

end Accounted

/-- Setting up rotations hides no name. -/
theorem setUpRotations_get? {statements : Statements} {body : TypedCommand} {env : Env}
    {taken : List String} {arrays : List (String × Nat)} {prologue : Prologue}
    (success : (setUpRotations statements body env taken arrays).result = .ok prologue)
    {name : String} {binding : Binding} (bound : env.get? name = some binding) :
    prologue.env.get? name = some binding := by
  induction arrays generalizing env taken prologue with
  | nil =>
    cases success
    exact bound
  | cons entry arrays ih =>
    obtain ⟨array, pos⟩ := entry
    obtain ⟨layout, banks, _, _, ⟨_, rest⟩ | ⟨register, ty, inner, named, _, _, rest, rfl⟩⟩ :=
      setUpRotations_cons success
    · exact ih rest bound
    · show inner.env.get? name = some binding
      refine ih rest ?_
      have free := unboundName_not_mem s!"{array}_bank" env taken
      rw [← named] at free
      have different : name ≠ register := by
        intro same
        rw [← same] at free
        exact free (List.mem_append_left _ (Scope.mem_names_of_get? bound))
      rw [Scope.get?_rebind, if_neg different]
      exact bound

theorem Agrees.setUpRotations {types : Typing.Env} {env : Env} (agrees : Agrees types env)
    {statements : Statements} {body : TypedCommand} {taken : List String}
    {arrays : List (String × Nat)} {prologue : Prologue}
    (success : (setUpRotations statements body env taken arrays).result = .ok prologue) :
    Agrees types prologue.env := by
  intro name binding bound
  obtain ⟨found, visible, same⟩ := agrees name binding bound
  exact ⟨found, setUpRotations_get? success visible, same⟩

end Banking

end BankedLoops
