import BankedLoops.Proofs.Success
import BankedLoops.Proofs.Typing.Operands

/-!
# The checker is sound

A tree that the checker returns satisfies the typing rules, in the environment that the checker had
and with the one that it returns. `checkedProgram_of_check` says so of whole programs.
-/

namespace BankedLoops

namespace Typing

/-! ### Environments -/

theorem WellFormed.empty : WellFormed {} := by
  intro name binding bound
  cases bound

theorem WellFormed.enter {env : Env} (formed : WellFormed env) : WellFormed env.enter :=
  formed

theorem WellFormed.rebind {env : Env} (formed : WellFormed env) {name : String}
    {binding : Binding} (new : binding.WellFormed) : WellFormed (env.rebind name binding) := by
  intro other found bound
  rw [Scope.get?_rebind] at bound
  split at bound
  · cases bound
    exact new
  · exact formed other found bound

theorem WellFormed.bind {env env' : Env} (formed : WellFormed env) {name : String}
    {binding : Binding} (new : binding.WellFormed) (fresh : env.bind? name binding = some env') :
    WellFormed env' := by
  rw [Scope.eq_rebind_of_bind? fresh]
  exact formed.rebind new

theorem Binding.wellFormed_ofTy {ty : Ty} (declared : declaredFault? ty = .ok none) :
    (Binding.ofTy ty).WellFormed := by
  cases ty with
  | array elem dims => exact .array declared
  | _ => exact .scalar ⟨rfl, declared⟩

theorem unevenDim?_none {dims : List Dim} (even : unevenDim? dims = .ok none) :
    ∀ d ∈ dims, d.splitsEvenly = .ok true := by
  induction dims with
  | nil => exact nofun
  | cons d ds ih =>
    obtain ⟨splits, known, rest⟩ := bind_ok_iff.mp even
    split at rest
    · next divided => exact List.forall_mem_cons.mpr ⟨known.trans (congrArg _ divided), ih rest⟩
    · cases rest

theorem declared_array {elem : Ty} {dims : List Dim}
    (declared : declaredFault? (.array elem dims) = .ok none) :
    Storable elem ∧ ∀ d ∈ dims, d.splitsEvenly = .ok true := by
  have divided (found : (do
      return (← unevenDim? dims).map fun d => TypeFault.bankFactor d.bank d.size) = Except.ok none) :
      ∀ d ∈ dims, d.splitsEvenly = .ok true := by
    obtain ⟨uneven, search, none⟩ := bind_ok_iff.mp found
    rw [pure_ok_iff, Option.map_eq_none_iff] at none
    exact unevenDim?_none (none ▸ search)
  cases elem with
  | bool => exact ⟨⟨rfl, rfl⟩, divided declared⟩
  | bit width signed =>
    simp only [declaredFault?] at declared
    split at declared
    · cases declared
    · next scalar => exact ⟨⟨rfl, congrArg Except.ok scalar⟩, divided declared⟩
  | fix width frac =>
    simp only [declaredFault?] at declared
    split at declared
    · cases declared
    · next scalar => exact ⟨⟨rfl, congrArg Except.ok scalar⟩, divided declared⟩
  | _ => cases declared

theorem WellFormed.array {env : Env} (formed : WellFormed env) {name : String} {elem : Ty}
    {dims : List Dim} (bound : env.get? name = some (.array elem dims)) :
    Storable elem ∧ ∀ d ∈ dims, d.splitsEvenly = .ok true := by
  cases formed _ _ bound with
  | array declared => exact declared_array declared

/-! ### Inversion -/

section

variable {ctx : Context} {env env' : Env} {stmt : String}

theorem checkExpr_access {array : String} {idxs : List Expr} {typed : TypedExpr}
    (checked : checkExpr ctx env stmt (.access array idxs) = .ok typed) :
    ∃ elem dims found, env.get? array = some (.array elem dims) ∧ idxs.length = dims.length ∧
      checkIndices ctx env stmt array idxs dims = .ok found ∧ typed = .access elem array found := by
  unfold checkExpr at checked
  split at checked
  · next bound =>
    split at checked
    · exact (refuse_bind_ok_iff.mp checked).elim
    · next counted =>
      simp only [bind_ok_iff] at checked
      obtain ⟨found, indices, checked⟩ := checked
      cases checked
      exact ⟨_, _, found, bound, Decidable.not_not.mp counted, indices, rfl⟩
  all_goals exact (refuse_ok_iff.mp checked).elim

theorem checkIndices_cons {array : String} {idx : Expr} {idxs : List Expr} {dim : Dim}
    {dims : List Dim} {typed : List TypedExpr}
    (checked : checkIndices ctx env stmt array (idx :: idxs) (dim :: dims) = .ok typed) :
    ∃ first others, checkExpr ctx env stmt idx = .ok first ∧ checkIndex stmt first.ty dim = .ok () ∧
      (ctx.parallel = true → 1 < dim.size / dim.bank → isStaticSelector env idx = true) ∧
      checkIndices ctx env stmt array idxs dims = .ok others ∧ typed = first :: others := by
  simp only [checkIndices, bind_ok_iff] at checked
  obtain ⟨first, firstChecked, _, fits, checked⟩ := checked
  refine ⟨first, ?_⟩
  split at checked
  · simp only [bind_ok_iff, lift_ok_iff, Dim.bankCount, Word.div_eq_ok_iff] at checked
    obtain ⟨_, ⟨_, rfl⟩, checked⟩ := checked
    split at checked
    · exact (refuse_bind_ok_iff.mp checked).elim
    · next selects =>
      simp only [bind_ok_iff, pure_ok_iff] at checked
      obtain ⟨others, rest, rfl⟩ := checked
      exact ⟨others, firstChecked, fits, fun _ many => by simpa [many] using selects, rest, rfl⟩
  · next sequential =>
    simp only [bind_ok_iff, pure_ok_iff] at checked
    obtain ⟨others, rest, rfl⟩ := checked
    exact ⟨others, firstChecked, fits, fun parallel => absurd parallel sequential, rest, rfl⟩

theorem checkApplication_app {func : String} {args : List Expr} {typed : TypedExpr}
    (checked : checkApplication ctx env stmt func args = .ok typed) :
    ∃ params names, ctx.funcs.lookup func = some params ∧ params.length = args.length ∧
      checkArguments env stmt args params = .ok names ∧ typed = .app .void func names := by
  unfold checkApplication at checked
  split at checked
  · exact (refuse_ok_iff.mp checked).elim
  · next params defined =>
    split at checked
    · exact (refuse_bind_ok_iff.mp checked).elim
    · next counted =>
      simp only [bind_ok_iff, pure_ok_iff] at checked
      obtain ⟨names, given, rfl⟩ := checked
      exact ⟨params, names, defined, Decidable.not_not.mp counted, given, rfl⟩

variable {pos : Nat} {typed : TypedCommand}

theorem checkCommand_branch {cond : Expr} {onTrue : SourceCommand} {onFalse : Option SourceCommand}
    (checked : checkCommand ctx env (.branch pos cond onTrue onFalse) = .ok (typed, env')) :
    ∃ stmt value yes inner no, checkExpr ctx env stmt cond = .ok value ∧ value.ty = .bool ∧
      checkCommand ctx env.enter onTrue = .ok (yes, inner) ∧
      checkElse ctx env.enter onFalse = .ok no ∧ typed = .branch pos value yes no ∧ env' = env := by
  simp only [checkCommand, bind_ok_iff] at checked
  obtain ⟨value, valueChecked, checked⟩ := checked
  split at checked
  · exact (refuse_bind_ok_iff.mp checked).elim
  · next isBool =>
    simp only [bind_ok_iff, pure_ok_iff, Prod.mk.injEq] at checked
    obtain ⟨⟨yes, inner⟩, first, no, second, rfl, rfl⟩ := checked
    exact ⟨_, value, yes, inner, no, valueChecked, Decidable.not_not.mp isBool, first, second, rfl, rfl⟩

theorem checkCommand_update {target value : Expr}
    (checked : checkCommand ctx env (.update pos target value) = .ok (typed, env')) :
    ∃ stmt written read, checkTarget ctx env stmt target = .ok written ∧
      checkExpr ctx env stmt value = .ok read ∧ assignable read.ty written.ty = true ∧
      typed = .update pos written read ∧ env' = env := by
  simp only [checkCommand, bind_ok_iff] at checked
  obtain ⟨written, place, read, valueChecked, checked⟩ := checked
  split at checked
  · exact (refuse_bind_ok_iff.mp checked).elim
  · next fits =>
    cases checked
    exact ⟨_, written, read, place, valueChecked, by simpa using fits, rfl, rfl⟩

theorem checkCommand_reduce {op : BinOp} {target value : Expr}
    (checked : checkCommand ctx env (.reduce pos op target value) = .ok (typed, env')) :
    ∃ stmt written read, checkTarget ctx env stmt target = .ok written ∧ Numeric written.ty ∧
      checkExpr ctx env stmt value = .ok read ∧ assignable read.ty written.ty = true ∧
      typed = .reduce pos op written read ∧ env' = env := by
  simp only [checkCommand, bind_ok_iff] at checked
  obtain ⟨written, place, checked⟩ := checked
  split at checked
  case h_3 => exact (refuse_bind_ok_iff.mp checked).elim
  all_goals
    next same =>
    simp only [bind_ok_iff] at checked
    obtain ⟨read, valueChecked, checked⟩ := checked
    split at checked
    · exact (refuse_bind_ok_iff.mp checked).elim
    · next fits =>
      cases checked
      refine ⟨_, written, read, place, ?_, valueChecked, by simpa using fits, rfl, rfl⟩
      rw [same]
      constructor

theorem checkFunction_body {funcs : List (String × List Decl)} {f : Function (Option Ty) Expr}
    {typed : Function Ty TypedExpr} (checked : checkFunction funcs f = .ok typed) :
    ∃ env body env', funcs.lookup f.name = none ∧ checkParams f.text {} f.params = .ok env ∧
      checkCommand { funcs } env f.body = .ok (body, env') ∧
      typed = ⟨f.pos, f.name, f.params, body⟩ := by
  unfold checkFunction at checked
  split at checked
  · exact (refuse_bind_ok_iff.mp checked).elim
  · next unnamed =>
    simp only [bind_ok_iff, pure_ok_iff] at checked
    obtain ⟨env, params, ⟨body, env'⟩, bodyChecked, rfl⟩ := checked
    exact ⟨env, body, env', Option.not_isSome_iff_eq_none.mp unnamed, params, bodyChecked, rfl⟩

end

/-! ### Expressions -/

theorem validate_ok {stmt : String} {ty : Ty} {u : Unit} (valid : validate stmt ty = .ok u) :
    declaredFault? ty = .ok none := by
  obtain ⟨fault, found, valid⟩ := bind_ok_iff.mp valid
  cases fault with
  | some fault => exact (refuse_ok_iff.mp valid).elim
  | none => exact lift_ok_iff.mp found

/-- The rule for indices is what the checker accepts. -/
theorem checkIndex_ok_iff {stmt : String} {ty : Ty} {dim : Dim} :
    checkIndex stmt ty dim = .ok () ↔ IndexFits dim ty := by
  constructor
  · intro checked
    unfold checkIndex at checked
    split at checked
    · split at checked
      · exact (refuse_ok_iff.mp checked).elim
      · exact .literal (by omega)
    · split at checked
      · simp only [bind_ok_iff, refuse_ok_iff] at checked
        obtain ⟨_, _, refused⟩ := checked
        exact refused.elim
      · exact .iterator (by omega)
    · simp only [bind_ok_iff, lift_ok_iff, Word.sub_eq_ok_iff] at checked
      obtain ⟨_, ⟨nonempty, rfl⟩, checked⟩ := checked
      split at checked
      · exact (refuse_ok_iff.mp checked).elim
      · exact .word nonempty (by omega)
    · exact (refuse_ok_iff.mp checked).elim
  · intro fits
    cases fits with
    | literal inside =>
      unfold checkIndex
      exact if_neg (Nat.not_le.mpr inside)
    | iterator inside =>
      unfold checkIndex
      exact if_neg (Nat.not_lt.mpr inside)
    | word nonempty wide =>
      have last : Word.sub dim.size 1 = .ok (dim.size - 1) := Word.sub_eq_ok_iff.mpr ⟨nonempty, rfl⟩
      simp only [checkIndex, lift_ok_iff.mpr last, ok_bind]
      exact if_neg (Nat.not_lt.mpr wide)

/-- The typed form of a selector is a selector. -/
theorem staticIndex_of_selector {ctx : Context} {env : Env} {stmt : String} {e : Expr}
    {typed : TypedExpr} (selector : isStaticSelector env e = true)
    (checked : checkExpr ctx env stmt e = .ok typed) : StaticIndex env typed := by
  induction e using isStaticSelector.induct env generalizing typed with
  | case1 n =>
    cases checked
    exact .literal _ n
  | case2 name ty bound =>
    simp only [checkExpr, bound] at checked
    cases checked
    exact .iterator bound
  | case3 name other =>
    unfold isStaticSelector at selector
    split at selector
    · next bound => exact (other _ bound).elim
    · cases selector
  | case4 op lhs rhs leftSound rightSound =>
    simp only [isStaticSelector, Bool.and_eq_true] at selector
    simp only [checkExpr, bind_ok_iff] at checked
    obtain ⟨left, leftChecked, right, rightChecked, checked⟩ := checked
    split at checked
    · cases checked
      exact .binop _ op (leftSound selector.1 leftChecked) (rightSound selector.2 rightChecked)
    · exact (refuse_ok_iff.mp checked).elim
  | case5 e notInt notVar notBinop =>
    unfold isStaticSelector at selector
    split at selector <;> simp_all

mutual

theorem checkExpr_ok {ctx : Context} {env : Env} {stmt : String} :
    (e : Expr) → {typed : TypedExpr} → checkExpr ctx env stmt e = .ok typed →
      CheckedExpr ctx env typed
  | .int n, typed, checked => by
    cases checked
    exact .int n
  | .bool b, typed, checked => by
    cases checked
    exact .bool b
  | .var name, typed, checked => by
    unfold checkExpr at checked
    split at checked
    · exact (refuse_ok_iff.mp checked).elim
    · next bound =>
      cases checked
      exact .scalar bound
    · next bound =>
      cases checked
      exact .iterator bound
    · exact (refuse_ok_iff.mp checked).elim
  | .binop op lhs rhs, typed, checked => by
    simp only [checkExpr, bind_ok_iff] at checked
    obtain ⟨left, leftChecked, right, rightChecked, checked⟩ := checked
    split at checked
    · next joined =>
      cases checked
      exact .binop (checkExpr_ok lhs leftChecked) (checkExpr_ok rhs rightChecked) joined
    · exact (refuse_ok_iff.mp checked).elim
  | .access array idxs, typed, checked => by
    obtain ⟨elem, dims, found, bound, counted, indices, rfl⟩ := checkExpr_access checked
    exact .access bound (checkIndices_ok idxs counted indices)
  | .app func args, typed, checked => (refuse_ok_iff.mp checked).elim

theorem checkIndices_ok {ctx : Context} {env : Env} {stmt array : String} :
    (idxs : List Expr) → {dims : List Dim} → {typed : List TypedExpr} →
      idxs.length = dims.length → checkIndices ctx env stmt array idxs dims = .ok typed →
      CheckedIndices ctx env dims typed
  | [], [], typed, _, checked => by
    cases checked
    exact .nil
  | idx :: idxs, dim :: dims, typed, counted, checked => by
    obtain ⟨first, others, firstChecked, fits, selects, rest, rfl⟩ := checkIndices_cons checked
    have counted : idxs.length = dims.length := Nat.succ.inj counted
    exact .cons (checkExpr_ok idx firstChecked) (checkIndex_ok_iff.mp fits)
      (fun parallel many => staticIndex_of_selector (selects parallel many) firstChecked)
      (checkIndices_ok idxs counted rest)

end

/-- The values of well-typed expressions have value types. -/
theorem CheckedExpr.valueTy {ctx : Context} {env : Env} (formed : WellFormed env) :
    {e : TypedExpr} → CheckedExpr ctx env e → ValueTy e.ty
  | _, .int n => .literal n
  | _, .bool _ => .stored ⟨rfl, rfl⟩
  | _, .scalar bound => by
    cases formed _ _ bound with
    | scalar storable => exact .stored storable
  | _, .iterator bound => by
    cases formed _ _ bound with
    | iterator unroll nonempty => exact .iterator unroll nonempty
  | _, .binop left right typed => valueTy_binop (left.valueTy formed) (right.valueTy formed) typed
  | _, .access bound _ => .stored (formed.array bound).1

theorem checkTarget_ok {ctx : Context} {env : Env} {stmt : String} {target : Expr}
    {typed : TypedExpr} (checked : checkTarget ctx env stmt target = .ok typed) :
    CheckedTarget ctx env typed := by
  unfold checkTarget at checked
  split at checked
  · split at checked
    · next bound =>
      cases checked
      exact .register bound
    all_goals exact (refuse_ok_iff.mp checked).elim
  · have typing := checkExpr_ok _ checked
    obtain ⟨_, _, _, _, _, _, rfl⟩ := checkExpr_access checked
    exact .element typing
  · exact (refuse_ok_iff.mp checked).elim

theorem checkArgument_ok {env : Env} {stmt name : String} {arg : Expr} {param : Decl}
    (checked : checkArgument env stmt arg param = .ok name) :
    ∃ elem dims, env.get? name = some (.array elem dims) ∧ param.ty = .array elem dims := by
  unfold checkArgument at checked
  split at checked
  · split at checked
    · next bound =>
      split at checked
      · next same =>
        cases checked
        exact ⟨_, _, bound, same.symm⟩
      · exact (refuse_ok_iff.mp checked).elim
    all_goals exact (refuse_ok_iff.mp checked).elim
  · exact (refuse_ok_iff.mp checked).elim

theorem checkArguments_ok {env : Env} {stmt : String} {args : List Expr} {params : List Decl}
    {names : List String} (counted : params.length = args.length)
    (checked : checkArguments env stmt args params = .ok names) :
    CheckedArguments env names params := by
  induction args generalizing params names with
  | nil =>
    obtain rfl := List.eq_nil_of_length_eq_zero counted
    cases checked
    exact .nil
  | cons arg args ih =>
    cases params with
    | nil => cases counted
    | cons param params =>
      simp only [checkArguments, bind_ok_iff, pure_ok_iff] at checked
      obtain ⟨name, first, names, rest, rfl⟩ := checked
      obtain ⟨elem, dims, bound, same⟩ := checkArgument_ok first
      exact .cons bound same (ih (Nat.succ.inj counted) rest)

theorem checkApplication_ok {ctx : Context} {env : Env} {stmt func : String} {args : List Expr}
    {typed : TypedExpr} (checked : checkApplication ctx env stmt func args = .ok typed) :
    ∃ func names params, typed = .app .void func names ∧ ctx.funcs.lookup func = some params ∧
      CheckedArguments env names params := by
  obtain ⟨params, names, defined, counted, given, rfl⟩ := checkApplication_app checked
  exact ⟨func, names, params, rfl, defined, checkArguments_ok counted given⟩

/-! ### Commands -/

theorem declare_ok {env env' : Env} {stmt name : String} {binding : Binding}
    (declared : declare env stmt name binding = .ok env') :
    env.bind? name binding = some env' := by
  unfold declare at declared
  split at declared
  · next fresh =>
    cases declared
    exact fresh
  · exact (refuse_ok_iff.mp declared).elim

theorem assignable_openTy (ty : Ty) : assignable ty (openTy ty) = true := by
  cases ty with
  | static n => exact decide_eq_true (Nat.le_max_left _ _)
  | idx bound unroll => simp [openTy, assignable, Ty.ubit]
  | _ => simp [openTy, assignable]

theorem storable_openTy {ty : Ty} (value : ValueTy ty) : Storable (openTy ty) := by
  cases value with
  | stored storable =>
    cases ty with
    | static n => cases storable.2
    | idx bound unroll => cases storable.2
    | _ => exact storable
  | literal n => exact storable_bit false (by omega)
  | iterator unroll nonempty => exact storable_bit false (bitsNeeded_pos _)

theorem defineTy_ok {stmt name : String} {value ty : Ty} {given : Option Ty}
    (typed : ValueTy value) (checked : defineTy stmt name value given = .ok ty) :
    Storable ty ∧ assignable value ty = true := by
  cases given with
  | none =>
    cases checked
    exact ⟨storable_openTy typed, assignable_openTy value⟩
  | some annotated =>
    simp only [defineTy, bind_ok_iff] at checked
    obtain ⟨_, valid, checked⟩ := checked
    split at checked
    · exact (refuse_bind_ok_iff.mp checked).elim
    · next scalar =>
      split at checked
      · exact (refuse_bind_ok_iff.mp checked).elim
      · next fits =>
        cases checked
        exact ⟨⟨by simpa using scalar, validate_ok valid⟩, by simpa using fits⟩

theorem checkHeader_ok {stmt : String} {h : LoopHeader} {u : Unit}
    (checked : checkHeader stmt h = .ok u) : CheckedHeader h := by
  unfold checkHeader at checked
  by_cases empty : h.stop ≤ h.start
  · simp only [empty, if_true, refuse_bind_ok_iff] at checked
  · refine ⟨Nat.lt_of_not_le empty, ?_⟩
    intro k unrolled
    simp only [empty, if_false, unrolled, bind_ok_iff, lift_ok_iff, Word.sub_eq_ok_iff] at checked
    obtain ⟨trips, ⟨_, rfl⟩, checked⟩ := checked
    split at checked
    · exact (refuse_bind_ok_iff.mp checked).elim
    · next nonzero =>
      simp only [Word.mod, nonzero, if_false, bind_ok_iff, lift_ok_iff] at checked
      obtain ⟨left, same, checked⟩ := checked
      cases same
      split at checked
      · exact (refuse_ok_iff.mp checked).elim
      · next even => exact ⟨nonzero, Decidable.not_not.mp even⟩

mutual

theorem checkCommand_ok {ctx : Context} {env : Env} (formed : WellFormed env) :
    (cmd : SourceCommand) → {typed : TypedCommand} → {env' : Env} →
      checkCommand ctx env cmd = .ok (typed, env') →
      CheckedCommand ctx env typed env' ∧ WellFormed env'
  | .decl pos name ty, typed, env', checked => by
    simp only [checkCommand, bind_ok_iff, pure_ok_iff, Prod.mk.injEq] at checked
    obtain ⟨_, valid, _, declared, rfl, rfl⟩ := checked
    have declarable := validate_ok valid
    have fresh := declare_ok declared
    exact ⟨.decl declarable fresh, formed.bind (Binding.wellFormed_ofTy declarable) fresh⟩
  | .define pos name ty init, typed, env', checked => by
    simp only [checkCommand, bind_ok_iff, pure_ok_iff, Prod.mk.injEq] at checked
    obtain ⟨value, valueChecked, chosen, defined, _, declared, rfl, rfl⟩ := checked
    have value := checkExpr_ok init valueChecked
    obtain ⟨storable, fits⟩ := defineTy_ok (value.valueTy formed) defined
    have fresh := declare_ok declared
    exact ⟨.define value storable fits fresh, formed.bind (.scalar storable) fresh⟩
  | .seq pos cmds, typed, env', checked => by
    simp only [checkCommand, bind_ok_iff, pure_ok_iff, Prod.mk.injEq] at checked
    obtain ⟨⟨_, _⟩, rest, rfl, rfl⟩ := checked
    obtain ⟨all, formed⟩ := checkSeq_ok formed cmds rest
    exact ⟨.seq all, formed⟩
  | .branch pos cond onTrue onFalse, typed, env', checked => by
    obtain ⟨_, value, _, _, _, valueChecked, isBool, yes, no, rfl, rfl⟩ := checkCommand_branch checked
    exact ⟨.branch (checkExpr_ok cond valueChecked) isBool (checkCommand_ok formed.enter onTrue yes).1
      (checkElse_ok formed.enter onFalse no), formed⟩
  | .loop pos header body, typed, env', checked => by
    simp only [checkCommand, bind_ok_iff, pure_ok_iff, Prod.mk.injEq] at checked
    obtain ⟨_, range, ⟨_, _⟩, inner, rfl, rfl⟩ := checked
    have range := checkHeader_ok range
    have innerFormed : WellFormed
        (env.enter.rebind header.iter (.iterator (.idx header.stop header.unroll))) :=
      formed.enter.rebind (.iterator header.unroll (Nat.zero_lt_of_lt range.runs))
    exact ⟨.loop range (checkCommand_ok innerFormed body inner).1, formed⟩
  | .update pos target value, typed, env', checked => by
    obtain ⟨_, _, _, place, valueChecked, fits, rfl, rfl⟩ := checkCommand_update checked
    exact ⟨.update (checkTarget_ok place) (checkExpr_ok value valueChecked) fits, formed⟩
  | .reduce pos op target value, typed, env', checked => by
    obtain ⟨_, _, _, place, numeric, valueChecked, fits, rfl, rfl⟩ := checkCommand_reduce checked
    exact ⟨.reduce (checkTarget_ok place) numeric (checkExpr_ok value valueChecked) fits, formed⟩
  | .eval pos e, typed, env', checked => by
    simp only [checkCommand] at checked
    split at checked
    · simp only [bind_ok_iff, pure_ok_iff, Prod.mk.injEq] at checked
      obtain ⟨found, checked, rfl, rfl⟩ := checked
      obtain ⟨func, names, params, rfl, defined, given⟩ := checkApplication_ok checked
      exact ⟨.call defined given, formed⟩
    · simp only [bind_ok_iff, pure_ok_iff, Prod.mk.injEq] at checked
      obtain ⟨found, checked, rfl, rfl⟩ := checked
      exact ⟨.eval (checkExpr_ok _ checked), formed⟩
  | .advance pos array, typed, env', checked => by
    simp only [checkCommand] at checked
    split at checked
    · next bound =>
      cases checked
      exact ⟨.advance bound, formed⟩
    all_goals exact (refuse_ok_iff.mp checked).elim
  | .skip pos, typed, env', checked => by
    cases checked
    exact ⟨.skip, formed⟩

theorem checkSeq_ok {ctx : Context} {env : Env} (formed : WellFormed env) :
    (cmds : List SourceCommand) → {typed : List TypedCommand} → {env' : Env} →
      checkSeq ctx env cmds = .ok (typed, env') →
      CheckedSeq ctx env typed env' ∧ WellFormed env'
  | [], typed, env', checked => by
    cases checked
    exact ⟨.nil, formed⟩
  | cmd :: cmds, typed, env', checked => by
    simp only [checkSeq, bind_ok_iff, pure_ok_iff, Prod.mk.injEq] at checked
    obtain ⟨⟨_, _⟩, first, ⟨_, _⟩, rest, rfl, rfl⟩ := checked
    obtain ⟨first, formed⟩ := checkCommand_ok formed cmd first
    obtain ⟨rest, formed⟩ := checkSeq_ok formed cmds rest
    exact ⟨.cons first rest, formed⟩

theorem checkElse_ok {ctx : Context} {env : Env} (formed : WellFormed env) :
    (cmd : Option SourceCommand) → {typed : Option TypedCommand} →
      checkElse ctx env cmd = .ok typed → CheckedElse ctx env typed
  | none, typed, checked => by
    cases checked
    exact .none
  | some cmd, typed, checked => by
    simp only [checkElse, bind_ok_iff, pure_ok_iff] at checked
    obtain ⟨⟨_, _⟩, checked, rfl⟩ := checked
    exact .some (checkCommand_ok formed cmd checked).1

end

/-! ### Programs -/

theorem checkDecls_ok {env env' : Env} {ds : List Decl} (formed : WellFormed env)
    (checked : checkDecls env ds = .ok env') : CheckedDecls env ds env' ∧ WellFormed env' := by
  induction ds generalizing env with
  | nil =>
    cases checked
    exact ⟨.nil, formed⟩
  | cons d ds ih =>
    simp only [checkDecls, bind_ok_iff] at checked
    obtain ⟨_, valid, checked⟩ := checked
    have declarable := validate_ok valid
    split at checked
    · next fresh =>
      obtain ⟨rest, formed⟩ :=
        ih (formed.bind (Binding.wellFormed_ofTy declarable) fresh) checked
      exact ⟨.cons declarable fresh rest, formed⟩
    · exact (refuse_ok_iff.mp checked).elim

theorem checkParams_ok {header : String} {env env' : Env} {ds : List Decl}
    (formed : WellFormed env) (checked : checkParams header env ds = .ok env') :
    CheckedDecls env ds env' ∧ WellFormed env' ∧ ∀ d ∈ ds, d.ty.isArray = true := by
  induction ds generalizing env with
  | nil =>
    cases checked
    exact ⟨.nil, formed, nofun⟩
  | cons d ds ih =>
    simp only [checkParams, bind_ok_iff] at checked
    obtain ⟨_, valid, checked⟩ := checked
    have declarable := validate_ok valid
    split at checked
    · exact (refuse_bind_ok_iff.mp checked).elim
    · next array =>
      split at checked
      · next fresh =>
        obtain ⟨rest, formed, arrays⟩ :=
          ih (formed.bind (Binding.wellFormed_ofTy declarable) fresh) checked
        refine ⟨.cons declarable fresh rest, formed, ?_⟩
        intro param member
        rcases List.mem_cons.mp member with rfl | member
        · simpa using array
        · exact arrays param member
      · exact (refuse_ok_iff.mp checked).elim

theorem checkFunction_ok {funcs : List (String × List Decl)} {f : Function (Option Ty) Expr}
    {typed : Function Ty TypedExpr} (checked : checkFunction funcs f = .ok typed) :
    CheckedFunction funcs typed ∧ typed.name = f.name ∧ typed.params = f.params := by
  obtain ⟨env, body, env', unnamed, params, bodyChecked, rfl⟩ := checkFunction_body checked
  obtain ⟨params, formed, arrays⟩ := checkParams_ok WellFormed.empty params
  exact ⟨⟨unnamed, arrays, env, env', params, (checkCommand_ok formed _ bodyChecked).1⟩, rfl, rfl⟩

theorem checkFunctions_ok {funcs funcs' : List (String × List Decl)}
    {fs : List (Function (Option Ty) Expr)} {typed : List (Function Ty TypedExpr)}
    (checked : (checkFunctions funcs fs).result = .ok (typed, funcs')) :
    CheckedFunctions funcs typed funcs' := by
  induction fs generalizing funcs typed with
  | nil =>
    cases checked
    exact .nil
  | cons f fs ih =>
    simp only [checkFunctions, Outcome.result_bind, Outcome.result_lift, Outcome.result_tell,
      Outcome.result_pure, bind_ok_iff, Except.ok.injEq, Prod.mk.injEq] at checked
    obtain ⟨first, firstChecked, _, _, ⟨rest, last⟩, restChecked, rfl, rfl⟩ := checked
    obtain ⟨first, name, params⟩ := checkFunction_ok firstChecked
    refine .cons first ?_
    rw [name, params]
    exact ih restChecked

end Typing

/-- What the checker returns is well typed. -/
theorem Typing.checkedProgram_of_check {p : SourceProgram} {typed : TypedProgram}
    (checked : p.check.result = .ok typed) : CheckedProgram typed := by
  simp only [Program.check, Outcome.result_bind, Outcome.result_lift, Outcome.result_tell,
    Outcome.result_pure, bind_ok_iff, Except.ok.injEq] at checked
  obtain ⟨⟨defs, funcs⟩, functions, env, decls, body, bodyChecked, _, _, rfl⟩ := checked
  obtain ⟨decls, formed⟩ := checkDecls_ok WellFormed.empty decls
  exact ⟨funcs, env, checkFunctions_ok functions, decls, checkElse_ok formed _ bodyChecked⟩

end BankedLoops
