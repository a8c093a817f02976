import BankedLoops.Proofs.Banking.Agreement
import BankedLoops.Proofs.Banking.Image
import BankedLoops.Proofs.Lowering.Growth
import BankedLoops.Proofs.Typing.Erasure

/-!
# Reads before and after splitting

How many memory reads the physical form of an expression takes. An access becomes one read, but an
index that chooses both a bank at run time and an element of the bank stands in the physical form
twice, so the reads inside it take place once more.
-/

namespace BankedLoops

/-! ### Source expressions -/

mutual

/-- The array reads in an expression, nested ones counted separately. -/
def Expr.reads : Expr → Nat
  | .int _ | .bool _ | .var _ => 0
  | .binop _ lhs rhs => lhs.reads + rhs.reads
  | .access _ idxs => 1 + Expr.readsOf idxs
  | .app _ args => Expr.readsOf args

def Expr.readsOf : List Expr → Nat
  | [] => 0
  | e :: es => e.reads + Expr.readsOf es

end

/-- The dimensions of each array name. -/
abbrev Shapes := String → List Dim

/-- Whether an index along the dimension chooses both a bank and an element of the bank. -/
def Dim.isSplit (d : Dim) : Bool := d.bank != d.size && d.bank != 1

mutual

/-- The array reads that take place once more: those in an index along a split dimension. -/
def Expr.repeats (shapes : Shapes) : Expr → Nat
  | .int _ | .bool _ | .var _ => 0
  | .binop _ lhs rhs => lhs.repeats shapes + rhs.repeats shapes
  | .access array idxs => Expr.repeatsOf shapes (shapes array) idxs
  | .app .. => 0

/-- The repeated reads of indices along the given dimensions. -/
def Expr.repeatsOf (shapes : Shapes) : List Dim → List Expr → Nat
  | dim :: dims, idx :: idxs =>
    idx.repeats shapes + (if dim.isSplit then idx.reads + idx.repeats shapes else 0)
      + Expr.repeatsOf shapes dims idxs
  | _, _ => 0

end

/-! ### Source commands -/

/-- The array reads in the indices of a target; the target itself is not read. -/
def Expr.indexReads : Expr → Nat
  | .access _ idxs => Expr.readsOf idxs
  | _ => 0

def Expr.isElement : Expr → Bool
  | .access .. => true
  | _ => false

/-- The dimensions of a declared type. -/
def Ty.dims : Ty → List Dim
  | .array _ dims => dims
  | _ => []

/-- The dimensions behind a declaration. -/
def Shapes.declare (shapes : Shapes) (name : String) (ty : Ty) : Shapes :=
  Function.update shapes name ty.dims

def Shapes.ofDecls (ds : List Decl) : Shapes :=
  ds.foldl (fun shapes d => shapes.declare d.name d.ty) fun _ => []

mutual

/-- The dimensions behind a command. -/
def Shapes.after (shapes : Shapes) : SourceCommand → Shapes
  | .decl _ name ty => shapes.declare name ty
  | .seq _ cmds => shapes.afterSeq cmds
  | _ => shapes

def Shapes.afterSeq (shapes : Shapes) : List SourceCommand → Shapes
  | [] => shapes
  | cmd :: cmds => (shapes.after cmd).afterSeq cmds

end

mutual

/-- The array reads in a command. A reduction reads the element that it replaces. -/
def Command.reads : SourceCommand → Nat
  | .define _ _ _ init => init.reads
  | .seq _ cmds => readsOfSeq cmds
  | .branch _ cond onTrue onFalse => cond.reads + onTrue.reads + readsOfElse onFalse
  | .loop _ _ body => body.reads
  | .update _ target value => target.indexReads + value.reads
  | .reduce _ _ target value => target.reads + value.reads
  | .eval _ e => e.reads
  | .decl .. | .advance .. | .skip _ => 0

def readsOfSeq : List SourceCommand → Nat
  | [] => 0
  | cmd :: cmds => cmd.reads + readsOfSeq cmds

def readsOfElse : Option SourceCommand → Nat
  | none => 0
  | some cmd => cmd.reads

end

mutual

/-- The array reads in a command that take place once more. -/
def Command.repeats (shapes : Shapes) : SourceCommand → Nat
  | .define _ _ _ init => init.repeats shapes
  | .seq _ cmds => repeatsOfSeq shapes cmds
  | .branch _ cond onTrue onFalse =>
    cond.repeats shapes + onTrue.repeats shapes + repeatsOfElse shapes onFalse
  | .loop _ _ body => body.repeats shapes
  | .update _ target value | .reduce _ _ target value =>
    target.repeats shapes + value.repeats shapes
  | .eval _ e => e.repeats shapes
  | .decl .. | .advance .. | .skip _ => 0

def repeatsOfSeq (shapes : Shapes) : List SourceCommand → Nat
  | [] => 0
  | cmd :: cmds => cmd.repeats shapes + repeatsOfSeq (shapes.after cmd) cmds

def repeatsOfElse (shapes : Shapes) : Option SourceCommand → Nat
  | none => 0
  | some cmd => cmd.repeats shapes

end

mutual

/-- The updates and reductions of array elements. -/
def Command.stores : SourceCommand → Nat
  | .seq _ cmds => storesOfSeq cmds
  | .branch _ _ onTrue onFalse => onTrue.stores + storesOfElse onFalse
  | .loop _ _ body => body.stores
  | .update _ target _ | .reduce _ _ target _ => target.isElement.toNat
  | .decl .. | .define .. | .eval .. | .advance .. | .skip _ => 0

def storesOfSeq : List SourceCommand → Nat
  | [] => 0
  | cmd :: cmds => cmd.stores + storesOfSeq cmds

def storesOfElse : Option SourceCommand → Nat
  | none => 0
  | some cmd => cmd.stores

end

/-! ### Physical expressions -/

mutual

/-- The memory reads in a physical expression. A folded operation is a constant. -/
def TypedExpr.loads : TypedExpr → Nat
  | .binop (.static _) _ _ _ => 0
  | .binop _ _ lhs rhs => lhs.loads + rhs.loads
  | .mem _ _ addr => 1 + TypedExpr.loadsOf addr
  | .muxRead _ _ select addr => 1 + select.loads + TypedExpr.loadsOf addr
  | .int .. | .bool .. | .var .. | .access .. | .app .. => 0

def TypedExpr.loadsOf : List TypedExpr → Nat
  | [] => 0
  | e :: es => e.loads + TypedExpr.loadsOf es

end

/-- The memory reads of a value that is not used. -/
def TypedExpr.discarded : TypedExpr → Nat
  | .binop _ _ lhs rhs => lhs.discarded + rhs.discarded
  | e => e.loads

theorem TypedExpr.loads_binop {ty : Ty} {op : BinOp} {lhs rhs : TypedExpr}
    (computed : ∀ n, ty ≠ .static n) :
    (TypedExpr.binop ty op lhs rhs).loads = lhs.loads + rhs.loads := by
  rw [loads]
  exact computed

/-- The dimensions are those under which the checker sees each array. -/
def Shapes.Fit (shapes : Shapes) (types : Typing.Env) : Prop :=
  ∀ name elem dims, types.get? name = some (.array elem dims) → shapes name = dims

namespace Shapes.Fit

variable {shapes : Shapes} {types : Typing.Env}

theorem enter (fit : shapes.Fit types) : shapes.Fit types.enter := fit

/-- A binding that is no array. -/
theorem rebind (fit : shapes.Fit types) {name : String} {binding : Typing.Binding}
    (plain : ∀ elem dims, binding ≠ .array elem dims) : shapes.Fit (types.rebind name binding) := by
  intro other elem dims bound
  rw [Scope.get?_rebind] at bound
  split at bound
  · exact absurd (Option.some.inj bound) (plain elem dims)
  · exact fit other elem dims bound

theorem declare (fit : shapes.Fit types) (name : String) (ty : Ty) :
    (shapes.declare name ty).Fit (types.rebind name (.ofTy ty)) := by
  intro other elem dims bound
  rw [Scope.get?_rebind] at bound
  rw [Shapes.declare, Function.update_apply]
  split at bound
  · next same =>
    rw [if_pos same]
    cases ty with
    | array => cases bound; rfl
    | _ => cases bound
  · next different =>
    rw [if_neg different]
    exact fit other elem dims bound

mutual

theorem after {shapes : Shapes} {ctx : Typing.Context} {types types' : Typing.Env}
    {source : SourceCommand} {cmd : TypedCommand} (fit : shapes.Fit types) :
    Typing.CheckedCommand ctx types cmd types' → Typing.Annotates source cmd →
      (shapes.after source).Fit types'
  | .decl _ fresh, .decl .. => Scope.eq_rebind_of_bind? fresh ▸ fit.declare _ _
  | .define _ _ _ fresh, .define .. => Scope.eq_rebind_of_bind? fresh ▸ fit.rebind nofun
  | .seq checked, .seq _ each => fit.afterSeq checked each
  | .branch .., .branch .. => fit
  | .loop .., .loop .. => fit
  | .update .., .update .. => fit
  | .reduce .., .reduce .. => fit
  | .call .., .eval .. => fit
  | .eval .., .eval .. => fit
  | .advance .., .advance .. => fit
  | .skip, .skip _ => fit

theorem afterSeq {shapes : Shapes} {ctx : Typing.Context} {types types' : Typing.Env}
    {sources : List SourceCommand} {cmds : List TypedCommand} (fit : shapes.Fit types) :
    Typing.CheckedSeq ctx types cmds types' → Typing.AnnotatesSeq sources cmds →
      (shapes.afterSeq sources).Fit types'
  | .nil, .nil => fit
  | .cons first rest, .cons annotated others => (fit.after first annotated).afterSeq rest others

end

theorem ofDecls {ds : List Decl} (checked : Typing.CheckedDecls {} ds types) :
    (Shapes.ofDecls ds).Fit types := by
  have grow {shapes : Shapes} {types types' : Typing.Env} {ds : List Decl} (fit : shapes.Fit types)
      (checked : Typing.CheckedDecls types ds types') :
      (ds.foldl (fun shapes d => shapes.declare d.name d.ty) shapes).Fit types' := by
    induction checked generalizing shapes with
    | nil => exact fit
    | cons _ fresh _ ih =>
      refine ih ?_
      rw [Scope.eq_rebind_of_bind? fresh]
      exact fit.declare _ _
  refine grow ?_ checked
  intro _ _ _ bound
  cases bound

end Shapes.Fit

namespace Banking

/-! ### Index arithmetic -/

theorem loads_widened {op : BinOp} {lhs rhs e : TypedExpr} (made : widened op lhs rhs = .ok e) :
    e.loads = lhs.loads + rhs.loads := by
  rw [eq_of_widened made, TypedExpr.loads_binop (Ty.ubit_ne_static _)]

theorem loads_staticOffset {idx offset : TypedExpr} {start : Nat}
    (made : staticOffset idx start = .ok offset) : offset.loads = idx.loads := by
  obtain ⟨_, _, rfl, _, rfl⟩ | ⟨_, rfl⟩ | rfl := staticOffset_cases made
  · rfl
  · rfl
  · exact TypedExpr.loads_binop (Ty.ubit_ne_static _)

theorem QuotientAs.loads_eq {idx bank : TypedExpr} {length : Nat} (quotient : QuotientAs idx length bank) :
    bank.loads = idx.loads := by
  cases quotient with
  | whole _ => rfl
  | shifted => exact TypedExpr.loads_binop (Ty.ubit_ne_static _)

theorem loads_bankTerm {idx term : TypedExpr} {length stride : Nat}
    (made : bankTerm idx length stride = .ok term) : term.loads = idx.loads := by
  obtain ⟨bank, quotient, ⟨rfl, _⟩ | rfl⟩ := bankTerm_ok made
  · exact quotient.loads_eq
  · exact (TypedExpr.loads_binop (Ty.ubit_ne_static _)).trans quotient.loads_eq

/-- A bank of one element takes no offset. -/
theorem loads_maskedOffset {idx offset : TypedExpr} {length : Nat}
    (made : maskedOffset idx length = .ok offset) :
    offset.loads = if length = 1 then 0 else idx.loads := by
  obtain ⟨single, rfl⟩ | ⟨several, rfl⟩ := maskedOffset_cases made
  · rw [if_pos single]
    rfl
  · rw [if_neg several]
    exact TypedExpr.loads_binop (Ty.ubit_ne_static _)

theorem loads_foldlM {terms : List TypedExpr} {first sum : TypedExpr}
    (made : terms.foldlM (widened .add) first = .ok sum) :
    sum.loads = first.loads + TypedExpr.loadsOf terms := by
  induction terms generalizing first with
  | nil =>
    cases made
    rfl
  | cons term terms ih =>
    simp only [List.foldlM_cons, bind_ok_iff] at made
    obtain ⟨next, added, made⟩ := made
    rw [ih made, loads_widened added, TypedExpr.loadsOf, Nat.add_assoc]

theorem loads_selector {base : Nat} {terms : List TypedExpr} {flat : TypedExpr}
    (made : selector base terms = .ok flat) : flat.loads = TypedExpr.loadsOf terms := by
  obtain ⟨rfl, rfl⟩ | ⟨term, rest, sum, rfl, folded, last⟩ := selector_cases made
  · rfl
  · have summed : sum.loads = TypedExpr.loadsOf (term :: rest) := loads_foldlM folded
    rcases last with ⟨_, rfl⟩ | added
    · exact summed
    · exact (loads_widened added).trans summed

theorem loads_wrap {r : Rotation} {e select : TypedExpr} (made : r.wrap e = .ok select) :
    select.loads = e.loads := by
  obtain ⟨_, typed, rfl⟩ := Rotation.eq_of_wrap made
  cases Rotation.eq_of_ty typed
  exact TypedExpr.loads_binop (Ty.ubit_ne_static _)

theorem loads_rotated {rotation : Option Rotation} {flat select : TypedExpr}
    (made : rotated rotation flat = .ok select) : select.loads = flat.loads := by
  obtain ⟨_, rfl⟩ | ⟨r, ty, sum, _, _, added, wrapped⟩ := rotated_cases made
  · rfl
  · exact (loads_wrap wrapped).trans (loads_widened added)

/-- A placed access is one read beside those of its indices. -/
theorem ResolvedAs.loads_eq {ctx : Context} {array : String} {layout : Layout} {ty : Ty}
    {writes : Bool} {p : Placement} {e : TypedExpr}
    (resolved : ResolvedAs ctx array layout ty writes p e) :
    e.loads = 1 + (TypedExpr.loadsOf p.terms + TypedExpr.loadsOf p.addr) := by
  cases resolved with
  | direct _ known =>
    rw [known, TypedExpr.loads, TypedExpr.loadsOf, Nat.zero_add]
  | multiplexed _ _ _ summed selected =>
    rw [TypedExpr.loads, loads_rotated selected, loads_selector summed, Nat.add_assoc]

/-! ### Indices -/

/-- An index whose values are known reads nothing. -/
theorem loads_of_interval {env : Env} : (e : TypedExpr) → {range : Interval} →
    Interval.ofIndex? env e = some range → e.loads = 0
  | .int .., _, _ => rfl
  | .var .., _, _ => rfl
  | .binop ty op lhs rhs, range, found => by
    rcases ty.static_or with ⟨n, rfl⟩ | computed
    · rfl
    · simp only [Interval.ofIndex?, Option.bind_eq_bind, Option.bind_eq_some_iff] at found
      obtain ⟨_, left, _, right, _⟩ := found
      rw [TypedExpr.loads_binop computed, loads_of_interval lhs left, loads_of_interval rhs right]
  | .bool .., _, found | .access .., _, found | .app .., _, found | .mem .., _, found
  | .muxRead .., _, found => nomatch found

theorem bankCount_eq_one_iff {d : Dim} (divided : d.splitsEvenly = .ok true) {count : Nat}
    (counted : d.bankCount = .ok count) : count = 1 ↔ d.bank = d.size := by
  obtain ⟨_, rfl⟩ := Word.div_eq_ok_iff.mp counted
  obtain ⟨nonempty, _, whole⟩ := splitsEvenly_iff.mp divided
  constructor
  · intro one
    rwa [one, Nat.one_mul] at whole
  · intro same
    rw [same]
    exact Nat.div_self nonempty

/-- An index with a known bank reads nothing, unless the dimension is in one piece. -/
theorem loads_of_staticBank {env : Env} {idx : TypedExpr} {dim : Dim} {bank : Nat}
    (divided : dim.splitsEvenly = .ok true) (static : staticBank? env idx dim = .ok (some bank)) :
    dim.bank = dim.size ∨ idx.loads = 0 := by
  simp only [staticBank?, bankCount_ok divided, ok_bind] at static
  split at static
  · next single => exact .inl ((bankCount_eq_one_iff divided (bankCount_ok divided)).mp single)
  · split at static
    · cases static
    · next found => exact .inr (loads_of_interval idx found)

theorem ne_of_staticBank {env : Env} {idx : TypedExpr} {dim : Dim} (divided : dim.splitsEvenly = .ok true)
    (dynamic : staticBank? env idx dim = .ok none) : dim.bank ≠ dim.size := by
  intro whole
  have single := (bankCount_eq_one_iff divided (bankCount_ok divided)).mpr whole
  simp only [staticBank?, bankCount_ok divided, ok_bind, if_pos single] at dynamic
  cases dynamic

theorem eraseAll?_cons {t : TypedExpr} {ts : List TypedExpr} {es : List Expr}
    (erased : TypedExpr.eraseAll? (t :: ts) = some es) :
    ∃ e rest, t.erase? = some e ∧ TypedExpr.eraseAll? ts = some rest ∧ es = e :: rest := by
  simp only [TypedExpr.eraseAll?, Option.bind_eq_bind, Option.bind_eq_some_iff, Option.pure_def,
    Option.some.injEq] at erased
  obtain ⟨e, first, rest, others, rfl⟩ := erased
  exact ⟨e, rest, first, others, rfl⟩

section

variable {shapes : Shapes} {tctx : Typing.Context} {types : Typing.Env}

/-- What the checker folds reads nothing. -/
theorem loads_of_static (formed : Typing.WellFormed types) : (t : TypedExpr) → {e : Expr} →
    Typing.CheckedExpr tctx types t → t.erase? = some e → ∀ n, t.ty = .static n →
      e.reads + e.repeats shapes = 0
  | .binop ty op lhs rhs, e, checked, erased, n, same => by
    simp only [TypedExpr.erase?, Option.bind_eq_bind, Option.bind_eq_some_iff, Option.pure_def,
      Option.some.injEq] at erased
    obtain ⟨l, erasedLeft, r, erasedRight, rfl⟩ := erased
    cases checked with
    | binop left right typed =>
      cases same
      generalize leftTy : lhs.ty = a at typed
      generalize rightTy : rhs.ty = b at typed
      cases binopType_cases typed with
      | folded _ isLeft isRight =>
        have first := loads_of_static formed lhs left erasedLeft _ (leftTy.trans isLeft)
        have second := loads_of_static formed rhs right erasedRight _ (rightTy.trans isRight)
        simp only [Expr.reads, Expr.repeats]
        omega
      | numeric _ _ joined =>
        rcases numericJoin_cases joined with ⟨_, _, _, _, _, same⟩ | ⟨_, _, same⟩ <;> cases same
  | .int .., e, _, erased, _, _ | .bool .., e, _, erased, _, _ | .var .., e, _, erased, _, _ => by
    cases erased
    rfl
  | .access .., e, checked, _, n, same => by
    cases checked with
    | access bound =>
      cases same
      exact absurd (formed.array bound).1 (Typing.not_storable_static n)
  | .app .., _, checked, _, _, _ => by cases checked
  | .mem .., _, checked, _, _, _ => by cases checked
  | .muxRead .., _, checked, _, _, _ => by cases checked

variable {ctx : Context} {env : Env}

/-- The dimensions along which an access is placed are those that the checker sees. -/
theorem Agrees.placed_dims (agrees : Agrees types env) (formed : Typing.WellFormed types)
    {array : String} {elem : Ty} {dims : List Dim} {layout : Layout} {strides : List Nat}
    (declared : types.get? array = some (.array elem dims))
    (bound : env.get? array = some (.array layout)) (strided : layout.strides = .ok strides) :
    (layout.dims.zip strides).map Prod.fst = dims ∧
      ∀ d ∈ layout.dims.zip strides, d.1.splitsEvenly = .ok true := by
  obtain rfl := agrees.layout_eq declared bound
  refine ⟨List.map_fst_zip (Nat.le_of_eq (Layout.length_stridesOf strided).symm), ?_⟩
  intro d member
  exact (formed.array declared).2 _ (List.of_mem_zip member).1

mutual

/-- The physical form of a value takes the reads of the value, and those in split indices again. -/
theorem ReadAs.loads_eq (formed : Typing.WellFormed types) (agrees : Agrees types env)
    (fit : shapes.Fit types) : {t t' : TypedExpr} → {e : Expr} → ReadAs ctx env t t' →
      Typing.CheckedExpr tctx types t → t.erase? = some e →
      t'.loads = e.reads + e.repeats shapes ∧ t'.discarded = e.reads + e.repeats shapes
  | _, _, e, .int .., _, erased | _, _, e, .bool .., _, erased | _, _, e, .var .., _, erased => by
    cases erased
    exact ⟨rfl, rfl⟩
  | .binop ty op lhs rhs, _, e, .binop left right, checked, erased => by
    have folded : ∀ n, ty = .static n → e.reads + e.repeats shapes = 0 :=
      loads_of_static formed _ checked erased
    simp only [TypedExpr.erase?, Option.bind_eq_bind, Option.bind_eq_some_iff, Option.pure_def,
      Option.some.injEq] at erased
    obtain ⟨l, erasedLeft, r, erasedRight, rfl⟩ := erased
    cases checked with
    | binop checkedLeft checkedRight typed =>
      have first := left.loads_eq formed agrees fit checkedLeft erasedLeft
      have second := right.loads_eq formed agrees fit checkedRight erasedRight
      simp only [Expr.reads, Expr.repeats, TypedExpr.discarded] at folded ⊢
      refine ⟨?_, by omega⟩
      rcases ty.static_or with ⟨n, rfl⟩ | computed
      · rw [TypedExpr.loads, folded n rfl]
      · rw [TypedExpr.loads_binop computed]
        omega
  | .access ty array ts, t', e, .access bound strided placed resolved, checked, erased => by
    simp only [TypedExpr.erase?, Option.bind_eq_bind, Option.bind_eq_some_iff, Option.pure_def,
      Option.some.injEq] at erased
    obtain ⟨idxs, erasedAll, rfl⟩ := erased
    cases checked with
    | access declared indices =>
      obtain ⟨whole, divided⟩ := agrees.placed_dims formed declared bound strided
      have placed := placed.loads_eq formed agrees fit (whole.symm ▸ indices) divided erasedAll
      have loads : t'.loads =
          (Expr.access array idxs).reads + (Expr.access array idxs).repeats shapes := by
        rw [resolved.loads_eq, placed, whole, Expr.reads, Expr.repeats, fit _ _ _ declared,
          Nat.add_assoc]
      refine ⟨loads, ?_⟩
      cases resolved <;> exact loads
  | .app .., _, _, _, checked, _ => by cases checked
  | .mem .., _, _, _, checked, _ => by cases checked
  | .muxRead .., _, _, _, checked, _ => by cases checked

theorem PlacedAs.loads_eq (formed : Typing.WellFormed types) (agrees : Agrees types env)
    (fit : shapes.Fit types) : {base : Nat} → {ts : List TypedExpr} → {dims : List (Dim × Nat)} →
      {p : Placement} → {idxs : List Expr} → PlacedAs ctx env base ts dims p →
      Typing.CheckedIndices tctx types (dims.map Prod.fst) ts →
      (∀ d ∈ dims, d.1.splitsEvenly = .ok true) → TypedExpr.eraseAll? ts = some idxs →
      TypedExpr.loadsOf p.terms + TypedExpr.loadsOf p.addr =
        Expr.readsOf idxs + Expr.repeatsOf shapes (dims.map Prod.fst) idxs
  | base, ts, dims, _, idxs, .done ended, checked, _, erased => by
    have none : ts = [] := by
      rcases ended with rfl | rfl
      · rfl
      · cases checked
        rfl
    subst none
    cases erased
    cases dims <;> rfl
  | _, t :: ts, (dim, stride) :: dims, _, idxs, .known value static addressed others _, checked,
      divided, erased => by
    obtain ⟨e, es, erasedFirst, erasedRest, rfl⟩ := eraseAll?_cons erased
    cases checked with
    | cons checkedFirst _ _ checkedRest =>
      have first := (value.loads_eq formed agrees fit checkedFirst erasedFirst).1
      have rest := others.loads_eq formed agrees fit checkedRest
        (fun d member => divided d (List.mem_cons_of_mem _ member)) erasedRest
      have offset := loads_staticOffset addressed
      have again : (if dim.isSplit then e.reads + e.repeats shapes else 0) = 0 := by
        rcases loads_of_staticBank (divided _ List.mem_cons_self) static with whole | none
        · rw [if_neg (by simp [Dim.isSplit, show dim.bank = dim.size from whole])]
        · rw [← first, none, ite_self]
      simp only [TypedExpr.loadsOf, Expr.readsOf, List.map_cons, Expr.repeatsOf] at rest ⊢
      omega
  | _, t :: ts, (dim, stride) :: dims, _, idxs,
      @PlacedAs.varying _ _ _ _ _ _ _ offset' _ _ _ _ value dynamic _ chosen addressed others,
      checked, divided, erased => by
    obtain ⟨e, es, erasedFirst, erasedRest, rfl⟩ := eraseAll?_cons erased
    cases checked with
    | cons checkedFirst _ _ checkedRest =>
      have first := (value.loads_eq formed agrees fit checkedFirst erasedFirst).1
      have rest := others.loads_eq formed agrees fit checkedRest
        (fun d member => divided d (List.mem_cons_of_mem _ member)) erasedRest
      have term := loads_bankTerm chosen
      have offset := loads_maskedOffset addressed
      have again : (if dim.isSplit then e.reads + e.repeats shapes else 0) = offset'.loads := by
        have several := ne_of_staticBank (divided _ List.mem_cons_self) dynamic
        rw [offset, first]
        by_cases single : dim.bank = 1 <;>
          simp [Dim.isSplit, show dim.bank ≠ dim.size from several, single]
      simp only [TypedExpr.loadsOf, Expr.readsOf, List.map_cons, Expr.repeatsOf] at rest ⊢
      omega

end

/-- A target is a register, or an element whose address takes the reads of its indices. -/
theorem WrittenAs.loads_eq (formed : Typing.WellFormed types) (agrees : Agrees types env)
    (fit : shapes.Fit types) {t t' : TypedExpr} {e : Expr} (written : WrittenAs ctx env t t')
    (checked : Typing.CheckedTarget tctx types t) (erased : t.erase? = some e) :
    (∃ ty name, t' = .var ty name ∧ e = .var name) ∨
      ∃ ty mem addr array idxs, t' = .mem ty mem addr ∧ e = .access array idxs ∧
        TypedExpr.loadsOf addr = Expr.readsOf idxs + e.repeats shapes := by
  cases checked with
  | register =>
    cases written
    cases erased
    exact .inl ⟨_, _, rfl, rfl⟩
  | element checked =>
    simp only [TypedExpr.erase?, Option.bind_eq_bind, Option.bind_eq_some_iff, Option.pure_def,
      Option.some.injEq] at erased
    obtain ⟨idxs, erasedAll, rfl⟩ := erased
    cases written with
    | other notAccess => exact absurd rfl (notAccess _ _ _)
    | element bound strided placed resolved =>
      cases checked with
      | access declared indices =>
        obtain ⟨whole, divided⟩ := agrees.placed_dims formed declared bound strided
        have loads := placed.loads_eq formed agrees fit (whole.symm ▸ indices) divided erasedAll
        cases resolved with
        | direct _ known =>
          rw [known, whole, TypedExpr.loadsOf, Nat.zero_add] at loads
          refine .inr ⟨_, _, _, _, _, rfl, rfl, ?_⟩
          rw [loads, Expr.repeats, fit _ _ _ declared]
        | multiplexed _ reads => cases reads

end

end Banking

end BankedLoops
