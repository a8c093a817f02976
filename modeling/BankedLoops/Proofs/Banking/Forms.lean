import BankedLoops.Proofs.Banking.Image
import BankedLoops.Proofs.Banking.Sites

/-!
# Accesses in their physical forms

What becomes of an access when arrays are split into banks: a memory or a choice among all memories of the
array, at the addresses that its indices are placed at. `makes_bankCommand` says that every access in the
trees of a command, those inside indices included, has its physical form in the split command.
-/

namespace BankedLoops

/-! ### Accesses of a command -/

namespace TypedExpr

mutual

/-- A tree and the trees inside it. -/
def subterms : TypedExpr → List TypedExpr
  | .binop ty op lhs rhs => .binop ty op lhs rhs :: (lhs.subterms ++ rhs.subterms)
  | .access ty array idxs => .access ty array idxs :: subtermsOf idxs
  | .mem ty memory addr => .mem ty memory addr :: subtermsOf addr
  | .muxRead ty banks select addr =>
    .muxRead ty banks select addr :: (select.subterms ++ subtermsOf addr)
  | e => [e]

def subtermsOf : List TypedExpr → List TypedExpr
  | [] => []
  | e :: es => e.subterms ++ subtermsOf es

end

end TypedExpr

/-- The trees of a command, those in commands inside it left out. -/
def Command.subterms : TypedCommand → List TypedExpr
  | .define _ _ _ init => init.subterms
  | .branch _ cond _ _ => cond.subterms
  | .update _ target value | .reduce _ _ target value => target.subterms ++ value.subterms
  | .eval _ e => e.subterms
  | _ => []

namespace Typing

section

variable {ctx : Context} {env env' : Env}

mutual

theorem CheckedExpr.subterms : {e : TypedExpr} → CheckedExpr ctx env e →
    ∀ inner ∈ e.subterms, CheckedExpr ctx env inner
  | _, .int n => List.forall_mem_singleton.mpr (.int n)
  | _, .bool b => List.forall_mem_singleton.mpr (.bool b)
  | _, .scalar bound => List.forall_mem_singleton.mpr (.scalar bound)
  | _, .iterator bound => List.forall_mem_singleton.mpr (.iterator bound)
  | _, .binop left right typed => by
    rw [TypedExpr.subterms, List.forall_mem_cons, List.forall_mem_append]
    exact ⟨.binop left right typed, left.subterms, right.subterms⟩
  | _, .access bound indices => by
    rw [TypedExpr.subterms, List.forall_mem_cons]
    exact ⟨.access bound indices, indices.subterms⟩

theorem CheckedIndices.subterms : {dims : List Dim} → {idxs : List TypedExpr} →
    CheckedIndices ctx env dims idxs → ∀ inner ∈ TypedExpr.subtermsOf idxs, CheckedExpr ctx env inner
  | _, _, .nil => List.forall_mem_nil _
  | _, _, .cons checked _ _ rest => by
    rw [TypedExpr.subtermsOf, List.forall_mem_append]
    exact ⟨checked.subterms, rest.subterms⟩

end

/-- Every tree of a checked command is checked, unless it is a call. -/
theorem CheckedCommand.subterms {cmd : TypedCommand} (checked : CheckedCommand ctx env cmd env') :
    ∀ inner ∈ cmd.subterms, CheckedExpr ctx env inner ∨ ∃ ty func args, inner = .app ty func args := by
  have placed {target : TypedExpr} (place : CheckedTarget ctx env target) :
      ∀ inner ∈ target.subterms, CheckedExpr ctx env inner := by
    cases place with
    | register bound => exact List.forall_mem_singleton.mpr (.scalar bound)
    | element checked => exact checked.subterms
  intro inner inside
  cases checked with
  | define value _ _ _ => exact .inl (value.subterms inner inside)
  | branch value _ _ _ => exact .inl (value.subterms inner inside)
  | update place value _ =>
    exact .inl ((List.mem_append.mp inside).elim (placed place inner) (value.subterms inner))
  | reduce place _ value _ =>
    exact .inl ((List.mem_append.mp inside).elim (placed place inner) (value.subterms inner))
  | call => exact .inr ⟨_, _, _, List.mem_singleton.mp inside⟩
  | eval value => exact .inl (value.subterms inner inside)
  | _ => cases inside

end

end Typing

namespace Banking

/-- The physical form of an access to an array that turns with `rotation`: of one memory if the bank is
known and the array does not turn, else of the memory that the bank number and the rotation select. -/
inductive Accessed (ctx : Context) (env : Env) (pos : Nat) (layout : Layout)
    (rotation : Option Rotation) (ty : Ty) (idxs : List TypedExpr) : TypedExpr → Prop where
  | fixed {strides : List Nat} {p : Placement} {banks : List String} {bank : String}
      (strided : layout.strides = .ok strides)
      (placed : (place ctx env pos layout.name 0 idxs (layout.dims.zip strides)).result = .ok p)
      (named : layout.banks = .ok banks) (still : rotation = none) (known : p.terms = [])
      (found : banks[p.base]? = some bank) :
      Accessed ctx env pos layout rotation ty idxs (.mem ty bank p.addr)
  | selected {strides : List Nat} {p : Placement} {banks : List String} {flat select : TypedExpr}
      (strided : layout.strides = .ok strides)
      (placed : (place ctx env pos layout.name 0 idxs (layout.dims.zip strides)).result = .ok p)
      (named : layout.banks = .ok banks) (varies : p.terms ≠ [] ∨ rotation.isSome = true)
      (summed : selector p.base p.terms = .ok flat) (turned : rotated rotation flat = .ok select) :
      Accessed ctx env pos layout rotation ty idxs (.muxRead ty banks select p.addr)

/-! ### Trees in their physical forms -/

section

variable {idx lhs rhs e : TypedExpr}

theorem subterms_binop (ty : Ty) (op : BinOp) (lhs rhs : TypedExpr) :
    lhs.subterms ⊆ (TypedExpr.binop ty op lhs rhs).subterms ∧
      rhs.subterms ⊆ (TypedExpr.binop ty op lhs rhs).subterms :=
  ⟨fun _ inside => List.mem_cons_of_mem _ (List.mem_append_left _ inside),
    fun _ inside => List.mem_cons_of_mem _ (List.mem_append_right _ inside)⟩

theorem subterms_widened {op : BinOp} (made : widened op lhs rhs = .ok e) :
    lhs.subterms ⊆ e.subterms ∧ rhs.subterms ⊆ e.subterms := by
  rw [eq_of_widened made]
  exact subterms_binop _ op lhs rhs

/-- Only a literal is folded. -/
theorem mem_subterms_staticOffset {start : Nat} (made : staticOffset idx start = .ok e)
    {inner : TypedExpr} (inside : inner ∈ idx.subterms) (notInt : ∀ ty n, inner ≠ .int ty n) :
    inner ∈ e.subterms := by
  obtain ⟨_, _, rfl, _, _⟩ | ⟨_, rfl⟩ | rfl := staticOffset_cases made
  · exact absurd (List.mem_singleton.mp inside) (notInt _ _)
  · exact inside
  · exact (subterms_binop _ _ _ _).1 inside

theorem subterms_bankTerm {length stride : Nat} (made : bankTerm idx length stride = .ok e) :
    idx.subterms ⊆ e.subterms := by
  obtain ⟨bank, quotient, scaled⟩ := bankTerm_ok made
  have kept : idx.subterms ⊆ bank.subterms := by
    cases quotient with
    | whole _ => exact List.Subset.refl _
    | shifted => exact (subterms_binop _ _ _ _).1
  rcases scaled with ⟨rfl, _⟩ | rfl
  · exact kept
  · exact List.Subset.trans kept (subterms_binop _ _ _ _).1

theorem subterms_sum {terms : List TypedExpr} {total : TypedExpr}
    (made : terms.foldlM (widened .add) e = .ok total) :
    e.subterms ⊆ total.subterms ∧ TypedExpr.subtermsOf terms ⊆ total.subterms := by
  induction terms generalizing e with
  | nil =>
    cases made
    exact ⟨List.Subset.refl _, List.nil_subset _⟩
  | cons term terms ih =>
    rw [List.foldlM_cons, bind_ok_iff] at made
    obtain ⟨sum, added, made⟩ := made
    obtain ⟨first, others⟩ := ih made
    obtain ⟨left, right⟩ := subterms_widened added
    exact ⟨List.Subset.trans left first,
      List.append_subset.mpr ⟨List.Subset.trans right first, others⟩⟩

theorem subterms_selector {base : Nat} {terms : List TypedExpr} (made : selector base terms = .ok e) :
    TypedExpr.subtermsOf terms ⊆ e.subterms := by
  obtain ⟨rfl, _⟩ | ⟨term, rest, sum, rfl, summed, last⟩ := selector_cases made
  · exact List.nil_subset _
  · have kept := List.append_subset.mpr (subterms_sum summed)
    rcases last with ⟨_, rfl⟩ | added
    · exact kept
    · exact List.Subset.trans kept (subterms_widened added).1

theorem subterms_rotated {rotation : Option Rotation} {select : TypedExpr}
    (made : rotated rotation e = .ok select) : e.subterms ⊆ select.subterms := by
  obtain ⟨_, rfl⟩ | ⟨r, ty, sum, rfl, _, added, wrapped⟩ := rotated_cases made
  · exact List.Subset.refl _
  · obtain ⟨_, _, rfl⟩ := Rotation.eq_of_wrap wrapped
    exact List.Subset.trans (subterms_widened added).1 (subterms_binop _ _ _ _).1

end

/-! ### Accesses in their physical forms -/

/-- Every access among the trees has its physical form among the others. -/
def Makes (ctx : Context) (env : Env) (pos : Nat) (source made : List TypedExpr) : Prop :=
  ∀ ty array idxs, .access ty array idxs ∈ source → ∃ layout, env.get? array = some (.array layout) ∧
    ∃ e' ∈ made, Accessed ctx env pos layout (ctx.rotations.lookup array) ty idxs e'

theorem Accessed.ne_int {ctx : Context} {env : Env} {pos : Nat} {layout : Layout}
    {rotation : Option Rotation} {ty : Ty} {idxs : List TypedExpr} {e : TypedExpr}
    (accessed : Accessed ctx env pos layout rotation ty idxs e) (ty' : Ty) (n : Nat) :
    e ≠ .int ty' n := by
  cases accessed <;> exact nofun

section

variable {tctx : Typing.Context} {types types' : Typing.Env} {ctx : Context} {env : Env} {pos : Nat}
  {source others made made' : List TypedExpr}

namespace Makes

theorem mono (makes : Makes ctx env pos source made)
    (kept : ∀ e ∈ made, (∀ ty n, e ≠ .int ty n) → e ∈ made') : Makes ctx env pos source made' := by
  intro ty array idxs inside
  obtain ⟨layout, bound, e, member, accessed⟩ := makes ty array idxs inside
  exact ⟨layout, bound, e, kept e member accessed.ne_int, accessed⟩

theorem subset (makes : Makes ctx env pos source made) (kept : made ⊆ made') :
    Makes ctx env pos source made' :=
  makes.mono fun _ member _ => kept member

theorem append (first : Makes ctx env pos source made) (second : Makes ctx env pos others made) :
    Makes ctx env pos (source ++ others) made := by
  intro ty array idxs inside
  rcases List.mem_append.mp inside with left | right
  · exact first ty array idxs left
  · exact second ty array idxs right

theorem both (first : Makes ctx env pos source made) (second : Makes ctx env pos others made') :
    Makes ctx env pos (source ++ others) (made ++ made') :=
  (first.subset (List.subset_append_left _ _)).append (second.subset (List.subset_append_right _ _))

/-- A tree that is no access. -/
theorem cons {e : TypedExpr} (makes : Makes ctx env pos source made)
    (other : ∀ ty array idxs, e ≠ .access ty array idxs) : Makes ctx env pos (e :: source) made := by
  intro ty array idxs inside
  rcases List.mem_cons.mp inside with same | inside
  · exact absurd same.symm (other ty array idxs)
  · exact makes ty array idxs inside

theorem nil : Makes ctx env pos [] made := by
  intro ty array idxs inside
  cases inside

end Makes

/-- An access whose indices are placed, with the accesses inside them. -/
theorem makes_resolved {array : String} {layout : Layout} {strides : List Nat} {ty : Ty}
    {idxs : List TypedExpr} {writes : Bool} {p : Placement} {e : TypedExpr}
    (bound : env.get? array = some (.array layout)) (named : layout.name = array)
    (strided : layout.strides = .ok strides)
    (placed : (place ctx env pos array 0 idxs (layout.dims.zip strides)).result = .ok p)
    (resolved : ResolvedAs ctx array layout ty writes p e)
    (inner : Makes ctx env pos (TypedExpr.subtermsOf idxs)
      (TypedExpr.subtermsOf p.addr ++ TypedExpr.subtermsOf p.terms)) :
    Makes ctx env pos (TypedExpr.access ty array idxs).subterms e.subterms := by
  subst named
  have made : Accessed ctx env pos layout (ctx.rotations.lookup layout.name) ty idxs e ∧
      TypedExpr.subtermsOf p.addr ++ TypedExpr.subtermsOf p.terms ⊆ e.subterms := by
    cases resolved with
    | direct names known still found =>
      refine ⟨.fixed strided placed names still known found, List.append_subset.mpr ⟨?_, ?_⟩⟩
      · exact List.subset_cons_of_subset _ (List.Subset.refl _)
      · rw [known]
        exact List.nil_subset _
    | multiplexed names _ varies summed selected =>
      refine ⟨.selected strided placed names varies summed selected, List.append_subset.mpr ⟨?_, ?_⟩⟩
      · exact List.subset_cons_of_subset _ (List.subset_append_right _ _)
      · exact List.subset_cons_of_subset _ (List.subset_append_of_subset_left _
          (List.Subset.trans (subterms_selector summed) (subterms_rotated selected)))
  intro ty' array' idxs' inside
  rcases List.mem_cons.mp inside with same | deeper
  · cases same
    exact ⟨layout, bound, e, by cases e <;> exact List.mem_cons_self, made.1⟩
  · exact (inner.subset made.2) ty' array' idxs' deeper

mutual

theorem makes_read (agrees : Agrees types env) : {e e' : TypedExpr} →
    Typing.CheckedExpr tctx types e → (read ctx env pos e).result = .ok e' →
      Makes ctx env pos e.subterms e'.subterms
  | _, _, .int _, _ | _, _, .bool _, _ | _, _, .scalar _, _ | _, _, .iterator _, _ =>
    Makes.nil.cons nofun
  | _, _, .binop left right _, success => by
    simp only [read, Outcome.result_bind, Outcome.result_pure, bind_ok_iff,
      Except.ok.injEq] at success
    obtain ⟨_, inLeft, _, inRight, rfl⟩ := success
    have operands := (makes_read agrees left inLeft).both (makes_read agrees right inRight)
    exact (operands.subset (List.subset_cons_self _ _)).cons nofun
  | _, _, .access declared indices, success => by
    rw [read] at success
    obtain ⟨layout, strides, p, bound, strided, placed, resolved⟩ := access_ok success
    cases agrees.layout_eq declared bound
    have inner := makes_place agrees indices (Layout.length_stridesOf strided) placed
    exact makes_resolved bound rfl strided placed resolved inner

theorem makes_place (agrees : Agrees types env) {array : String} {base : Nat} : {dims : List Dim} →
    {strides : List Nat} → {idxs : List TypedExpr} → {p : Placement} →
      Typing.CheckedIndices tctx types dims idxs → strides.length = dims.length →
      (place ctx env pos array base idxs (dims.zip strides)).result = .ok p →
        Makes ctx env pos (TypedExpr.subtermsOf idxs)
          (TypedExpr.subtermsOf p.addr ++ TypedExpr.subtermsOf p.terms)
  | _, _, _, _, .nil, _, _ => Makes.nil
  | _, stride :: strides, _, _, .cons checked _ _ indices, same, success => by
    rw [List.zip_cons_cons] at success
    have shorter := Nat.succ.inj same
    obtain ⟨idx', value, ⟨bank, offset, rest, _, folded, _, others, rfl⟩ |
      ⟨term, offset, rest, _, _, chosen, _, others, rfl⟩⟩ := place_cons_ok success
    -- The index stands in its offset, unless it was a literal, which holds no access.
    · have first := makes_read agrees checked value
      have later := makes_place agrees indices shorter others
      refine .append (first.mono fun e inside notInt => ?_) (later.subset ?_)
      · exact List.mem_append_left _
          (List.mem_append_left _ (mem_subterms_staticOffset folded inside notInt))
      · exact List.append_subset.mpr ⟨List.subset_append_of_subset_left _
          (List.subset_append_right _ _), List.subset_append_right _ _⟩
    -- It need not stand in the offset, which may be zero, but in the term of the bank number.
    · have first := makes_read agrees checked value
      have later := makes_place agrees indices shorter others
      refine .append (first.subset ?_) (later.subset ?_)
      · exact List.subset_append_of_subset_right _
          (List.subset_append_of_subset_left _ (subterms_bankTerm chosen))
      · exact List.append_subset.mpr ⟨List.subset_append_of_subset_left _
          (List.subset_append_right _ _), List.subset_append_of_subset_right _
            (List.subset_append_right _ _)⟩

end

theorem makes_write (agrees : Agrees types env) {target target' : TypedExpr}
    (place : Typing.CheckedTarget tctx types target)
    (success : (write ctx env pos target).result = .ok target') :
    Makes ctx env pos target.subterms target'.subterms := by
  cases place with
  | register _ => exact Makes.nil.cons nofun
  | element checked =>
    cases checked with
    | access declared indices =>
      rw [write] at success
      obtain ⟨layout, strides, p, bound, strided, placed, resolved⟩ := access_ok success
      cases agrees.layout_eq declared bound
      have inner := makes_place agrees indices (Layout.length_stridesOf strided) placed
      exact makes_resolved bound rfl strided placed resolved inner

/-- A command makes all its accesses. -/
theorem makes_bankCommand (agrees : Agrees types env) {cmd cmd' : TypedCommand} {env' : Env}
    (checked : Typing.CheckedCommand tctx types cmd types')
    (success : (bankCommand ctx env cmd).result = .ok (cmd', env')) :
    Makes ctx env cmd.pos cmd.subterms cmd'.subterms := by
  cases checked with
  | decl | seq _ | loop _ _ | advance _ | skip => exact Makes.nil
  | define value _ _ _ =>
    simp only [bankCommand, Outcome.result_bind, Outcome.result_pure, bind_ok_iff, Except.ok.injEq,
      Prod.mk.injEq] at success
    obtain ⟨_, made, rfl, _⟩ := success
    exact makes_read agrees value made
  | branch value _ _ _ =>
    simp only [bankCommand, Outcome.result_bind, Outcome.result_pure, bind_ok_iff, Except.ok.injEq,
      Prod.mk.injEq] at success
    obtain ⟨_, made, _, _, _, _, rfl, _⟩ := success
    exact makes_read agrees value made
  | update place value _ =>
    simp only [bankCommand, Outcome.result_bind, Outcome.result_pure, bind_ok_iff, Except.ok.injEq,
      Prod.mk.injEq] at success
    obtain ⟨_, target, _, made, rfl, _⟩ := success
    exact (makes_write agrees place target).both (makes_read agrees value made)
  | reduce place _ value _ =>
    simp only [bankCommand, Outcome.result_bind, Outcome.result_pure, bind_ok_iff, Except.ok.injEq,
      Prod.mk.injEq] at success
    obtain ⟨_, target, _, made, rfl, _⟩ := success
    exact (makes_write agrees place target).both (makes_read agrees value made)
  | call _ _ => exact Makes.nil.cons nofun
  | eval value =>
    simp only [bankCommand, Outcome.result_bind, Outcome.result_pure, bind_ok_iff, Except.ok.injEq,
      Prod.mk.injEq] at success
    obtain ⟨_, made, rfl, _⟩ := success
    exact makes_read agrees value made

end

end Banking

end BankedLoops
