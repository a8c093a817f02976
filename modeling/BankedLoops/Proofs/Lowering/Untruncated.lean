import BankedLoops.Proofs.Banking.Rotations
import BankedLoops.Proofs.Lowering.Adapters
import BankedLoops.Proofs.Lowering.Promotion
import BankedLoops.Proofs.Lowering.Retyped
import BankedLoops.Proofs.Lowering.Settled

/-!
# What a program computes is not truncated

Wherever a value is used as data, it is lowered to a width that is at least its own: the operands of
an operation meet in a type that holds both, and what is stored is assignable to its place. Bits are
cut off only where a value splits into a bank and an address: in an address, in the number of a bank
and in the sum that a rotation masks. A constant that is stored is a value of the type of its place.
-/

namespace BankedLoops

open Library (Part Adapter)

/-- The constants that a command stores, each with the type of its place. A loop stores its bounds. -/
def Command.stored : TypedCommand → List (Nat × Ty)
  | .define _ _ ty init => init.constant?.toList.map (·, ty)
  | .update _ target value | .reduce _ _ target value => value.constant?.toList.map (·, target.ty)
  | .loop _ header _ =>
    [(header.start, .ubit (bitsNeeded header.stop)), (header.stop, .ubit (bitsNeeded header.stop))]
  | _ => []

namespace Lowering

/-! ### Widths of operands -/

/-- The operands of an operation that is computed keep their widths. -/
theorem operands_wide {op : BinOp} {l r ty : Ty} (typed : binopType op l r = .ok ty)
    (computed : ∀ n, ty ≠ .static n) :
    l.width ≤ (operatorWidths op ty l r).1 ∧ r.width ≤ (operatorWidths op ty l r).1 := by
  cases binopType_cases typed with
  | folded => exact absurd rfl (computed _)
  | logical family isLeft isRight =>
    have single : (operatorWidths op .bool l r).1 = 1 := by
      cases op <;> first | rfl | cases family
    rw [single, isLeft, isRight]
    exact ⟨Nat.le_refl _, Nat.le_refl _⟩
  | boolEq family isLeft isRight =>
    rw [operatorWidths_comparison family]
    exact ⟨Nat.le_max_left .., Nat.le_max_right ..⟩
  | comparison family joined =>
    rw [operatorWidths_comparison family]
    exact ⟨Nat.le_max_left .., Nat.le_max_right ..⟩
  | numeric family _ joined =>
    rw [operatorWidths_numeric family]
    rcases numericJoin_cases joined with ⟨w, v, f, rfl, rfl, rfl⟩ | ⟨_, _, rfl⟩ <;>
      exact ⟨Nat.le_max_left .., Nat.le_max_right ..⟩

theorem width_of_assignable {src dst : Ty} (fits : assignable src dst = true) :
    src.width ≤ dst.width := by
  rcases assignable_cases fits with rfl | ⟨_, narrow⟩
  · exact Nat.le_refl _
  · exact narrow

theorem isChecked_iff {op : BinOp} {ty l r : Ty} :
    isChecked op ty l r = true ↔ binopType op l r = .ok ty := by
  unfold isChecked
  split
  · next found same => rw [same, beq_iff_eq, Except.ok.injEq]
  · next fault same => simp [same]

/-! ### Requests -/

/-- Data keeps its width, and only a constant or a part of an index is given fewer bits. -/
structure Request.Roomy (r : Request) : Prop where
  wide : r.role = .data → r.value.ty.width ≤ r.width
  cut : r.value.isConstant = false → r.width < r.value.ty.width →
    r.role = .address ∨ r.role = .select ∨ r.role = .rotated

theorem Request.Roomy.of_width {role : Role} {e : TypedExpr} {width : Nat}
    (wide : e.ty.width ≤ width) : Request.Roomy ⟨role, e, width⟩ :=
  ⟨fun _ => wide, fun _ narrow => absurd narrow (Nat.not_lt.mpr wide)⟩

theorem Request.Roomy.address (e : TypedExpr) (width : Nat) : Request.Roomy ⟨.address, e, width⟩ :=
  ⟨nofun, fun _ _ => .inl rfl⟩

theorem Request.Roomy.select (e : TypedExpr) (width : Nat) : Request.Roomy ⟨.select, e, width⟩ :=
  ⟨nofun, fun _ _ => .inr (.inl rfl)⟩

theorem Request.Roomy.rotated (e : TypedExpr) (width : Nat) : Request.Roomy ⟨.rotated, e, width⟩ :=
  ⟨nofun, fun _ _ => .inr (.inr rfl)⟩

theorem Request.Roomy.constant {e : TypedExpr} (constant : e.isConstant = true) (width : Nat) :
    Request.Roomy ⟨.arithmetic, e, width⟩ :=
  ⟨(by intro same; cases same), fun computed _ => Bool.noConfusion (constant.symm.trans computed)⟩

section

variable (registers : List String) (slots : Slots)

/-- Whether everything that is lowered along with an expression has room. -/
def Fit (e : TypedExpr) : Prop := ∀ r ∈ asks registers slots e, r.Roomy

end

section

variable {registers : List String} {slots : Slots} {lhs rhs idx e : TypedExpr}

theorem Fit.leaf (none : asks registers slots e = []) : Fit registers slots e := by
  rw [Fit, none]
  exact List.forall_mem_nil _

/-- An operation has room for its operands if the checker types it or its arithmetic is wide enough.
A rotation may mask a wider sum. -/
theorem Fit.binop {op : BinOp} {ty : Ty} (left : Fit registers slots lhs)
    (right : Fit registers slots rhs) (computed : ∀ n, ty ≠ .static n)
    (wide : binopType op lhs.ty rhs.ty = .ok ty ∨
      (lhs.ty.width ≤ (operatorWidths op ty lhs.ty rhs.ty).1 ∨
        op = .bitAnd ∧ isTurned registers lhs = true) ∧
      (rhs.ty.width ≤ (operatorWidths op ty lhs.ty rhs.ty).1 ∨ rhs.isConstant = true)) :
    Fit registers slots (.binop ty op lhs rhs) := by
  have operands : Request.Roomy ⟨(operandRoles registers op ty lhs rhs).1, lhs,
        (operatorWidths op ty lhs.ty rhs.ty).1⟩ ∧
      Request.Roomy ⟨(operandRoles registers op ty lhs rhs).2, rhs,
        (operatorWidths op ty lhs.ty rhs.ty).1⟩ := by
    by_cases checked : isChecked op ty lhs.ty rhs.ty = true
    · obtain ⟨leftWide, rightWide⟩ := operands_wide (isChecked_iff.mp checked) computed
      exact ⟨.of_width leftWide, .of_width rightWide⟩
    · obtain ⟨leftWide, rightWide⟩ := wide.resolve_left fun typed => checked (isChecked_iff.mpr typed)
      have second (role : Role × Role) (same : role.2 = .arithmetic) :
          Request.Roomy ⟨role.2, rhs, (operatorWidths op ty lhs.ty rhs.ty).1⟩ := by
        rcases rightWide with wide | constant
        · exact .of_width wide
        · rw [same]
          exact .constant constant _
      rw [operandRoles, if_neg checked]
      split
      · exact ⟨.rotated _ _, second (.rotated, .arithmetic) rfl⟩
      · next plain => exact ⟨.of_width (leftWide.resolve_right plain), second (.arithmetic, .arithmetic) rfl⟩
  rw [Fit, asks_computed _ _ computed]
  dsimp only
  simp only [List.forall_mem_append, List.forall_mem_singleton]
  exact ⟨⟨left, operands.1⟩, ⟨right, operands.2⟩⟩

/-! ### Indices -/

/-- Unsigned arithmetic that is as wide as its left operand, and as its right one unless that is a
constant. -/
theorem Fit.operation {op : BinOp} {width : Nat} (left : Fit registers slots lhs)
    (right : Fit registers slots rhs) (numeric : op.isArithmetic = true ∨ op.isBitwise = true)
    (leftWide : lhs.ty.width ≤ width) (rightWide : rhs.ty.width ≤ width ∨ rhs.isConstant = true) :
    Fit registers slots (.binop (.ubit width) op lhs rhs) := by
  refine left.binop right (Ty.ubit_ne_static width) (.inr ?_)
  rw [operatorWidths_numeric numeric]
  exact ⟨.inl leftWide, rightWide⟩

theorem Fit.added (left : Fit registers slots lhs) (right : Fit registers slots rhs)
    (computed : Banking.widened .add lhs rhs = .ok e) : Fit registers slots e := by
  rw [Banking.eq_of_widened computed]
  exact left.operation right (.inl rfl) (Nat.le_succ_of_le (Nat.le_max_left _ _))
    (.inl (Nat.le_succ_of_le (Nat.le_max_right _ _)))

theorem Fit.lit (n : Nat) : Fit registers slots (.lit n) := .leaf rfl

theorem Fit.staticOffset (index : Fit registers slots idx) {start : Nat}
    (computed : Banking.staticOffset idx start = .ok e) : Fit registers slots e := by
  obtain ⟨_, _, _, _, rfl⟩ | ⟨_, rfl⟩ | rfl := Banking.staticOffset_cases computed
  · exact .lit _
  · exact index
  · exact index.binop (.lit start) (Ty.ubit_ne_static _) (.inr ⟨.inl (Nat.le_refl _), .inr rfl⟩)

theorem Fit.bankTerm (index : Fit registers slots idx) {length stride : Nat}
    (computed : Banking.bankTerm idx length stride = .ok e) : Fit registers slots e := by
  obtain ⟨bank, divided, scaled⟩ := Banking.bankTerm_ok computed
  have quotient : Fit registers slots bank := by
    cases divided with
    | whole _ => exact index
    | shifted => exact index.operation (.lit _) (.inr rfl) (Nat.le_refl _) (.inr rfl)
  rcases scaled with ⟨rfl, _⟩ | rfl
  · exact quotient
  · refine quotient.operation (.lit stride) (.inl rfl) ?_ (.inr rfl)
    rw [divided.width]
    exact Nat.le_add_right _ _

theorem Fit.maskedOffset (index : Fit registers slots idx) {length : Nat}
    (computed : Banking.maskedOffset idx length = .ok e) : Fit registers slots e := by
  obtain ⟨_, rfl⟩ | ⟨_, rfl⟩ := Banking.maskedOffset_cases computed
  · exact .lit 0
  · exact index.operation (.lit _) (.inr rfl) (Nat.le_refl _) (.inr rfl)

theorem Fit.selector {base : Nat} {terms : List TypedExpr} (all : ∀ term ∈ terms, Fit registers slots term)
    (computed : Banking.selector base terms = .ok e) : Fit registers slots e :=
  Banking.selector_keeps computed (.lit base) all fun _ _ _ => .added

/-- A sum with the register of a rotation, masked. -/
theorem Fit.turned {r : Banking.Rotation} (known : r.register ∈ registers) {ty : Ty} {sum wrapped : TypedExpr}
    (left : Fit registers slots lhs) (right : Fit registers slots rhs)
    (isTurn : lhs = .var ty r.register ∨ rhs = .var ty r.register)
    (added : Banking.widened .add lhs rhs = .ok sum) (masked : r.wrap sum = .ok wrapped) :
    Fit registers slots wrapped := by
  have total := left.added right added
  have turned : isTurned registers sum = true := by
    rw [Banking.eq_of_widened added, isTurned, Bool.or_eq_true]
    rcases isTurn with rfl | rfl
    · exact .inl (List.contains_iff_mem.mpr known)
    · exact .inr (List.contains_iff_mem.mpr known)
  obtain ⟨_, typed, rfl⟩ := Banking.Rotation.eq_of_wrap masked
  cases Banking.Rotation.eq_of_ty typed
  exact total.binop (.lit _) (Ty.ubit_ne_static _) (.inr ⟨.inr ⟨rfl, turned⟩, .inr rfl⟩)

/-! ### Accesses -/

/-- Placed indices that have room. -/
structure FitPlacement (registers : List String) (slots : Slots) (p : Banking.Placement) : Prop where
  terms : ∀ term ∈ p.terms, Fit registers slots term
  addr : ∀ e ∈ p.addr, Fit registers slots e

theorem roomy_addresses {addr : List TypedExpr} (all : ∀ e ∈ addr, Fit registers slots e)
    (sizes : List Nat) : ∀ r ∈ asksOf registers slots addr sizes, r.Roomy := by
  induction addr generalizing sizes with
  | nil =>
    rw [asksOf]
    · exact List.forall_mem_nil _
    · intro e es size sizes same
      cases same
  | cons e addr ih =>
    obtain ⟨head, tail⟩ := List.forall_mem_cons.mp all
    cases sizes with
    | nil =>
      rw [asksOf]
      · exact List.forall_mem_nil _
      · intro e es size sizes _ same
        cases same
    | cons size sizes =>
      simp only [asksOf, List.forall_mem_append, List.forall_mem_singleton]
      exact ⟨⟨head, .address _ _⟩, ih tail sizes⟩

section

variable {ctx : Banking.Context} {env : Banking.Env} {types : Typing.Env} {tctx : Typing.Context}

theorem fit_resolved (known : ctx.Registered registers) {array : String} {layout : Layout} {ty : Ty}
    {writes : Bool} {p : Banking.Placement} (placed : FitPlacement registers slots p)
    (resolved : Banking.ResolvedAs ctx array layout ty writes p e) : Fit registers slots e := by
  cases resolved with
  | direct =>
    rw [Fit, asks]
    exact roomy_addresses placed.addr _
  | @multiplexed banks flat select named _ _ summed selected =>
    have bank := Fit.selector placed.terms summed
    have selects : Fit registers slots select := by
      obtain ⟨_, rfl⟩ | ⟨r, ty, sum, rotation, _, added, masked⟩ := Banking.rotated_cases selected
      · exact bank
      · exact bank.turned (known _ _ rotation) (.leaf (asks_var _ _ ty r.register)) (.inr rfl) added masked
    rw [Fit, asks]
    simp only [List.forall_mem_append, List.forall_mem_singleton]
    exact ⟨⟨selects, .select _ _⟩, roomy_addresses placed.addr _⟩

mutual

theorem fit_read (known : ctx.Registered registers) : {e e' : TypedExpr} → Typing.CheckedExpr tctx types e →
    Banking.ReadAs ctx env e e' → Fit registers slots e'
  | _, _, .int n, .int _ _ => .lit n
  | _, _, .bool _, .bool _ _ => .leaf (asks_bool ..)
  | _, _, .scalar _, .var _ _ => .leaf (asks_var ..)
  | _, _, .iterator _, .var _ _ => .leaf (asks_var ..)
  | .binop ty op lhs rhs, _, .binop left right typed, .binop leftRead rightRead => by
    rcases ty.static_or with ⟨n, rfl⟩ | computed
    · exact .leaf (by rw [asks])
    · refine (fit_read known left leftRead).binop (fit_read known right rightRead) computed (.inl ?_)
      rw [leftRead.ty_eq, rightRead.ty_eq]
      exact typed
  | _, _, .access _ indices, .access _ _ placed resolved =>
    fit_resolved known (fit_place known indices placed) resolved

theorem fit_place (known : ctx.Registered registers) : {dims : List Dim} → {idxs : List TypedExpr} →
    Typing.CheckedIndices tctx types dims idxs → {base : Nat} → {spread : List (Dim × Nat)} →
    {p : Banking.Placement} → Banking.PlacedAs ctx env base idxs spread p →
    FitPlacement registers slots p
  | _, _, .nil, _, _, _, .done _ => ⟨nofun, nofun⟩
  | _, _, .cons .., _, _, _, .done _ => ⟨nofun, nofun⟩
  | _, _, .cons checked _ _ rest, _, _, _, .known value _ addressed others _ => by
    obtain ⟨terms, addr⟩ := fit_place known rest others
    have index := fit_read known checked value
    exact ⟨terms, List.forall_mem_cons.mpr ⟨index.staticOffset addressed, addr⟩⟩
  | _, _, .cons checked _ _ rest, _, _, _, .varying value _ _ chosen addressed others => by
    obtain ⟨terms, addr⟩ := fit_place known rest others
    have index := fit_read known checked value
    exact ⟨List.forall_mem_cons.mpr ⟨index.bankTerm chosen, terms⟩,
      List.forall_mem_cons.mpr ⟨index.maskedOffset addressed, addr⟩⟩

end

theorem fit_target (known : ctx.Registered registers) {target target' : TypedExpr}
    (place : Typing.CheckedTarget tctx types target) (split : Banking.WrittenAs ctx env target target') :
    Fit registers slots target' ∧ target'.ty = target.ty := by
  cases place with
  | register _ =>
    cases split with
    | other _ => exact ⟨.leaf (asks_var ..), rfl⟩
  | element checked =>
    cases split with
    | element _ _ placed resolved =>
      cases checked with
      | access _ indices =>
        refine ⟨fit_resolved known (fit_place known indices placed) resolved, ?_⟩
        cases resolved <;> rfl
    | other notAccess => exact absurd rfl (notAccess _ _ _)

/-- A value that is not used is lowered for its reads only. -/
theorem roomy_spent (known : ctx.Registered registers) {e e' : TypedExpr}
    (checked : Typing.CheckedExpr tctx types e) (read : Banking.ReadAs ctx env e e') :
    ∀ r ∈ spent registers slots e', r.Roomy := by
  fun_induction spent registers slots e' generalizing e with
  | case1 ty op lhs rhs left right =>
    cases read with
    | binop leftRead rightRead =>
      cases checked with
      | binop checkedLeft checkedRight _ =>
        exact List.forall_mem_append.mpr ⟨left checkedLeft leftRead, right checkedRight rightRead⟩
    | access found strided placed resolved => cases resolved
  | case2 ty mem addr =>
    cases read with
    | mem => cases checked
    | access found strided placed resolved =>
      cases checked with
      | access bound indices => exact fit_resolved known (fit_place known indices placed) resolved
  | case3 ty banks select addr =>
    cases read with
    | muxRead => cases checked
    | access found strided placed resolved =>
      cases checked with
      | access bound indices => exact fit_resolved known (fit_place known indices placed) resolved
  | case4 => exact List.forall_mem_nil _

end

end

/-! ### Commands -/

def Site.Roomy : Site → Prop
  | .iterator _ => True
  | .request r => r.Roomy

section

variable {registers : List String} {slots : Slots} {ctx : Banking.Context}

theorem roomy_map {requests : List Request} (all : ∀ r ∈ requests, r.Roomy) :
    ∀ site ∈ requests.map Site.request, site.Roomy :=
  List.forall_mem_map.mpr all

theorem Fit.wanted {e : TypedExpr} (fits : Fit registers slots e) {width : Nat} (wide : e.ty.width ≤ width) :
    ∀ r ∈ wanted registers slots e width, r.Roomy := by
  rw [Lowering.wanted, List.forall_mem_append]
  exact ⟨fits, List.forall_mem_singleton.mpr (.of_width wide)⟩

theorem roomy_declBanks {l : Layout} {pos : Nat} {cmd : TypedCommand}
    (split : Banking.declBanks l pos = .ok cmd) (slots : Slots) : sites registers slots cmd = [] := by
  have all (ds : List Decl) (slots : Slots) :
      sitesOfSeq registers slots (ds.map fun d => .decl pos d.name d.ty) = [] := by
    induction ds generalizing slots with
    | nil => rfl
    | cons d ds ih =>
      rw [List.map_cons, sitesOfSeq, sites, List.nil_append]
      exact ih _
  obtain ⟨ds, _, ⟨d, _, rfl⟩ | ⟨_, rfl⟩⟩ := Banking.declBanks_split split
  · rw [sites]
  · rw [sites]
    exact all ds slots

theorem roomy_step {r : Banking.Rotation} (known : r.register ∈ registers) {pos : Nat} {step : TypedCommand}
    (stepped : r.step pos = .ok step) : ∀ site ∈ sites registers slots step, site.Roomy := by
  obtain ⟨ty, typed, sum, added, next, masked, rfl⟩ := Banking.Rotation.step_update stepped
  have fits : Fit registers slots next :=
    (Fit.leaf (asks_var _ _ ty r.register)).turned known (.lit 1) (.inl rfl) added masked
  have same : next.ty = ty := by
    obtain ⟨_, typed', rfl⟩ := Banking.Rotation.eq_of_wrap masked
    exact Except.ok.inj (typed'.symm.trans typed)
  rw [sites, asks_var, List.nil_append]
  exact roomy_map (fits.wanted (Nat.le_of_eq (congrArg Ty.width same)))

mutual

/-- Every site of a command that is split has room. -/
theorem roomy_command (known : ctx.Registered registers) {tctx : Typing.Context}
    {types types' : Typing.Env} {env : Banking.Env} {cmd cmd' : TypedCommand} :
    Typing.CheckedCommand tctx types cmd types' → Banking.BankedCommand ctx env cmd cmd' →
    (slots : Slots) → ∀ site ∈ sites registers slots cmd', site.Roomy
  | .decl .., .array _ split, slots => by
    rw [roomy_declBanks split]
    exact List.forall_mem_nil _
  | .decl .., .scalar _, slots => by
    rw [sites]
    exact List.forall_mem_nil _
  | .define checked _ fits _, .define value, slots => by
    rw [sites]
    refine roomy_map ((fit_read known checked value).wanted ?_)
    rw [value.ty_eq]
    exact width_of_assignable fits
  | .seq checked, .seq all, slots => by
    rw [sites]
    exact roomy_seq known checked all slots
  | .branch checked isBool yes no, .branch value yes' no', slots => by
    rw [sites, List.forall_mem_append, List.forall_mem_append]
    refine ⟨roomy_map ((fit_read known checked value).wanted ?_), roomy_command known yes yes' _,
      roomy_else known no no' _⟩
    rw [value.ty_eq, isBool]
    exact Nat.le_refl _
  | .loop _ checked, .loop _ round, slots => by
    rw [sites]
    exact List.forall_mem_cons.mpr ⟨trivial, roomy_command known checked round _⟩
  | .update place checked fits, .update split value, slots => by
    obtain ⟨target, same⟩ : Fit registers slots _ ∧ _ := fit_target known place split
    rw [sites, same]
    refine roomy_map (List.forall_mem_append.mpr ⟨target, (fit_read known checked value).wanted ?_⟩)
    rw [value.ty_eq]
    exact width_of_assignable fits
  | .reduce place _ checked fits, .reduce split value, slots => by
    obtain ⟨target, same⟩ : Fit registers slots _ ∧ _ := fit_target known place split
    rw [sites, same]
    refine roomy_map (List.forall_mem_append.mpr ⟨target, (fit_read known checked value).wanted ?_⟩)
    rw [value.ty_eq]
    exact width_of_assignable fits
  | checked, .eval value, slots => by
    rw [sites]
    cases checked with
    | call =>
      cases value
      exact List.forall_mem_nil _
    | eval checked => exact roomy_map (roomy_spent known checked value)
  | .advance _, .rotate rotated stepped, slots => roomy_step (known _ _ rotated) stepped
  | .advance _, .still _, slots => by
    rw [sites]
    exact List.forall_mem_nil _
  | .skip, .skip, slots => by
    rw [sites]
    exact List.forall_mem_nil _

theorem roomy_seq (known : ctx.Registered registers) {tctx : Typing.Context}
    {types types' : Typing.Env} {env : Banking.Env} {cmds cmds' : List TypedCommand} :
    Typing.CheckedSeq tctx types cmds types' → Banking.BankedSeq ctx env cmds cmds' →
    (slots : Slots) → ∀ site ∈ sitesOfSeq registers slots cmds', site.Roomy
  | .nil, .nil, slots => by
    rw [sitesOfSeq]
    exact List.forall_mem_nil _
  | .cons first rest, .cons first' rest', slots => by
    rw [sitesOfSeq, List.forall_mem_append]
    exact ⟨roomy_command known first first' _, roomy_seq known rest rest' _⟩

theorem roomy_else (known : ctx.Registered registers) {tctx : Typing.Context} {types : Typing.Env}
    {env : Banking.Env} {cmd cmd' : Option TypedCommand} :
    Typing.CheckedElse tctx types cmd → Banking.BankedElse ctx env cmd cmd' → (slots : Slots) →
    ∀ site ∈ sitesOfElse registers slots cmd', site.Roomy
  | .none, .none, slots => by
    rw [sitesOfElse]
    exact List.forall_mem_nil _
  | .some checked, .some banked, slots => by
    rw [sitesOfElse]
    exact roomy_command known checked banked _

end

theorem sitesOfSeq_append (cmds others : List TypedCommand) (slots : Slots) :
    sitesOfSeq registers slots (cmds ++ others) =
      sitesOfSeq registers slots cmds ++ sitesOfSeq registers (slotsAfterSeq slots cmds) others := by
  induction cmds generalizing slots with
  | nil => rw [List.nil_append, sitesOfSeq, List.nil_append, slotsAfterSeq]
  | cons cmd cmds ih => rw [List.cons_append, sitesOfSeq, sitesOfSeq, ih, List.append_assoc, slotsAfterSeq]

/-- The registers of rotations are set to zero. -/
theorem roomy_setUp {statements : Statements} {body : TypedCommand} {env : Banking.Env}
    {taken : List String} {advanced : List (String × Nat)} {prologue : Banking.Prologue}
    (success : (Banking.setUpRotations statements body env taken advanced).result = .ok prologue)
    (slots : Slots) : ∀ site ∈ sitesOfSeq registers slots prologue.setup, site.Roomy := by
  induction advanced generalizing env taken slots prologue with
  | nil =>
    cases success
    rw [sitesOfSeq]
    exact List.forall_mem_nil _
  | cons entry advanced ih =>
    obtain ⟨_, _, _, _, ⟨_, rest⟩ | ⟨register, ty, inner, _, _, typed, rest, rfl⟩⟩ :=
      Banking.setUpRotations_cons success
    · exact ih rest slots
    · cases Banking.Rotation.eq_of_ty typed
      rw [sitesOfSeq, sites, List.forall_mem_append]
      exact ⟨roomy_map ((Fit.lit 0).wanted (bitsNeeded_mono (Nat.zero_le _))), ih rest _⟩

theorem roomy_bankBody {statements : Statements} {env : Banking.Env} {body banked : TypedCommand}
    {tctx : Typing.Context} {types types' : Typing.Env}
    (split : (Banking.bankBody statements env body).result = .ok banked)
    (checked : Typing.CheckedCommand tctx types body types') :
    ∃ prologue, (Banking.setUpRotations statements body env (Banking.binders body)
        (Banking.firstOfEach (Banking.advances body))).result = .ok prologue ∧
      ∀ slots, ∀ site ∈ sites prologue.registers slots banked, site.Roomy := by
  obtain ⟨prologue, inner, setUp, banked, rfl⟩ := Banking.bankBody_ok split
  refine ⟨prologue, setUp, fun slots => ?_⟩
  have known := prologue.registered statements
  split
  · exact roomy_command known checked banked slots
  · rw [sites, sitesOfSeq_append, List.forall_mem_append, sitesOfSeq, sitesOfSeq, List.append_nil]
    exact ⟨roomy_setUp setUp slots, roomy_command known checked banked _⟩

end

/-! ### Constants -/

section

variable {slots : Slots}

mutual

theorem PhysicalCommand.inner : {cmd : TypedCommand} → {slots : Slots} → PhysicalCommand slots cmd →
    ∀ inner ∈ cmd.preorder, ∃ slots, PhysicalCommand slots inner
  | .seq pos cmds, slots, typed => by
    rw [Command.preorder, List.forall_mem_cons]
    exact ⟨⟨slots, typed⟩, PhysicalSeq.inner typed⟩
  | .branch pos cond onTrue onFalse, slots, typed => by
    rw [Command.preorder, List.forall_mem_cons, List.forall_mem_append]
    exact ⟨⟨slots, typed⟩, typed.2.1.inner, PhysicalElse.inner typed.2.2⟩
  | .loop pos header body, slots, typed => by
    rw [Command.preorder, List.forall_mem_cons]
    exact ⟨⟨slots, typed⟩, typed.2.2.inner⟩
  | .decl .., slots, typed | .define .., slots, typed | .update .., slots, typed
  | .reduce .., slots, typed | .eval .., slots, typed | .advance .., slots, typed
  | .skip _, slots, typed => List.forall_mem_singleton.mpr ⟨slots, typed⟩

theorem PhysicalSeq.inner : {cmds : List TypedCommand} → {slots : Slots} → PhysicalSeq slots cmds →
    ∀ inner ∈ Command.preorderSeq cmds, ∃ slots, PhysicalCommand slots inner
  | [], _, _ => List.forall_mem_nil _
  | _ :: _, _, typed => by
    rw [Command.preorderSeq, List.forall_mem_append]
    exact ⟨typed.1.inner, PhysicalSeq.inner typed.2⟩

theorem PhysicalElse.inner : {cmd : Option TypedCommand} → {slots : Slots} → PhysicalElse slots cmd →
    ∀ inner ∈ Command.preorderElse cmd, ∃ slots, PhysicalCommand slots inner
  | none, _, _ => List.forall_mem_nil _
  | some _, _, typed => PhysicalCommand.inner typed

end

theorem Physical.ty_of_constant {e : TypedExpr} (typed : Physical slots e) {n : Nat}
    (constant : e.constant? = some n) : e.ty = .static n := by
  cases typed with
  | int _ =>
    cases constant
    rfl
  | @binop ty op lhs rhs _ _ _ =>
    cases ty with
    | static m =>
      cases constant
      rfl
    | _ => cases constant
  | _ => cases constant

theorem denotes_of_assignable {n : Nat} {ty : Ty} (fits : assignable (.static n) ty = true) :
    ty.Denotes n := by
  unfold assignable at fits
  rw [Bool.or_eq_true, beq_iff_eq] at fits
  rcases fits with rfl | converted
  · exact rfl
  · have room := lt_capacity_bitsNeeded n
    cases ty with
    | bit width signed =>
      have wide : bitsNeeded n + signed.toNat ≤ width := of_decide_eq_true converted
      have reach := Word.capacity_le wide
      cases signed with
      | false => exact ⟨Int.natCast_nonneg n, Int.ofNat_lt.mpr (Nat.lt_of_lt_of_le room reach)⟩
      | true =>
        rw [Bool.toNat_true, Word.capacity_succ] at reach
        exact ⟨by omega, by omega⟩
    | _ => cases converted

/-- What a command over physical memories stores is a value of the type of its place. -/
theorem PhysicalCommand.stored {cmd : TypedCommand} (typed : PhysicalCommand slots cmd) :
    ∀ entry ∈ cmd.stored, entry.2.Denotes entry.1 := by
  have stores {value : TypedExpr} {ty : Ty} (known : Physical slots value)
      (fits : assignable value.ty ty = true) :
      ∀ entry ∈ value.constant?.toList.map (·, ty), entry.2.Denotes entry.1 := by
    rw [List.forall_mem_map]
    intro n constant
    rw [known.ty_of_constant (Option.mem_toList.mp constant)] at fits
    exact denotes_of_assignable fits
  cases cmd with
  | define pos name ty init => exact stores typed.1 typed.2
  | update pos target value => exact stores typed.2.1 typed.2.2
  | reduce pos op target value => exact stores typed.2.2.2.1 typed.2.2.2.2
  | loop pos header body =>
    have room := lt_capacity_bitsNeeded header.stop
    have runs : header.start < header.stop := typed.1
    rw [Command.stored, List.forall_mem_cons, List.forall_mem_singleton]
    simp only [Ty.ubit, Ty.Denotes]
    omega
  | _ => exact List.forall_mem_nil _

end

/-! ### Operations of the source -/

mutual

theorem CheckedCommand.inner : {ctx : Typing.Context} → {types types' : Typing.Env} → {cmd : TypedCommand} →
    Typing.CheckedCommand ctx types cmd types' →
    ∀ inner ∈ cmd.preorder, ∃ ctx types types', Typing.CheckedCommand ctx types inner types'
  | ctx, types, types', _, .seq checked => by
    rw [Command.preorder, List.forall_mem_cons]
    exact ⟨⟨ctx, types, types', .seq checked⟩, CheckedSeq.inner checked⟩
  | ctx, types, _, _, .branch value isBool yes no => by
    rw [Command.preorder, List.forall_mem_cons, List.forall_mem_append]
    exact ⟨⟨ctx, types, types, .branch value isBool yes no⟩, CheckedCommand.inner yes, CheckedElse.inner no⟩
  | ctx, types, _, _, .loop range checked => by
    rw [Command.preorder, List.forall_mem_cons]
    exact ⟨⟨ctx, types, types, .loop range checked⟩, CheckedCommand.inner checked⟩
  | ctx, types, types', .decl .., checked | ctx, types, types', .define .., checked
  | ctx, types, types', .update .., checked | ctx, types, types', .reduce .., checked
  | ctx, types, types', .eval .., checked | ctx, types, types', .advance .., checked
  | ctx, types, types', .skip _, checked => List.forall_mem_singleton.mpr ⟨ctx, types, types', checked⟩

theorem CheckedSeq.inner : {ctx : Typing.Context} → {types types' : Typing.Env} → {cmds : List TypedCommand} →
    Typing.CheckedSeq ctx types cmds types' →
    ∀ inner ∈ Command.preorderSeq cmds, ∃ ctx types types', Typing.CheckedCommand ctx types inner types'
  | _, _, _, _, .nil => List.forall_mem_nil _
  | _, _, _, _, .cons first rest => by
    rw [Command.preorderSeq, List.forall_mem_append]
    exact ⟨CheckedCommand.inner first, CheckedSeq.inner rest⟩

theorem CheckedElse.inner : {ctx : Typing.Context} → {types : Typing.Env} → {cmd : Option TypedCommand} →
    Typing.CheckedElse ctx types cmd →
    ∀ inner ∈ Command.preorderElse cmd, ∃ ctx types types', Typing.CheckedCommand ctx types inner types'
  | _, _, _, .none => List.forall_mem_nil _
  | _, _, _, .some checked => CheckedCommand.inner checked

end

/-! ### Components -/

/-- What lowering keeps of the values of a component, from its source to its body over memories. -/
structure Untruncated (registers : List String) (source : TypedCommand) (ds : List Decl)
    (body : TypedCommand) : Prop where
  /-- Both operands of an operation of the source are data, whatever they are split into. -/
  operations : ∀ cmd ∈ source.preorder, ∀ ty op lhs rhs, .binop ty op lhs rhs ∈ cmd.subterms →
    ∀ l r : TypedExpr, l.ty = lhs.ty → r.ty = rhs.ty →
      operandRoles registers op ty l r = (.data, .data)
  /-- Data is lowered to its width or more. -/
  data : ∀ r, .request r ∈ sites registers (slotsOf {} ds) body → r.role = .data →
    r.value.ty.width ≤ r.width
  /-- Iterators, addresses, selects and masked sums are what is sliced. -/
  slices : ∀ site ∈ sites registers (slotsOf {} ds) body, ∀ width target,
    site.adapter? = some (.adapter .slice width target) → (∃ stop, site = .iterator stop) ∨
      ∃ r, site = .request r ∧ (r.role = .address ∨ r.role = .select ∨ r.role = .rotated)
  constants : ∀ cmd ∈ body.preorder, ∀ entry ∈ cmd.stored, entry.2.Denotes entry.1

theorem Request.cut_of_slice {r : Request} {width target : Nat}
    (sliced : r.adapter? = some (.adapter .slice width target)) :
    r.value.isConstant = false ∧ r.width < r.value.ty.width := by
  unfold Request.adapter? at sliced
  split at sliced
  · cases sliced
  · next cut =>
    rw [not_or, Bool.not_eq_true] at cut
    refine ⟨cut.1, ?_⟩
    simp only [Option.some.injEq, Part.adapter.injEq, adapterOf] at sliced
    by_contra wide
    rw [if_neg wide] at sliced
    split at sliced <;> cases sliced.1

/-- Whether a component keeps its values where its arrays are split into banks. -/
def KeepsValues (statements : Statements) (c c' : List Decl × TypedCommand) : Prop :=
  ∃ prologue, (Banking.setUpRotations statements c.2 (Banking.declared {} c.1) (Banking.binders c.2)
      (Banking.firstOfEach (Banking.advances c.2))).result = .ok prologue ∧
    Untruncated prologue.registers c.2 c'.1 c'.2

/-- Whether a component has the adapters of its sites, whatever registers they are told by. -/
def Adapted (ds : List Decl) (body : Option TypedCommand) (c : Component) : Prop :=
  ∀ registers, c.adapters = (sitesOfElse registers (slotsOf {} ds) body).filterMap Site.adapter?

theorem keepsValues_of_bankBody {statements : Statements} {source body : TypedCommand}
    {declared ds : List Decl} {tctx : Typing.Context} {types types' : Typing.Env}
    (split : (Banking.bankBody statements (Banking.declared {} declared) source).result = .ok body)
    (checked : Typing.CheckedCommand tctx types source types')
    (typed : PhysicalBody ds (some body)) : KeepsValues statements (declared, source) (ds, body) := by
  obtain ⟨prologue, setUp, roomy⟩ := roomy_bankBody split checked
  refine ⟨prologue, setUp, ?_, fun r member => (roomy _ _ member).wide, ?_, ?_⟩
  · intro cmd member ty op lhs rhs inside l r left right
    obtain ⟨_, _, _, checked⟩ := CheckedCommand.inner checked cmd member
    have typed : binopType op lhs.ty rhs.ty = .ok ty := by
      rcases checked.subterms _ inside with operation | ⟨_, _, _, call⟩
      · cases operation with
        | binop _ _ typed => exact typed
      · cases call
    rw [← left, ← right, ← isChecked_iff] at typed
    rw [operandRoles, if_pos typed]
  · intro site member width target sliced
    cases site with
    | iterator stop => exact .inl ⟨stop, rfl⟩
    | request r =>
      obtain ⟨computed, narrow⟩ := Request.cut_of_slice sliced
      exact .inr ⟨r, rfl, (roomy _ _ member).cut computed narrow⟩
  · intro cmd member
    obtain ⟨slots, typed⟩ := PhysicalCommand.inner typed cmd member
    exact typed.stored

end Lowering

open Lowering

/-- Nothing that a program computes is truncated. In a program that binds no name of a bank, every
operand of an operation, every condition and every value that is stored is lowered to its width or
more, so that only iterators, addresses, selects and the sums that rotations mask are sliced, and
every constant that is stored is a value of the type of its place. The adapters of a netlist are
those of the sites of its bodies, and there are no others. -/
theorem compile_untruncated {text : String} {p : TypedProgram} {statements : Statements}
    {banked : BankedProgram} (accepted : (check text).result = .ok p) (clean : p.BankNameClean)
    (split : (p.toBanks statements).result = .ok banked) :
    List.Forall₂ (KeepsValues statements) p.components banked.program.components ∧
      ∀ config netlist, (banked.toNetlist config statements).result = .ok netlist →
        netlist.Components Adapted banked.program := by
  obtain ⟨source, parsed, checked⟩ := check_ok accepted
  have wellTyped := Typing.checkedProgram_of_check checked
  have written := Program.check_written (parse_written parsed) checked
  have typed := Program.physical_toBanks wellTyped written clean split
  refine ⟨?_, fun config netlist lowered => BankedProgram.adapters_of_toNetlist typed lowered⟩
  have sources := (List.forall₂_and_left _ _).mpr
    ⟨fun c (member : c ∈ p.components) => wellTyped.component member, Program.forall₂_components split⟩
  have bodies : ∀ c' ∈ banked.program.components, PhysicalBody c'.1 (some c'.2) := by
    rintro ⟨ds, body⟩ member
    rcases List.mem_append.mp member with inDefs | inRoot
    · obtain ⟨f, defined, same⟩ := List.mem_map.mp inDefs
      cases same
      exact typed.functions f defined
    · obtain ⟨cmd, found, same⟩ := List.mem_map.mp inRoot
      cases same
      rw [Option.mem_toList] at found
      exact found ▸ typed.root
  refine ((List.forall₂_and_left _ _).mpr ⟨bodies, sources.flip⟩).flip.imp ?_
  rintro c c' ⟨typed, ⟨_, _, _, _, checked⟩, success⟩
  exact keepsValues_of_bankBody success checked typed

/-- Reads an array of two banks that turns, at indices that another array numbers. -/
def turningLookup : String :=
  "decl a: ubit<8>[8 bank 4]; decl b: ubit<3>[8]; let s: bit<9> = 7; " ++
    "for (let i = 0..8) \x7b if (a[b[i]] < 9) \x7b s += 3; \x7d advance a; \x7d"

/-- The widths of the slices of a component. -/
def Component.slices (c : Component) : List (Nat × Nat) :=
  c.adapters.filterMap fun
    | .adapter .slice width target => some (width, target)
    | _ => none

/-- Its slices belong to the iterator, the turned bank number, the address and the next turn. -/
theorem compile_untruncated_turningLookup : ∃ p banked netlist, (check turningLookup).result = .ok p ∧
    p.BankNameClean ∧ (p.toBanks {}).result = .ok banked ∧
    (banked.toNetlist {} {}).result = .ok netlist ∧
    netlist.components.map (·.slices) = [[(4, 3), (4, 1), (3, 2), (2, 1)]] ∧
    List.Forall₂ (KeepsValues {}) p.components banked.program.components ∧
    netlist.Components Adapted banked.program := by
  have computed : ∃ built : TypedProgram × BankedProgram × Netlist, (do
      let p ← (check turningLookup).result
      let banked ← (p.toBanks {}).result
      let netlist ← (banked.toNetlist {} {}).result
      pure (p, banked, netlist)) = .ok built ∧
        (built.1.hasShortNames, built.2.2.components.map (·.slices)) =
          (true, [[(4, 3), (4, 1), (3, 2), (2, 1)]]) :=
    exists_ok_of_map (by decide +kernel)
  obtain ⟨built, success, known⟩ := computed
  simp only [bind_ok_iff, pure_ok_iff] at success
  obtain ⟨p, accepted, banked, split, netlist, lowered, rfl⟩ := success
  obtain ⟨short, sliced⟩ := Prod.mk.inj known
  have clean := Program.clean_of_hasShortNames short
  obtain ⟨kept, adapted⟩ := compile_untruncated accepted clean split
  exact ⟨p, banked, netlist, accepted, clean, split, lowered, sliced, kept, adapted {} netlist lowered⟩

end BankedLoops
