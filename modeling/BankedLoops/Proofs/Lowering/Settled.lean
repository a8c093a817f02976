import BankedLoops.Proofs.Banking.Settled
import BankedLoops.Proofs.Lowering.Houses
import BankedLoops.Proofs.Lowering.Lowerable

/-!
# Split expressions can be lowered

The addresses and the bank number of a settled access are built from its indices by operations that
are wide enough for their literals. So every expression of a checked and settled program is
lowerable once it is split into banks.
-/

namespace BankedLoops

namespace Lowering

section

variable {low : Env}

/-- An operation on unsigned numbers whose operands fit in its type. -/
theorem Lowerable.unsigned {op : BinOp} (numeric : op.isComparison = false)
    (notLogical : op.isLogical = false) {width : Nat} {lhs rhs : TypedExpr}
    (left : Lowerable low lhs) (right : Lowerable low rhs) (leftSized : Sized width lhs)
    (rightSized : Sized width rhs) : Lowerable low (.binop (.ubit width) op lhs rhs) := by
  have widths : operatorWidths op (.ubit width) lhs.ty rhs.ty = (width, width) := by
    simp only [operatorWidths, numeric, notLogical, Bool.false_eq_true, if_false]
    rfl
  refine .binop nofun left right ?_ ?_ ?_
  · rw [widths]
    exact leftSized
  · rw [widths]
    exact rightSized
  · intro _ f same
    cases same

theorem Lowerable.lit (n : Nat) : Lowerable low (.lit n) := .int n

theorem Sized.lit {n width : Nat} (fits : n < Word.capacity width) : Sized width (.lit n) := by
  intro m same
  cases same
  exact fits

theorem Lowerable.widened_add {lhs rhs e : TypedExpr} (left : Lowerable low lhs)
    (right : Lowerable low rhs) (added : Banking.widened .add lhs rhs = .ok e) :
    Lowerable low e ∧ ∀ n, e.ty ≠ .static n := by
  cases Banking.eq_of_widened added
  refine ⟨left.unsigned rfl rfl right (.of_width ?_) (.of_width ?_), Ty.ubit_ne_static _⟩
  · exact Nat.le_succ_of_le (Nat.le_max_left _ _)
  · exact Nat.le_succ_of_le (Nat.le_max_right _ _)

theorem Lowerable.wrap {rotation : Banking.Rotation} {e e' : TypedExpr} (lowerable : Lowerable low e)
    (computed : ∀ n, e.ty ≠ .static n) (wrapped : rotation.wrap e = .ok e') :
    Lowerable low e' ∧ ∀ n, e'.ty ≠ .static n := by
  obtain ⟨_, typed, rfl⟩ := Banking.Rotation.eq_of_wrap wrapped
  cases Banking.Rotation.eq_of_ty typed
  exact ⟨lowerable.unsigned rfl rfl (.lit _) (.of_ty computed) (.of_width (Nat.le_refl _)), Ty.ubit_ne_static _⟩

/-! ### Indices -/

variable {ctx : Banking.Context} {env : Banking.Env} {dim : Dim} {idx idx' : TypedExpr}

theorem lowerable_staticOffset (index : Banking.SettledIndex ctx env dim idx idx')
    (lowerable : Lowerable low idx') {k : Nat} {offset : TypedExpr}
    (known : Banking.staticBank? env idx' dim = .ok (some k))
    (addressed : Banking.staticOffset idx' (k * dim.bank) = .ok offset) :
    Lowerable low offset ∧ Sized (bitsNeeded (dim.bank - 1)) offset := by
  have reach := lt_capacity_bitsNeeded (dim.bank - 1)
  obtain ⟨ty, n, rfl, below, rfl⟩ | ⟨zero, rfl⟩ | rfl := Banking.staticOffset_cases addressed
  · have typed : ty = .static n := by
      cases lowerable
      rfl
    have inside := index.known_static typed known
    exact ⟨.lit _, .lit (by omega)⟩
  · refine ⟨lowerable, ?_⟩
    intro n typed
    have inside := index.known_static typed known
    omega
  · exact ⟨lowerable.unsigned rfl rfl (.lit _) (.of_width (Nat.le_refl _))
      (.lit (index.start_fits known)), .of_ty (Ty.ubit_ne_static _)⟩

theorem lowerable_maskedOffset (index : Banking.SettledIndex ctx env dim idx idx')
    (lowerable : Lowerable low idx') {offset : TypedExpr}
    (dynamic : Banking.staticBank? env idx' dim = .ok none)
    (addressed : Banking.maskedOffset idx' dim.bank = .ok offset) :
    Lowerable low offset ∧ Sized (bitsNeeded (dim.bank - 1)) offset := by
  have fits := index.length_fits dynamic
  obtain ⟨_, positive, _⟩ := Banking.splitsEvenly_iff.mp index.divided
  obtain ⟨_, rfl⟩ | ⟨_, rfl⟩ := Banking.maskedOffset_cases addressed
  · exact ⟨.lit 0, .lit (Word.capacity_pos _)⟩
  · exact ⟨lowerable.unsigned rfl rfl (.lit _) (.of_width (Nat.le_refl _)) (.lit (by omega)),
      .of_ty (Ty.ubit_ne_static _)⟩

theorem lowerable_bankTerm (index : Banking.SettledIndex ctx env dim idx idx')
    (lowerable : Lowerable low idx') {stride : Nat} {term : TypedExpr}
    (dynamic : Banking.staticBank? env idx' dim = .ok none)
    (chosen : Banking.bankTerm idx' dim.bank stride = .ok term) : Lowerable low term := by
  have fits := index.length_fits dynamic
  obtain ⟨_, positive, _⟩ := Banking.splitsEvenly_iff.mp index.divided
  have less : dim.bank.log2 < dim.bank := (Nat.log2_lt (by omega)).mpr Nat.lt_two_pow_self
  have shift : dim.bank.log2 < Word.capacity idx'.ty.width := Nat.lt_of_lt_of_le less fits
  obtain ⟨bank, divided, scaled⟩ := Banking.bankTerm_ok chosen
  have quotient : Lowerable low bank := by
    cases divided with
    | whole _ => exact lowerable
    | shifted => exact lowerable.unsigned rfl rfl (.lit _) (.of_width (Nat.le_refl _)) (.lit shift)
  rcases scaled with ⟨rfl, _⟩ | rfl
  · exact quotient
  · refine quotient.unsigned rfl rfl (.lit _) (.of_width ?_) (.of_width ?_)
    · rw [divided.width]
      exact Nat.le_add_right _ _
    · exact Nat.le_add_left _ _

/-! ### Accesses -/

variable {base : Nat} {dims : List Dim} {p : Banking.Placement}

theorem lowerable_addr (placed : Banking.SettledPlacement ctx env (Lowerable low) base dims p) :
    LowerableAll low p.addr (dims.map Dim.bank) := by
  induction placed with
  | done => exact .nil
  | known index lowerable known addressed _ ih =>
    obtain ⟨_, positive, _⟩ := Banking.splitsEvenly_iff.mp index.divided
    obtain ⟨offset, sized⟩ := lowerable_staticOffset index lowerable known addressed
    exact .cons positive offset sized ih
  | varying index lowerable dynamic _ _ addressed _ ih =>
    obtain ⟨_, positive, _⟩ := Banking.splitsEvenly_iff.mp index.divided
    obtain ⟨offset, sized⟩ := lowerable_maskedOffset index lowerable dynamic addressed
    exact .cons positive offset sized ih

theorem lowerable_terms (placed : Banking.SettledPlacement ctx env (Lowerable low) base dims p) :
    ∀ term ∈ p.terms, Lowerable low term := by
  induction placed with
  | done => exact List.forall_mem_nil _
  | known _ _ _ _ _ ih => exact ih
  | varying index lowerable dynamic _ chosen _ _ ih =>
    intro term member
    rcases List.mem_cons.mp member with rfl | later
    · exact lowerable_bankTerm index lowerable dynamic chosen
    · exact ih term later

theorem lowerable_sum {terms : List TypedExpr} {e sum : TypedExpr} (first : Lowerable low e)
    (others : ∀ term ∈ terms, Lowerable low term)
    (summed : terms.foldlM (Banking.widened .add) e = .ok sum) :
    Lowerable low sum ∧ (sum = e ∧ terms = [] ∨ ∀ n, sum.ty ≠ .static n) := by
  induction terms generalizing e with
  | nil =>
    cases summed
    exact ⟨first, .inl ⟨rfl, rfl⟩⟩
  | cons term terms ih =>
    rw [List.foldlM_cons] at summed
    obtain ⟨next, added, rest⟩ := bind_ok_iff.mp summed
    obtain ⟨lowerable, computed⟩ := first.widened_add (others term List.mem_cons_self) added
    obtain ⟨lowerableSum, same | computedSum⟩ :=
      ih lowerable (fun other member => others other (List.mem_cons_of_mem _ member)) rest
    · rw [same.1]
      exact ⟨lowerable, .inr computed⟩
    · exact ⟨lowerableSum, .inr computedSum⟩

/-- The number of a bank fits in the bits that number all banks. -/
theorem lowerable_selector (placed : Banking.SettledPlacement ctx env (Lowerable low) 0 dims p)
    (divided : Banking.Divided dims) {flat : TypedExpr}
    (summed : Banking.selector p.base p.terms = .ok flat) :
    Lowerable low flat ∧ Sized (bitsNeeded (Banking.bankTotal dims - 1)) flat := by
  have reach := lt_capacity_bitsNeeded (Banking.bankTotal dims - 1)
  have below := placed.base_lt divided
  have each := lowerable_terms placed
  have bounded (term : TypedExpr) (member : term ∈ p.terms) :
      Sized (bitsNeeded (Banking.bankTotal dims - 1)) term := by
    intro n typed
    have inside := placed.static_terms divided member typed
    omega
  rcases Banking.selector_cases summed with ⟨_, rfl⟩ | ⟨term, rest, sum, listed, folded, last⟩
  · exact ⟨.lit _, .lit (by omega)⟩
  · rw [listed] at each bounded
    obtain ⟨lowerable, shape⟩ := lowerable_sum (each term List.mem_cons_self)
      (fun other member => each other (List.mem_cons_of_mem _ member)) folded
    rcases last with ⟨_, rfl⟩ | added
    · refine ⟨lowerable, ?_⟩
      rcases shape with ⟨rfl, _⟩ | computed
      · exact bounded _ List.mem_cons_self
      · exact .of_ty computed
    · obtain ⟨lowerableFlat, computed⟩ := lowerable.widened_add (.lit _) added
      exact ⟨lowerableFlat, .of_ty computed⟩

end

section

variable {arrays names : List String} {ctx : Banking.Context} {rotors : List (String × TypedExpr)}
  {stage : Stage} {low : Env} {env : Banking.Env} {tctx : Typing.Context}

/-- The memories of an array are found under their names. -/
theorem Built.memories (built : Built arrays names ctx.rotations rotors stage low) {name : String}
    {elem : Ty} {dims : List Dim} (bound : stage.scope.types.get? name = some (.array elem dims)) :
    ∀ k, k < Banking.bankTotal dims → ∃ m,
      low.get? (Layout.memory ⟨name, elem, dims⟩ k) = some (.memory m) ∧
      m.sizes = dims.map Dim.bank ∧ m.width = elem.width := by
  obtain ⟨d, visible⟩ := Resolution.get?_of_types bound
  obtain ⟨storage, _, housed⟩ := built.houses.housed name _ d visible
  cases housed with
  | array count found shaped =>
    intro k inside
    have stored := List.getElem?_eq_getElem (count ▸ inside)
    exact ⟨_, found k _ stored, shaped _ (List.mem_of_getElem? stored)⟩

theorem lowerable_rotated (built : Built arrays names ctx.rotations rotors stage low)
    {array : String} {flat select : TypedExpr} {width : Nat} (lowerable : Lowerable low flat)
    (sized : Sized width flat)
    (selected : Banking.rotated (ctx.rotations.lookup array) flat = .ok select) :
    Lowerable low select ∧ Sized width select := by
  obtain ⟨_, rfl⟩ | ⟨r, ty, sum, rotation, _, added, wrapped⟩ := Banking.rotated_cases selected
  · exact ⟨lowerable, sized⟩
  · obtain ⟨rotor, _, turn⟩ := built.turns.lookup_some rotation
    obtain ⟨_, cell, _, _, _, found, _⟩ := turn.stored
    obtain ⟨lowerableSum, computed⟩ := lowerable.widened_add (.var ty (.inl ⟨cell, _, found⟩)) added
    obtain ⟨lowerableSelect, computedSelect⟩ := lowerableSum.wrap computed wrapped
    exact ⟨lowerableSelect, .of_ty computedSelect⟩

theorem lowerable_resolved (built : Built arrays names ctx.rotations rotors stage low)
    {name : String} {elem ty : Ty} {dims : List Dim} {writes : Bool} {p : Banking.Placement}
    {e : TypedExpr} (bound : stage.scope.types.get? name = some (.array elem dims))
    (divided : Banking.Divided dims)
    (placed : Banking.SettledPlacement ctx env (Lowerable low) 0 dims p)
    (resolved : Banking.ResolvedAs ctx name ⟨name, elem, dims⟩ ty writes p e) :
    Lowerable low e ∧ (writes = true → LowerableTarget low e elem.width) := by
  have memories := built.memories bound
  have addressed := lowerable_addr placed
  cases resolved with
  | @direct banks bank named _ _ found =>
    have inside : p.base < Banking.bankTotal dims := by
      have below := placed.base_lt divided
      omega
    have bankIs := Layout.getElem?_banks named inside
    rw [found, Option.some.injEq] at bankIs
    subst bankIs
    obtain ⟨m, stored, sizes, width⟩ := memories p.base inside
    rw [← sizes] at addressed
    refine ⟨.mem ty stored addressed, fun _ => ?_⟩
    rw [← width]
    exact .element ty stored addressed
  | @multiplexed banks flat select named reads varies summed selected =>
    obtain ⟨lowerableFlat, sizedFlat⟩ := lowerable_selector placed divided summed
    obtain ⟨lowerable, sized⟩ := lowerable_rotated built lowerableFlat sizedFlat selected
    refine ⟨?_, fun writes => by rw [writes] at reads; cases reads⟩
    have positive := Banking.bankTotal_pos divided
    have length := Layout.length_banks named
    have members : ∀ bank ∈ banks, ∃ m, low.get? bank = some (.memory m) ∧
        m.sizes = dims.map Dim.bank := by
      rw [Layout.banks_eq named]
      intro bank member
      obtain ⟨k, inside, rfl⟩ := List.mem_map.mp member
      obtain ⟨m, stored, sizes, _⟩ := memories k (List.mem_range.mp inside)
      exact ⟨m, stored, sizes⟩
    cases banks with
    | nil =>
      rw [List.length_nil] at length
      dsimp only at length
      omega
    | cons first banks =>
      obtain ⟨m, stored, sizes⟩ := members first List.mem_cons_self
      rw [← sizes] at addressed
      have last : Banking.bankTotal dims - 1 = banks.length := by
        rw [List.length_cons] at length
        dsimp only at length
        omega
      rw [last] at sized
      refine .muxRead ty stored ?_ lowerable sized addressed
      intro bank member
      obtain ⟨m, stored, _⟩ := members bank (List.mem_cons_of_mem _ member)
      exact ⟨m, stored⟩

/-! ### Expressions -/

theorem operatorWidths_numeric {op : BinOp} (family : op.isArithmetic = true ∨ op.isBitwise = true)
    (ty l r : Ty) : operatorWidths op ty l r = (ty.width, ty.width) := by
  cases op with
  | add | sub | mul | shl | shr | bitAnd => rfl
  | _ => rcases family with arithmetic | bitwise <;> contradiction

theorem operatorWidths_comparison {op : BinOp} (family : op.isComparison = true) (ty l r : Ty) :
    (operatorWidths op ty l r).1 = max l.width r.width := by
  rw [operatorWidths, if_pos family]

/-- An operation whose operands have the types that the checker asks for. -/
theorem lowerable_binop {op : BinOp} {lhs rhs : TypedExpr} {ty : Ty}
    (leftValue : Typing.ValueTy lhs.ty) (typed : binopType op lhs.ty rhs.ty = .ok ty)
    (left : Lowerable low lhs) (right : Lowerable low rhs) :
    Lowerable low (.binop ty op lhs rhs) := by
  cases binopType_cases typed with
  | folded _ _ _ _ => exact .folded _ op left right
  | logical _ isLeft isRight =>
    refine .binop nofun left right (.of_ty ?_) (.of_ty ?_) nofun
    · rw [isLeft]
      exact nofun
    · rw [isRight]
      exact nofun
  | boolEq _ isLeft isRight =>
    refine .binop nofun left right (.of_ty ?_) (.of_ty ?_) nofun
    · rw [isLeft]
      exact nofun
    · rw [isRight]
      exact nofun
  | comparison family joined =>
    refine .binop nofun left right (.of_width ?_) (.of_width ?_) nofun
    · rw [operatorWidths_comparison family]
      exact Nat.le_max_left _ _
    · rw [operatorWidths_comparison family]
      exact Nat.le_max_right _ _
  | numeric family _ joined =>
    have widths := operatorWidths_numeric family ty lhs.ty rhs.ty
    rcases numericJoin_cases joined with ⟨w, v, f, isLeft, isRight, rfl⟩ | ⟨_, _, rfl⟩
    · rw [isLeft] at leftValue
      have fraction := (Typing.storable_fix_iff.mp leftValue.storable_fix).2
      refine .binop nofun left right (.of_ty ?_) (.of_ty ?_) ?_
      · rw [isLeft]
        exact nofun
      · rw [isRight]
        exact nofun
      · rw [widths]
        intro _ f' same
        cases same
        exact Nat.le_trans fraction (Nat.le_max_left _ _)
    · refine .binop nofun left right (.of_width ?_) (.of_width ?_) nofun
      · rw [widths]
        exact Nat.le_max_left _ _
      · rw [widths]
        exact Nat.le_max_right _ _

theorem Built.readable (built : Built arrays names ctx.rotations rotors stage low) {name : String}
    {binding : Typing.Binding} (bound : stage.scope.types.get? name = some binding)
    (scalar : ∀ elem dims, binding ≠ .array elem dims) : Readable low name := by
  obtain ⟨d, visible⟩ := Resolution.get?_of_types bound
  obtain ⟨storage, _, housed⟩ := built.houses.housed name _ d visible
  cases housed with
  | scalar found => exact .inl ⟨_, _, found⟩
  | iterator found => exact .inr ⟨_, _, _, found⟩
  | array _ _ _ => exact absurd rfl (scalar _ _)

/-- A checked and settled expression that is read can be lowered. -/
theorem lowerable_read (built : Built arrays names ctx.rotations rotors stage low)
    (formed : Typing.WellFormed stage.scope.types) (agrees : Banking.Agrees stage.scope.types env) :
    (e : TypedExpr) → {e' : TypedExpr} → Typing.CheckedExpr tctx stage.scope.types e →
    Banking.ReadAs ctx env e e' → (∀ site ∈ Banking.sitesOf env e, site.Settled) → Lowerable low e'
  | .int _ _, _, .int n, .int _ _, _ => .int n
  | .bool _ _, _, .bool b, .bool _ _, _ => .bool _ b
  | .var ty name, _, .scalar bound, .var _ _, _ => .var ty (built.readable bound nofun)
  | .var ty name, _, .iterator bound, .var _ _, _ => .var ty (built.readable bound nofun)
  | .binop ty op lhs rhs, _, .binop left right typed, .binop leftRead rightRead, settled => by
    simp only [Banking.sitesOf, List.mem_append] at settled
    have lowerableLeft := lowerable_read built formed agrees lhs left leftRead fun site member =>
      settled site (.inl member)
    have lowerableRight := lowerable_read built formed agrees rhs right rightRead fun site member =>
      settled site (.inr member)
    rw [← leftRead.ty_eq, ← rightRead.ty_eq] at typed
    exact lowerable_binop (leftRead.ty_eq ▸ left.valueTy formed) typed lowerableLeft lowerableRight
  | .access _ array idxs, _, .access bound indices, .access found strided placed resolved,
      settled => by
    obtain rfl := agrees.layout_eq bound found
    have divided : Banking.Divided _ := (formed.array bound).2
    simp only [Banking.sitesOf, found] at settled
    have settledPlacement := Banking.settledPlacement_of_placed formed agrees indices divided settled
      (fun idx idx' member checked read settled =>
        lowerable_read built formed agrees idx checked read settled) strided placed
    exact (lowerable_resolved built bound divided settledPlacement resolved).1
termination_by e => sizeOf e
decreasing_by
  · simp only [TypedExpr.binop.sizeOf_spec]
    omega
  · simp only [TypedExpr.binop.sizeOf_spec]
    omega
  · have smaller := List.sizeOf_lt_of_mem member
    simp only [TypedExpr.access.sizeOf_spec]
    omega

/-- So can a target, to the bits of its type. -/
theorem lowerable_target (built : Built arrays names ctx.rotations rotors stage low)
    (formed : Typing.WellFormed stage.scope.types) (agrees : Banking.Agrees stage.scope.types env)
    {target target' : TypedExpr} (place : Typing.CheckedTarget tctx stage.scope.types target)
    (written : Banking.WrittenAs ctx env target target')
    (settled : ∀ site ∈ Banking.sitesOf env target, site.Settled) :
    LowerableTarget low target' target.ty.width ∧ target'.ty = target.ty := by
  cases place with
  | @register ty name bound =>
    cases written with
    | other _ =>
      obtain ⟨d, visible⟩ := Resolution.get?_of_types bound
      obtain ⟨storage, _, housed⟩ := built.houses.housed name _ d visible
      cases housed with
      | scalar found => exact ⟨.register ty found, rfl⟩
  | element checked =>
    cases written with
    | element found strided placed resolved =>
      cases checked with
      | access bound indices =>
        obtain rfl := agrees.layout_eq bound found
        have divided : Banking.Divided _ := (formed.array bound).2
        simp only [Banking.sitesOf, found] at settled
        have settledPlacement := Banking.settledPlacement_of_placed formed agrees indices divided
          settled (fun idx idx' _ checked read settled =>
            lowerable_read built formed agrees idx checked read settled) strided placed
        refine ⟨(lowerable_resolved built bound divided settledPlacement resolved).2 rfl, ?_⟩
        cases resolved <;> rfl
    | other notAccess => exact absurd rfl (notAccess _ _ _)

end

end Lowering

end BankedLoops
