import BankedLoops.Proofs.Compile
import BankedLoops.Proofs.Banking.Overflow

/-!
# Fractions and widths

The lowering of a checked program subtracts from the sizes of memories, from the bounds of loops and
from the widths of fixed-point operators. Sizes and bounds are those that the checker has seen. The
width of a reduction is that of the cell which its target leads to, so there the fraction fits only
because every name leads to the cells of its own declaration.
-/

namespace BankedLoops

variable {α β : Type}

theorem Permitted.onlyOverflow {f : Failure} (permitted : Permitted f) : OnlyOverflow f := by
  cases permitted <;> exact .error _

namespace Lowering

/-- A construction in which every subtraction has a result, whatever the workspace. -/
def Calm (x : Build α) : Prop := ∀ w, Bounded (x.run w)

theorem Builds.calm {x : Build α} (builds : Builds x) : Calm x :=
  fun w => builds.fails .overflow w

namespace Calm

theorem pure (a : α) : Calm (Pure.pure a : Build α) := (Builds.pure a).calm

theorem bind {x : Build α} {f : α → Build β} (first : Calm x) (rest : ∀ a, Calm (f a)) :
    Calm (x >>= f) :=
  fun w => fails_run_bind (first w) fun a v _ => rest a v

theorem throw (fault : InternalFault) : Calm (throwInternal fault : Build α) :=
  fun _ => .refuse (.error _)

theorem throw_bind (fault : InternalFault) (f : α → Build β) :
    Calm (throwInternal fault >>= f) :=
  fun w => fails_run_bind (throw fault w) fun _ _ ran => nomatch ran

/-- What follows may rely on the memory that was found. -/
theorem memoryOf_bind {low : Env} {name : String} {f : Memory → Build β}
    (rest : ∀ m, low.get? name = some (.memory m) → Calm (f m)) : Calm (memoryOf low name >>= f) := by
  unfold memoryOf
  split
  · next m found =>
    rw [pure_bind]
    exact rest m found
  · exact throw_bind _ _

end Calm

/-! ### Expressions -/

/-- The name leads to no memory with an empty dimension. -/
def Roomy (low : Env) (name : String) : Prop :=
  ∀ m, low.get? name = some (.memory m) → ∀ size ∈ m.sizes, 0 < size

mutual

/-- The fraction of a result is not longer than the result, and no memory that is read is empty. -/
def Whole (low : Env) : TypedExpr → Prop
  | .binop ty _ lhs rhs => (∀ f, ty.frac? = some f → f ≤ ty.width) ∧ Whole low lhs ∧ Whole low rhs
  | .mem _ mem addr => Roomy low mem ∧ WholeAll low addr
  | .muxRead _ banks select addr =>
    (∀ bank ∈ banks, Roomy low bank) ∧ Whole low select ∧ WholeAll low addr
  | _ => True

def WholeAll (low : Env) : List TypedExpr → Prop
  | [] => True
  | e :: es => Whole low e ∧ WholeAll low es

end

section

variable {low : Env}

theorem calm_constant (width value : Nat) : Calm (constant width value) := by
  unfold constant
  split
  · exact .throw_bind _ _
  · refine .bind Builds.get.calm fun w => ?_
    split
    · exact .pure _
    · exact .bind (builds_addPrimitive _ _ _).calm fun _ =>
        .bind (Builds.modify _).calm fun _ => .pure _

theorem calm_lowerCounted (count : Nat) {lower : AddressLowering} {sizes : List Nat} {w : Wiring}
    (calm : Calm (lower sizes w)) : Calm (lowerCounted count lower sizes w) := by
  unfold lowerCounted
  split
  · exact .throw_bind _ _
  · exact calm

/-- A way to lower addresses that is calm for memories without empty dimensions. -/
def CalmAddresses (addresses : AddressLowering) : Prop :=
  ∀ sizes, (∀ size ∈ sizes, 0 < size) → ∀ w, Calm (addresses sizes w)

theorem calm_readMemory (s : Setting) (pos : Nat) (reg : String) {mem : String}
    (roomy : Roomy low mem) {addresses : AddressLowering} (addressed : CalmAddresses addresses) :
    Calm (readMemory s low pos reg mem addresses) :=
  .memoryOf_bind fun m found => .bind (addressed m.sizes (roomy m found) _) fun _ =>
    (builds_finishRead _ _ _ _).calm

theorem calm_captureBanks (reg : String) (select : Pin) (width : Nat) (addrs : List Pin) (w : Wiring)
    (k : Nat) (banks : List String) :
    Calm (captureBanks low reg select width addrs w k banks) := by
  induction banks generalizing w k with
  | nil => exact .pure _
  | cons bank banks ih =>
    exact .memoryOf_bind fun m _ => .bind (builds_addPrimitive _ _ _).calm fun _ =>
      .bind (calm_constant _ _) fun _ => ih _ _

theorem calm_readBanks (s : Setting) (pos : Nat) (reg : String) {banks : List String}
    (roomy : ∀ bank ∈ banks, Roomy low bank) {select : Nat → Wiring → Build (Pin × Wiring)}
    {addresses : AddressLowering} (selected : ∀ width w, Calm (select width w))
    (addressed : CalmAddresses addresses) :
    Calm (readBanks s low pos reg banks select addresses) := by
  unfold readBanks
  split
  · exact .throw _
  · next first others =>
    refine .memoryOf_bind fun m found => ?_
    have last : Word.sub (first :: others).length 1 = .ok others.length :=
      Word.sub_eq_ok_iff.mpr ⟨Nat.le_add_left _ _, rfl⟩
    refine .bind (Builds.lift last).calm fun _ => .bind (selected _ _) fun _ => ?_
    refine .bind (addressed m.sizes (roomy first List.mem_cons_self m found) _) fun _ => ?_
    exact .bind (calm_captureBanks _ _ _ _ _ _ _) fun _ => (builds_finishRead _ _ _ _).calm

theorem calm_readName (s : Setting) (pos : Nat) (w : Wiring) (name : String) :
    Calm (readName s low pos w name) := by
  unfold readName
  split
  · exact .pure _
  · exact .pure _
  · exact .pure _
  · exact .throw _

mutual

/-- The only width that a fraction is taken from is that of the result. -/
theorem calm_lowerExpr (s : Setting) (pos : Nat) : (e : TypedExpr) → Whole low e →
    (width : Nat) → (w : Wiring) → Calm (lowerExpr s low pos width w e)
  | .int _ n, _, width, w => by
    rw [lowerExpr]
    exact .bind (calm_constant _ _) fun _ => .pure _
  | .bool _ b, _, width, w => by
    rw [lowerExpr]
    exact .bind (calm_constant _ _) fun _ => (builds_adapt _ _ _ _ _).calm
  | .var ty name, _, width, w => by
    rw [lowerExpr]
    exact .bind (calm_readName s pos w name) fun _ => (builds_adapt _ _ _ _ _).calm
  | .binop ty op lhs rhs, whole, width, w => by
    obtain ⟨fits, left, right⟩ := whole
    by_cases computed : ∀ n, ty ≠ .static n
    · rw [lowerExpr_computed computed]
      refine .bind (calm_lowerExpr s pos lhs left _ _) fun _ =>
        .bind (calm_lowerExpr s pos rhs right _ _) fun _ =>
        .bind (builds_addOperator _ _ ?_).calm fun _ => (builds_adapt _ _ _ _ _).calm
      intro f same
      split at same
      · next arithmetic =>
        rw [operatorWidths_numeric (.inl arithmetic)]
        exact fits f same
      · cases same
    · obtain ⟨n, rfl⟩ := not_forall_not.mp computed
      rw [lowerExpr]
      exact .bind (calm_constant _ _) fun _ => .pure _
  | .mem ty mem addr, whole, width, w => by
    obtain ⟨roomy, all⟩ := whole
    rw [lowerExpr]
    refine .bind (builds_addPrimitive _ _ _).calm fun _ => .bind (calm_readMemory s pos _ roomy
      fun sizes positive w => ?_) fun _ => (builds_adapt _ _ _ _ _).calm
    exact calm_lowerCounted _ (calm_lowerAddrs s pos addr all sizes positive w)
  | .muxRead ty banks select addr, whole, width, w => by
    obtain ⟨roomy, selected, all⟩ := whole
    rw [lowerExpr]
    refine .bind (builds_addPrimitive _ _ _).calm fun _ => .bind (calm_readBanks s pos _ roomy
      (calm_lowerExpr s pos select selected) fun sizes positive w => ?_) fun _ =>
      (builds_adapt _ _ _ _ _).calm
    exact calm_lowerCounted _ (calm_lowerAddrs s pos addr all sizes positive w)
  | .access _ array _, _, width, w => by
    rw [lowerExpr]
    exact .throw _
  | .app _ func _, _, width, w => by
    rw [lowerExpr]
    exact .throw _

theorem calm_lowerAddrs (s : Setting) (pos : Nat) : (es : List TypedExpr) → WholeAll low es →
    (sizes : List Nat) → (∀ size ∈ sizes, 0 < size) → (w : Wiring) →
    Calm (lowerAddrs s low pos w es sizes)
  | [], _, _, _, w => by
    rw [lowerAddrs]
    · exact .pure _
    · exact nofun
  | _ :: _, _, [], _, w => by
    rw [lowerAddrs]
    · exact .pure _
    · exact nofun
  | e :: es, whole, size :: sizes, positive, w => by
    obtain ⟨first, others⟩ := List.forall_mem_cons.mp positive
    have last : Word.sub size 1 = .ok (size - 1) := Word.sub_eq_ok_iff.mpr ⟨first, rfl⟩
    rw [lowerAddrs]
    exact .bind (Builds.lift last).calm fun _ => .bind (calm_lowerExpr s pos e whole.1 _ w) fun _ =>
      .bind (calm_lowerAddrs s pos es whole.2 sizes others _) fun _ => .pure _

end

/-! ### Statements -/

theorem calm_addressing (s : Setting) (pos : Nat) {addr : List TypedExpr} (all : WholeAll low addr) :
    CalmAddresses (addressing s low pos addr) :=
  fun sizes positive w => calm_lowerCounted _ (calm_lowerAddrs s pos addr all sizes positive w)

theorem calm_readInto (s : Setting) (pos : Nat) (reg : String) {e : TypedExpr}
    (whole : Whole low e) : Calm (readInto s low pos reg e) := by
  unfold readInto
  split
  · exact calm_readMemory s pos reg whole.1 (calm_addressing s pos whole.2)
  · obtain ⟨roomy, selected, all⟩ := whole
    exact calm_readBanks s pos reg roomy (calm_lowerExpr s pos _ selected) (calm_addressing s pos all)
  · exact .throw _

theorem calm_discard (s : Setting) (pos : Nat) {e : TypedExpr} (whole : Whole low e) :
    Calm (discard s low pos e) := by
  fun_induction discard s low pos e with
  | case1 _ _ lhs rhs left right =>
    obtain ⟨_, leftWhole, rightWhole⟩ := whole
    exact .bind (left leftWhole) fun _ => .bind (right rightWhole) fun _ => .pure _
  | case2 => exact .bind (builds_addPrimitive _ _ _).calm fun _ => calm_readInto s pos _ whole
  | case3 => exact .bind (builds_addPrimitive _ _ _).calm fun _ => calm_readInto s pos _ whole
  | case4 => exact .pure _

theorem calm_assignRegister (s : Setting) (pos : Nat) (reg : String) (width : Nat) (stem : String)
    {value : TypedExpr} (whole : Whole low value) :
    Calm (assignRegister s low pos reg width stem value) := by
  have latched : Calm (do
      let lowered ← lowerExpr s low pos width {} value
      let group ← freshName stem
      finishGroup s pos group (lowered.2.latch group reg lowered.1)) :=
    .bind (calm_lowerExpr s pos value whole _ _) fun _ => .bind (builds_freshName _).calm fun _ =>
      (builds_finishGroup _ _ _ _).calm
  unfold assignRegister
  split
  · split
    · exact .bind (calm_readInto s pos _ whole) fun _ => .pure _
    · exact latched
  · split
    · exact .bind (calm_readInto s pos _ whole) fun _ => .pure _
    · exact latched
  · exact latched

theorem calm_lowerCondition (s : Setting) (pos : Nat) {cond : TypedExpr} (whole : Whole low cond) :
    Calm (lowerCondition s low pos cond) := by
  refine .bind (calm_lowerExpr s pos cond whole _ _) ?_
  rintro ⟨pin, w⟩
  dsimp only
  split
  · exact .pure _
  · exact .bind (builds_freshName _).calm fun _ => .bind (builds_addGroup _ _ _).calm fun _ => .pure _

/-- A register or a memory element that the fraction of its type fits in. -/
inductive WholeTarget (low : Env) : TypedExpr → Prop where
  | register {ty : Ty} {name cell : String} {width : Nat}
      (found : low.get? name = some (.register cell width))
      (fits : ∀ f, ty.frac? = some f → f ≤ width) : WholeTarget low (.var ty name)
  | element {ty : Ty} {mem : String} {addr : List TypedExpr} {m : Memory}
      (found : low.get? mem = some (.memory m)) (positive : ∀ size ∈ m.sizes, 0 < size)
      (fits : ∀ f, ty.frac? = some f → f ≤ m.width) (all : WholeAll low addr) :
      WholeTarget low (.mem ty mem addr)

theorem WholeTarget.calm_update (s : Setting) (pos : Nat) {target value : TypedExpr}
    (place : WholeTarget low target) (whole : Whole low value) :
    Calm (lowerUpdate s low pos target value) := by
  cases place with
  | register found _ =>
    simp only [lowerUpdate, registerOf_eq found, pure_bind]
    exact calm_assignRegister s pos _ _ _ whole
  | element found positive _ all =>
    simp only [lowerUpdate, storeMemory, memoryOf_eq found, pure_bind]
    exact .bind (calm_addressing s pos all _ positive _) fun _ =>
      .bind (calm_lowerExpr s pos value whole _ _) fun _ => .bind (builds_freshName _).calm fun _ =>
      (builds_finishGroup _ _ _ _).calm

theorem WholeTarget.calm_reduce (s : Setting) (pos : Nat) (op : BinOp) {target value : TypedExpr}
    (place : WholeTarget low target) (whole : Whole low value) :
    Calm (lowerReduce s low pos op target value) := by
  cases place with
  | register found fits =>
    simp only [lowerReduce, reduceRegister, registerOf_eq found, pure_bind]
    exact .bind (calm_lowerExpr s pos value whole _ _) fun _ =>
      .bind (builds_addOperator _ _ fits).calm fun _ => .bind (builds_freshName _).calm fun _ =>
      (builds_finishGroup _ _ _ _).calm
  | element found positive fits all =>
    simp only [lowerReduce, reduceMemory, memoryOf_eq found, pure_bind]
    exact .bind (calm_addressing s pos all _ positive _) fun _ =>
      .bind (builds_addPrimitive _ _ _).calm fun _ => .bind (builds_freshName _).calm fun _ =>
      .bind (builds_addGroup _ _ _).calm fun _ =>
      .bind (calm_lowerExpr s pos value whole _ _) fun _ =>
      .bind (builds_addOperator _ _ fits).calm fun _ => .bind (builds_freshName _).calm fun _ =>
      .bind (builds_addGroup _ _ _).calm fun _ => .bind (builds_enableGroup _ _ _).calm fun _ =>
      .bind (builds_enableGroup _ _ _).calm fun _ => .pure _

theorem calm_bindArguments (params args : List String) : Calm (bindArguments low params args) := by
  fun_induction bindArguments low params args with
  | case1 param params arg args ih =>
    exact .memoryOf_bind fun _ _ => .bind ih fun _ => .pure _
  | case2 => exact .pure _

theorem calm_lowerCall (s : Setting) (pos : Nat) (func : String) (args : List String) :
    Calm (lowerCall s low pos func args) := by
  unfold lowerCall
  split
  · exact .throw _
  · split
    · exact .throw_bind _ _
    · exact .bind (calm_bindArguments _ _) fun _ => .bind (builds_instanceOf _).calm fun _ =>
        .bind (builds_quote _ _).calm fun _ => .pure _

end

/-! ### Split expressions -/

theorem whole_inherited (low : Env) : Inherited (Whole low) :=
  ⟨fun _ => trivial, fun _ _ _ _ left right => ⟨nofun, left, right⟩⟩

section

variable {arrays names : List String} {ctx : Banking.Context} {rotors : List (String × TypedExpr)}
  {stage : Stage} {low : Env} {env : Banking.Env} {tctx : Typing.Context}

theorem fraction_le_of_value {ty : Ty} (value : Typing.ValueTy ty) {f : Nat}
    (fixed : ty.frac? = some f) : f ≤ ty.width := by
  cases value with
  | stored storable => exact fraction_le storable fixed
  | literal _ => cases fixed
  | iterator _ _ => cases fixed

/-- The memories of a declared array have no empty dimension, and are as wide as its elements. -/
theorem Built.bank (built : Built arrays names ctx.rotations rotors stage low)
    (formed : Typing.WellFormed stage.scope.types) {name : String} {elem : Ty} {dims : List Dim}
    (bound : stage.scope.types.get? name = some (.array elem dims)) {banks : List String}
    (named : Layout.banks ⟨name, elem, dims⟩ = .ok banks) {bank : String} (member : bank ∈ banks) :
    ∃ m, low.get? bank = some (.memory m) ∧ (∀ size ∈ m.sizes, 0 < size) ∧ m.width = elem.width := by
  have divided : Banking.Divided dims := (formed.array bound).2
  rw [Layout.banks_eq named] at member
  obtain ⟨k, inside, rfl⟩ := List.mem_map.mp member
  obtain ⟨m, found, sizes, width⟩ := built.memories bound k (List.mem_range.mp inside)
  refine ⟨m, found, ?_, width⟩
  rw [sizes]
  intro size listed
  obtain ⟨dim, declared, rfl⟩ := List.mem_map.mp listed
  exact (Banking.splitsEvenly_iff.mp (divided dim declared)).2.1

theorem whole_resolved (built : Built arrays names ctx.rotations rotors stage low)
    (formed : Typing.WellFormed stage.scope.types) {name : String} {elem ty : Ty} {dims : List Dim}
    (bound : stage.scope.types.get? name = some (.array elem dims)) {writes : Bool}
    {p : Banking.Placement} {e : TypedExpr} (addr : WholeAll low p.addr)
    (terms : ∀ term ∈ p.terms, Whole low term)
    (resolved : Banking.ResolvedAs ctx name ⟨name, elem, dims⟩ ty writes p e) : Whole low e := by
  have roomy {banks : List String} (named : Layout.banks ⟨name, elem, dims⟩ = .ok banks)
      (bank : String) (member : bank ∈ banks) : Roomy low bank := by
    obtain ⟨m, found, positive, _⟩ := built.bank formed bound named member
    intro other same
    rw [found] at same
    cases same
    exact positive
  cases resolved with
  | direct named _ _ found => exact ⟨roomy named _ (List.mem_of_getElem? found), addr⟩
  | multiplexed named _ _ summed selected =>
    have flat := (whole_inherited low).selector terms summed
    exact ⟨roomy named, (whole_inherited low).rotated flat (fun _ _ => trivial) selected, addr⟩

mutual

/-- An expression of a checked program, split into banks. -/
theorem whole_read (built : Built arrays names ctx.rotations rotors stage low)
    (formed : Typing.WellFormed stage.scope.types) (agrees : Banking.Agrees stage.scope.types env) :
    {e e' : TypedExpr} → Typing.CheckedExpr tctx stage.scope.types e → Banking.ReadAs ctx env e e' →
    Whole low e'
  | _, _, _, .int .. => trivial
  | _, _, _, .bool .. => trivial
  | _, _, _, .var .. => trivial
  | _, _, checked@(.binop left right _), .binop leftRead rightRead =>
    ⟨fun _ fixed => fraction_le_of_value (checked.valueTy formed) fixed,
      whole_read built formed agrees left leftRead, whole_read built formed agrees right rightRead⟩
  | _, _, .access bound indices, .access found _ placed resolved => by
    obtain rfl := agrees.layout_eq bound found
    obtain ⟨addr, terms⟩ := whole_place built formed agrees indices placed
    exact whole_resolved built formed bound addr terms resolved

theorem whole_place (built : Built arrays names ctx.rotations rotors stage low)
    (formed : Typing.WellFormed stage.scope.types) (agrees : Banking.Agrees stage.scope.types env) :
    {base : Nat} → {declared : List Dim} → {idxs : List TypedExpr} → {dims : List (Dim × Nat)} →
    {p : Banking.Placement} → Typing.CheckedIndices tctx stage.scope.types declared idxs →
    Banking.PlacedAs ctx env base idxs dims p →
    WholeAll low p.addr ∧ ∀ term ∈ p.terms, Whole low term
  | _, _, _, _, _, _, .done _ => ⟨trivial, nofun⟩
  | _, _, _, _, _, .cons checked _ _ rest, .known value _ addressed others _ => by
    obtain ⟨addr, terms⟩ := whole_place built formed agrees rest others
    have index := whole_read built formed agrees checked value
    exact ⟨⟨(whole_inherited low).staticOffset index addressed, addr⟩, terms⟩
  | _, _, _, _, _, .cons checked _ _ rest, .varying value _ _ chosen addressed others => by
    obtain ⟨addr, terms⟩ := whole_place built formed agrees rest others
    have index := whole_read built formed agrees checked value
    exact ⟨⟨(whole_inherited low).maskedOffset index addressed, addr⟩,
      List.forall_mem_cons.mpr ⟨(whole_inherited low).bankTerm index chosen, terms⟩⟩

end

/-- A target of a checked program, split into banks. -/
theorem whole_target (built : Built arrays names ctx.rotations rotors stage low)
    (formed : Typing.WellFormed stage.scope.types) (agrees : Banking.Agrees stage.scope.types env)
    {target target' : TypedExpr} (place : Typing.CheckedTarget tctx stage.scope.types target)
    (written : Banking.WrittenAs ctx env target target') : WholeTarget low target' := by
  have storable := storable_target formed place
  cases place with
  | @register ty name bound =>
    cases written with
    | other _ =>
      obtain ⟨d, visible⟩ := Resolution.get?_of_types bound
      obtain ⟨storage, _, housed⟩ := built.houses.housed name _ d visible
      cases housed with
      | scalar found => exact .register found fun _ fixed => fraction_le storable fixed
  | element checked =>
    cases written with
    | element found _ placed resolved =>
      cases checked with
      | access bound indices =>
        obtain rfl := agrees.layout_eq bound found
        obtain ⟨addr, _⟩ := whole_place built formed agrees indices placed
        cases resolved with
        | direct named _ _ listed =>
          obtain ⟨m, stored, positive, width⟩ :=
            built.bank formed bound named (List.mem_of_getElem? listed)
          refine .element stored positive (fun f fixed => ?_) addr
          rw [width]
          exact fraction_le storable fixed
        | multiplexed _ reads => cases reads
    | other notAccess => exact absurd rfl (notAccess _ _ _)

/-! ### Commands -/

variable {s : Setting} {pos : Nat}

theorem Ready.whole (ready : Ready arrays names rotors s ctx tctx env stage low) {e e' : TypedExpr}
    (checked : Typing.CheckedExpr tctx stage.scope.types e) (read : Banking.ReadAs ctx env e e') :
    Whole low e' :=
  whole_read ready.built ready.formed ready.agrees checked read

/-- Commands for which every subtraction has a result, whatever their indices. -/
abbrev BoundsCommand (arrays names : List String) (rotors : List (String × TypedExpr)) (s : Setting)
    (ctx : Banking.Context) (env : Banking.Env) (cmd cmd' : TypedCommand) : Prop :=
  LowersCommand OnlyOverflow (fun _ => True) arrays names rotors s ctx env cmd cmd'

theorem bounds_define {name : String} {ty : Ty} {init init' : TypedExpr}
    (value : Banking.ReadAs ctx env init init') : BoundsCommand arrays names rotors s ctx env
      (.define pos name ty init) (.define pos name ty init') := by
  intro tctx stage types low checked ready bound array sites
  cases checked with
  | define checked _ _ _ =>
    rw [lowerCommand]
    refine fails_run_bind ((builds_addRegister _ _).fails .overflow _) fun _ _ _ => ?_
    exact fails_run_bind (calm_assignRegister s pos _ _ _ (ready.whole checked value) _)
      fun _ _ _ => fails_run_pure _ _

theorem bounds_update {target target' value value' : TypedExpr}
    (place : Banking.WrittenAs ctx env target target') (read : Banking.ReadAs ctx env value value') :
    BoundsCommand arrays names rotors s ctx env (.update pos target value)
      (.update pos target' value') := by
  intro tctx stage types low checked ready bound array sites
  cases checked with
  | update placeChecked checked _ =>
    have targetWhole := whole_target ready.built ready.formed ready.agrees placeChecked place
    rw [lowerCommand]
    exact fails_run_bind (targetWhole.calm_update s pos (ready.whole checked read) _) fun _ _ _ =>
      fails_run_pure _ _

theorem bounds_reduce {op : BinOp} {target target' value value' : TypedExpr}
    (place : Banking.WrittenAs ctx env target target') (read : Banking.ReadAs ctx env value value') :
    BoundsCommand arrays names rotors s ctx env (.reduce pos op target value)
      (.reduce pos op target' value') := by
  intro tctx stage types low checked ready bound array sites
  cases checked with
  | reduce placeChecked _ checked _ =>
    have targetWhole := whole_target ready.built ready.formed ready.agrees placeChecked place
    rw [lowerCommand]
    exact fails_run_bind (targetWhole.calm_reduce s pos op (ready.whole checked read) _) fun _ _ _ =>
      fails_run_pure _ _

theorem bounds_eval {e e' : TypedExpr} (value : Banking.ReadAs ctx env e e') :
    BoundsCommand arrays names rotors s ctx env (.eval pos e) (.eval pos e') := by
  intro tctx stage types low checked ready bound array sites
  cases checked with
  | call _ _ =>
    cases value with
    | app _ =>
      rw [lowerCommand]
      exact fails_run_bind (calm_lowerCall s pos _ _ _) fun _ _ _ => fails_run_pure _ _
  | eval checked =>
    rw [lowerCommand]
    · exact fails_run_bind (calm_discard s pos (ready.whole checked value) _) fun _ _ _ =>
        fails_run_pure _ _
    · exact value.ne_app checked.ne_app

theorem bounds_rotate {array : String} {rotation : Banking.Rotation} {step : TypedCommand}
    (rotated : ctx.rotations.lookup array = some rotation) (stepped : rotation.step pos = .ok step) :
    BoundsCommand arrays names rotors s ctx env (.advance pos array) step := by
  intro tctx stage types low checked ready bound array sites
  obtain ⟨rotor, _, turn⟩ := ready.built.turns.lookup_some rotated
  obtain ⟨_, cell, width, _, _, found, _⟩ := turn.stored
  obtain ⟨ty, typed, sum, added, next, wrapped, rfl⟩ := Banking.Rotation.step_update stepped
  cases Banking.Rotation.eq_of_ty typed
  have inherited := whole_inherited low
  have register : Whole low (.var (.ubit (bitsNeeded (rotation.banks - 1))) rotation.register) := trivial
  have whole := inherited.wrap (inherited.widened register (inherited.literal 1) added) wrapped
  have place : WholeTarget low (.var (.ubit (bitsNeeded (rotation.banks - 1))) rotation.register) :=
    .register found (by intro f same; cases same)
  rw [lowerCommand]
  exact fails_run_bind (place.calm_update s pos whole _) fun _ _ _ => fails_run_pure _ _

end

/-- Whatever its indices, a checked command subtracts nothing below zero. -/
theorem bounded_endings : Endings OnlyOverflow fun _ => True where
  permitted := fun _ => Permitted.onlyOverflow
  crowded := .overflow
  condition := fun pos _ _ ready value checked _ _ =>
    calm_lowerCondition _ pos (ready.whole checked value) _
  define := bounds_define
  update := bounds_update
  reduce := bounds_reduce
  eval := bounds_eval
  rotate := bounds_rotate

end Lowering

/-! ### Programs -/

/-- The lowering of a checked program without bank names subtracts nothing below zero. -/
theorem BankedProgram.bounded_toNetlist {statements : Statements} {p : TypedProgram}
    {banked : BankedProgram} (checked : Typing.CheckedProgram p) (clean : p.BankNameClean)
    (split : (p.toBanks statements).result = .ok banked) (config : Config) (described : Statements) :
    Bounded (banked.toNetlist config described).result :=
  fails_toNetlist Lowering.bounded_endings checked clean (fun _ _ _ _ _ _ => trivial)
    (fun _ _ _ _ _ _ => trivial) split config described

/-- No pass subtracts below zero or divides by zero. The checker does not for any program, the split
into banks does not for any program that is checked, and lowering does not for any such program
without names that look like those of banks: with such a name, the width of a reduction may be that
of another memory, and its fraction longer. -/
theorem bounded_passes (source : SourceProgram) :
    Bounded source.check.result ∧
      ∀ p, source.check.result = .ok p → ∀ statements, Bounded (p.toBanks statements).result ∧
        ∀ banked, (p.toBanks statements).result = .ok banked → p.BankNameClean →
          ∀ config described, Bounded (banked.toNetlist config described).result := by
  refine ⟨source.fails_check.mono fun _ => Typing.Blames.onlyOverflow, ?_⟩
  intro p checks statements
  have checked := Typing.checkedProgram_of_check checks
  refine ⟨Program.bounded_toBanks statements checked, ?_⟩
  intro banked split clean config described
  exact BankedProgram.bounded_toNetlist checked clean split config described

/-- Fixed-point reductions of a register and of an element in the second bank of an array:
`for (let i = 0..4) { x += a[i] * x; } a[3] += x;`. -/
def tally : SourceProgram where
  decls := [⟨0, "a", .array (.fix 32 16) [⟨4, 2⟩]⟩, ⟨1, "x", .fix 32 16⟩]
  defs := []
  body := some (.seq 2
    [.loop 3 ⟨"i", 0, 4, none⟩
      (.reduce 4 .add (.var "x") (.binop .mul (.access "a" [.var "i"]) (.var "x"))),
    .reduce 5 .add (.access "a" [.int 3]) (.var "x")])

def tallyTyped : TypedProgram where
  decls := tally.decls
  defs := []
  body := some (.seq 2
    [.loop 3 ⟨"i", 0, 4, none⟩
      (.reduce 4 .add (.var (.fix 32 16) "x") (.binop (.fix 32 16) .mul
        (.access (.fix 32 16) "a" [.var (.idx 4 none) "i"]) (.var (.fix 32 16) "x"))),
    .reduce 5 .add (.access (.fix 32 16) "a" [.lit 3]) (.var (.fix 32 16) "x")])

theorem tallyTyped_clean : tallyTyped.BankNameClean :=
  ⟨nofun, Banking.clean_of_short (by decide)⟩

/-- The fractions of the tally fit in the widths of their cells. -/
theorem bounded_passes_tally :
    tally.check.result = .ok tallyTyped ∧ tallyTyped.BankNameClean ∧
      ∃ banked, (tallyTyped.toBanks (.ofProgram tally)).result = .ok banked ∧
        Bounded (banked.toNetlist {} (.ofProgram tally)).result := by
  have checks : tally.check.result = .ok tallyTyped := rfl
  have splits : (tallyTyped.toBanks (.ofProgram tally)).result.isOk = true := by decide +kernel
  obtain ⟨banked, split⟩ := exists_ok_of_isOk splits
  obtain ⟨_, lowers⟩ := (bounded_passes tally).2 _ checks (.ofProgram tally)
  exact ⟨checks, tallyTyped_clean, banked, split, lowers banked split tallyTyped_clean {} _⟩

/-- A local array with the name of a bank of `a`, in front of a reduction of `a`:
`if (true) { decl a_b0: ubit<8>[2]; a[0] += x; }`. -/
def captured : SourceProgram where
  decls := tally.decls
  defs := []
  body := some (.branch 2 (.bool true) (.seq 3
    [.decl 4 "a_b0" (.array (.ubit 8) [⟨2, 2⟩]),
      .reduce 5 .add (.access "a" [.int 0]) (.var "x")]) none)

-- The reduction is built for the eight bits of the local array, less than the sixteen of the fraction.
example : ((captured.compile {}).result matches .error (.fault .underflow)) = true := by
  decide +kernel

end BankedLoops
