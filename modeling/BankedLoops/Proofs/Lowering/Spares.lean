import BankedLoops.Proofs.Lowering.Latencies
import BankedLoops.Proofs.Netlist.Rounds

/-!
# Cells that a command leaves alone

The groups of a command drive cells that it adds itself and cells that its environment lets it drive.
The register of a loop is neither for the body of the loop: a name of the environment leads to it, but
only to read it.
-/

namespace BankedLoops

namespace Lowering

/-- The cells behind a name that groups drive. The register of an iterator is only read. -/
def Store.targets : Store → List String
  | .register cell _ => [cell]
  | .iterator _ slice _ => slice.toList
  | .memory m => [m.cell]

/-- No name of the environment lets a group drive the cell. -/
def EnvSpares (cell : String) (env : Env) : Prop :=
  ∀ name store, env.get? name = some store → cell ∉ store.targets

namespace EnvSpares

variable {cell : String} {env : Env}

theorem enter (spares : EnvSpares cell env) : EnvSpares cell env.enter := spares

theorem rebind (spares : EnvSpares cell env) {store : Store} (other : cell ∉ store.targets)
    (name : String) : EnvSpares cell (env.rebind name store) := by
  intro visible found bound
  rw [Scope.get?_rebind] at bound
  split at bound
  · cases bound
    exact other
  · exact spares visible found bound

end EnvSpares

/-- No wire leads to the cell. -/
def Wiring.Spares (cell : String) (W : Wiring) : Prop :=
  ∀ a ∈ W.assigns, ∀ port, a.dst ≠ .cell cell port

namespace Wiring

variable {cell other : String} {W : Wiring}

theorem spares_empty (cell : String) : Wiring.Spares cell {} := nofun

namespace Spares

theorem assign (spares : W.Spares cell) (apart : other ≠ cell) (pin : String) (src : Atom)
    (guard : Guard) : (W.assign (.cell other pin) src guard).Spares cell := by
  intro a member port
  rcases mem_assign.mp member with old | rfl
  · exact spares a old port
  · exact fun same => apart (Pin.cell.inj same).1

theorem connect (spares : W.Spares cell) (apart : other ≠ cell) (pin : String) (src : Pin) :
    (W.connect (.cell other pin) src).Spares cell :=
  spares.assign apart pin (.pin src) .always

theorem done (spares : W.Spares cell) (group : String) (src : Pin) :
    (W.connect (.done group) src).Spares cell := by
  intro a member port
  rcases mem_assign.mp member with old | rfl
  · exact spares a old port
  · rintro ⟨⟩

theorem address (spares : W.Spares cell) (apart : other ≠ cell) (addrs : List Pin) (guard : Guard) :
    (W.address other addrs guard).Spares cell := by
  unfold Wiring.address
  induction addrs.zipIdx generalizing W with
  | nil => exact spares
  | cons entry entries ih => exact ih (spares.assign apart _ _ _)

theorem capture (spares : W.Spares cell) {mem reg : String} (memory : mem ≠ cell) (register : reg ≠ cell)
    (addrs : List Pin) (select : Guard) : (W.capture mem addrs select reg).Spares cell :=
  (((spares.address memory _ _).assign memory _ _ _).assign register _ _ _).assign register _ _ _

theorem latch (spares : W.Spares cell) (apart : other ≠ cell) (group : String) (data : Pin) :
    (W.latch group other data).Spares cell :=
  ((spares.connect apart _ _).assign apart _ _ _).done _ _

theorem store (spares : W.Spares cell) (apart : other ≠ cell) (group : String) (addrs : List Pin)
    (data : Pin) : (W.store group other addrs data).Spares cell :=
  (((spares.address apart _ _).connect apart _ _).assign apart _ _ _).done _ _

theorem after (spares : W.Spares cell) (controls : List Control) : (W.after controls).Spares cell :=
  spares

end Spares

end Wiring

/-! ### Constructions -/

/-- Once the name of the cell is taken, no group that the construction closes drives the cell, and its
result satisfies `P`. -/
def Spares {α : Type} (cell : String) (x : Build α) (P : α → Prop) : Prop :=
  ∀ w a w', cell ∈ w.names.used → x.run w = .ok (a, w') →
    cell ∈ w'.names.used ∧ (∀ g ∈ w'.groups, g ∈ w.groups ∨ g.Spares cell) ∧ P a

namespace Spares

variable {α β : Type} {cell : String} {P : α → Prop} {Q : β → Prop}

theorem pure {a : α} (holds : P a) : Spares cell (Pure.pure a) P := by
  intro w b w' taken ran
  obtain ⟨rfl, rfl⟩ := run_pure_ok_iff.mp ran
  exact ⟨taken, fun _ => .inl, holds⟩

theorem bind {x : Build α} {f : α → Build β} (first : Spares cell x P)
    (rest : ∀ a, P a → Spares cell (f a) Q) : Spares cell (x >>= f) Q := by
  intro w b w'' taken ran
  obtain ⟨a, w', ranFirst, ranRest⟩ := run_bind_ok_iff.mp ran
  obtain ⟨kept, early, holds⟩ := first w a w' taken ranFirst
  obtain ⟨still, late, result⟩ := rest a holds w' b w'' kept ranRest
  exact ⟨still, fun g member => (late g member).elim (early g) .inr, result⟩

theorem lift (x : Except Fault α) : Spares cell (liftM x) fun _ => True := by
  intro w a w' taken ran
  obtain ⟨_, rfl⟩ := run_lift_ok_iff.mp ran
  exact ⟨taken, fun _ => .inl, trivial⟩

theorem throwInternal (fault : InternalFault) : Spares cell (throwInternal fault : Build α) P := by
  rintro w a w' _ ⟨⟩

theorem throw_bind (fault : InternalFault) (f : α → Build β) :
    Spares cell (Lowering.throwInternal fault >>= f) Q := by
  rintro w a w' _ ⟨⟩

theorem get : Spares cell (MonadState.get : Build Workspace) fun _ => True := by
  rintro w a w' taken ⟨⟩
  exact ⟨taken, fun _ => .inl, trivial⟩

/-- A construction that takes no name and closes no group. -/
theorem of_groups {x : Build α} (same : ∀ w a w', x.run w = .ok (a, w') →
    w'.names = w.names ∧ w'.groups = w.groups) : Spares cell x fun _ => True := by
  intro w a w' taken ran
  obtain ⟨names, groups⟩ := same w a w' ran
  rw [names, groups]
  exact ⟨taken, fun _ => .inl, trivial⟩

/-- A new name is not the name of the cell. -/
theorem of_takes {x : Build String} (takes : ∀ w name w', x.run w = .ok (name, w') →
    Takes w name w') : Spares cell x fun name => name ≠ cell := by
  intro w name w' taken ran
  obtain ⟨new, used, space⟩ := takes w name w' ran
  have groups : w'.groups = w.groups := by rw [space]
  rw [used, groups]
  refine ⟨List.mem_cons_of_mem _ taken, fun _ => .inl, ?_⟩
  rintro rfl
  exact new taken

theorem addGroup {name : String} {latency : Option Nat} {assignments : List Assignment}
    (spares : ∀ a ∈ assignments, ∀ port, a.dst ≠ .cell cell port) :
    Spares cell (addGroup name latency assignments) fun _ => True := by
  rintro w _ _ taken ⟨⟩
  refine ⟨taken, fun g member => ?_, trivial⟩
  rcases List.mem_append.mp member with old | new
  · exact .inl old
  · rw [List.mem_singleton.mp new]
    exact .inr spares

end Spares

section

variable {cell : String}

/-! ### Cells -/

theorem spares_freshName (stem : String) : Spares cell (freshName stem) fun name => name ≠ cell :=
  .of_takes fun _ _ _ => freshName_takes

theorem spares_uniqueName (base : String) : Spares cell (uniqueName base) fun name => name ≠ cell :=
  .of_takes fun _ _ _ => uniqueName_takes

theorem spares_addCell (c : Cell) : Spares cell (addCell c) fun _ => True :=
  .of_groups fun _ _ _ ran => by
    cases ran
    exact ⟨rfl, rfl⟩

theorem spares_addPrimitive (stem primitive : String) (params : List Nat) :
    Spares cell (addPrimitive stem primitive params) fun name => name ≠ cell :=
  .bind (spares_freshName _) fun _ apart => .bind (spares_addCell _) fun _ _ => .pure apart

theorem spares_addRegister (base : String) (width : Nat) :
    Spares cell (addRegister base width) fun name => name ≠ cell :=
  .bind (spares_uniqueName _) fun _ apart => .bind (spares_addCell _) fun _ _ => .pure apart

theorem spares_constant (width value : Nat) : Spares cell (constant width value) fun _ => True := by
  unfold constant
  split
  · exact .throw_bind _ _
  · refine .bind .get fun w _ => ?_
    split
    · exact .pure trivial
    · refine .bind (spares_addPrimitive _ _ _) fun _ _ => .bind (P := fun _ => True) ?_
        fun _ _ => .pure trivial
      exact .of_groups fun _ _ _ ran => by
        cases ran
        exact ⟨rfl, rfl⟩

theorem spares_instanceOf (func : String) : Spares cell (instanceOf func) fun _ => True := by
  refine .bind .get fun w _ => ?_
  split
  · exact .pure trivial
  · refine .bind (spares_freshName _) fun _ _ => .bind (spares_addCell _) fun _ _ => ?_
    refine .bind (P := fun _ => True) ?_ fun _ _ => .pure trivial
    exact .of_groups fun _ _ _ ran => by
      cases ran
      exact ⟨rfl, rfl⟩

theorem spares_addOperator (op : BinOp) (width : Nat) (signed : Bool) (frac : Option Nat) :
    Spares cell (addOperator op width signed frac) fun name => name ≠ cell :=
  .bind (.lift _) fun _ _ => spares_addPrimitive _ _ _

theorem spares_adapt {W : Wiring} (spares : W.Spares cell) (pin : Pin) (width target : Nat)
    (signed : Bool) : Spares cell (adapt W pin width target signed) fun r => r.2.Spares cell := by
  unfold adapt
  split
  · exact .pure spares
  · exact .bind (spares_addPrimitive _ _ _) fun _ apart => .pure (spares.connect apart _ _)

/-! ### Names -/

variable {env : Env}

theorem spares_memoryOf (visible : EnvSpares cell env) (name : String) :
    Spares cell (memoryOf env name) fun m => m.cell ≠ cell := by
  unfold memoryOf
  split
  · next found =>
    refine .pure fun same => visible name _ found ?_
    exact same ▸ List.mem_cons_self
  · exact .throwInternal _

theorem spares_registerOf (visible : EnvSpares cell env) (name : String) :
    Spares cell (registerOf env name) fun r => r.1 ≠ cell := by
  unfold registerOf
  split
  · next found =>
    refine .pure fun same => visible name _ found ?_
    exact same ▸ List.mem_cons_self
  · exact .throwInternal _

theorem spares_readName (visible : EnvSpares cell env) (s : Setting) (pos : Nat) {W : Wiring}
    (spares : W.Spares cell) (name : String) :
    Spares cell (readName s env pos W name) fun r => r.2.2.Spares cell := by
  unfold readName
  split
  · exact .pure spares
  · exact .pure spares
  · next slice _ found =>
    have apart : slice ≠ cell := fun same => visible name _ found (same ▸ List.mem_cons_self)
    exact .pure (spares.connect apart _ _)
  · exact .throwInternal _

theorem spares_quote (s : Setting) (pos : Nat) : Spares cell (quote s pos) fun _ => True := by
  rintro w _ _ taken ⟨⟩
  exact ⟨taken, fun _ => .inl, trivial⟩

theorem spares_enableGroup (s : Setting) (group : String) (pos : Nat) :
    Spares cell (enableGroup s group pos) fun _ => True :=
  .bind (spares_quote s pos) fun _ _ => .pure trivial

/-! ### Expressions -/

theorem spares_finishRead (s : Setting) (pos : Nat) (reg : String) {W : Wiring}
    (spares : W.Spares cell) : Spares cell (finishRead s pos reg W) fun _ => True :=
  .bind (spares_freshName _) fun _ _ => .bind (.addGroup (spares.done _ _)) fun _ _ =>
    .bind (spares_enableGroup _ _ _) fun _ _ => .pure trivial

/-- Addresses whose wires leave the cell alone. -/
def SparesAddresses (cell : String) (lower : AddressLowering) : Prop :=
  ∀ sizes (W : Wiring), W.Spares cell → Spares cell (lower sizes W) fun r => r.2.Spares cell

theorem spares_lowerCounted {count : Nat} {lower : AddressLowering}
    (spares : SparesAddresses cell lower) : SparesAddresses cell (lowerCounted count lower) := by
  intro sizes W wires
  unfold lowerCounted
  split
  · exact .throw_bind _ _
  · exact spares sizes W wires

theorem spares_readMemory (visible : EnvSpares cell env) (s : Setting) (pos : Nat) {reg : String}
    (apart : reg ≠ cell) (mem : String) {addresses : AddressLowering}
    (spares : SparesAddresses cell addresses) :
    Spares cell (readMemory s env pos reg mem addresses) fun _ => True :=
  .bind (spares_memoryOf visible _) fun _ memory =>
    .bind (spares _ _ (Wiring.spares_empty cell)) fun _ wires =>
    spares_finishRead _ _ _ (wires.capture memory apart _ _)

theorem spares_captureBanks (visible : EnvSpares cell env) {reg : String} (apart : reg ≠ cell)
    (select : Pin) (width : Nat) (addrs : List Pin) {W : Wiring} (spares : W.Spares cell) (k : Nat)
    (banks : List String) :
    Spares cell (captureBanks env reg select width addrs W k banks) (Wiring.Spares cell) := by
  induction banks generalizing W k with
  | nil => exact .pure spares
  | cons bank banks ih =>
    exact .bind (spares_memoryOf visible _) fun _ memory => .bind (spares_addPrimitive _ _ _)
      fun _ compared => .bind (spares_constant _ _) fun _ _ =>
      ih (((spares.connect compared _ _).connect compared _ _).capture memory apart _ _) _

theorem spares_readBanks (visible : EnvSpares cell env) (s : Setting) (pos : Nat) {reg : String}
    (apart : reg ≠ cell) (banks : List String) {select : Nat → Wiring → Build (Pin × Wiring)}
    {addresses : AddressLowering}
    (selects : ∀ width (W : Wiring), W.Spares cell →
      Spares cell (select width W) fun r => r.2.Spares cell)
    (spares : SparesAddresses cell addresses) :
    Spares cell (readBanks s env pos reg banks select addresses) fun _ => True := by
  unfold readBanks
  split
  · exact .throwInternal _
  · exact .bind (spares_memoryOf visible _) fun _ _ => .bind (.lift _) fun _ _ =>
      .bind (selects _ _ (Wiring.spares_empty cell)) fun _ wires => .bind (spares _ _ wires)
      fun _ wires => .bind (spares_captureBanks visible apart _ _ _ wires _ _) fun _ wires =>
      spares_finishRead _ _ _ wires

mutual

theorem spares_lowerExpr (visible : EnvSpares cell env) (s : Setting) (pos width : Nat) {W : Wiring}
    (spares : W.Spares cell) : (e : TypedExpr) →
      Spares cell (lowerExpr s env pos width W e) fun r => r.2.Spares cell
  | .int _ _ => by
    unfold lowerExpr
    exact .bind (spares_constant _ _) fun _ _ => .pure spares
  | .bool _ _ => by
    unfold lowerExpr
    exact .bind (spares_constant _ _) fun _ _ => spares_adapt spares _ _ _ _
  | .var _ _ => by
    unfold lowerExpr
    exact .bind (spares_readName visible _ _ spares _) fun _ wires => spares_adapt wires _ _ _ _
  | .binop ty op lhs rhs => by
    rcases ty.static_or with ⟨n, rfl⟩ | computed
    · rw [lowerExpr]
      exact .bind (spares_constant _ _) fun _ _ => .pure spares
    · rw [lowerExpr_computed computed]
      exact .bind (spares_lowerExpr visible s pos _ spares lhs) fun _ wires =>
        .bind (spares_lowerExpr visible s pos _ wires rhs) fun _ wires =>
        .bind (spares_addOperator _ _ _ _) fun _ apart =>
        spares_adapt ((wires.connect apart _ _).connect apart _ _) _ _ _ _
  | .mem ty mem addr => by
    unfold lowerExpr
    exact .bind (spares_addPrimitive _ _ _) fun _ apart =>
      .bind (spares_readMemory visible _ _ apart _ (spares_lowerCounted fun sizes _ wires =>
        spares_lowerAddrs visible s pos wires addr sizes)) fun _ _ =>
      spares_adapt (spares.after _) _ _ _ _
  | .muxRead ty banks select addr => by
    unfold lowerExpr
    exact .bind (spares_addPrimitive _ _ _) fun _ apart =>
      .bind (spares_readBanks visible _ _ apart _
        (fun width _ wires => spares_lowerExpr visible s pos width wires select)
        (spares_lowerCounted fun sizes _ wires =>
          spares_lowerAddrs visible s pos wires addr sizes)) fun _ _ =>
      spares_adapt (spares.after _) _ _ _ _
  | .access _ _ _ => by
    unfold lowerExpr
    exact .throwInternal _
  | .app _ _ _ => by
    unfold lowerExpr
    exact .throwInternal _

theorem spares_lowerAddrs (visible : EnvSpares cell env) (s : Setting) (pos : Nat) {W : Wiring}
    (spares : W.Spares cell) : (es : List TypedExpr) → (sizes : List Nat) →
      Spares cell (lowerAddrs s env pos W es sizes) fun r => r.2.Spares cell
  | [], _ => by
    unfold lowerAddrs
    exact .pure spares
  | _ :: _, [] => by
    unfold lowerAddrs
    exact .pure spares
  | e :: es, size :: sizes => by
    unfold lowerAddrs
    exact .bind (.lift _) fun _ _ => .bind (spares_lowerExpr visible s pos _ spares e) fun _ wires =>
      .bind (spares_lowerAddrs visible s pos wires es sizes) fun _ wires => .pure wires

end

theorem spares_addressing (visible : EnvSpares cell env) (s : Setting) (pos : Nat)
    (addr : List TypedExpr) : SparesAddresses cell (addressing s env pos addr) :=
  spares_lowerCounted fun sizes _ wires => spares_lowerAddrs visible s pos wires addr sizes

theorem spares_readInto (visible : EnvSpares cell env) (s : Setting) (pos : Nat) {reg : String}
    (apart : reg ≠ cell) (e : TypedExpr) : Spares cell (readInto s env pos reg e) fun _ => True := by
  unfold readInto
  split
  · exact spares_readMemory visible _ _ apart _ (spares_addressing visible _ _ _)
  · exact spares_readBanks visible _ _ apart _
      (fun _ _ wires => spares_lowerExpr visible _ _ _ wires _) (spares_addressing visible _ _ _)
  · exact .throwInternal _

theorem spares_discard (visible : EnvSpares cell env) (s : Setting) (pos : Nat) (e : TypedExpr) :
    Spares cell (discard s env pos e) fun _ => True := by
  fun_induction discard s env pos e with
  | case1 _ _ lhs rhs left right =>
    exact .bind left fun _ _ => .bind right fun _ _ => .pure trivial
  | case2 =>
    exact .bind (spares_addPrimitive _ _ _) fun _ apart => spares_readInto visible _ _ apart _
  | case3 =>
    exact .bind (spares_addPrimitive _ _ _) fun _ apart => spares_readInto visible _ _ apart _
  | case4 => exact .pure trivial

/-! ### Commands -/

theorem spares_finishGroup (s : Setting) (pos : Nat) (group : String) {W : Wiring}
    (spares : W.Spares cell) : Spares cell (finishGroup s pos group W) fun _ => True :=
  .bind (.addGroup spares) fun _ _ => .bind (spares_enableGroup _ _ _) fun _ _ => .pure trivial

theorem spares_assignRegister (visible : EnvSpares cell env) (s : Setting) (pos : Nat) {reg : String}
    (apart : reg ≠ cell) (width : Nat) (stem : String) (value : TypedExpr) :
    Spares cell (assignRegister s env pos reg width stem value) fun _ => True := by
  have latched : Spares cell (do
      let lowered ← lowerExpr s env pos width {} value
      let group ← freshName stem
      finishGroup s pos group (lowered.2.latch group reg lowered.1)) fun _ => True :=
    .bind (spares_lowerExpr visible _ _ _ (Wiring.spares_empty cell) _) fun _ wires =>
      .bind (spares_freshName _) fun _ _ => spares_finishGroup _ _ _ (wires.latch apart _ _)
  have captured : Spares cell (do
      return Control.sequence (← readInto s env pos reg value)) fun _ => True :=
    .bind (spares_readInto visible _ _ apart _) fun _ _ => .pure trivial
  unfold assignRegister
  split
  · split
    · exact captured
    · exact latched
  · split
    · exact captured
    · exact latched
  · exact latched

theorem spares_storeMemory (visible : EnvSpares cell env) (s : Setting) (pos : Nat) (mem : String)
    (addr : List TypedExpr) (value : TypedExpr) :
    Spares cell (storeMemory s env pos mem addr value) fun _ => True :=
  .bind (spares_memoryOf visible _) fun _ memory =>
    .bind (spares_addressing visible _ _ _ _ _ (Wiring.spares_empty cell)) fun _ wires =>
    .bind (spares_lowerExpr visible _ _ _ wires _) fun _ wires => .bind (spares_freshName _) fun _ _ =>
    spares_finishGroup _ _ _ (wires.store memory _ _ _)

theorem spares_reduceRegister (visible : EnvSpares cell env) (s : Setting) (pos : Nat) (op : BinOp)
    (ty : Ty) {reg : String} (apart : reg ≠ cell) (width : Nat) (value : TypedExpr) :
    Spares cell (reduceRegister s env pos op ty reg width value) fun _ => True :=
  .bind (spares_lowerExpr visible _ _ _ (Wiring.spares_empty cell) _) fun _ wires =>
    .bind (spares_addOperator _ _ _ _) fun _ operator => .bind (spares_freshName _) fun _ _ =>
    spares_finishGroup _ _ _
      (((wires.connect operator _ _).connect operator _ _).latch apart _ _)

theorem spares_reduceMemory (visible : EnvSpares cell env) (s : Setting) (pos : Nat) (op : BinOp)
    (ty : Ty) (mem : String) (addr : List TypedExpr) (value : TypedExpr) :
    Spares cell (reduceMemory s env pos op ty mem addr value) fun _ => True := by
  refine .bind (spares_memoryOf visible _) fun m memory => ?_
  refine .bind (spares_addressing visible _ _ _ _ _ (Wiring.spares_empty cell))
    fun r (wires : r.2.Spares cell) => ?_
  have bare : Wiring.Spares cell { assigns := r.2.assigns } := wires
  refine .bind (spares_addPrimitive _ _ _) fun old register => .bind (spares_freshName _) fun _ _ => ?_
  refine .bind (.addGroup ((bare.capture memory register _ _).done _ _)) fun _ _ => ?_
  refine .bind (spares_lowerExpr visible _ _ _ bare _) fun _ wires => ?_
  refine .bind (spares_addOperator _ _ _ _) fun _ operator => .bind (spares_freshName _) fun _ _ => ?_
  refine .bind (.addGroup (((wires.connect operator _ _).connect operator _ _).store memory _ _ _))
    fun _ _ => ?_
  exact .bind (spares_enableGroup _ _ _) fun _ _ => .bind (spares_enableGroup _ _ _) fun _ _ => .pure trivial

theorem spares_lowerUpdate (visible : EnvSpares cell env) (s : Setting) (pos : Nat)
    (target value : TypedExpr) : Spares cell (lowerUpdate s env pos target value) fun _ => True := by
  unfold lowerUpdate
  split
  · exact .bind (spares_registerOf visible _) fun _ apart =>
      spares_assignRegister visible _ _ apart _ _ _
  · exact spares_storeMemory visible _ _ _ _ _
  · exact .throwInternal _

theorem spares_lowerReduce (visible : EnvSpares cell env) (s : Setting) (pos : Nat) (op : BinOp)
    (target value : TypedExpr) :
    Spares cell (lowerReduce s env pos op target value) fun _ => True := by
  unfold lowerReduce
  split
  · exact .bind (spares_registerOf visible _) fun _ apart =>
      spares_reduceRegister visible _ _ _ _ apart _ _
  · exact spares_reduceMemory visible _ _ _ _ _ _ _
  · exact .throwInternal _

theorem spares_lowerCondition (visible : EnvSpares cell env) (s : Setting) (pos : Nat)
    (cond : TypedExpr) : Spares cell (lowerCondition s env pos cond) fun _ => True := by
  refine .bind (spares_lowerExpr visible _ _ _ (Wiring.spares_empty cell) _) fun driven wires => ?_
  show Spares cell (if driven.2.assigns.isEmpty = true then _ else _) _
  split
  · exact .pure trivial
  · exact .bind (spares_freshName _) fun _ _ => .bind (.addGroup wires) fun _ _ => .pure trivial

theorem spares_bindArguments (visible : EnvSpares cell env) (params args : List String) :
    Spares cell (bindArguments env params args) fun _ => True := by
  fun_induction bindArguments env params args with
  | case1 param params arg args ih =>
    exact .bind (spares_memoryOf visible _) fun _ _ => .bind ih fun _ _ => .pure trivial
  | case2 => exact .pure trivial

theorem spares_lowerCall (visible : EnvSpares cell env) (s : Setting) (pos : Nat) (func : String)
    (args : List String) : Spares cell (lowerCall s env pos func args) fun _ => True := by
  unfold lowerCall
  split
  · exact .throwInternal _
  · dsimp only
    split
    · exact .throw_bind _ _
    · exact .bind (spares_bindArguments visible _ _) fun _ _ =>
        .bind (spares_instanceOf _) fun _ _ => .bind (spares_quote _ _) fun _ _ => .pure trivial

theorem spares_addInit (iter : String) {reg : String} (apart : reg ≠ cell) (width start : Nat) :
    Spares cell (addInit iter reg width start) fun _ => True :=
  .bind (spares_uniqueName _) fun _ _ => .bind (spares_constant _ _) fun _ _ =>
    .bind (.addGroup (by simp [apart, Pin.done])) fun _ _ => .pure trivial

theorem spares_addCond (iter reg : String) (width stop : Nat) :
    Spares cell (addCond iter reg width stop) fun _ => True :=
  .bind (spares_uniqueName _) fun _ _ => .bind (spares_addPrimitive _ _ _) fun _ compared =>
    .bind (spares_constant _ _) fun _ _ => .bind (.addGroup (by simp [compared])) fun _ _ =>
    .pure trivial

theorem spares_addIncr (iter : String) {reg : String} (apart : reg ≠ cell) (width : Nat) :
    Spares cell (addIncr iter reg width) fun _ => True :=
  .bind (spares_uniqueName _) fun _ _ => .bind (spares_addPrimitive _ _ _) fun _ added =>
    .bind (spares_constant _ _) fun _ _ =>
    .bind (.addGroup (by simp [apart, added, Pin.done])) fun _ _ => .pure trivial

/-- A loop drives its own register and slice. -/
theorem spares_addLoop (h : LoopHeader) : Spares cell (addLoop h) fun frame =>
    cell ∉ (Store.iterator frame.reg frame.slice frame.width).targets := by
  have counts {reg : String} (apart : reg ≠ cell) (slice : Option String) (other : cell ∉ slice.toList)
      (last : Nat) : Spares cell (do
      let init ← addInit h.iter reg (bitsNeeded h.stop) h.start
      let cond ← addCond h.iter reg (bitsNeeded h.stop) h.stop
      let incr ← addIncr h.iter reg (bitsNeeded h.stop)
      pure (LoopFrame.mk reg slice (bitsNeeded last) init cond.1 cond.2 incr)) fun frame =>
        cell ∉ (Store.iterator frame.reg frame.slice frame.width).targets :=
    .bind (spares_addInit _ apart _ _) fun _ _ => .bind (spares_addCond _ _ _ _) fun _ _ =>
      .bind (spares_addIncr _ apart _) fun _ _ => .pure other
  refine .bind (.lift _) fun last _ => .bind (spares_addRegister _ _) fun reg apart => ?_
  split
  · rw [map_eq_pure_bind, bind_assoc]
    refine .bind (spares_addPrimitive _ _ _) fun slice narrowed => ?_
    exact counts apart (some slice) (by simpa using narrowed.symm) last
  · exact counts apart none (by simp) last

theorem spares_memoryName (s : Setting) (d : Decl) (exposure : Exposure) :
    Spares cell (memoryName s d exposure) fun name => name ≠ cell :=
  .of_takes fun _ _ _ => memoryName_takes

theorem spares_declare (visible : EnvSpares cell env) (s : Setting) (d : Decl) (exposure : Exposure) :
    Spares cell (declare s env d exposure) (EnvSpares cell) := by
  unfold declare
  split
  · dsimp only
    split
    · rintro w a w' _ ⟨⟩
    · exact .bind (spares_memoryName _ _ _) fun _ apart => .bind (.lift _) fun _ _ =>
        .bind (spares_addCell _) fun _ _ =>
        .pure (visible.rebind (by simpa [Store.targets] using apart.symm) _)
  · exact .bind (spares_addRegister _ _) fun _ apart =>
      .pure (visible.rebind (by simpa [Store.targets] using apart.symm) _)

end

section

variable {cell : String} (s : Setting)

mutual

/-- No group of a command drives a cell that was there before, unless a name of the environment leads
to it and lets it be driven. -/
theorem spares_lowerCommand {env : Env} (visible : EnvSpares cell env) : (cmd : TypedCommand) →
    Spares cell (lowerCommand s env cmd) fun r => EnvSpares cell r.2
  | .decl pos name ty => by
    rw [lowerCommand]
    exact .bind (spares_declare visible _ _ _) fun _ later => .pure later
  | .define pos name ty init => by
    rw [lowerCommand]
    exact .bind (spares_addRegister _ _) fun _ apart =>
      .bind (spares_assignRegister visible _ _ apart _ _ _) fun _ _ =>
      .pure (visible.rebind (by simpa [Store.targets] using apart.symm) _)
  | .seq pos cmds => by
    rw [lowerCommand]
    exact .bind (spares_lowerSeq visible cmds) fun _ later => .pure later
  | .branch pos cond onTrue onFalse => by
    rw [lowerCommand]
    exact .bind (spares_lowerCondition visible _ _ _) fun _ _ =>
      .bind (spares_lowerCommand visible.enter onTrue) fun _ _ =>
      .bind (spares_lowerElse visible.enter onFalse) fun _ _ => .pure visible
  | .loop pos header body => by
    rw [lowerCommand]
    exact .bind (spares_addLoop _) fun _ apart =>
      .bind (spares_lowerCommand (visible.enter.rebind apart _) body) fun _ _ =>
      .bind (spares_enableGroup _ _ _) fun _ _ => .bind (spares_enableGroup _ _ _) fun _ _ =>
      .bind (.lift _) fun _ _ => .pure visible
  | .update pos target value => by
    rw [lowerCommand]
    exact .bind (spares_lowerUpdate visible _ _ _ _) fun _ _ => .pure visible
  | .reduce pos op target value => by
    rw [lowerCommand]
    exact .bind (spares_lowerReduce visible _ _ _ _ _) fun _ _ => .pure visible
  | .eval pos e => by
    have discarded (other : ∀ ty func args, e ≠ .app ty func args) :
        Spares cell (lowerCommand s env (.eval pos e)) fun r => EnvSpares cell r.2 := by
      rw [lowerCommand]
      · exact .bind (spares_discard visible _ _ _) fun _ _ => .pure visible
      · exact other
    cases e with
    | app ty func args =>
      rw [lowerCommand]
      exact .bind (spares_lowerCall visible _ _ _ _) fun _ _ => .pure visible
    | _ => exact discarded nofun
  | .advance pos array => by
    rw [lowerCommand]
    exact .throwInternal _
  | .skip pos => by
    rw [lowerCommand]
    exact .pure visible

theorem spares_lowerSeq {env : Env} (visible : EnvSpares cell env) : (cmds : List TypedCommand) →
    Spares cell (lowerSeq s env cmds) fun r => EnvSpares cell r.2
  | [] => by
    rw [lowerSeq]
    exact .pure visible
  | cmd :: cmds => by
    rw [lowerSeq]
    exact .bind (spares_lowerCommand visible cmd) fun _ next =>
      .bind (spares_lowerSeq next cmds) fun _ later => .pure later

theorem spares_lowerElse {env : Env} (visible : EnvSpares cell env) : (cmd : Option TypedCommand) →
    Spares cell (lowerElse s env cmd) fun _ => True
  | none => by
    rw [lowerElse]
    exact .pure trivial
  | some cmd => by
    rw [lowerElse]
    exact .bind (spares_lowerCommand visible cmd) fun _ _ => .pure trivial

end

end

end Lowering

end BankedLoops
