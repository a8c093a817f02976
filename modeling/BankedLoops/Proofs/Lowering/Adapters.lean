import BankedLoops.Proofs.Lowering.Executed
import BankedLoops.Proofs.Lowering.Requests

/-!
# The adapters of a component

Lowering adds adapters for the sites of a body and for nothing else: one for every iterator that is
narrower than its loop register and one for every request of another width than that of its value,
in their order.
-/

namespace BankedLoops

open Library (Part)

namespace Lowering

/-! ### Accounts -/

def Workspace.adapters (w : Workspace) : List Part := w.cells.filterMap (·.prototype.adapter?)

/-- A construction that adds the given adapters, and has a result for which `P` holds. -/
def Adapts {α : Type} (parts : List Part) (x : Build α) (P : α → Prop) : Prop :=
  ∀ w a w', x.run w = .ok (a, w') → w'.adapters = w.adapters ++ parts ∧ P a

namespace Adapts

variable {α β : Type} {parts parts' : List Part} {P : α → Prop} {Q : β → Prop}

theorem pure {a : α} (holds : P a) : Adapts [] (Pure.pure a) P := by
  intro w b w' ran
  obtain ⟨rfl, rfl⟩ := run_pure_ok_iff.mp ran
  exact ⟨(List.append_nil _).symm, holds⟩

theorem bind {x : Build α} {f : α → Build β} (first : Adapts parts x P)
    (rest : ∀ a, P a → Adapts parts' (f a) Q) : Adapts (parts ++ parts') (x >>= f) Q := by
  intro w b w'' ran
  obtain ⟨a, w', ranFirst, ranRest⟩ := run_bind_ok_iff.mp ran
  obtain ⟨early, holds⟩ := first w a w' ranFirst
  obtain ⟨late, result⟩ := rest a holds w' b w'' ranRest
  refine ⟨?_, result⟩
  rw [late, early, List.append_assoc]

/-- A first step that adds none. -/
theorem silent {x : Build α} {f : α → Build β} (first : Adapts [] x P)
    (rest : ∀ a, P a → Adapts parts (f a) Q) : Adapts parts (x >>= f) Q :=
  first.bind rest

/-- A first step behind which none is added. -/
theorem closing {x : Build α} {f : α → Build β} (first : Adapts parts x P)
    (rest : ∀ a, P a → Adapts [] (f a) Q) : Adapts parts (x >>= f) Q := by
  have both := first.bind rest
  rwa [List.append_nil] at both

theorem congr {x : Build α} (adapts : Adapts parts x P) (same : parts = parts') :
    Adapts parts' x P :=
  same ▸ adapts

theorem lift (x : Except Fault α) : Adapts [] (liftM x) fun a => x = .ok a := by
  intro w a w' ran
  obtain ⟨computed, rfl⟩ := run_lift_ok_iff.mp ran
  exact ⟨(List.append_nil _).symm, computed⟩

theorem throwInternal (fault : InternalFault) : Adapts parts (throwInternal fault : Build α) P :=
  fun _ _ _ ran => nomatch ran

theorem throw_bind (fault : InternalFault) (f : α → Build β) :
    Adapts parts (Lowering.throwInternal fault >>= f) Q :=
  fun _ _ _ ran => nomatch ran

/-- A construction that leaves the cells alone. -/
theorem of_cells {x : Build α} (same : ∀ w a w', x.run w = .ok (a, w') → w'.cells = w.cells) :
    Adapts [] x fun _ => True := by
  intro w a w' ran
  refine ⟨?_, trivial⟩
  rw [Workspace.adapters, same w a w' ran, List.append_nil]
  rfl

end Adapts

/-! ### Cells -/

theorem adapts_freshName (stem : String) : Adapts [] (freshName stem) fun _ => True :=
  .of_cells fun _ _ _ ran => by
    obtain ⟨_, rfl⟩ := freshName_ok ran
    rfl

theorem adapts_uniqueName (base : String) : Adapts [] (uniqueName base) fun _ => True :=
  .of_cells fun _ _ _ ran => by
    cases ran
    rfl

theorem adapts_get : Adapts [] (MonadState.get : Build Workspace) fun _ => True :=
  .of_cells fun _ _ _ ran => by
    cases ran
    rfl

theorem adapts_addGroup (name : String) (latency : Option Nat) (assignments : List Assignment) :
    Adapts [] (addGroup name latency assignments) fun _ => True :=
  .of_cells fun _ _ _ ran => by
    cases ran
    rfl

theorem adapts_quote (s : Setting) (pos : Nat) : Adapts [] (quote s pos) fun _ => True :=
  .of_cells fun _ _ _ ran => by
    cases ran
    rfl

theorem adapts_enableGroup (s : Setting) (group : String) (pos : Nat) :
    Adapts [] (enableGroup s group pos) fun _ => True :=
  .silent (adapts_quote s pos) fun _ _ => .pure trivial

theorem adapts_addCell (c : Cell) : Adapts c.prototype.adapter?.toList (addCell c) fun _ => True := by
  rintro w _ _ ⟨⟩
  refine ⟨?_, trivial⟩
  show (w.cells ++ [c]).filterMap _ = w.cells.filterMap _ ++ _
  rw [List.filterMap_append, List.filterMap_cons, List.filterMap_nil]
  cases c.prototype.adapter? <;> rfl

theorem adapts_addPrimitive (stem primitive : String) (params : List Nat) :
    Adapts (Prototype.primitive primitive params).adapter?.toList (addPrimitive stem primitive params)
      fun _ => True :=
  .silent (adapts_freshName _) fun _ _ => .closing (adapts_addCell _) fun _ _ => .pure trivial

/-- A primitive that is no adapter. -/
theorem adapts_plain {primitive : String} {params : List Nat}
    (other : (Prototype.primitive primitive params).adapter? = none) (stem : String) :
    Adapts [] (addPrimitive stem primitive params) fun _ => True :=
  (adapts_addPrimitive _ _ _).congr (by rw [other]; rfl)

theorem adapts_addRegister (base : String) (width : Nat) :
    Adapts [] (addRegister base width) fun _ => True :=
  .silent (adapts_uniqueName _) fun _ _ => .silent (adapts_addCell _) fun _ _ => .pure trivial

theorem adapts_constant (width value : Nat) : Adapts [] (constant width value) fun _ => True := by
  unfold constant
  split
  · exact .throw_bind _ _
  · refine .silent adapts_get fun w _ => ?_
    split
    · exact .pure trivial
    · refine .silent (adapts_plain rfl _) fun _ _ => .silent (P := fun _ => True) ?_
        fun _ _ => .pure trivial
      exact .of_cells fun _ _ _ ran => by
        cases ran
        rfl

theorem adapts_instanceOf (func : String) : Adapts [] (instanceOf func) fun _ => True := by
  refine .silent adapts_get fun w _ => ?_
  split
  · exact .pure trivial
  · refine .silent (adapts_freshName _) fun _ _ => .silent (adapts_addCell _) fun _ _ => ?_
    refine .silent (P := fun _ => True) ?_ fun _ _ => .pure trivial
    exact .of_cells fun _ _ _ ran => by
      cases ran
      rfl

theorem adapts_memoryOf (env : Env) (name : String) :
    Adapts [] (memoryOf env name) fun m => memoryOf? env name = some m := by
  intro w m v ran
  obtain ⟨found, rfl⟩ := memoryOf_ok ran
  exact ⟨(List.append_nil _).symm, by rw [memoryOf?, found]⟩

theorem adapts_registerOf (env : Env) (name : String) :
    Adapts [] (registerOf env name) fun r => env.get? name = some (.register r.1 r.2) := by
  intro w r v ran
  obtain ⟨found, rfl⟩ := registerOf_ok ran
  exact ⟨(List.append_nil _).symm, found⟩

theorem adapts_addOperator (op : BinOp) (width : Nat) (signed : Bool) (frac : Option Nat) :
    Adapts [] (addOperator op width signed frac) fun _ => True := by
  refine .silent (.lift _) fun operator found => adapts_plain ?_ _
  rw [Prototype.adapter?, operator_part found]
  unfold operatorPart
  cases fixedOperation? op <;> cases frac <;> rfl

/-- The adapter from one width to another. -/
def between (width target : Nat) (signed : Bool) : List Part :=
  if width = target then [] else [.adapter (adapterOf width target signed) width target]

theorem adapts_adapt (W : Wiring) (pin : Pin) (width target : Nat) (signed : Bool) :
    Adapts (between width target signed) (adapt W pin width target signed) fun _ => True := by
  unfold adapt between
  split
  · exact .pure trivial
  · refine .closing ((adapts_addPrimitive _ _ _).congr ?_) fun _ _ => .pure trivial
    simp only [Prototype.adapter?, adapter_part width target rfl]
    rfl

/-! ### Expressions -/

section

variable {slots : Slots} {env : Env}

theorem Request.adapter_between {role : Role} {e : TypedExpr} (computed : e.isConstant = false)
    (width : Nat) :
    [Request.mk role e width].filterMap Request.adapter? = between e.ty.width width e.ty.isSigned := by
  unfold between
  simp only [List.filterMap_cons, List.filterMap_nil, Request.adapter?, computed, Bool.false_eq_true,
    false_or]
  split <;> simp_all

theorem Request.adapter_constant {role : Role} {e : TypedExpr} (constant : e.isConstant = true)
    (width : Nat) : [Request.mk role e width].filterMap Request.adapter? = [] := by
  simp [Request.adapter?, constant]

/-- Addresses that add the adapters of their requests. -/
def AdaptsAddresses (parts : List Nat → List Part) (lower : AddressLowering) : Prop :=
  ∀ sizes W, Adapts (parts sizes) (lower sizes W) fun _ => True

theorem adapts_lowerCounted {count : Nat} {parts : List Nat → List Part} {lower : AddressLowering}
    (adapts : AdaptsAddresses parts lower) : AdaptsAddresses parts (lowerCounted count lower) := by
  intro sizes W
  unfold lowerCounted
  split
  · exact .throw_bind _ _
  · exact adapts sizes W

theorem adapts_finishRead (s : Setting) (pos : Nat) (reg : String) (W : Wiring) :
    Adapts [] (finishRead s pos reg W) fun _ => True :=
  .silent (adapts_freshName _) fun _ _ => .silent (adapts_addGroup _ _ _) fun _ _ =>
    .silent (adapts_enableGroup _ _ _) fun _ _ => .pure trivial

theorem adapts_readMemory (s : Setting) (pos : Nat) (reg : String) {mem : String}
    {parts : List Nat → List Part} {addresses : AddressLowering} {sizes : List Nat}
    (sized : ∀ m, memoryOf? env mem = some m → m.sizes = sizes)
    (adapts : AdaptsAddresses parts addresses) :
    Adapts (parts sizes) (readMemory s env pos reg mem addresses) fun _ => True := by
  refine .silent (adapts_memoryOf _ _) fun m found => ?_
  rw [← sized m found]
  exact .closing (adapts _ _) fun _ _ => adapts_finishRead _ _ _ _

theorem adapts_captureBanks (reg : String) (select : Pin) (width : Nat) (addrs : List Pin)
    (W : Wiring) (k : Nat) (banks : List String) :
    Adapts [] (captureBanks env reg select width addrs W k banks) fun _ => True := by
  induction banks generalizing W k with
  | nil => exact .pure trivial
  | cons bank banks ih =>
    exact .silent (adapts_memoryOf _ _) fun _ _ => .silent (adapts_plain rfl _) fun _ _ =>
      .silent (adapts_constant _ _) fun _ _ => ih _ _

theorem adapts_readBanks (s : Setting) (pos : Nat) (reg : String) {banks : List String}
    {select : Nat → Wiring → Build (Pin × Wiring)} {addresses : AddressLowering}
    {chosen : List Part} {parts : List Nat → List Part} {sizes : List Nat}
    (sized : ∀ bank ∈ banks, ∀ m, memoryOf? env bank = some m → m.sizes = sizes)
    (selects : ∀ W, Adapts chosen (select (bitsNeeded (banks.length - 1)) W) fun _ => True)
    (adapts : AdaptsAddresses parts addresses) :
    Adapts (chosen ++ parts sizes) (readBanks s env pos reg banks select addresses)
      fun _ => True := by
  unfold readBanks
  split
  · exact .throwInternal _
  · next first rest =>
    refine .silent (adapts_memoryOf _ _) fun m found => .silent (.lift _) fun last counted => ?_
    obtain ⟨_, rfl⟩ := Word.sub_eq_ok_iff.mp counted
    rw [← sized first List.mem_cons_self m found]
    exact .bind (selects _) fun _ _ => .closing (adapts _ _) fun _ _ =>
      .silent (adapts_captureBanks _ _ _ _ _ _ _) fun _ _ => adapts_finishRead _ _ _ _

theorem adapts_readName (s : Setting) (pos : Nat) (W : Wiring) (matched : Matches slots env) {ty : Ty}
    {name : String} (typed : Physical slots (.var ty name)) :
    Adapts [] (readName s env pos W name) fun r => r.2.1 = ty.width := by
  rintro w ⟨pin, width, W'⟩ v ran
  obtain ⟨rfl, _⟩ := readName_ok ran
  exact ⟨(List.append_nil _).symm, readName_width matched typed ran⟩

/-- Memories that are alike have the sizes of the first. -/
theorem sizes_of_slots (matched : Matches slots env) {banks : List String} {elem : Ty}
    {sizes : List Nat} (found : ∀ bank ∈ banks, slots.get? bank = some (.memory elem sizes)) :
    ∀ bank ∈ banks, ∀ m, memoryOf? env bank = some m → m.sizes = sizesOf slots banks := by
  intro bank member m visible
  have own := (matched.memoryOf? (found bank member) visible).2
  cases banks with
  | nil => cases member
  | cons first rest => rw [own, sizesOf, found first List.mem_cons_self]

/-- The adapters of what is lowered. -/
abbrev adaptersOf (requests : List Request) : List Part := requests.filterMap Request.adapter?

variable (registers : List String)

mutual

theorem adapts_lowerExpr (s : Setting) (pos width : Nat) (W : Wiring) (matched : Matches slots env)
    (role : Role) : {e : TypedExpr} → Physical slots e →
      Adapts (adaptersOf (asks registers slots e ++ [⟨role, e, width⟩]))
        (lowerExpr s env pos width W e) fun _ => True
  | _, .int _ => by
    unfold lowerExpr
    exact .silent (adapts_constant _ _) fun _ _ => .pure trivial
  | _, .bool b => by
    unfold lowerExpr
    rw [asks_bool, List.nil_append, adaptersOf, Request.adapter_between rfl]
    exact .silent (adapts_constant _ _) fun _ _ => adapts_adapt _ _ _ _ _
  | .var ty name, typed => by
    unfold lowerExpr
    rw [asks_var, List.nil_append, adaptersOf, Request.adapter_between rfl]
    refine .silent (adapts_readName s pos W matched typed) ?_
    rintro ⟨pin, stored, W'⟩ rfl
    exact adapts_adapt _ _ _ _ _
  | .binop ty op lhs rhs, .binop left right operates => by
    rcases ty.static_or with ⟨n, rfl⟩ | computed
    · rw [lowerExpr, asks, List.nil_append, adaptersOf, Request.adapter_constant rfl]
      exact .silent (adapts_constant _ _) fun _ _ => .pure trivial
    · have isComputed : (TypedExpr.binop ty op lhs rhs).isConstant = false := by
        cases ty <;> first | rfl | exact absurd rfl (computed _)
      obtain ⟨width', signed⟩ := operates.yields computed
      rw [lowerExpr_computed computed, asks_computed registers slots computed, adaptersOf,
        List.filterMap_append, List.filterMap_append, Request.adapter_between isComputed,
        List.append_assoc]
      refine .bind (adapts_lowerExpr s pos _ _ matched _ left) fun _ _ =>
        .bind (adapts_lowerExpr s pos _ _ matched _ right) fun _ _ =>
        .silent (adapts_addOperator _ _ _ _) fun _ _ => ?_
      rw [width', signed]
      exact adapts_adapt _ _ _ _ _
  | .mem ty mem addr, .mem found addressed _ => by
    unfold lowerExpr
    rw [asks, adaptersOf, List.filterMap_append, Request.adapter_between rfl]
    exact .silent (adapts_plain rfl _) fun _ _ => .bind
      (adapts_readMemory s pos _ (sizes_of_slots matched (List.forall_mem_singleton.mpr found) mem
        (List.mem_singleton_self _))
        (adapts_lowerCounted fun sizes W => adapts_lowerAddrs s pos W matched addressed sizes))
      fun _ _ => adapts_adapt _ _ _ _ _
  | .muxRead ty banks select addr, .muxRead found selected addressed _ => by
    unfold lowerExpr
    rw [asks, adaptersOf, List.filterMap_append, List.filterMap_append, Request.adapter_between rfl]
    refine .silent (adapts_plain rfl _) fun _ _ => .bind
      (adapts_readBanks s pos _ (sizes_of_slots matched found)
        (fun W => adapts_lowerExpr s pos _ W matched _ selected)
        (adapts_lowerCounted fun sizes W => adapts_lowerAddrs s pos W matched addressed sizes))
      fun _ _ => adapts_adapt _ _ _ _ _

theorem adapts_lowerAddrs (s : Setting) (pos : Nat) (W : Wiring) (matched : Matches slots env) :
    {es : List TypedExpr} → PhysicalAll slots es → (sizes : List Nat) →
      Adapts (adaptersOf (asksOf registers slots es sizes)) (lowerAddrs s env pos W es sizes)
        fun _ => True
  | _, .nil, sizes => by
    rw [lowerAddrs, asksOf]
    · exact .pure trivial
    · exact nofun
    · exact nofun
  | e :: es, .cons first rest, [] => by
    rw [lowerAddrs, asksOf]
    · exact .pure trivial
    · exact nofun
    · exact nofun
  | e :: es, .cons first rest, size :: sizes => by
    rw [lowerAddrs, asksOf, adaptersOf, List.filterMap_append]
    refine .silent (.lift _) fun last counted => ?_
    obtain ⟨_, rfl⟩ := Word.sub_eq_ok_iff.mp counted
    exact .bind (adapts_lowerExpr s pos _ _ matched _ first) fun _ _ =>
      .closing (adapts_lowerAddrs s pos _ matched rest sizes) fun _ _ => .pure trivial

end

theorem adapts_wanted (s : Setting) (pos width : Nat) (W : Wiring) (matched : Matches slots env)
    {e : TypedExpr} (typed : Physical slots e) :
    Adapts (adaptersOf (wanted registers slots e width)) (lowerExpr s env pos width W e)
      fun _ => True :=
  adapts_lowerExpr registers s pos width W matched .data typed

theorem adapts_addressing (s : Setting) (pos : Nat) (matched : Matches slots env)
    {addr : List TypedExpr} (typed : PhysicalAll slots addr) :
    AdaptsAddresses (fun sizes => adaptersOf (asksOf registers slots addr sizes))
      (addressing s env pos addr) :=
  adapts_lowerCounted fun sizes W => adapts_lowerAddrs registers s pos W matched typed sizes

theorem adapts_readInto (s : Setting) (pos : Nat) (reg : String) (matched : Matches slots env)
    {e : TypedExpr} (typed : Physical slots e) :
    Adapts (adaptersOf (asks registers slots e)) (readInto s env pos reg e) fun _ => True := by
  cases typed with
  | mem found addressed =>
    rw [asks]
    exact adapts_readMemory s pos _ (sizes_of_slots matched (List.forall_mem_singleton.mpr found) _
      (List.mem_singleton_self _)) (adapts_addressing registers s pos matched addressed)
  | muxRead found selected addressed =>
    rw [asks, adaptersOf, List.filterMap_append, readInto]
    exact adapts_readBanks s pos _ (sizes_of_slots matched found)
      (fun W => adapts_lowerExpr registers s pos _ W matched _ selected)
      (adapts_addressing registers s pos matched addressed)
  | _ => exact .throwInternal _

theorem adapts_discard (s : Setting) (pos : Nat) (matched : Matches slots env) {e : TypedExpr}
    (physical : Physical slots e) :
    Adapts (adaptersOf (spent registers slots e)) (discard s env pos e) fun _ => True := by
  fun_induction discard s env pos e with
  | case1 ty op lhs rhs left right =>
    cases physical with
    | binop physicalLeft physicalRight _ =>
      rw [spent, adaptersOf, List.filterMap_append]
      exact .bind (left physicalLeft) fun _ _ =>
        .closing (right physicalRight) fun _ _ => .pure trivial
  | case2 ty mem addr =>
    rw [spent]
    exact .silent (adapts_plain rfl _) fun _ _ => adapts_readInto registers s pos _ matched physical
  | case3 ty banks select addr =>
    rw [spent]
    exact .silent (adapts_plain rfl _) fun _ _ => adapts_readInto registers s pos _ matched physical
  | case4 e notBinop notMem notMux =>
    rw [spent]
    · exact .pure trivial
    · exact notBinop
    · exact notMem
    · exact notMux

/-! ### Commands -/

theorem adapts_finishGroup (s : Setting) (pos : Nat) (group : String) (W : Wiring) :
    Adapts [] (finishGroup s pos group W) fun _ => True :=
  .silent (adapts_addGroup _ _ _) fun _ _ => .silent (adapts_enableGroup _ _ _) fun _ _ => .pure trivial

/-- A value that is captured right into a register of its own width needs no adapter. -/
theorem adapters_captured {e : TypedExpr} {width : Nat} (same : e.ty.width = width) :
    adaptersOf (wanted registers slots e width) = adaptersOf (asks registers slots e) := by
  rw [wanted, adaptersOf, List.filterMap_append, List.filterMap_cons, Request.adapter?, if_pos (.inr same)]
  exact List.append_nil _

theorem adapts_assignRegister (s : Setting) (pos : Nat) (reg : String) (width : Nat) (stem : String)
    (matched : Matches slots env) {e : TypedExpr} (typed : Physical slots e) :
    Adapts (adaptersOf (wanted registers slots e width)) (assignRegister s env pos reg width stem e)
      fun _ => True := by
  have latched : Adapts (adaptersOf (wanted registers slots e width)) (do
      let lowered ← lowerExpr s env pos width {} e
      let group ← freshName stem
      finishGroup s pos group (lowered.2.latch group reg lowered.1)) fun _ => True :=
    .closing (adapts_wanted _ _ _ _ _ matched typed) fun _ _ =>
      .silent (adapts_freshName _) fun _ _ => adapts_finishGroup _ _ _ _
  have captured (same : e.ty.width = width) : Adapts (adaptersOf (wanted registers slots e width)) (do
      return Control.sequence (← readInto s env pos reg e)) fun _ => True := by
    rw [adapters_captured registers same]
    exact .closing (adapts_readInto _ _ _ _ matched typed) fun _ _ => .pure trivial
  unfold assignRegister
  split
  · split
    · next same => exact captured same
    · exact latched
  · split
    · next same => exact captured same
    · exact latched
  · exact latched

theorem adapts_storeMemory (s : Setting) (pos : Nat) {ty : Ty} {mem : String} {addr : List TypedExpr}
    (matched : Matches slots env) (place : Physical slots (.mem ty mem addr)) {e : TypedExpr}
    (typed : Physical slots e) :
    Adapts (adaptersOf (asks registers slots (.mem ty mem addr) ++ wanted registers slots e ty.width))
      (storeMemory s env pos mem addr e) fun _ => True := by
  cases place with
  | mem slot addressed =>
    rw [asks, adaptersOf, List.filterMap_append]
    refine .silent (adapts_memoryOf _ _) fun m found => ?_
    obtain ⟨wide, -⟩ := matched.memoryOf? slot found
    rw [← sizes_of_slots matched (List.forall_mem_singleton.mpr slot) mem (List.mem_singleton_self _) m
      found, ← wide]
    exact .bind (adapts_addressing registers s pos matched addressed _ _) fun _ _ =>
      .closing (adapts_wanted _ _ _ _ _ matched typed) fun _ _ =>
      .silent (adapts_freshName _) fun _ _ => adapts_finishGroup _ _ _ _

theorem adapts_reduceRegister (s : Setting) (pos : Nat) (op : BinOp) (ty : Ty) (reg : String)
    (width : Nat) (matched : Matches slots env) {e : TypedExpr} (typed : Physical slots e) :
    Adapts (adaptersOf (wanted registers slots e width)) (reduceRegister s env pos op ty reg width e)
      fun _ => True :=
  .closing (adapts_wanted _ _ _ _ _ matched typed) fun _ _ =>
    .silent (adapts_addOperator _ _ _ _) fun _ _ => .silent (adapts_freshName _) fun _ _ =>
    adapts_finishGroup _ _ _ _

theorem adapts_reduceMemory (s : Setting) (pos : Nat) (op : BinOp) {ty : Ty} {mem : String}
    {addr : List TypedExpr} (matched : Matches slots env) (place : Physical slots (.mem ty mem addr))
    {e : TypedExpr} (typed : Physical slots e) :
    Adapts (adaptersOf (asks registers slots (.mem ty mem addr) ++ wanted registers slots e ty.width))
      (reduceMemory s env pos op ty mem addr e) fun _ => True := by
  cases place with
  | mem slot addressed =>
    rw [asks, adaptersOf, List.filterMap_append]
    refine .silent (adapts_memoryOf _ _) fun m found => ?_
    obtain ⟨wide, -⟩ := matched.memoryOf? slot found
    rw [← sizes_of_slots matched (List.forall_mem_singleton.mpr slot) mem (List.mem_singleton_self _) m
      found, ← wide]
    exact .bind (adapts_addressing registers s pos matched addressed _ _) fun _ _ =>
      .silent (adapts_plain rfl _) fun _ _ => .silent (adapts_freshName _) fun _ _ =>
      .silent (adapts_addGroup _ _ _) fun _ _ =>
      .closing (adapts_wanted _ _ _ _ _ matched typed) fun _ _ =>
      .silent (adapts_addOperator _ _ _ _) fun _ _ => .silent (adapts_freshName _) fun _ _ =>
      .silent (adapts_addGroup _ _ _) fun _ _ => .silent (adapts_enableGroup _ _ _) fun _ _ =>
      .silent (adapts_enableGroup _ _ _) fun _ _ => .pure trivial

/-- A register that is assigned has the width of its type. -/
theorem width_of_register (matched : Matches slots env) {ty : Ty} {name cell : String} {width : Nat}
    (typed : Physical slots (.var ty name)) (found : env.get? name = some (.register cell width)) :
    width = ty.width := by
  cases typed with
  | scalar slot =>
    obtain ⟨store, visible, fits⟩ := matched _ _ slot
    cases fits
    cases found.symm.trans visible
    rfl
  | iterator unroll slot =>
    obtain ⟨store, visible, fits⟩ := matched _ _ slot
    cases fits
    cases found.symm.trans visible

theorem adapts_lowerUpdate (s : Setting) (pos : Nat) (matched : Matches slots env)
    {target e : TypedExpr} (place : Physical slots target) (typed : Physical slots e) :
    Adapts (adaptersOf (asks registers slots target ++ wanted registers slots e target.ty.width))
      (lowerUpdate s env pos target e) fun _ => True := by
  cases target with
  | var ty name =>
    refine .silent (adapts_registerOf _ _) fun r found => ?_
    rw [asks_var, List.nil_append]
    obtain ⟨cell, width⟩ := r
    obtain rfl := width_of_register matched place found
    exact adapts_assignRegister _ _ _ _ _ _ matched typed
  | mem ty mem addr => exact adapts_storeMemory _ _ _ matched place typed
  | _ => exact .throwInternal _

theorem adapts_lowerReduce (s : Setting) (pos : Nat) (op : BinOp) (matched : Matches slots env)
    {target e : TypedExpr} (place : Physical slots target) (typed : Physical slots e) :
    Adapts (adaptersOf (asks registers slots target ++ wanted registers slots e target.ty.width))
      (lowerReduce s env pos op target e) fun _ => True := by
  cases target with
  | var ty name =>
    refine .silent (adapts_registerOf _ _) fun r found => ?_
    rw [asks_var, List.nil_append]
    obtain ⟨cell, width⟩ := r
    obtain rfl := width_of_register matched place found
    exact adapts_reduceRegister _ _ _ _ _ _ _ matched typed
  | mem ty mem addr => exact adapts_reduceMemory _ _ _ _ matched place typed
  | _ => exact .throwInternal _

theorem adapts_lowerCondition (s : Setting) (pos : Nat) (matched : Matches slots env)
    {cond : TypedExpr} (typed : Physical slots cond) :
    Adapts (adaptersOf (wanted registers slots cond 1)) (lowerCondition s env pos cond)
      fun _ => True := by
  refine .closing (adapts_wanted _ _ _ _ _ matched typed) fun driven _ => ?_
  show Adapts [] (if driven.2.assigns.isEmpty = true then _ else _) _
  split
  · exact .pure trivial
  · exact .silent (adapts_freshName _) fun _ _ => .silent (adapts_addGroup _ _ _) fun _ _ => .pure trivial

end

theorem adapts_bindArguments (env : Env) (params args : List String) :
    Adapts [] (bindArguments env params args) fun _ => True := by
  fun_induction bindArguments env params args with
  | case1 param params arg args ih =>
    exact .silent (adapts_memoryOf _ _) fun _ _ => .silent ih fun _ _ => .pure trivial
  | case2 => exact .pure trivial

theorem adapts_lowerCall (s : Setting) (env : Env) (pos : Nat) (func : String) (args : List String) :
    Adapts [] (lowerCall s env pos func args) fun _ => True := by
  unfold lowerCall
  split
  · exact .throwInternal _
  · dsimp only
    split
    · exact .throw_bind _ _
    · exact .silent (adapts_bindArguments _ _ _) fun _ _ =>
        .silent (adapts_instanceOf _) fun _ _ => .silent (adapts_quote _ _) fun _ _ => .pure trivial

theorem adapts_addInit (iter reg : String) (width start : Nat) :
    Adapts [] (addInit iter reg width start) fun _ => True :=
  .silent (adapts_uniqueName _) fun _ _ => .silent (adapts_constant _ _) fun _ _ =>
    .silent (adapts_addGroup _ _ _) fun _ _ => .pure trivial

theorem adapts_addCond (iter reg : String) (width stop : Nat) :
    Adapts [] (addCond iter reg width stop) fun _ => True :=
  .silent (adapts_uniqueName _) fun _ _ => .silent (adapts_plain rfl _) fun _ _ =>
    .silent (adapts_constant _ _) fun _ _ => .silent (adapts_addGroup _ _ _) fun _ _ => .pure trivial

theorem adapts_addIncr (iter reg : String) (width : Nat) :
    Adapts [] (addIncr iter reg width) fun _ => True :=
  .silent (adapts_uniqueName _) fun _ _ => .silent (adapts_plain rfl _) fun _ _ =>
    .silent (adapts_constant _ _) fun _ _ => .silent (adapts_addGroup _ _ _) fun _ _ => .pure trivial

theorem adapts_addLoop (h : LoopHeader) :
    Adapts (Site.iterator h.stop).adapter?.toList (addLoop h)
      fun frame => frame.width = bitsNeeded (h.stop - 1) := by
  have frames (reg : String) (slice : Option String) (last : Nat) : Adapts [] (do
      let init ← addInit h.iter reg (bitsNeeded h.stop) h.start
      let cond ← addCond h.iter reg (bitsNeeded h.stop) h.stop
      let incr ← addIncr h.iter reg (bitsNeeded h.stop)
      pure (LoopFrame.mk reg slice (bitsNeeded last) init cond.1 cond.2 incr))
      fun frame => frame.width = bitsNeeded last :=
    .silent (adapts_addInit _ _ _ _) fun _ _ => .silent (adapts_addCond _ _ _ _) fun _ _ =>
      .silent (adapts_addIncr _ _ _) fun _ _ => .pure rfl
  refine .silent (.lift _) fun last counted => .silent (adapts_addRegister _ _) fun reg _ => ?_
  obtain ⟨_, rfl⟩ := Word.sub_eq_ok_iff.mp counted
  by_cases narrow : bitsNeeded (h.stop - 1) < bitsNeeded h.stop
  · rw [Site.adapter?, if_pos narrow]
    dsimp only
    rw [if_pos narrow, map_eq_pure_bind, bind_assoc]
    exact .closing (adapts_addPrimitive _ _ _) fun _ _ => frames reg _ _
  · rw [Site.adapter?, if_neg narrow]
    dsimp only
    rw [if_neg narrow]
    exact frames reg none _

theorem adapts_memoryName (s : Setting) (d : Decl) (exposure : Exposure) :
    Adapts [] (memoryName s d exposure) fun _ => True := by
  unfold memoryName
  split
  · exact adapts_uniqueName _
  · refine .silent adapts_get fun w _ => ?_
    split
    · refine .silent (P := fun _ => True) (.of_cells fun _ _ _ ran => ?_) fun _ _ => .pure trivial
      cases ran
      rfl
    · intro _ _ _ ran
      cases ran

/-- A memory is no adapter. -/
theorem adapter?_memory {dims : Nat} (few : dims ≤ 4) (width : Nat) (params : List Nat) :
    (Prototype.primitive s!"seq_mem_d{dims}" (width :: params)).adapter? = none := by
  have plain (dims : Nat) {name : String}
      (isMemory : Library.part? name (width :: params) = Library.memory? dims width params) :
      (Prototype.primitive name (width :: params)).adapter? = none := by
    unfold Library.memory? at isMemory
    simp only [Prototype.adapter?, isMemory]
    by_cases counted : params.length = 2 * dims
    · rw [if_pos counted]
    · rw [if_neg counted]
  obtain rfl | rfl | rfl | rfl | rfl :
      dims = 0 ∨ dims = 1 ∨ dims = 2 ∨ dims = 3 ∨ dims = 4 := by omega
  · rfl
  · exact plain 1 rfl
  · exact plain 2 rfl
  · exact plain 3 rfl
  · exact plain 4 rfl

theorem adapts_declare (s : Setting) {slots : Slots} {env : Env} (matched : Matches slots env) (d : Decl)
    (exposure : Exposure) : Adapts [] (declare s env d exposure)
      fun env' => Matches (slots.rebind d.name (.ofTy d.ty)) env' := by
  unfold declare
  split
  · next elem dims isArray =>
    dsimp only
    split
    · intro w v result ran
      cases ran
    · next few =>
      refine .silent (adapts_memoryName _ _ _) fun name _ => .silent (.lift _) fun _ _ => ?_
      refine .silent ((adapts_addCell _).congr ?_) fun _ _ => .pure ?_
      · rw [List.cons_append, adapter?_memory (Nat.le_of_not_lt few)]
        rfl
      · rw [isArray]
        exact matched.rebind (.memory elem _ name) _
  · next notArray =>
    refine .silent (adapts_addRegister _ _) fun cell _ => .pure (matched.rebind ?_ _)
    have slot : Slot.ofTy d.ty = .scalar d.ty := by
      unfold Slot.ofTy
      split
      · next elem dims isArray => exact absurd isArray (notArray elem dims)
      · rfl
    rw [slot]
    exact .scalar d.ty cell

section

variable (registers : List String) {s : Setting}

mutual

theorem adapts_lowerCommand : {cmd : TypedCommand} → {slots : Slots} → {env : Env} →
    Matches slots env → PhysicalCommand slots cmd →
    Adapts ((sites registers slots cmd).filterMap Site.adapter?) (lowerCommand s env cmd)
      fun r => Matches (slotsAfter slots cmd) r.2
  | .decl pos name ty, slots, env, matched, _ => by
    rw [lowerCommand, sites]
    exact .silent (adapts_declare s matched ⟨pos, name, ty⟩ .hidden) fun _ later => .pure later
  | .define pos name ty init, slots, env, matched, typed => by
    rw [lowerCommand, sites, List.filterMap_map]
    exact .silent (adapts_addRegister _ _) fun cell _ =>
      .closing (adapts_assignRegister registers _ _ _ _ _ matched typed.1) fun _ _ =>
      .pure (matched.rebind (.scalar ty cell) name)
  | .seq pos cmds, slots, env, matched, typed => by
    rw [lowerCommand, sites]
    exact .closing (adapts_lowerSeq matched typed) fun _ later => .pure later
  | .branch pos cond onTrue onFalse, slots, env, matched, typed => by
    rw [lowerCommand, sites, List.filterMap_append, List.filterMap_append, List.filterMap_map]
    exact .bind (adapts_lowerCondition registers s pos matched typed.1) fun _ _ =>
      .bind (adapts_lowerCommand matched.enter typed.2.1) fun _ _ =>
      .closing (adapts_lowerElse matched.enter typed.2.2) fun _ _ => .pure matched
  | .loop pos header body, slots, env, matched, typed => by
    rw [lowerCommand, sites]
    refine Adapts.congr (.bind (adapts_addLoop header) fun frame width => .closing
      (adapts_lowerCommand (matched.enter.rebind ?_ header.iter) typed.2.2) fun _ _ =>
      .silent (adapts_enableGroup _ _ _) fun _ _ => .silent (adapts_enableGroup _ _ _) fun _ _ =>
      .silent (.lift _) fun _ _ => .pure matched) ?_
    · rw [width]
      exact .iterator header.stop frame.reg frame.slice
    · rw [List.filterMap_cons]
      cases (Site.iterator header.stop).adapter? <;> rfl
  | .update pos target value, slots, env, matched, typed => by
    rw [lowerCommand, sites, List.filterMap_map]
    exact .closing (adapts_lowerUpdate registers s pos matched typed.1 typed.2.1) fun _ _ => .pure matched
  | .reduce pos op target value, slots, env, matched, typed => by
    rw [lowerCommand, sites, List.filterMap_map]
    exact .closing (adapts_lowerReduce registers s pos op matched typed.2.2.1 typed.2.2.2.1) fun _ _ =>
      .pure matched
  | .eval pos e, slots, env, matched, typed => by
    have discarded (other : ∀ ty func args, e ≠ .app ty func args) (typed : Physical slots e) :
        Adapts ((sites registers slots (.eval pos e)).filterMap Site.adapter?)
          (lowerCommand s env (.eval pos e)) fun r => Matches slots r.2 := by
      rw [lowerCommand, sites, List.filterMap_map]
      · exact .closing (adapts_discard registers s pos matched typed) fun _ _ => .pure matched
      · exact other
    cases e with
    | app ty func args =>
      rw [lowerCommand]
      exact .closing (adapts_lowerCall _ _ _ _ _) fun _ _ => .pure matched
    | _ => exact discarded nofun typed
  | .advance pos array, slots, env, matched, _ => by
    rw [lowerCommand]
    exact .throwInternal _
  | .skip pos, slots, env, matched, _ => by
    rw [lowerCommand, sites]
    exact .pure matched

theorem adapts_lowerSeq : {cmds : List TypedCommand} → {slots : Slots} → {env : Env} →
    Matches slots env → PhysicalSeq slots cmds →
    Adapts ((sitesOfSeq registers slots cmds).filterMap Site.adapter?) (lowerSeq s env cmds)
      fun r => Matches (slotsAfterSeq slots cmds) r.2
  | [], slots, env, matched, _ => by
    rw [lowerSeq, sitesOfSeq]
    exact .pure matched
  | cmd :: cmds, slots, env, matched, typed => by
    rw [lowerSeq, sitesOfSeq, List.filterMap_append]
    exact .bind (adapts_lowerCommand matched typed.1) fun _ between =>
      .closing (adapts_lowerSeq between typed.2) fun _ later => .pure later

theorem adapts_lowerElse : {cmd : Option TypedCommand} → {slots : Slots} → {env : Env} →
    Matches slots env → PhysicalElse slots cmd →
    Adapts ((sitesOfElse registers slots cmd).filterMap Site.adapter?) (lowerElse s env cmd)
      fun _ => True
  | none, slots, env, matched, _ => by
    rw [lowerElse, sitesOfElse]
    exact .pure trivial
  | some cmd, slots, env, matched, typed => by
    rw [lowerElse, sitesOfElse]
    exact .closing (adapts_lowerCommand matched typed) fun _ _ => .pure trivial

end

/-! ### Components -/

theorem adapts_declareAll (exposure : Exposure) {slots : Slots} {env : Env}
    (matched : Matches slots env) (ds : List Decl) :
    Adapts [] (declareAll s exposure env ds) (Matches (slotsOf slots ds)) := by
  induction ds generalizing slots env with
  | nil => exact .pure matched
  | cons d ds ih => exact .silent (adapts_declare s matched d exposure) fun _ later => ih later

theorem adapts_instantiateAll (funcs : List String) :
    Adapts [] (instantiateAll funcs) fun _ => True := by
  induction funcs with
  | nil => exact .pure trivial
  | cons func funcs ih => exact .silent (adapts_instanceOf func) fun _ _ => ih

theorem adapts_assemble (exposure : Exposure) {ds : List Decl} (instances : List String)
    {body : Option TypedCommand} (typed : PhysicalBody ds body) :
    Adapts ((sitesOfElse registers (slotsOf {} ds) body).filterMap Site.adapter?)
      (assemble s exposure ds instances body) fun _ => True :=
  .silent (adapts_declareAll exposure (.empty _) ds) fun _ matched =>
    .silent (adapts_instantiateAll instances) fun _ _ => adapts_lowerElse registers matched typed

theorem adapters_of_assemble {exposure : Exposure} {ds : List Decl} {instances : List String}
    {body : Option TypedCommand} (typed : PhysicalBody ds body) {name : String} {c : Component}
    (built : Makes (buildComponent name · (assemble s exposure ds instances body)) c) :
    c.adapters = (sitesOfElse registers (slotsOf {} ds) body).filterMap Site.adapter? := by
  obtain ⟨_, control, w, ran, rfl⟩ := buildComponent_ok built
  exact (adapts_assemble registers exposure instances typed _ control w ran).1

end

end Lowering

open Lowering

/-- Whether `relates` the storage and the body of every component to the component of the netlist. -/
def Netlist.Components (relates : List Decl → Option TypedCommand → Component → Prop)
    (p : TypedProgram) (netlist : Netlist) : Prop :=
  ∃ functions root, netlist.components = functions ++ [root] ∧
    List.Forall₂ (fun f c => relates f.params (some f.body) c) p.defs functions ∧
    relates p.decls p.body root

/-- The adapters of a netlist are those of the sites of its bodies. -/
theorem BankedProgram.adapters_of_toNetlist {config : Config} {statements : Statements}
    {p : BankedProgram} {netlist : Netlist} (typed : p.program.Bodies PhysicalBody)
    (lowered : (p.toNetlist config statements).result = .ok netlist) :
    netlist.Components (fun ds body c => ∀ registers,
      c.adapters = (sitesOfElse registers (slotsOf {} ds) body).filterMap Site.adapter?) p.program := by
  obtain ⟨functions, root, loweredFunctions, loweredRoot, components⟩ := toNetlist_ok lowered
  refine ⟨functions, root, components, forall₂_of_made (fun f member c built => ?_)
    loweredFunctions, fun registers => ?_⟩
  · intro registers
    simp only [lowerFunction_eq] at built
    exact adapters_of_assemble registers (typed.functions f member) built
  · simp only [lowerRoot_eq] at loweredRoot
    exact adapters_of_assemble registers typed.root loweredRoot

end BankedLoops
