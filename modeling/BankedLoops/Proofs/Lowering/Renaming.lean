import BankedLoops.Lowering.Command
import BankedLoops.Proofs.Lowering.Growth

/-!
# Names and what they are bound to

Lowering depends on a name only through the storage that the name is bound to. So two trees that
differ in their names, but not in the storage behind them, are lowered to the same hardware, each in
its own environment.
-/

namespace BankedLoops

namespace Lowering

/-- The same memory under two names. -/
def SameMemory (env env' : Env) (name name' : String) : Prop :=
  ∃ m, env.get? name = some (.memory m) ∧ env'.get? name' = some (.memory m)

mutual

/-- Two trees over physical memories that differ in their names only. -/
inductive Renames (env env' : Env) : TypedExpr → TypedExpr → Prop where
  | int (ty : Ty) (n : Nat) : Renames env env' (.int ty n) (.int ty n)
  | bool (ty : Ty) (b : Bool) : Renames env env' (.bool ty b) (.bool ty b)
  | var (ty : Ty) {name name' : String} {store : Store} (left : env.get? name = some store)
      (right : env'.get? name' = some store) (scalar : ∀ m, store ≠ .memory m) :
      Renames env env' (.var ty name) (.var ty name')
  | binop (ty : Ty) (op : BinOp) {lhs lhs' rhs rhs' : TypedExpr} (left : Renames env env' lhs lhs')
      (right : Renames env env' rhs rhs') :
      Renames env env' (.binop ty op lhs rhs) (.binop ty op lhs' rhs')
  | mem (ty : Ty) {name name' : String} {addr addr' : List TypedExpr}
      (same : SameMemory env env' name name') (addresses : RenamesAll env env' addr addr') :
      Renames env env' (.mem ty name addr) (.mem ty name' addr')
  | muxRead (ty : Ty) {banks banks' : List String} {select select' : TypedExpr}
      {addr addr' : List TypedExpr} (same : List.Forall₂ (SameMemory env env') banks banks')
      (selects : Renames env env' select select') (addresses : RenamesAll env env' addr addr') :
      Renames env env' (.muxRead ty banks select addr) (.muxRead ty banks' select' addr')

inductive RenamesAll (env env' : Env) : List TypedExpr → List TypedExpr → Prop where
  | nil : RenamesAll env env' [] []
  | cons {e e' : TypedExpr} {es es' : List TypedExpr} (first : Renames env env' e e')
      (rest : RenamesAll env env' es es') : RenamesAll env env' (e :: es) (e' :: es')

end

section

variable {s : Setting} {env env' : Env} {pos : Nat}

theorem Renames.ty_eq {e e' : TypedExpr} (renames : Renames env env' e e') : e'.ty = e.ty := by
  cases renames <;> rfl

theorem RenamesAll.length_eq {es es' : List TypedExpr} (renames : RenamesAll env env' es es') :
    es'.length = es.length := by
  induction es generalizing es' with
  | nil =>
    cases renames
    rfl
  | cons e es ih =>
    cases renames with
    | cons _ rest => exact congrArg (· + 1) (ih rest)

theorem memoryOf_eq {name : String} {m : Memory} (found : env.get? name = some (.memory m)) :
    memoryOf env name = pure m := by
  rw [memoryOf, found]

theorem SameMemory.memoryOf_eq {name name' : String} (same : SameMemory env env' name name') :
    memoryOf env name = memoryOf env' name' := by
  obtain ⟨m, left, right⟩ := same
  rw [Lowering.memoryOf_eq left, Lowering.memoryOf_eq right]

theorem readName_eq {w : Wiring} {name name' : String} {store : Store}
    (left : env.get? name = some store) (right : env'.get? name' = some store)
    (scalar : ∀ m, store ≠ .memory m) :
    readName s env pos w name = readName s env' pos w name' := by
  unfold readName
  rw [left, right]
  cases store with
  | register cell width => rfl
  | iterator cell slice width => cases slice <;> rfl
  | memory m => exact absurd rfl (scalar m)

theorem captureBanks_eq {reg : String} {select : Pin} {width : Nat} {addrs : List Pin}
    {w : Wiring} {k : Nat} {banks banks' : List String}
    (same : List.Forall₂ (SameMemory env env') banks banks') :
    captureBanks env reg select width addrs w k banks =
      captureBanks env' reg select width addrs w k banks' := by
  induction same generalizing w k with
  | nil => rfl
  | cons first _ ih =>
    simp only [captureBanks, first.memoryOf_eq, ih]

theorem readBanks_eq {reg : String} {banks banks' : List String}
    {select : Nat → Wiring → Build (Pin × Wiring)} {addresses : AddressLowering}
    (same : List.Forall₂ (SameMemory env env') banks banks') :
    readBanks s env pos reg banks select addresses =
      readBanks s env' pos reg banks' select addresses := by
  cases same with
  | nil => rfl
  | cons first rest =>
    have count := rest.length_eq
    simp only [readBanks, first.memoryOf_eq, List.length_cons, count,
      captureBanks_eq (.cons first rest)]

mutual

theorem lowerExpr_eq {width : Nat} {w : Wiring} : {e e' : TypedExpr} → Renames env env' e e' →
    lowerExpr s env pos width w e = lowerExpr s env' pos width w e'
  | _, _, .int ty n => by simp only [lowerExpr]
  | _, _, .bool ty b => by simp only [lowerExpr]
  | _, _, .var ty left right scalar => by
    simp only [lowerExpr, readName_eq left right scalar]
  | _, _, .binop ty op left right => by
    rcases ty.static_or with ⟨n, rfl⟩ | computed
    · simp only [lowerExpr]
    · simp only [lowerExpr_computed computed, left.ty_eq, right.ty_eq, lowerExpr_eq left,
        lowerExpr_eq right]
  | _, _, .mem ty same addresses => by
    simp only [lowerExpr, readMemory, same.memoryOf_eq, addresses.length_eq,
      lowerAddrs_eq addresses]
  | _, _, .muxRead ty same selects addresses => by
    simp only [lowerExpr, readBanks_eq same, addresses.length_eq, lowerExpr_eq selects,
      lowerAddrs_eq addresses]

theorem lowerAddrs_eq {w : Wiring} {sizes : List Nat} : {es es' : List TypedExpr} →
    RenamesAll env env' es es' →
    lowerAddrs s env pos w es sizes = lowerAddrs s env' pos w es' sizes
  | _, _, .nil => by simp only [lowerAddrs]
  | _, _, .cons first rest => by
    cases sizes with
    | nil => simp only [lowerAddrs]
    | cons size sizes => simp only [lowerAddrs, lowerExpr_eq first, lowerAddrs_eq rest]

end

theorem addressing_eq {es es' : List TypedExpr} (renames : RenamesAll env env' es es') :
    addressing s env pos es = addressing s env' pos es' := by
  simp only [addressing, renames.length_eq, lowerAddrs_eq renames]

theorem readInto_eq {reg : String} {e e' : TypedExpr} (renames : Renames env env' e e') :
    readInto s env pos reg e = readInto s env' pos reg e' := by
  cases renames with
  | mem ty same addresses =>
    simp only [readInto, readMemory, same.memoryOf_eq, addressing_eq addresses]
  | muxRead ty same selects addresses =>
    simp only [readInto, readBanks_eq same, addressing_eq addresses, lowerExpr_eq selects]
  | _ => rfl

theorem discard_eq {e e' : TypedExpr} : Renames env env' e e' →
    discard s env pos e = discard s env' pos e'
  | .binop ty op left right => by
    simp only [discard, discard_eq left, discard_eq right]
  | .mem ty same addresses => by
    simp only [discard, readInto_eq (.mem ty same addresses)]
  | .muxRead ty same selects addresses => by
    simp only [discard, readInto_eq (.muxRead ty same selects addresses)]
  | .int .. => rfl
  | .bool .. => rfl
  | .var .. => rfl

theorem assignRegister_eq {reg stem : String} {width : Nat} {e e' : TypedExpr}
    (renames : Renames env env' e e') :
    assignRegister s env pos reg width stem e = assignRegister s env' pos reg width stem e' := by
  have lowered := @lowerExpr_eq s env env' pos width {} _ _ renames
  have read := @readInto_eq s env env' pos reg _ _ renames
  cases renames <;> simp only [assignRegister, lowered, read]

theorem storeMemory_eq {name name' : String} {addr addr' : List TypedExpr} {e e' : TypedExpr}
    (same : SameMemory env env' name name') (addresses : RenamesAll env env' addr addr')
    (renames : Renames env env' e e') :
    storeMemory s env pos name addr e = storeMemory s env' pos name' addr' e' := by
  simp only [storeMemory, same.memoryOf_eq, addressing_eq addresses, lowerExpr_eq renames]

theorem lowerCondition_eq {e e' : TypedExpr} (renames : Renames env env' e e') :
    lowerCondition s env pos e = lowerCondition s env' pos e' := by
  simp only [lowerCondition, lowerExpr_eq renames]

/-- What an update or a reduction names. -/
inductive RenamesTarget (env env' : Env) : TypedExpr → TypedExpr → Prop where
  | register (ty : Ty) {name name' : String} {cell : String} {width : Nat}
      (left : env.get? name = some (.register cell width))
      (right : env'.get? name' = some (.register cell width)) :
      RenamesTarget env env' (.var ty name) (.var ty name')
  | element (ty : Ty) {name name' : String} {addr addr' : List TypedExpr}
      (same : SameMemory env env' name name') (addresses : RenamesAll env env' addr addr') :
      RenamesTarget env env' (.mem ty name addr) (.mem ty name' addr')

theorem registerOf_eq {name cell : String} {width : Nat}
    (found : env.get? name = some (.register cell width)) :
    registerOf env name = pure (cell, width) := by
  rw [registerOf, found]

theorem lowerUpdate_eq {target target' value value' : TypedExpr}
    (place : RenamesTarget env env' target target') (renames : Renames env env' value value') :
    lowerUpdate s env pos target value = lowerUpdate s env' pos target' value' := by
  cases place with
  | register ty left right =>
    simp only [lowerUpdate, registerOf_eq left, registerOf_eq right, assignRegister_eq renames]
  | element ty same addresses =>
    simp only [lowerUpdate, storeMemory_eq same addresses renames]

theorem lowerReduce_eq {op : BinOp} {target target' value value' : TypedExpr}
    (place : RenamesTarget env env' target target') (renames : Renames env env' value value') :
    lowerReduce s env pos op target value = lowerReduce s env' pos op target' value' := by
  cases place with
  | register ty left right =>
    simp only [lowerReduce, registerOf_eq left, registerOf_eq right, reduceRegister,
      lowerExpr_eq renames]
  | element ty same addresses =>
    simp only [lowerReduce, reduceMemory, same.memoryOf_eq, addressing_eq addresses,
      lowerExpr_eq renames]

end

end Lowering

end BankedLoops
