import BankedLoops.Proofs.Lowering.Components

/-!
# Constructions that quote nothing

The statements quoted so far ride along in the workspace. Only a step that is scheduled for a statement
changes them, and nothing reads them.
-/

namespace BankedLoops

namespace Lowering

variable {α β : Type}

def Workspace.quoting (w : Workspace) (quotes : Statements) : Workspace := { w with quotes }

/-- Does not read the quotes and does not change them. -/
class Mute (x : Build α) : Prop where
  run_quoting : ∀ (w : Workspace) (quotes : Statements),
    x.run (w.quoting quotes) = (fun r => (r.1, r.2.quoting quotes)) <$> x.run w

namespace Mute

instance pure (a : α) : Mute (Pure.pure a) := ⟨fun _ _ => rfl⟩

theorem seq {x : Build α} {f : α → Build β} (first : Mute x) (rest : ∀ a, Mute (f a)) :
    Mute (x >>= f) where
  run_quoting w quotes := by
    rw [StateT.run_bind, StateT.run_bind, first.run_quoting, bind_map_left, map_bind]
    exact bind_congr fun r => (rest r.1).run_quoting r.2 quotes

instance bind {x : Build α} {f : α → Build β} [first : Mute x] [rest : ∀ a, Mute (f a)] :
    Mute (x >>= f) := seq first rest

instance map {x : Build α} {f : α → β} [mute : Mute x] : Mute (f <$> x) := by
  rw [map_eq_pure_bind]
  infer_instance

instance ite {p : Prop} [Decidable p] {x y : Build α} [Mute x] [Mute y] : Mute (if p then x else y) := by
  split <;> infer_instance

instance throwInternal (fault : InternalFault) : Mute (Lowering.throwInternal fault : Build α) :=
  ⟨fun _ _ => rfl⟩

instance throw (e : Failure) : Mute (MonadExcept.throw e : Build α) := ⟨fun _ _ => rfl⟩

instance lift (x : Except Fault α) : Mute (liftM x : Build α) := ⟨fun _ _ => by cases x <;> rfl⟩

/-- Reads what does not depend on the quotes. -/
theorem get_bind {f : Workspace → Build β} (blind : ∀ w quotes, f (w.quoting quotes) = f w)
    (rest : ∀ w, Mute (f w)) : Mute (MonadState.get >>= f) where
  run_quoting w quotes := by
    show (f (w.quoting quotes)).run (w.quoting quotes) = _ <$> (f w).run w
    rw [blind, (rest w).run_quoting]

theorem modify {f : Workspace → Workspace}
    (commutes : ∀ w quotes, f (w.quoting quotes) = (f w).quoting quotes) :
    Mute (modify f : Build Unit) where
  run_quoting w quotes := congrArg (fun v => Except.ok ((), v)) (commutes w quotes)

theorem quotes_eq {x : Build α} [mute : Mute x] {w v : Workspace} {a : α}
    (ran : x.run w = .ok (a, v)) : v.quotes = w.quotes := by
  have same := mute.run_quoting w w.quotes
  rw [show w.quoting w.quotes = w from rfl, ran] at same
  exact congrArg (fun r => r.2.quotes) (Except.ok.inj same)

end Mute

section

variable {s : Setting} {env : Env}

instance mute_freshName (stem : String) : Mute (freshName stem) :=
  .get_bind (fun _ _ => rfl) fun _ =>
    .seq (.lift _) fun _ => .seq (.modify fun _ _ => rfl) fun _ => .pure _

instance mute_uniqueName (base : String) : Mute (uniqueName base) :=
  .get_bind (fun _ _ => rfl) fun _ => .seq (.modify fun _ _ => rfl) fun _ => .pure _

instance mute_addCell (c : Cell) : Mute (addCell c) := .modify fun _ _ => rfl

instance mute_addGroup (name : String) (latency : Option Nat) (assignments : List Assignment) :
    Mute (addGroup name latency assignments) := .modify fun _ _ => rfl

instance mute_addPrimitive (stem primitive : String) (params : List Nat) :
    Mute (addPrimitive stem primitive params) := by
  unfold addPrimitive
  infer_instance

instance mute_addRegister (base : String) (width : Nat) : Mute (addRegister base width) := by
  unfold addRegister
  infer_instance

instance mute_addFreshRegister (stem : String) (width : Nat) : Mute (addFreshRegister stem width) :=
  mute_addPrimitive _ _ _

instance mute_constant (width value : Nat) : Mute (constant width value) := by
  have shared : Mute (do
      match (← get).consts.lookup (width, value) with
      | some cell => pure (Pin.out cell)
      | none =>
        let cell ← addPrimitive "const" "std_const" [width, value]
        modify fun w => { w with consts := ((width, value), cell) :: w.consts }
        pure (.out cell)) := by
    refine .get_bind (fun _ _ => rfl) fun w => ?_
    split
    · exact .pure _
    · exact .seq inferInstance fun _ => .seq (.modify fun _ _ => rfl) fun _ => .pure _
  unfold constant
  split
  · exact .seq inferInstance fun _ => shared
  · exact shared

instance mute_instanceOf (func : String) : Mute (instanceOf func) := by
  refine .get_bind (fun _ _ => rfl) fun w => ?_
  split
  · exact .pure _
  · exact .seq inferInstance fun _ => .seq inferInstance fun _ =>
      .seq (.modify fun _ _ => rfl) fun _ => .pure _

instance mute_memoryOf (name : String) : Mute (memoryOf env name) := by
  unfold memoryOf
  split <;> infer_instance

instance mute_registerOf (name : String) : Mute (registerOf env name) := by
  unfold registerOf
  split <;> infer_instance

instance mute_addOperator (op : BinOp) (width : Nat) (signed : Bool) (frac : Option Nat) :
    Mute (addOperator op width signed frac) := by
  unfold addOperator
  infer_instance

instance mute_adapt (w : Wiring) (pin : Pin) (width target : Nat) (signed : Bool) :
    Mute (adapt w pin width target signed) := by
  unfold adapt
  infer_instance

instance mute_captureBanks (reg : String) (select : Pin) (width : Nat) (addrs : List Pin) (w : Wiring)
    (k : Nat) (banks : List String) : Mute (captureBanks env reg select width addrs w k banks) := by
  induction banks generalizing w k with
  | nil => exact .pure _
  | cons bank banks ih =>
    unfold captureBanks
    infer_instance

instance mute_addInit (iter reg : String) (width start : Nat) : Mute (addInit iter reg width start) := by
  unfold addInit
  infer_instance

instance mute_addCond (iter reg : String) (width stop : Nat) : Mute (addCond iter reg width stop) := by
  unfold addCond
  infer_instance

instance mute_addIncr (iter reg : String) (width : Nat) : Mute (addIncr iter reg width) := by
  unfold addIncr
  infer_instance

instance mute_addLoop (h : LoopHeader) : Mute (addLoop h) := by
  unfold addLoop
  infer_instance

instance mute_bindArguments (params args : List String) : Mute (bindArguments env params args) := by
  induction params generalizing args with
  | nil =>
    unfold bindArguments
    infer_instance
  | cons param params ih =>
    cases args with
    | nil => exact .pure _
    | cons arg args =>
      unfold bindArguments
      infer_instance

instance mute_memoryName (d : Decl) (exposure : Exposure) : Mute (memoryName s d exposure) := by
  cases exposure with
  | hidden => exact mute_uniqueName _
  | external | reference =>
    refine .get_bind (fun _ _ => rfl) fun w => ?_
    split
    · exact .seq (.modify fun _ _ => rfl) fun _ => .pure _
    · exact .throw _

instance mute_declare (d : Decl) (exposure : Exposure) : Mute (declare s env d exposure) := by
  unfold declare
  split <;> infer_instance

instance mute_declareAll (exposure : Exposure) (ds : List Decl) : Mute (declareAll s exposure env ds) := by
  induction ds generalizing env with
  | nil => exact .pure _
  | cons d ds ih =>
    unfold declareAll
    infer_instance

instance mute_instantiateAll (funcs : List String) : Mute (instantiateAll funcs) := by
  induction funcs with
  | nil => exact .pure _
  | cons func funcs ih =>
    unfold instantiateAll
    infer_instance

end

end Lowering

end BankedLoops
