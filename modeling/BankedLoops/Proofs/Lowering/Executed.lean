import BankedLoops.Proofs.Lowering.Leaves
import BankedLoops.Proofs.Lowering.Retyped

/-!
# Leaf commands in compiled texts

Wherever the lowering of a component comes to a definition, an update or a reduction, the control that
it builds there writes what the command says. Only the contents of the component decide: every address
and every select has to be in range.
-/

namespace BankedLoops

namespace Lowering

open Semantics (FixedProduct)
open Execution

/-! ### Ranges -/

mutual

/-- Whether every address and every select of an expression is in range. -/
def InRange (product : FixedProduct) (env : Env) (σ : State) : TypedExpr → Prop
  | .binop _ _ lhs rhs => InRange product env σ lhs ∧ InRange product env σ rhs
  | .mem _ mem addr => ∀ m, memoryOf? env mem = some m → InRangeAll product env σ addr m.sizes
  | .muxRead _ banks select addr => InRange product env σ select ∧
      (∀ v, value product env σ select = some v → (index? select.ty banks.length v).isSome) ∧
      ∀ bank ∈ banks, ∀ m, memoryOf? env bank = some m → InRangeAll product env σ addr m.sizes
  | _ => True

def InRangeAll (product : FixedProduct) (env : Env) (σ : State) : List TypedExpr → List Nat → Prop
  | e :: es, size :: sizes => InRange product env σ e ∧
      (∀ v, value product env σ e = some v → (index? e.ty size v).isSome) ∧
      InRangeAll product env σ es sizes
  | _, _ => True

end

/-- The commands that write. -/
def IsLeaf : TypedCommand → Prop
  | .define .. | .update .. | .reduce .. => True
  | _ => False

def InRangeLeaf (product : FixedProduct) (env : Env) (σ : State) : TypedCommand → Prop
  | .define _ _ _ init => InRange product env σ init
  | .update _ target e => InRange product env σ target ∧ InRange product env σ e
  | .reduce _ _ target e => InRange product env σ target ∧ InRange product env σ e
  | _ => True

/-! ### Values -/

section

variable {product : FixedProduct} {slots : Slots} {env : Env} {s : Setting} {pos : Nat} {σ : State}
  {w v : Workspace}

/-- The addresses of a lowered access, when they are in range, name an element. -/
def Locates (product : FixedProduct) (env : Env) (σ : State) (lower : AddressLowering)
    (addr : List TypedExpr) : Prop :=
  ∀ sizes w W pins W' v, (lower sizes W).run w = .ok ((pins, W'), v) →
    InRangeAll product env σ addr sizes → ∃ idxs, offsets product env σ addr sizes = some idxs

theorem memory_of_slot (matched : Matches slots env) {name : String} {elem : Ty} {sizes : List Nat}
    (found : slots.get? name = some (.memory elem sizes)) :
    ∃ cell, memoryOf? env name = some ⟨cell, sizes, elem.width⟩ := by
  obtain ⟨store, visible, fits⟩ := matched name _ found
  cases fits with
  | memory _ _ cell => exact ⟨cell, by rw [memoryOf?, visible]⟩

theorem value_of_readMemory (matched : Matches slots env) {ty : Ty} {mem reg : String}
    {addr : List TypedExpr} {controls : List Control} (typed : Physical slots (.mem ty mem addr))
    (located : Locates product env σ (addressing s env pos addr) addr)
    (ran : (readMemory s env pos reg mem (addressing s env pos addr)).run w = .ok (controls, v))
    (inRange : InRange product env σ (.mem ty mem addr)) :
    ∃ x, value product env σ (.mem ty mem addr) = some x := by
  cases typed with
  | mem found =>
    obtain ⟨cell, isMemory⟩ := memory_of_slot matched found
    obtain ⟨m, _, looked, ran⟩ := run_bind_ok_iff.mp ran
    obtain ⟨visible, rfl⟩ := memoryOf_ok looked
    rw [memoryOf?_eq_some isMemory] at visible
    cases visible
    obtain ⟨_, _, addressed, _⟩ := run_bind_ok_iff.mp ran
    obtain ⟨idxs, named⟩ := located _ _ _ _ _ _ addressed (inRange _ isMemory)
    exact ⟨_, by simp only [value, isMemory, named, Option.bind_eq_bind, Option.bind_some]; rfl⟩

theorem value_of_readBanks (matched : Matches slots env) {ty : Ty} {banks : List String} {reg : String}
    {select : TypedExpr} {addr : List TypedExpr} {controls : List Control}
    {selecting : Nat → Wiring → Build (Pin × Wiring)}
    (typed : Physical slots (.muxRead ty banks select addr))
    (selected : ∀ width w W r v, (selecting width W).run w = .ok (r, v) →
      ∃ x, value product env σ select = some x)
    (located : Locates product env σ (addressing s env pos addr) addr)
    (ran : (readBanks s env pos reg banks selecting (addressing s env pos addr)).run w =
      .ok (controls, v)) (inRange : InRange product env σ (.muxRead ty banks select addr)) :
    ∃ x, value product env σ (.muxRead ty banks select addr) = some x := by
  obtain ⟨_, numbered, ranges⟩ := inRange
  cases typed with
  | muxRead found =>
    cases banks with
    | nil => cases ran
    | cons first rest =>
      unfold readBanks at ran
      obtain ⟨m, _, looked, ran⟩ := run_bind_ok_iff.mp ran
      obtain ⟨visible, rfl⟩ := memoryOf_ok looked
      obtain ⟨_, _, _, ran⟩ := run_bind_ok_iff.mp ran
      obtain ⟨_, _, choosing, ran⟩ := run_bind_ok_iff.mp ran
      obtain ⟨_, _, addressed, _⟩ := run_bind_ok_iff.mp ran
      obtain ⟨x, chosen⟩ := selected _ _ _ _ _ choosing
      obtain ⟨k, number⟩ := Option.isSome_iff_exists.mp (numbered x chosen)
      have inside := (index?_eq_some number).2
      have listed := List.getElem?_eq_getElem inside
      have member := List.getElem_mem inside
      obtain ⟨cell, isMemory⟩ := memory_of_slot matched (found _ member)
      obtain ⟨cell', isFirst⟩ := memory_of_slot matched (found first List.mem_cons_self)
      rw [memoryOf?_eq_some isFirst] at visible
      cases visible
      have inRange := ranges _ member _ isMemory
      obtain ⟨idxs, named⟩ := located _ _ _ _ _ _ addressed inRange
      exact ⟨_, by simp only [value, chosen, number, listed, isMemory, named, Option.bind_eq_bind,
        Option.bind_some]; rfl⟩

theorem locates_addressing {addr : List TypedExpr}
    (located : ∀ sizes w W r v, addr.length = sizes.length →
      (lowerAddrs s env pos W addr sizes).run w = .ok (r, v) → InRangeAll product env σ addr sizes →
      ∃ idxs, offsets product env σ addr sizes = some idxs) :
    Locates product env σ (addressing s env pos addr) addr := by
  intro sizes w W pins W' v ran
  unfold addressing lowerCounted at ran
  split at ran
  · cases ran
  · next counted => exact located _ _ _ _ _ (Decidable.not_not.mp counted) ran

mutual

/-- What is lowered has a value, as long as its addresses and selects are in range. -/
theorem value_of_lowerExpr (matched : Matches slots env) : (e : TypedExpr) → {width : Nat} →
    {w v : Workspace} → {W : Wiring} → {r : Pin × Wiring} → Physical slots e →
    (lowerExpr s env pos width W e).run w = .ok (r, v) → InRange product env σ e →
    ∃ x, value product env σ e = some x
  | .int _ n, _, _, _, _, _, _, _, _ => ⟨n, rfl⟩
  | .bool _ b, _, _, _, _, _, _, _, _ => ⟨b.toNat, rfl⟩
  | .var ty name, _, _, _, _, _, typed, _, _ => by
    cases typed with
    | scalar bound =>
      obtain ⟨store, visible, fits⟩ := matched name _ bound
      cases fits
      exact ⟨_, by rw [value, scalarOf?, visible]⟩
    | iterator unroll found =>
      obtain ⟨store, visible, fits⟩ := matched name _ found
      cases fits
      exact ⟨_, by rw [value, scalarOf?, visible]⟩
  | .binop ty op lhs rhs, _, _, _, _, _, typed, ran, inRange => by
    rcases ty.static_or with ⟨n, rfl⟩ | notStatic
    · exact ⟨n, typed.value_of_static rfl⟩
    · rw [lowerExpr_computed notStatic] at ran
      obtain ⟨_, _, ranLeft, ran⟩ := run_bind_ok_iff.mp ran
      obtain ⟨_, _, ranRight, _⟩ := run_bind_ok_iff.mp ran
      cases typed with
      | binop left right =>
        obtain ⟨a, isLeft⟩ := value_of_lowerExpr matched lhs left ranLeft inRange.1
        obtain ⟨b, isRight⟩ := value_of_lowerExpr matched rhs right ranRight inRange.2
        exact ⟨_, by rw [value, isLeft, isRight]; rfl⟩
  | .mem ty mem addr, _, _, _, _, _, typed, ran, inRange => by
    have addressed : PhysicalAll slots addr := by
      cases typed
      assumption
    rw [lowerExpr] at ran
    obtain ⟨_, _, _, ran⟩ := run_bind_ok_iff.mp ran
    obtain ⟨_, _, reading, _⟩ := run_bind_ok_iff.mp ran
    exact value_of_readMemory matched typed
      (locates_addressing fun sizes _ _ _ _ => offsets_of_lowerAddrs matched addr sizes addressed) reading inRange
  | .muxRead ty banks select addr, _, _, _, _, _, typed, ran, inRange => by
    obtain ⟨selected, addressed⟩ : Physical slots select ∧ PhysicalAll slots addr := by
      cases typed
      exact ⟨‹_›, ‹_›⟩
    rw [lowerExpr] at ran
    obtain ⟨_, _, _, ran⟩ := run_bind_ok_iff.mp ran
    obtain ⟨_, _, reading, _⟩ := run_bind_ok_iff.mp ran
    exact value_of_readBanks matched typed
      (fun _ _ _ _ _ ran => value_of_lowerExpr matched select selected ran inRange.1)
      (locates_addressing fun sizes _ _ _ _ => offsets_of_lowerAddrs matched addr sizes addressed) reading inRange
  | .access _ _ _, _, _, _, _, _, _, ran, _ => by cases ran
  | .app _ _ _, _, _, _, _, _, _, ran, _ => by cases ran

theorem offsets_of_lowerAddrs (matched : Matches slots env) : (es : List TypedExpr) →
    (sizes : List Nat) → {w v : Workspace} → {W : Wiring} → {r : List Pin × Wiring} →
    PhysicalAll slots es → es.length = sizes.length →
    (lowerAddrs s env pos W es sizes).run w = .ok (r, v) → InRangeAll product env σ es sizes →
    ∃ idxs, offsets product env σ es sizes = some idxs
  | [], [], _, _, _, _, _, _, _, _ => ⟨[], rfl⟩
  | e :: es, size :: sizes, _, _, _, _, typed, counted, ran, inRange => by
    obtain ⟨first, rest⟩ : Physical slots e ∧ PhysicalAll slots es := by
      cases typed
      exact ⟨‹_›, ‹_›⟩
    unfold lowerAddrs at ran
    obtain ⟨_, _, _, ran⟩ := run_bind_ok_iff.mp ran
    obtain ⟨_, _, ranFirst, ran⟩ := run_bind_ok_iff.mp ran
    obtain ⟨_, _, ranRest, _⟩ := run_bind_ok_iff.mp ran
    obtain ⟨x, computed⟩ := value_of_lowerExpr matched e first ranFirst inRange.1
    obtain ⟨i, inside⟩ := Option.isSome_iff_exists.mp (inRange.2.1 x computed)
    obtain ⟨idxs, located⟩ :=
      offsets_of_lowerAddrs matched es sizes rest (Nat.succ.inj counted) ranRest inRange.2.2
    exact ⟨i :: idxs, by simp only [offsets, computed, inside, located, Option.bind_eq_bind,
      Option.bind_some]⟩

end

theorem locates_of_physical (matched : Matches slots env) {addr : List TypedExpr}
    (addressed : PhysicalAll slots addr) : Locates product env σ (addressing s env pos addr) addr :=
  locates_addressing fun sizes _ _ _ _ => offsets_of_lowerAddrs matched addr sizes addressed

theorem value_of_readInto (matched : Matches slots env) {e : TypedExpr} {reg : String}
    {controls : List Control} (typed : Physical slots e)
    (ran : (readInto s env pos reg e).run w = .ok (controls, v)) (inRange : InRange product env σ e) :
    ∃ x, value product env σ e = some x := by
  cases e with
  | mem ty mem addr =>
    have addressed : PhysicalAll slots addr := by
      cases typed
      assumption
    exact value_of_readMemory matched typed (locates_of_physical matched addressed) ran inRange
  | muxRead ty banks select addr =>
    obtain ⟨selected, addressed⟩ : Physical slots select ∧ PhysicalAll slots addr := by
      cases typed
      exact ⟨‹_›, ‹_›⟩
    rw [readInto] at ran
    exact value_of_readBanks matched typed
      (fun _ _ _ _ _ ran => value_of_lowerExpr matched select selected ran inRange.1)
      (locates_of_physical matched addressed) ran inRange
  | _ => cases ran

theorem value_of_assignRegister (matched : Matches slots env) {e : TypedExpr} {reg stem : String}
    {width : Nat} {control : Control} (typed : Physical slots e)
    (ran : (assignRegister s env pos reg width stem e).run w = .ok (control, v))
    (inRange : InRange product env σ e) : ∃ x, value product env σ e = some x := by
  have lowered {f : Pin × Wiring → Build Control}
      (ran : (lowerExpr s env pos width {} e >>= f).run w = .ok (control, v)) :
      ∃ x, value product env σ e = some x := by
    obtain ⟨_, _, lowering, _⟩ := run_bind_ok_iff.mp ran
    exact value_of_lowerExpr matched e typed lowering inRange
  unfold assignRegister at ran
  split at ran
  · split at ran
    · obtain ⟨_, _, reading, _⟩ := run_bind_ok_iff.mp ran
      exact value_of_readInto matched typed reading inRange
    · exact lowered ran
  · split at ran
    · obtain ⟨_, _, reading, _⟩ := run_bind_ok_iff.mp ran
      exact value_of_readInto matched typed reading inRange
    · exact lowered ran
  · exact lowered ran

end

/-! ### Leaves -/

/-- A place was written; the other cells that were there keep what they hold. -/
structure Wrote (w : Workspace) (place : Place) (x : Nat) (σ σ' : State) : Prop where
  holds : σ'.get place = x
  others : ∀ other : Place, other.cell ∈ w.cellNames → other ≠ place → σ'.get other = σ.get other

/-- The control of a command that writes does what the command says. -/
def Executes (d : Device) (c : Component) (w : Workspace) (env later : Env) (cmd : TypedCommand)
    (control : Control) : Prop :=
  ∀ σ, InRangeLeaf d.product env σ cmd → ∃ place x,
    written? d.product env later σ cmd = some (place, x) ∧ Ensures d c control σ (Wrote w place x σ)

section

variable {d : Device} {c : Component} {slots : Slots} {env later : Env} {s : Setting} {pos : Nat}
  {w v : Workspace} {σ : State} {control : Control}

theorem ensures_wrote {place : Place} {x : Nat}
    (ensures : Ensures d c control σ (Agree (v.built ∅) (σ.set x place)))
    (inside : place.cell ∈ v.cellNames) (more : w.cellNames ⊆ v.cellNames) :
    Ensures d c control σ (Wrote w place x σ) := by
  refine ensures.mono fun σ' agree => ⟨?_, fun other member different => ?_⟩
  · exact (agree.get ⟨inside, nofun⟩).symm.trans (State.get_set_self σ x place)
  · exact (agree.get ⟨more member, nofun⟩).symm.trans (State.get_set_of_ne σ x different)

theorem define_executes {name : String} {ty : Ty} {init : TypedExpr} (finished : Finished c)
    (legal : w.Legal True) (furnished : Furnished slots env w.cells) (tidy : Tidy init)
    (typed : Physical slots init) (fits : assignable init.ty ty = true)
    (ran : (lowerCommand s env (.define pos name ty init)).run w = .ok ((control, later), v))
    (kept : Kept v c) : Executes d c w env later (.define pos name ty init) control := by
  intro σ inRange
  obtain ⟨cell, _, adding, assigning, rfl⟩ := lowerDefine_ok ran
  have installs := addRegister_installs legal adding
  have grown := installs.extends_
  obtain ⟨x, computed⟩ := value_of_assignRegister furnished.matched typed assigning inRange
  refine ⟨.register cell, x, ?_, ?_⟩
  · simp only [written?, computed, placeOf?, Scope.get?_rebind_self, Option.bind_eq_bind,
      Option.bind_some]
  · exact ensures_wrote (assignRegister_writes finished grown.legal (furnished.named.mono grown.cells)
      furnished.matched tidy typed fits installs.found assigning kept computed)
      (mem_of_partOf? installs.found) grown.cellNames

/-- An assignable register behind a name. -/
theorem Furnished.register (furnished : Furnished slots env w.cells) {ty : Ty} {name cell : String}
    {width : Nat} (typed : Physical slots (.var ty name))
    (found : env.get? name = some (.register cell width)) :
    width = ty.width ∧ partOf? w.cells cell = some (.register ty.width) := by
  have isRegister := furnished.named.register found
  cases typed with
  | scalar bound =>
    obtain ⟨store, visible, fits⟩ := furnished.matched name _ bound
    cases fits
    rw [found] at visible
    cases visible
    exact ⟨rfl, isRegister⟩
  | iterator unroll bound =>
    obtain ⟨store, visible, fits⟩ := furnished.matched name _ bound
    cases fits
    rw [found] at visible
    cases visible

theorem Furnished.memory (furnished : Furnished slots env w.cells) {ty : Ty} {mem : String}
    {addr : List TypedExpr} (typed : Physical slots (.mem ty mem addr)) :
    ∃ m, memoryOf? env mem = some m ∧ m.width = ty.width ∧ m.cell ∈ w.cellNames ∧
      PhysicalAll slots addr := by
  cases typed with
  | mem slot addressed =>
    obtain ⟨cell, found⟩ := memory_of_slot furnished.matched slot
    have stored := furnished.named.stored mem _ (memoryOf?_eq_some found)
    exact ⟨_, found, rfl, stored.mem _ List.mem_cons_self, addressed⟩

theorem update_executes {target e : TypedExpr} (finished : Finished c) (legal : w.Legal True)
    (furnished : Furnished slots env w.cells) (tidyTarget : Tidy target) (tidy : Tidy e)
    (typedTarget : Physical slots target) (typed : Physical slots e)
    (fits : assignable e.ty target.ty = true)
    (ran : (lowerUpdate s env pos target e).run w = .ok (control, v)) (kept : Kept v c) :
    Executes d c w env env (.update pos target e) control := by
  intro σ inRange
  cases target with
  | var ty name =>
    obtain ⟨⟨cell, width⟩, _, looked, ran⟩ := run_bind_ok_iff.mp ran
    obtain ⟨found, rfl⟩ := registerOf_ok looked
    obtain ⟨rfl, isRegister⟩ := furnished.register typedTarget found
    obtain ⟨x, computed⟩ := value_of_assignRegister furnished.matched typed ran inRange.2
    refine ⟨.register cell, x, ?_, ?_⟩
    · simp only [written?, computed, placeOf?, found, Option.bind_eq_bind, Option.bind_some]
    · exact ensures_wrote (assignRegister_writes finished legal furnished.named furnished.matched tidy
        typed fits isRegister ran kept computed) (mem_of_partOf? isRegister) (List.Subset.refl _)
  | mem ty mem addr =>
    obtain ⟨m, found, wide, inside, addressed⟩ := furnished.memory typedTarget
    obtain ⟨m', _, looked, run⟩ := run_bind_ok_iff.mp ran
    obtain ⟨visible, rfl⟩ := memoryOf_ok looked
    rw [memoryOf?_eq_some found] at visible
    cases visible
    obtain ⟨_, _, placing, run⟩ := run_bind_ok_iff.mp run
    obtain ⟨_, _, lowering, _⟩ := run_bind_ok_iff.mp run
    obtain ⟨idxs, located⟩ := locates_of_physical furnished.matched addressed _ _ _ _ _ _ placing
      (inRange.1 m found)
    obtain ⟨x, computed⟩ := value_of_lowerExpr furnished.matched e typed lowering inRange.2
    refine ⟨.element m.cell idxs, x, ?_, ?_⟩
    · simp only [written?, computed, placeOf?, found, located, Option.bind_eq_bind, Option.bind_some]
    · exact ensures_wrote (storeMemory_writes finished legal furnished.named furnished.matched tidyTarget
        addressed tidy typed fits ran kept found wide located computed) inside (List.Subset.refl _)
  | _ => cases ran

theorem reduce_executes {op : BinOp} {target e : TypedExpr} (finished : Finished c)
    (legal : w.Legal True) (furnished : Furnished slots env w.cells) (tidyTarget : Tidy target)
    (tidy : Tidy e) (typedTarget : Physical slots target) (typed : Physical slots e)
    (arithmetic : op.isArithmetic = true) (fits : assignable e.ty target.ty = true)
    (ran : (lowerReduce s env pos op target e).run w = .ok (control, v)) (kept : Kept v c) :
    Executes d c w env env (.reduce pos op target e) control := by
  intro σ inRange
  cases target with
  | var ty name =>
    obtain ⟨⟨cell, width⟩, _, looked, ran⟩ := run_bind_ok_iff.mp ran
    obtain ⟨found, rfl⟩ := registerOf_ok looked
    obtain ⟨rfl, isRegister⟩ := furnished.register typedTarget found
    obtain ⟨_, _, lowering, _⟩ := run_bind_ok_iff.mp ran
    obtain ⟨x, computed⟩ := value_of_lowerExpr furnished.matched e typed lowering inRange.2
    have writes := reduceRegister_writes finished legal furnished.named furnished.matched tidy typed
      arithmetic fits isRegister ran kept computed
    refine ⟨_, _, ?_, ensures_wrote writes (mem_of_partOf? isRegister) (List.Subset.refl _)⟩
    simp only [written?, computed, value, scalarOf?, placeOf?, found, Option.bind_eq_bind,
      Option.bind_some, TypedExpr.ty]
  | mem ty mem addr =>
    obtain ⟨m, found, wide, inside, addressed⟩ := furnished.memory typedTarget
    obtain ⟨m', _, looked, run⟩ := run_bind_ok_iff.mp ran
    obtain ⟨visible, rfl⟩ := memoryOf_ok looked
    rw [memoryOf?_eq_some found] at visible
    cases visible
    obtain ⟨_, _, placing, run⟩ := run_bind_ok_iff.mp run
    obtain ⟨_, _, _, run⟩ := run_bind_ok_iff.mp run
    obtain ⟨_, _, _, run⟩ := run_bind_ok_iff.mp run
    obtain ⟨_, _, _, run⟩ := run_bind_ok_iff.mp run
    obtain ⟨_, _, lowering, _⟩ := run_bind_ok_iff.mp run
    obtain ⟨idxs, located⟩ := locates_of_physical furnished.matched addressed _ _ _ _ _ _ placing
      (inRange.1 m found)
    obtain ⟨x, computed⟩ := value_of_lowerExpr furnished.matched e typed lowering inRange.2
    have writes := reduceMemory_writes finished legal furnished.named furnished.matched tidyTarget
      addressed tidy typed arithmetic fits ran kept found wide located computed
    refine ⟨_, _, ?_, ensures_wrote writes inside (List.Subset.refl _)⟩
    simp only [written?, computed, value, placeOf?, found, located, Option.bind_eq_bind,
      Option.bind_some, TypedExpr.ty]
  | _ => cases ran

/-- Every command that writes is executed by the control that it is lowered to. -/
theorem leaf_executes {cmd : TypedCommand} (leaf : IsLeaf cmd) (finished : Finished c)
    (legal : w.Legal True) (furnished : Furnished slots env w.cells) (tidy : TidyCommand cmd)
    (typed : PhysicalCommand slots cmd)
    (ran : (lowerCommand s env cmd).run w = .ok ((control, later), v)) (kept : Kept v c) :
    Executes d c w env later cmd control := by
  cases cmd with
  | define pos name ty init =>
    exact define_executes finished legal furnished tidy typed.1 typed.2 ran kept
  | update pos target e =>
    cases lowerCommand_ok ran with
    | update lowering =>
      exact update_executes finished legal furnished tidy.1 tidy.2 typed.1 typed.2.1 typed.2.2 lowering kept
  | reduce pos op target e =>
    obtain ⟨arithmetic, _, typedTarget, typed, fits⟩ := typed
    cases lowerCommand_ok ran with
    | reduce lowering =>
      exact reduce_executes finished legal furnished tidy.1 tidy.2 typedTarget typed arithmetic fits
        lowering kept
  | _ => exact leaf.elim

end

/-! ### Where lowering comes to a command -/

/-- Lowering a command in its environment and workspace comes to lower a command inside of it, in an
environment and a workspace of its own. -/
inductive Reaches (s : Setting) :
    Env → Workspace → TypedCommand → Env → Workspace → TypedCommand → Prop where
  | here {env : Env} {w : Workspace} {cmd : TypedCommand} : Reaches s env w cmd env w cmd
  | first {env env' : Env} {w w' : Workspace} {pos : Nat} {cmd inner : TypedCommand}
      {cmds : List TypedCommand} (reaches : Reaches s env w cmd env' w' inner) :
      Reaches s env w (.seq pos (cmd :: cmds)) env' w' inner
  | rest {env next env' : Env} {w v w' : Workspace} {pos : Nat} {cmd inner : TypedCommand}
      {cmds : List TypedCommand} {control : Control}
      (lowered : (lowerCommand s env cmd).run w = .ok ((control, next), v))
      (reaches : Reaches s next v (.seq pos cmds) env' w' inner) :
      Reaches s env w (.seq pos (cmd :: cmds)) env' w' inner
  | yes {env env' : Env} {w v w' : Workspace} {pos : Nat} {cond : TypedExpr}
      {onTrue inner : TypedCommand} {onFalse : Option TypedCommand}
      {test : Pin × Option String × List Control}
      (tested : (lowerCondition s env pos cond).run w = .ok (test, v))
      (reaches : Reaches s env.enter v onTrue env' w' inner) :
      Reaches s env w (.branch pos cond onTrue onFalse) env' w' inner
  | no {env env' : Env} {w v u w' : Workspace} {pos : Nat} {cond : TypedExpr}
      {onTrue onFalse inner : TypedCommand} {test : Pin × Option String × List Control}
      {taken : Control × Env} (tested : (lowerCondition s env pos cond).run w = .ok (test, v))
      (lowered : (lowerCommand s env.enter onTrue).run v = .ok (taken, u))
      (reaches : Reaches s env.enter u onFalse env' w' inner) :
      Reaches s env w (.branch pos cond onTrue (some onFalse)) env' w' inner
  | round {env env' : Env} {w v w' : Workspace} {pos : Nat} {header : LoopHeader}
      {body inner : TypedCommand} {frame : LoopFrame} (framed : (addLoop header).run w = .ok (frame, v))
      (reaches : Reaches s (env.enter.rebind header.iter
        (.iterator frame.reg frame.slice frame.width)) v body env' w' inner) :
      Reaches s env w (.loop pos header body) env' w' inner

/-- A command that stands somewhere in another one. -/
inductive Inside (inner : TypedCommand) : TypedCommand → Prop where
  | here : Inside inner inner
  | item {pos : Nat} {cmd : TypedCommand} {cmds : List TypedCommand} (member : cmd ∈ cmds)
      (inside : Inside inner cmd) : Inside inner (.seq pos cmds)
  | yes {pos : Nat} {cond : TypedExpr} {onTrue : TypedCommand} {onFalse : Option TypedCommand}
      (inside : Inside inner onTrue) : Inside inner (.branch pos cond onTrue onFalse)
  | no {pos : Nat} {cond : TypedExpr} {onTrue onFalse : TypedCommand}
      (inside : Inside inner onFalse) : Inside inner (.branch pos cond onTrue (some onFalse))
  | round {pos : Nat} {header : LoopHeader} {body : TypedCommand} (inside : Inside inner body) :
      Inside inner (.loop pos header body)

/-- A command that is lowered in a legal workspace. If the widths are exact, it is typed as well. -/
structure Lowers (exact : Prop) (s : Setting) (slots : Slots) (env : Env) (w : Workspace)
    (cmd : TypedCommand) (control : Control) (later : Env) (v : Workspace) : Prop where
  legal : w.Legal exact
  furnished : Furnished slots env w.cells
  tidy : TidyCommand cmd
  typed : exact → PhysicalCommand slots cmd
  ran : (lowerCommand s env cmd).run w = .ok ((control, later), v)

/-- The command of an else branch, if there is one. -/
inductive LowersOptional (exact : Prop) (s : Setting) (slots : Slots) (env : Env) (w : Workspace) :
    Option TypedCommand → Control → Workspace → Prop where
  | none (legal : w.Legal exact) : LowersOptional exact s slots env w none .empty w
  | some {cmd : TypedCommand} {control : Control} {later : Env} {v : Workspace}
      (lowers : Lowers exact s slots env w cmd control later v) :
      LowersOptional exact s slots env w (some cmd) control v

section

variable {exact : Prop} {s : Setting} {slots : Slots} {env env' later : Env} {w w' v : Workspace}
  {cmd inner : TypedCommand} {control : Control}

theorem Lowers.planned (lowers : Lowers exact s slots env w cmd control later v) :
    Planned exact w [control] v ∧ Furnished (slotsAfter slots cmd) later v.cells :=
  lowerCommand_planned lowers.legal lowers.furnished lowers.tidy lowers.typed lowers.ran

theorem Lowers.extends_ (lowers : Lowers exact s slots env w cmd control later v) : Extends exact w v :=
  lowers.planned.1.extends_

/-- The first command of a sequence, then the others. -/
theorem Lowers.seq {pos : Nat} {cmds : List TypedCommand}
    (whole : Lowers exact s slots env w (.seq pos (cmd :: cmds)) control later v) :
    ∃ head next u rest, control = .sequence (head :: rest) ∧ Lowers exact s slots env w cmd head next u ∧
      Lowers exact s (slotsAfter slots cmd) next u (.seq pos cmds) (.sequence rest) later v := by
  obtain ⟨legal, furnished, tidy, typed, ran⟩ := whole
  cases lowerCommand_ok ran with
  | seq lowering =>
    obtain ⟨head, next, u, others, first, rest, rfl⟩ := lowerSeq_cons_ok lowering
    have lowered : Lowers exact s slots env w cmd head next u :=
      ⟨legal, furnished, tidy.1, fun known => (typed known).1, first⟩
    obtain ⟨planned, furnished⟩ := lowered.planned
    exact ⟨head, next, u, others, rfl, lowered, planned.extends_.legal, furnished, tidy.2,
      fun known => (typed known).2, run_lowerSeq rest⟩

theorem lowersOptional_of_run {cmd : Option TypedCommand} (legal : w.Legal exact)
    (furnished : Furnished slots env w.cells) (tidy : TidyElse cmd)
    (typed : exact → PhysicalElse slots cmd) (ran : (lowerElse s env cmd).run w = .ok (control, v)) :
    LowersOptional exact s slots env w cmd control v := by
  cases cmd with
  | none =>
    obtain ⟨rfl, rfl⟩ := lowerElse_none_ok ran
    exact .none legal
  | some cmd =>
    obtain ⟨_, lowering⟩ := lowerElse_some_ok ran
    exact .some ⟨legal, furnished, tidy, typed, lowering⟩

theorem LowersOptional.extends_ {cmd : Option TypedCommand}
    (lowers : LowersOptional exact s slots env w cmd control v) : Extends exact w v := by
  cases lowers with
  | none legal => exact legal.extends_refl
  | some lowers => exact lowers.extends_

/-- A condition, then each branch in a scope of its own. -/
theorem Lowers.branch {pos : Nat} {cond : TypedExpr} {onTrue : TypedCommand}
    {onFalse : Option TypedCommand}
    (whole : Lowers exact s slots env w (.branch pos cond onTrue onFalse) control later v) :
    ∃ pin group before u yes next u' no,
      control = .sequence (before ++ [.branch pin group yes no]) ∧
      (lowerCondition s env pos cond).run w = .ok ((pin, group, before), u) ∧
      Lowers exact s slots.enter env.enter u onTrue yes next u' ∧
      LowersOptional exact s slots.enter env.enter u' onFalse no v := by
  obtain ⟨legal, furnished, tidy, typed, ran⟩ := whole
  cases lowerCommand_ok ran with
  | @branch _ _ _ _ pin group before yes no next u u' _ tested taken untaken =>
    have first := lowerCondition_planned legal furnished.named furnished.matched tidy.1
      (fun known => (typed known).1) tested
    have lowered : Lowers exact s slots.enter env.enter u onTrue yes next u' :=
      ⟨first.extends_.legal, (furnished.mono first.extends_.cells).enter, tidy.2.1,
        fun known => (typed known).2.1, taken⟩
    have grown := first.extends_.trans lowered.extends_
    refine ⟨pin, group, before, u, yes, next, u', no, rfl, tested, lowered, ?_⟩
    exact lowersOptional_of_run grown.legal (furnished.mono grown.cells).enter tidy.2.2
      (fun known => (typed known).2.2) untaken

/-- The hardware of a loop, then its body. The loop is quoted behind both. -/
theorem Lowers.loop {pos : Nat} {header : LoopHeader} {body : TypedCommand}
    (whole : Lowers exact s slots env w (.loop pos header body) control later v) :
    ∃ frame u round next u', v = (u'.quote s pos).quote s pos ∧
      control = .sequence [s.enable frame.init pos,
        .loop (.out frame.lt) (some frame.cond) (.sequence [round, s.enable frame.incr pos])
          (some (header.stop - header.start))] ∧
      (addLoop header).run w = .ok (frame, u) ∧
      Lowers exact s (slots.enter.rebind header.iter (.iterator header.stop))
        (env.enter.rebind header.iter (.iterator frame.reg frame.slice frame.width)) u body round next
        u' := by
  obtain ⟨legal, furnished, tidy, typed, ran⟩ := whole
  cases lowerCommand_ok ran with
  | @loop _ _ _ frame round next u u' framed lowering =>
    have loop := addLoop_framed legal (fun known =>
      ⟨Nat.lt_trans (typed known).1 (typed known).2.1, (typed known).2.1⟩) framed
    have grown := (loop.planned none none).extends_
    exact ⟨frame, u, round, next, u', rfl, rfl, framed, grown.legal,
      furnished.enter.rebind grown.cells loop.stored loop.fits loop.fresh header.iter, tidy,
      fun known => (typed known).2.2, lowering⟩

/-- What is lowered inside of a typed command is typed itself, and its workspace grows into that of
the whole. -/
theorem Reaches.lowers (reaches : Reaches s env w cmd env' w' inner)
    (whole : Lowers exact s slots env w cmd control later v) :
    ∃ slots' control' later' v', Lowers exact s slots' env' w' inner control' later' v' ∧
      Extends exact v' v := by
  induction reaches generalizing slots control later v with
  | here => exact ⟨slots, control, later, v, whole, whole.extends_.legal.extends_refl⟩
  | first _ ih =>
    obtain ⟨_, _, _, _, _, head, tail⟩ := whole.seq
    obtain ⟨slots', control', later', v', lowers, grown⟩ := ih head
    exact ⟨slots', control', later', v', lowers, grown.trans tail.extends_⟩
  | rest lowered _ ih =>
    obtain ⟨_, _, _, _, _, head, tail⟩ := whole.seq
    cases lowered.symm.trans head.ran
    exact ih tail
  | yes tested _ ih =>
    obtain ⟨_, _, _, _, _, _, _, _, _, testing, taken, others⟩ := whole.branch
    cases tested.symm.trans testing
    obtain ⟨slots', control', later', v', lowers, grown⟩ := ih taken
    exact ⟨slots', control', later', v', lowers, grown.trans others.extends_⟩
  | no tested lowered _ ih =>
    obtain ⟨_, _, _, _, _, _, _, _, _, testing, taken, others⟩ := whole.branch
    cases tested.symm.trans testing
    cases lowered.symm.trans taken.ran
    cases others with
    | some other => exact ih other
  | round framed _ ih =>
    obtain ⟨_, _, _, _, _, rfl, _, framing, body⟩ := whole.loop
    cases framed.symm.trans framing
    obtain ⟨slots', control', later', v', lowers, grown⟩ := ih body
    exact ⟨slots', control', later', v', lowers, (grown.quote _ _).quote _ _⟩

/-- Lowering comes to every command that stands inside. -/
theorem Inside.reaches (inside : Inside inner cmd) (whole : Lowers exact s slots env w cmd control later v) :
    ∃ env' w', Reaches s env w cmd env' w' inner := by
  induction inside generalizing slots env w control later v with
  | here => exact ⟨env, w, .here⟩
  | @item pos cmd cmds member _ ih =>
    induction cmds generalizing slots env w control with
    | nil => cases member
    | cons first cmds ihRest =>
      obtain ⟨_, _, _, _, _, head, tail⟩ := whole.seq
      rcases List.mem_cons.mp member with rfl | others
      · obtain ⟨env', w', reaches⟩ := ih head
        exact ⟨env', w', .first reaches⟩
      · obtain ⟨env', w', reaches⟩ := ihRest others tail
        exact ⟨env', w', .rest head.ran reaches⟩
  | yes _ ih =>
    obtain ⟨_, _, _, _, _, _, _, _, _, tested, taken, _⟩ := whole.branch
    obtain ⟨env', w', reaches⟩ := ih taken
    exact ⟨env', w', .yes tested reaches⟩
  | no _ ih =>
    obtain ⟨_, _, _, _, _, _, _, _, _, tested, taken, others⟩ := whole.branch
    cases others with
    | some other =>
      obtain ⟨env', w', reaches⟩ := ih other
      exact ⟨env', w', .no tested taken.ran reaches⟩
  | round _ ih =>
    obtain ⟨_, _, _, _, _, _, _, framed, body⟩ := whole.loop
    obtain ⟨env', w', reaches⟩ := ih body
    exact ⟨env', w', .round framed reaches⟩

/-! ### Components -/

/-- Building a component from its storage and its body, after some quotes, comes to lower a command. -/
structure Visits (s : Setting) (quotes : Statements) (exposure : Exposure) (ds : List Decl)
    (instances : List String) (body : Option TypedCommand) (env : Env) (w : Workspace)
    (cmd : TypedCommand) : Prop where
  steps : ∃ start declared instantiated top,
    (declareAll s exposure {} ds).run { quotes } = .ok (start, declared) ∧
    (instantiateAll instances).run declared = .ok ((), instantiated) ∧ body = some top ∧
    Reaches s start instantiated top env w cmd

/-- Lowering comes to every command of the body that writes, and wherever it does, the control that it
builds executes the command in the component. -/
def ExecutesLeaves (s : Setting) (exposure : Exposure) (ds : List Decl) (instances : List String)
    (body : Option TypedCommand) (c : Component) : Prop :=
  ∃ quotes, ∀ top cmd, body = some top → Inside cmd top → IsLeaf cmd →
    (∃ env w, Visits s quotes exposure ds instances body env w cmd) ∧
    ∀ env w, Visits s quotes exposure ds instances body env w cmd →
      ∃ control later v, (lowerCommand s env cmd).run w = .ok ((control, later), v) ∧
        ∀ d, Executes d c w env later cmd control

/-- Lowering comes to every command that stands in the body, and wherever it does, the workspace is
legal and grows into that of the component. -/
theorem assemble_visits {quotes : Statements} {exposure : Exposure} {ds : List Decl} {instances : List String}
    {top : TypedCommand} (tidy : TidyBody ds (some top))
    (typed : exact → PhysicalBody ds (some top))
    (ran : (assemble s exposure ds instances (some top)).run { quotes } = .ok (control, v))
    (inside : Inside cmd top) :
    (∃ env w, Visits s quotes exposure ds instances (some top) env w cmd) ∧
      ∀ env w, Visits s quotes exposure ds instances (some top) env w cmd →
        ∃ slots inner later v', Lowers exact s slots env w cmd inner later v' ∧ Extends exact v' v := by
  obtain ⟨start, declared, declaring, ran⟩ := run_bind_ok_iff.mp ran
  obtain ⟨_, instantiated, instantiating, ran⟩ := run_bind_ok_iff.mp ran
  obtain ⟨_, lowering⟩ := lowerElse_some_ok ran
  obtain ⟨first, furnished⟩ := declareAll_furnished (Workspace.legal_empty exact _)
    ⟨legalEnv_empty _, Matches.empty _⟩ tidy.decls declaring
  have second := instantiateAll_planned first.extends_.legal instantiating
  have whole : Lowers exact s (slotsOf {} ds) start instantiated top _ _ v :=
    ⟨second.extends_.legal, furnished.mono second.extends_.cells, tidy.body, typed, lowering⟩
  constructor
  · obtain ⟨env, w, reaches⟩ := inside.reaches whole
    exact ⟨env, w, start, declared, instantiated, top, declaring, instantiating, rfl, reaches⟩
  · rintro env w ⟨_, _, _, _, declaring', instantiating', same, reaches⟩
    cases declaring.symm.trans declaring'
    cases instantiating.symm.trans instantiating'
    cases same
    exact reaches.lowers whole

theorem assemble_executes {quotes : Statements} {exposure : Exposure} {ds : List Decl} {instances : List String}
    {body : Option TypedCommand} (tidy : TidyBody ds body) (typed : PhysicalBody ds body)
    (ran : (assemble s exposure ds instances body).run { quotes } = .ok (control, v)) (name : String) :
    ExecutesLeaves s exposure ds instances body ⟨name, v.cells, v.groups, control⟩ := by
  refine ⟨quotes, ?_⟩
  rintro top cmd rfl inside leaf
  have planned : Planned True { quotes } [control] v := assemble_planned tidy (fun _ => typed) ran
  obtain ⟨some_, visits⟩ := assemble_visits tidy (fun (_ : True) => typed) ran inside
  refine ⟨some_, fun env w visited => ?_⟩
  obtain ⟨slots, inner, later, v', lowers, grown⟩ := visits env w visited
  refine ⟨inner, later, v', lowers.ran, fun d => ?_⟩
  exact leaf_executes leaf (planned.extends_.legal.finished _ _) lowers.legal lowers.furnished
    lowers.tidy (lowers.typed trivial) lowers.ran ⟨grown.cells, grown.groups⟩

end

end Lowering

open Lowering

/-- Every component of a netlist executes the commands of its body that write. -/
def Netlist.ExecutesLeaves (s : Setting) (p : TypedProgram) (netlist : Netlist) : Prop :=
  ∃ functions root, netlist.components = functions ++ [root] ∧
    List.Forall₂ (fun f c => Lowering.ExecutesLeaves s .reference f.params [] (some f.body) c) p.defs
      functions ∧
    Lowering.ExecutesLeaves s .external p.decls (p.defs.map (·.name)) p.body root

/-- In a compiled text that binds no name of a bank, every command that writes is lowered to a control
that can be run to its end and writes the value of its right side, combined with the old value in a
reduction, to the place that it names, as long as every address and every select is in range. -/
theorem compile_executesLeaves {config : Config} {text : String} {source : SourceProgram}
    {p : TypedProgram} {banked : BankedProgram} {netlist : Netlist} (parsed : parse text = .ok source)
    (checked : source.check.result = .ok p) (clean : p.BankNameClean)
    (split : (p.toBanks (.ofProgram source)).result = .ok banked)
    (lowered : (banked.toNetlist config (.ofProgram source)).result = .ok netlist) :
    netlist.ExecutesLeaves
      (banked.setting config (.ofProgram source)) banked.program := by
  have written := Program.check_written (parse_written parsed) checked
  have tidy := Program.tidy_toBanks written split
  have typed := Program.physical_toBanks (Typing.checkedProgram_of_check checked) written clean split
  obtain ⟨functions, root, loweredFunctions, loweredRoot, components⟩ :=
    BankedProgram.toNetlist_ok lowered
  refine ⟨functions, root, components, forall₂_of_made (fun f member c built => ?_)
    loweredFunctions, ?_⟩
  · simp only [lowerFunction_eq] at built
    obtain ⟨_, control, w, ran, rfl⟩ := buildComponent_ok built
    exact assemble_executes (tidy.functions f member) (typed.functions f member) ran f.name
  · simp only [lowerRoot_eq] at loweredRoot
    obtain ⟨_, control, w, ran, rfl⟩ := buildComponent_ok loweredRoot
    exact assemble_executes tidy.root typed.root ran config.topName

/-- The reduction hoists a read of the select before the read of the bank. -/
theorem compile_executesLeaves_gather : ∃ source p banked netlist, parse gather = .ok source ∧
    source.check.result = .ok p ∧ p.BankNameClean ∧
    (p.toBanks (.ofProgram source)).result = .ok banked ∧
    (banked.toNetlist {} (.ofProgram source)).result = .ok netlist ∧
    netlist.ExecutesLeaves (banked.setting {} (.ofProgram source))
      banked.program := by
  obtain ⟨p, accepted, clean⟩ := gather_clean
  obtain ⟨netlist, compiled, _⟩ := gather_compiles
  obtain ⟨source, q, banked, parsed, checked, split, lowered⟩ := compile_ok compiled
  obtain ⟨source', parsed', checked'⟩ := check_ok accepted
  cases parsed.symm.trans parsed'
  cases checked.symm.trans checked'
  exact ⟨source, p, banked, netlist, parsed, checked, clean, split, lowered,
    compile_executesLeaves parsed checked clean split lowered⟩

end BankedLoops
