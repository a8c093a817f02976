import Mathlib.Data.List.ModifyLast
import BankedLoops.Proofs.Lowering.Netlists
import BankedLoops.Proofs.Lowering.Quotes
import BankedLoops.Proofs.Typing.Erasure

/-!
# Designs

The design of a netlist is the netlist without the positions on its schedule and without the table
of statements. The output options do not reach the design: a program has one design for each name of
the root, and the name of the root appears in it only as the name of the last component.
-/

namespace BankedLoops

namespace Control

mutual

/-- The control without the positions on its enabled groups and invocations. -/
def erase : Control → Control
  | .empty => .empty
  | .enable group _ => .enable group none
  | .seq items => .seq (eraseAll items)
  | .loop pin cond body bound => .loop pin cond (erase body) bound
  | .branch pin cond onTrue onFalse => .branch pin cond (erase onTrue) (erase onFalse)
  | .invoke cell refs _ => .invoke cell refs none

def eraseAll : List Control → List Control
  | [] => []
  | c :: cs => erase c :: eraseAll cs

end

theorem eraseAll_eq (cs : List Control) : eraseAll cs = cs.map erase := by
  induction cs with
  | nil => rfl
  | cons c cs ih => rw [eraseAll, ih, List.map_cons]

theorem items_erase (c : Control) : c.erase.items = c.items.map erase := by
  cases c with
  | seq items => exact eraseAll_eq items
  | _ => rfl

theorem erase_sequence (cs : List Control) : (sequence cs).erase = sequence (cs.map erase) := by
  have flat : (cs.map erase).flatMap items = (cs.flatMap items).map erase := by
    rw [List.flatMap_map, List.map_flatMap]
    exact List.flatMap_congr fun c _ => items_erase c
  unfold sequence
  rw [flat]
  match cs.flatMap items with
  | [] => rfl
  | [c] => rfl
  | c :: d :: rest => exact congrArg Control.seq (eraseAll_eq _)

end Control

def Component.erase (c : Component) : Component := { c with control := c.control.erase }

/-- The netlist without positions and statements. -/
def Netlist.design (n : Netlist) : Netlist where
  components := n.components.map Component.erase
  memories := n.memories
  metadata := {}

/-- The netlist with another name for its last component. -/
def Netlist.renameRoot (n : Netlist) (name : String) : Netlist :=
  { n with components := n.components.modifyLast fun root => { root with name } }

namespace Lowering

/-- The setting without positions and quotes. -/
def Setting.quiet (s : Setting) : Setting := { s with emitPositions := false, emitMetadata := false }

def Wiring.erase (w : Wiring) : Wiring := { w with before := w.before.map Control.erase }

/-! ### Quiet runs -/

variable {α α' β β' : Type}

/-- The second construction makes the erased result of the first, and quotes nothing. -/
def Erases (f : α → α') (x : Build α) (x' : Build α') : Prop :=
  ∀ w : Workspace, x'.run (w.quoting {}) = (fun r => (f r.1, r.2.quoting {})) <$> x.run w

namespace Erases

variable {f : α → α'} {g : β → β'}

theorem pure {a : α} {a' : α'} (erased : f a = a') : Erases f (Pure.pure a) (Pure.pure a') := by
  subst erased
  exact fun _ => rfl

theorem bind {x : Build α} {x' : Build α'} {k : α → Build β} {k' : α' → Build β'} (head : Erases f x x')
    (tail : ∀ a, Erases g (k a) (k' (f a))) : Erases g (x >>= k) (x' >>= k') := by
  intro w
  rw [StateT.run_bind, StateT.run_bind, head w, bind_map_left, map_bind]
  exact bind_congr fun r => tail r.1 r.2

/-- A step that both take, and that quotes nothing. -/
theorem same {x : Build α} [mute : Mute x] {k : α → Build β} {k' : α → Build β'}
    (tail : ∀ a, Erases g (k a) (k' a)) : Erases g (x >>= k) (x >>= k') :=
  bind (f := id) (fun w => mute.run_quoting w {}) tail

theorem ite {p : Prop} [Decidable p] {x y : Build β} {x' y' : Build β'} (onTrue : Erases g x x')
    (onFalse : Erases g y y') : Erases g (if p then x else y) (if p then x' else y') := by
  split
  · exact onTrue
  · exact onFalse

theorem throw (e : Failure) : Erases f (MonadExcept.throw e) (MonadExcept.throw e) := fun _ => rfl

end Erases

section

variable {s : Setting} {env : Env} {pos : Nat}

theorem Wiring.erase_assign (w : Wiring) (dst : Pin) (src : Atom) (guard : Guard) :
    (w.assign dst src guard).erase = w.erase.assign dst src guard := by
  by_cases present : w.assigns.contains ⟨dst, src, guard⟩ = true
  · rw [assign, assign, if_pos present]
    exact (if_pos present).symm
  · rw [assign, assign, if_neg present]
    exact (if_neg present).symm

theorem Wiring.erase_connect (w : Wiring) (dst src : Pin) :
    (w.connect dst src).erase = w.erase.connect dst src := w.erase_assign _ _ _

theorem Wiring.erase_address (w : Wiring) (mem : String) (addrs : List Pin) (guard : Guard) :
    (w.address mem addrs guard).erase = w.erase.address mem addrs guard := by
  unfold address
  induction addrs.zipIdx generalizing w with
  | nil => rfl
  | cons entry rest ih => rw [List.foldl_cons, List.foldl_cons, ih, erase_assign]

theorem Wiring.erase_capture (w : Wiring) (mem : String) (addrs : List Pin) (select : Guard)
    (reg : String) : (w.capture mem addrs select reg).erase = w.erase.capture mem addrs select reg := by
  simp only [capture, erase_assign, erase_address]

theorem Wiring.erase_store (w : Wiring) (group mem : String) (addrs : List Pin) (data : Pin) :
    (w.store group mem addrs data).erase = w.erase.store group mem addrs data := by
  simp only [store, erase_assign, erase_connect, erase_address]

theorem Wiring.erase_latch (w : Wiring) (group reg : String) (data : Pin) :
    (w.latch group reg data).erase = w.erase.latch group reg data := by
  simp only [latch, erase_assign, erase_connect]

theorem Wiring.erase_after (w : Wiring) (controls : List Control) :
    (w.after controls).erase = w.erase.after (controls.map Control.erase) := by
  simp only [after, erase, List.map_append]

/-- The result of lowering an expression or a list of addresses, erased. -/
abbrev eraseWiring {α : Type} (r : α × Wiring) : α × Wiring := (r.1, r.2.erase)

theorem enableGroup_quiet (group : String) :
    Erases Control.erase (enableGroup s group pos) (enableGroup s.quiet group pos) := fun _ => rfl

theorem adapt_quiet {w w' : Wiring} (erased : w.erase = w') {pin : Pin} {width target : Nat}
    {signed : Bool} :
    Erases eraseWiring (adapt w pin width target signed) (adapt w' pin width target signed) := by
  subst erased
  refine .ite (.pure rfl) (.same fun cell => .pure ?_)
  rw [eraseWiring, Wiring.erase_connect]

theorem finishRead_quiet {reg : String} {w w' : Wiring} (erased : w.erase = w') :
    Erases (List.map Control.erase) (finishRead s pos reg w) (finishRead s.quiet pos reg w') := by
  subst erased
  refine .same fun group => ?_
  rw [← Wiring.erase_connect]
  refine .same fun _ => (enableGroup_quiet group).bind fun c => .pure ?_
  rw [List.map_append]
  rfl

theorem readName_quiet {w : Wiring} {name : String} :
    Erases (fun r => (r.1, r.2.1, r.2.2.erase)) (readName s env pos w name)
      (readName s.quiet env pos w.erase name) := by
  unfold readName
  split
  · exact .pure rfl
  · exact .pure rfl
  · exact .pure (by rw [Wiring.erase_connect])
  · exact .throw _

theorem captureBanks_quiet {reg : String} {select : Pin} {width : Nat} {addrs : List Pin}
    {banks : List String} {w w' : Wiring} (erased : w.erase = w') {k : Nat} :
    Erases Wiring.erase (captureBanks env reg select width addrs w k banks)
      (captureBanks env reg select width addrs w' k banks) := by
  induction banks generalizing w w' k with
  | nil => exact .pure erased
  | cons bank banks ih =>
    refine .same fun m => .same fun eq => .same fun number => ih ?_
    rw [Wiring.erase_capture, Wiring.erase_connect, Wiring.erase_connect, erased]

/-- Addresses lowered without positions. -/
def Quiets (lower lower' : AddressLowering) : Prop :=
  ∀ sizes w, Erases eraseWiring (lower sizes w) (lower' sizes w.erase)

theorem Quiets.counted {lower lower' : AddressLowering} (quiets : Quiets lower lower') (count : Nat) :
    Quiets (lowerCounted count lower) (lowerCounted count lower') :=
  fun sizes w => .ite (.throw _) (quiets sizes w)

theorem readMemory_quiet {reg mem : String} {lower lower' : AddressLowering}
    (quiets : Quiets lower lower') :
    Erases (List.map Control.erase) (readMemory s env pos reg mem lower)
      (readMemory s.quiet env pos reg mem lower') := by
  refine .same fun m => (quiets m.sizes {}).bind fun ⟨addrs, w⟩ => ?_
  exact finishRead_quiet (Wiring.erase_capture ..)

theorem readBanks_quiet {reg : String} {banks : List String}
    {select select' : Nat → Wiring → Build (Pin × Wiring)} {lower lower' : AddressLowering}
    (selects : ∀ width w, Erases eraseWiring (select width w) (select' width w.erase))
    (quiets : Quiets lower lower') :
    Erases (List.map Control.erase) (readBanks s env pos reg banks select lower)
      (readBanks s.quiet env pos reg banks select' lower') := by
  cases banks with
  | nil => exact .throw _
  | cons first rest =>
    refine .same fun m => .same fun last => (selects _ {}).bind fun ⟨pin, w⟩ => ?_
    refine (quiets m.sizes w).bind fun ⟨addrs, w⟩ => ?_
    exact (captureBanks_quiet rfl).bind fun w => finishRead_quiet rfl

mutual

theorem lowerExpr_quiet {width : Nat} {w : Wiring} : (e : TypedExpr) →
    Erases eraseWiring (lowerExpr s env pos width w e) (lowerExpr s.quiet env pos width w.erase e)
  | .int _ _ => by
    rw [lowerExpr, lowerExpr]
    exact .same fun pin => .pure rfl
  | .bool _ _ => by
    rw [lowerExpr, lowerExpr]
    exact .same fun pin => adapt_quiet rfl
  | .var ty name => by
    rw [lowerExpr, lowerExpr]
    exact readName_quiet.bind fun ⟨pin, stored, w⟩ => adapt_quiet rfl
  | .binop ty op lhs rhs => by
    rcases ty.static_or with ⟨n, rfl⟩ | computed
    · rw [lowerExpr, lowerExpr]
      exact .same fun pin => .pure rfl
    · rw [lowerExpr_computed computed, lowerExpr_computed computed]
      refine (lowerExpr_quiet lhs).bind fun ⟨left, w⟩ => ?_
      refine (lowerExpr_quiet rhs).bind fun ⟨right, w⟩ => .same fun cell => ?_
      exact adapt_quiet (by rw [Wiring.erase_connect, Wiring.erase_connect])
  | .mem ty mem addr => by
    rw [lowerExpr, lowerExpr]
    have addresses : Quiets (fun sizes w => lowerAddrs s env pos w addr sizes)
        (fun sizes w => lowerAddrs s.quiet env pos w addr sizes) :=
      fun sizes w => lowerAddrs_quiet addr
    refine .same fun reg => (readMemory_quiet (addresses.counted _)).bind fun controls => ?_
    exact adapt_quiet (Wiring.erase_after ..)
  | .muxRead ty banks select addr => by
    rw [lowerExpr, lowerExpr]
    have addresses : Quiets (fun sizes w => lowerAddrs s env pos w addr sizes)
        (fun sizes w => lowerAddrs s.quiet env pos w addr sizes) :=
      fun sizes w => lowerAddrs_quiet addr
    refine .same fun reg => ?_
    refine (readBanks_quiet (fun _ _ => lowerExpr_quiet select) (addresses.counted _)).bind
      fun controls => ?_
    exact adapt_quiet (Wiring.erase_after ..)
  | .access .. | .app .. => by
    rw [lowerExpr, lowerExpr]
    exact .throw _

theorem lowerAddrs_quiet {w : Wiring} {sizes : List Nat} : (es : List TypedExpr) →
    Erases eraseWiring (lowerAddrs s env pos w es sizes) (lowerAddrs s.quiet env pos w.erase es sizes)
  | [] => by
    simp only [lowerAddrs]
    exact .pure rfl
  | e :: es => by
    cases sizes with
    | nil =>
      simp only [lowerAddrs]
      exact .pure rfl
    | cons size sizes =>
      rw [lowerAddrs, lowerAddrs]
      refine .same fun last => (lowerExpr_quiet e).bind fun ⟨pin, w⟩ => ?_
      exact (lowerAddrs_quiet es).bind fun ⟨pins, w⟩ => .pure rfl

end

theorem addressing_quiet (addr : List TypedExpr) :
    Quiets (addressing s env pos addr) (addressing s.quiet env pos addr) :=
  Quiets.counted (fun _ _ => lowerAddrs_quiet addr) addr.length

theorem readInto_quiet {reg : String} (e : TypedExpr) :
    Erases (List.map Control.erase) (readInto s env pos reg e) (readInto s.quiet env pos reg e) := by
  cases e with
  | mem ty mem addr => exact readMemory_quiet (addressing_quiet addr)
  | muxRead ty banks select addr =>
    rw [readInto, readInto]
    exact readBanks_quiet (fun _ _ => lowerExpr_quiet select) (addressing_quiet addr)
  | _ => exact .throw _

theorem discard_quiet : (e : TypedExpr) →
    Erases (List.map Control.erase) (discard s env pos e) (discard s.quiet env pos e)
  | .binop _ _ lhs rhs => by
    rw [discard, discard]
    refine (discard_quiet lhs).bind fun left => (discard_quiet rhs).bind fun right => .pure ?_
    rw [List.map_append]
  | .mem .. | .muxRead .. => by
    rw [discard, discard]
    exact .same fun reg => readInto_quiet _
  | .int .. | .bool .. | .var .. | .access .. | .app .. => .pure rfl

theorem finishGroup_quiet {group : String} {w w' : Wiring} (erased : w.erase = w') :
    Erases Control.erase (finishGroup s pos group w) (finishGroup s.quiet pos group w') := by
  subst erased
  refine .same fun _ => (enableGroup_quiet group).bind fun c => .pure ?_
  rw [Control.erase_sequence, List.map_append]
  rfl

theorem assignRegister_quiet {reg stem : String} {width : Nat} (value : TypedExpr) :
    Erases Control.erase (assignRegister s env pos reg width stem value)
      (assignRegister s.quiet env pos reg width stem value) := by
  have computed : Erases Control.erase
      (do
        let lowered ← lowerExpr s env pos width {} value
        let group ← freshName stem
        finishGroup s pos group (lowered.2.latch group reg lowered.1))
      (do
        let lowered ← lowerExpr s.quiet env pos width {} value
        let group ← freshName stem
        finishGroup s.quiet pos group (lowered.2.latch group reg lowered.1)) :=
    (lowerExpr_quiet (w := {}) value).bind fun _ =>
      .same fun group => finishGroup_quiet (Wiring.erase_latch ..)
  have captured : Erases Control.erase (do return Control.sequence (← readInto s env pos reg value))
      (do return Control.sequence (← readInto s.quiet env pos reg value)) :=
    (readInto_quiet value).bind fun controls => .pure (Control.erase_sequence controls)
  unfold assignRegister
  cases value with
  | mem | muxRead => exact .ite captured computed
  | _ => exact computed

theorem storeMemory_quiet {mem : String} {addr : List TypedExpr} (value : TypedExpr) :
    Erases Control.erase (storeMemory s env pos mem addr value)
      (storeMemory s.quiet env pos mem addr value) := by
  refine .same fun m => (addressing_quiet addr m.sizes {}).bind fun ⟨addrs, w⟩ => ?_
  refine (lowerExpr_quiet value).bind fun ⟨data, w⟩ => .same fun group => ?_
  exact finishGroup_quiet (Wiring.erase_store ..)

theorem reduceRegister_quiet {op : BinOp} {ty : Ty} {reg : String} {width : Nat}
    (value : TypedExpr) : Erases Control.erase (reduceRegister s env pos op ty reg width value)
      (reduceRegister s.quiet env pos op ty reg width value) := by
  refine (lowerExpr_quiet (w := {}) value).bind fun ⟨right, w⟩ => ?_
  refine .same fun cell => .same fun group => finishGroup_quiet ?_
  rw [Wiring.erase_latch, Wiring.erase_connect, Wiring.erase_connect]

theorem reduceMemory_quiet {op : BinOp} {ty : Ty} {mem : String} {addr : List TypedExpr}
    (value : TypedExpr) : Erases Control.erase (reduceMemory s env pos op ty mem addr value)
      (reduceMemory s.quiet env pos op ty mem addr value) := by
  refine .same fun m => (addressing_quiet addr m.sizes {}).bind fun ⟨addrs, w⟩ => ?_
  refine .same fun old => .same fun read => .same fun _ => ?_
  refine (lowerExpr_quiet (w := { assigns := w.assigns }) value).bind fun ⟨right, writing⟩ => ?_
  refine .same fun cell => .same fun write => ?_
  rw [← Wiring.erase_connect, ← Wiring.erase_connect, ← Wiring.erase_store]
  refine .same fun _ => (enableGroup_quiet read).bind fun first => ?_
  refine (enableGroup_quiet write).bind fun second => .pure ?_
  rw [Control.erase_sequence, List.map_append, List.map_append]
  rfl

theorem lowerCall_quiet {func : String} {args : List String} :
    Erases Control.erase (lowerCall s env pos func args) (lowerCall s.quiet env pos func args) := by
  rw [lowerCall, lowerCall, show s.quiet.signatures = s.signatures from rfl]
  cases s.signatures.lookup func with
  | none => exact .throw _
  | some params => exact .ite (.throw _) (.same fun refs => .same fun cell => fun _ => rfl)

theorem lowerCondition_quiet (cond : TypedExpr) :
    Erases (fun r => (r.1, r.2.1, r.2.2.map Control.erase)) (lowerCondition s env pos cond)
      (lowerCondition s.quiet env pos cond) := by
  refine (lowerExpr_quiet (w := {}) cond).bind fun ⟨pin, w⟩ => ?_
  exact .ite (.pure rfl) (.same fun group => .same fun _ => .pure rfl)

theorem lowerUpdate_quiet (target value : TypedExpr) :
    Erases Control.erase (lowerUpdate s env pos target value) (lowerUpdate s.quiet env pos target value) := by
  cases target with
  | var ty name => exact .same fun ⟨cell, width⟩ => assignRegister_quiet value
  | mem ty mem addr => exact storeMemory_quiet value
  | _ => exact .throw _

theorem lowerReduce_quiet (op : BinOp) (target value : TypedExpr) :
    Erases Control.erase (lowerReduce s env pos op target value)
      (lowerReduce s.quiet env pos op target value) := by
  cases target with
  | var ty name => exact .same fun ⟨cell, width⟩ => reduceRegister_quiet value
  | mem ty mem addr => exact reduceMemory_quiet value
  | _ => exact .throw _

/-- The result of lowering a command, erased. -/
abbrev eraseControl {α : Type} (r : Control × α) : Control × α := (r.1.erase, r.2)

mutual

theorem lowerCommand_quiet {env : Env} : (cmd : TypedCommand) →
    Erases eraseControl (lowerCommand s env cmd) (lowerCommand s.quiet env cmd)
  | .decl pos name ty => by
    rw [lowerCommand, lowerCommand]
    exact .same fun env => .pure rfl
  | .define pos name ty init => by
    rw [lowerCommand, lowerCommand]
    exact .same fun cell => (assignRegister_quiet init).bind fun control => .pure rfl
  | .seq _ cmds => by
    rw [lowerCommand, lowerCommand]
    refine (lowerSeq_quiet cmds).bind fun ⟨controls, env⟩ => .pure ?_
    rw [eraseControl, Control.erase_sequence]
  | .branch pos cond onTrue onFalse => by
    rw [lowerCommand, lowerCommand]
    refine (lowerCondition_quiet cond).bind fun ⟨pin, group, before⟩ => ?_
    refine (lowerCommand_quiet onTrue).bind fun ⟨onTrue, _⟩ => ?_
    refine (lowerElse_quiet onFalse).bind fun onFalse => .pure ?_
    rw [eraseControl, Control.erase_sequence, List.map_append]
    rfl
  | .loop pos header body => by
    rw [lowerCommand, lowerCommand]
    refine .same fun frame => (lowerCommand_quiet body).bind fun ⟨body, _⟩ => ?_
    refine (enableGroup_quiet frame.init).bind fun init => ?_
    refine (enableGroup_quiet frame.incr).bind fun incr => .same fun trips => .pure ?_
    rw [eraseControl, Control.erase_sequence, List.map_cons, List.map_singleton, Control.erase,
      Control.erase_sequence]
    rfl
  | .update pos target value => by
    rw [lowerCommand, lowerCommand]
    exact (lowerUpdate_quiet target value).bind fun control => .pure rfl
  | .reduce pos op target value => by
    rw [lowerCommand, lowerCommand]
    exact (lowerReduce_quiet op target value).bind fun control => .pure rfl
  | .eval pos e => by
    cases e with
    | app ty func args =>
      rw [lowerCommand, lowerCommand]
      exact lowerCall_quiet.bind fun control => .pure rfl
    | _ =>
      simp only [lowerCommand]
      refine (discard_quiet _).bind fun controls => .pure ?_
      rw [eraseControl, Control.erase_sequence]
  | .advance .. => by
    rw [lowerCommand, lowerCommand]
    exact .throw _
  | .skip _ => by
    rw [lowerCommand, lowerCommand]
    exact .pure rfl

theorem lowerSeq_quiet {env : Env} : (cmds : List TypedCommand) →
    Erases (fun r => (r.1.map Control.erase, r.2)) (lowerSeq s env cmds) (lowerSeq s.quiet env cmds)
  | [] => by
    rw [lowerSeq, lowerSeq]
    exact .pure rfl
  | cmd :: cmds => by
    rw [lowerSeq, lowerSeq]
    refine (lowerCommand_quiet cmd).bind fun ⟨control, env⟩ => ?_
    exact (lowerSeq_quiet cmds).bind fun ⟨controls, env⟩ => .pure rfl

theorem lowerElse_quiet {env : Env} : (cmd : Option TypedCommand) →
    Erases Control.erase (lowerElse s env cmd) (lowerElse s.quiet env cmd)
  | none => by
    rw [lowerElse, lowerElse]
    exact .pure rfl
  | some cmd => by
    rw [lowerElse, lowerElse]
    exact (lowerCommand_quiet cmd).bind fun ⟨control, _⟩ => .pure rfl

end

theorem declareAll_quiet {exposure : Exposure} {env : Env} (ds : List Decl) :
    declareAll s.quiet exposure env ds = declareAll s exposure env ds := by
  induction ds generalizing env with
  | nil => rfl
  | cons d ds ih =>
    simp only [declareAll, ih]
    rfl

theorem assemble_quiet {exposure : Exposure} {ds : List Decl} {instances : List String}
    {body : Option TypedCommand} : Erases Control.erase (assemble s exposure ds instances body)
      (assemble s.quiet exposure ds instances body) := by
  rw [assemble, assemble, declareAll_quiet]
  exact .same fun env => .same fun _ => lowerElse_quiet body

end

/-! ### Programs -/

section

variable {m : Type → Type} [Monad m] [LawfulMonad m]

/-- Two runs one step after another, where the second has an image of each result of the first. -/
theorem bind_erased {x : m α} {x' : m α'} {f : α → α'} {k : α → m β} {k' : α' → m β'}
    {g : β → β'} (head : x' = f <$> x) (tail : ∀ a, k' (f a) = g <$> k a) :
    x' >>= k' = g <$> (x >>= k) := by
  rw [head, bind_map_left, map_bind]
  exact bind_congr tail

/-- A step that both take. -/
theorem bind_same {x : m α} {k : α → m β} {k' : α → m β'} {g : β → β'}
    (tail : ∀ a, k' a = g <$> k a) : x >>= k' = g <$> (x >>= k) :=
  bind_erased (id_map x).symm tail

end

theorem buildComponent_erased {name : String} {quotes : Statements} {build build' : Build Control}
    (erased : Erases Control.erase build build') :
    (buildComponent name {} build').result =
      (buildComponent name quotes build).result.map fun r => (r.1.erase, {}) := by
  have same : build'.run {} = (fun r => (r.1.erase, r.2.quoting {})) <$> build.run { quotes } :=
    erased { quotes }
  simp only [buildComponent, Outcome.result_bind, Outcome.result_lift, same]
  cases build.run { quotes } <;> rfl

theorem buildComponent_renamed {name other : String} {quotes : Statements} {build : Build Control} :
    (buildComponent other quotes build).result =
      (buildComponent name quotes build).result.map fun r => ({ r.1 with name := other }, r.2) := by
  simp only [buildComponent, Outcome.result_bind, Outcome.result_lift]
  cases build.run { quotes } <;> rfl

theorem lowerFunctions_quiet {s : Setting} {quotes : Statements} (fs : List (Function Ty TypedExpr)) :
    (lowerFunctions s.quiet {} fs).result =
      (lowerFunctions s quotes fs).result.map fun r => (r.1.map Component.erase, {}) := by
  induction fs generalizing quotes with
  | nil => rfl
  | cons f fs ih =>
    simp only [lowerFunctions, Outcome.result_bind, lowerFunction_eq]
    refine bind_erased (buildComponent_erased assemble_quiet) fun first => ?_
    exact bind_erased ih fun rest => rfl

theorem lookup_signaturesOf_none {name : String} {defs : List (Function Ty TypedExpr)}
    (unused : name ∉ defs.map (·.name)) : (signaturesOf defs).lookup name = none := by
  rw [List.lookup_eq_none_iff]
  intro entry member
  obtain ⟨f, defined, rfl⟩ := List.mem_map.mp (List.mem_reverse.mp member)
  have different : name ≠ f.name := fun same => unused (same ▸ List.mem_map_of_mem defined)
  simpa using different

end Lowering

/-- The settings under which a netlist is its own design. -/
def Config.bare (topName : String) : Config where
  topName
  emitMetadata := false
  emitPositions := false

namespace Lowering

/-- The netlist of finished components. -/
def join (memories : Table String (List String)) (functions : List Component) (root : Component)
    (quotes : Statements) : Except Failure Netlist :=
  match hiddenBank? root memories with
  | some (bank, array) => refuse (.internal (.notExternal bank array))
  | none => pure ⟨functions ++ [root], memories, quotes⟩

variable {memories : Table String (List String)} {functions : List Component} {root : Component}
  {quotes : Statements}

theorem join_erased : join memories (functions.map Component.erase) root.erase {} =
    (join memories functions root quotes).map Netlist.design := by
  have same : hiddenBank? root.erase memories = hiddenBank? root memories := rfl
  unfold join
  rw [same]
  cases hiddenBank? root memories with
  | some entry => rfl
  | none =>
    refine congrArg Except.ok ?_
    rw [Netlist.design, List.map_append]
    rfl

theorem join_renamed {name : String} : join memories functions { root with name } quotes =
    (join memories functions root quotes).map (·.renameRoot name) := by
  have same : hiddenBank? { root with name } memories = hiddenBank? root memories := rfl
  unfold join
  rw [same]
  cases hiddenBank? root memories with
  | some entry => rfl
  | none =>
    refine congrArg Except.ok ?_
    simp only [Netlist.renameRoot, List.modifyLast_concat]

end Lowering

namespace BankedProgram

open Lowering

variable {config : Config} {statements : Statements} {p : BankedProgram}

theorem result_toNetlist : (p.toNetlist config statements).result =
    if ((signaturesOf p.program.defs).lookup config.topName).isSome then
      refuse (.config (.rootClash config.topName))
    else
      (lowerFunctions (p.setting config statements) {} p.program.defs).result >>= fun functions =>
        (lowerRoot (p.setting config statements) functions.2 config.topName p.program).result >>=
          fun root => join p.memories functions.1 root.1 root.2 := by
  simp only [toNetlist, show (p.setting config statements).signatures = signaturesOf p.program.defs from rfl]
  split
  · simp only [Outcome.result_bind, Outcome.result_lift]
    rfl
  · simp only [Outcome.result_bind]
    refine bind_congr fun functions => bind_congr fun root => ?_
    unfold join
    cases hiddenBank? root.1 p.memories with
    | some entry => rfl
    | none => rfl

theorem toNetlist_bare : (p.toNetlist (.bare config.topName) statements).result =
    (p.toNetlist config statements).result.map Netlist.design := by
  have quiet : p.setting (.bare config.topName) statements = (p.setting config statements).quiet := rfl
  rw [result_toNetlist, result_toNetlist, quiet]
  simp only [show (Config.bare config.topName).topName = config.topName from rfl]
  split
  · rfl
  · refine bind_erased (lowerFunctions_quiet _) fun functions => ?_
    exact bind_erased (buildComponent_erased assemble_quiet) fun root => join_erased

theorem toNetlist_renamed {name : String} (unused : config.topName ∉ p.program.defs.map (·.name))
    (free : name ∉ p.program.defs.map (·.name)) :
    (p.toNetlist { config with topName := name } statements).result =
      (p.toNetlist config statements).result.map (·.renameRoot name) := by
  rw [result_toNetlist, result_toNetlist, lookup_signaturesOf_none unused,
    lookup_signaturesOf_none free]
  exact bind_same fun functions => bind_erased buildComponent_renamed fun root => join_renamed

end BankedProgram

theorem names_of_check {p : SourceProgram} {typed : TypedProgram}
    (checked : p.check.result = .ok typed) : typed.defs.map (·.name) = p.defs.map (·.name) := by
  have annotated := (Typing.annotates_of_check checked).defs
  rw [← List.forall₂_eq_eq_eq, List.forall₂_map_left_iff, List.forall₂_map_right_iff]
  exact annotated.flip.imp fun f typed annotates => annotates.name

theorem names_of_toBanks {typed : TypedProgram} {statements : Statements} {banked : BankedProgram}
    (split : (typed.toBanks statements).result = .ok banked) :
    banked.program.defs.map (·.name) = typed.defs.map (·.name) := by
  obtain ⟨_, splitFunctions, _⟩ := Program.toBanks_ok split
  exact Lowering.bankFunctions_names splitFunctions

open Lowering in
theorem compile_bare (config : Config) (source : String) :
    (compile (.bare config.topName) source).result =
      (compile config source).result.map Netlist.design := by
  simp only [compile, Program.compile, Outcome.result_bind]
  refine bind_same fun p => bind_same fun _ => bind_same fun typed => bind_same fun banked => ?_
  exact bind_erased BankedProgram.toNetlist_bare fun netlist => rfl

/-- A step that both take, where what follows may rely on its success. -/
theorem bind_same_of_ok {α β β' : Type} {x : Except Failure α} {k : α → Except Failure β}
    {k' : α → Except Failure β'} {g : β → β'} (tail : ∀ a, x = .ok a → k' a = (k a).map g) :
    x >>= k' = (x >>= k).map g := by
  cases x with
  | error e => rfl
  | ok a => exact tail a rfl

open Lowering in
theorem compile_renamed {config : Config} {source name : String}
    (unused : ∀ p, parse source = .ok p → ∀ f ∈ p.defs, f.name ≠ config.topName ∧ f.name ≠ name) :
    (compile { config with topName := name } source).result =
      (compile config source).result.map (·.renameRoot name) := by
  simp only [compile, Program.compile, Outcome.result_bind]
  refine bind_same_of_ok fun p parsed => bind_same fun _ => ?_
  refine bind_same_of_ok fun typed checked => bind_same_of_ok fun banked split => ?_
  have names : banked.program.defs.map (·.name) = p.defs.map (·.name) :=
    (names_of_toBanks split).trans (names_of_check checked)
  have absent {other : String} (differs : ∀ f ∈ p.defs, f.name ≠ other) :
      other ∉ banked.program.defs.map (·.name) := by
    rw [names]
    rintro inside
    obtain ⟨f, defined, same⟩ := List.mem_map.mp inside
    exact differs f defined same
  refine bind_erased (BankedProgram.toNetlist_renamed (absent fun f member => ?_)
    (absent fun f member => ?_)) fun netlist => ?_
  · exact (unused p (lift_diagnosed_ok_iff.mp parsed) f member).1
  · exact (unused p (lift_diagnosed_ok_iff.mp parsed) f member).2
  · rfl

/-- The output options do not reach the design, and the name of the root reaches only the name of the
last component. -/
theorem compile_design (source : String) :
    (∀ config config' : Config, config.topName = config'.topName →
      (compile config source).result.map Netlist.design =
        (compile config' source).result.map Netlist.design) ∧
    ∀ (config : Config) (name : String),
      (∀ p, parse source = .ok p → ∀ f ∈ p.defs, f.name ≠ config.topName ∧ f.name ≠ name) →
      (compile { config with topName := name } source).result =
        (compile config source).result.map (·.renameRoot name) := by
  refine ⟨fun config config' same => ?_, fun config name unused => compile_renamed unused⟩
  rw [← compile_bare, ← compile_bare, same]

/-- A call, a loop and a branch, each of them with a position on the schedule. -/
def scheduled : String :=
  "decl a: ubit<8>[4 bank 2]; " ++
    "def clear(m: ubit<8>[4 bank 2]) \x7b for (let i = 0..2) \x7b m[i] := 0; \x7d \x7d " ++
    "clear(a); if (a[1] < 3) \x7b a[3] += 1; \x7d"

theorem compile_design_scheduled : ∃ p netlist, parse scheduled = .ok p ∧
    (∀ f ∈ p.defs, f.name ≠ "main" ∧ f.name ≠ "kernel") ∧
    (compile {} scheduled).result = .ok netlist ∧
    netlist.components.map (·.control.marks) =
      [[some 4, some 6, some 4], [some 8, some 9, some 11, some 11]] ∧
    (compile (.bare "main") scheduled).result.map Netlist.design = .ok netlist.design ∧
    (compile { topName := "kernel" } scheduled).result = .ok (netlist.renameRoot "kernel") := by
  have names : ∃ p, parse scheduled = .ok p ∧ p.defs.map (·.name) = ["clear"] :=
    exists_ok_of_map (by decide +kernel)
  have computed : ∃ netlist, (compile {} scheduled).result = .ok netlist ∧
      netlist.components.map (·.control.marks) =
      [[some 4, some 6, some 4], [some 8, some 9, some 11, some 11]] :=
    exists_ok_of_map (by decide +kernel)
  obtain ⟨p, parsed, clear⟩ := names
  obtain ⟨netlist, compiled, positions⟩ := computed
  have unused : ∀ f ∈ p.defs, f.name ≠ "main" ∧ f.name ≠ "kernel" := by
    intro f member
    have known : f.name ∈ ["clear"] := clear ▸ List.mem_map_of_mem member
    rw [List.mem_singleton.mp known]
    decide
  refine ⟨p, netlist, parsed, unused, compiled, positions, ?_, ?_⟩
  · rw [(compile_design scheduled).1 (.bare "main") {} rfl, compiled]
    rfl
  · have renamed := (compile_design scheduled).2 {} "kernel" fun q other => by
      rw [parsed] at other
      cases other
      exact unused
    rw [compiled] at renamed
    exact renamed

end BankedLoops
