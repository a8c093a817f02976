import BankedLoops.Proofs.Banking.OverBanks
import BankedLoops.Proofs.Lowering.Executed

/-!
# Invocations

Every invocation in a control was lowered from a call. Its parameters are those of the function, and
its arguments are the memory cells behind the names that the call gives. Where no name looks like a
bank, the memories that stand for an argument are declared like those that stand for the parameter.
-/

namespace BankedLoops

namespace Control

mutual

/-- The cells that a control invokes, each with the memories that it passes on. -/
def invocations : Control → List (String × List (String × String))
  | .empty | .enable .. => []
  | .seq items => invocationsOfSeq items
  | .loop _ _ body _ => invocations body
  | .branch _ _ onTrue onFalse => invocations onTrue ++ invocations onFalse
  | .invoke cell refs _ => [(cell, refs)]

def invocationsOfSeq : List Control → List (String × List (String × String))
  | [] => []
  | c :: cs => invocations c ++ invocationsOfSeq cs

end

theorem invocationsOfSeq_eq (items : List Control) :
    invocationsOfSeq items = items.flatMap invocations := by
  induction items with
  | nil => rfl
  | cons c cs ih => rw [invocationsOfSeq, ih, List.flatMap_cons]

@[simp]
theorem invocations_sequence (cs : List Control) :
    (sequence cs).invocations = cs.flatMap invocations :=
  collect_sequence rfl (fun items => invocationsOfSeq_eq items) cs

end Control

namespace Lowering

theorem Enabling.invocations {cs : List Control} (enabling : Enabling cs) :
    cs.flatMap Control.invocations = [] := by
  rw [List.flatMap_eq_nil_iff]
  intro c member
  obtain ⟨group, pos, rfl⟩ := enabling c member
  rfl

theorem Sequential.invocations {mark : Option Nat} {control : Control}
    (sequential : Sequential mark control) :
    control.invocations = [] := by
  obtain ⟨cs, annotated, rfl⟩ := sequential
  rw [Control.invocations_sequence, annotated.enabling.invocations]

/-! ### Calls over memories -/

/-- The arguments of a call are declared like the memories of the parameters. -/
def CallFits (funcs : List (String × List Decl)) (slots : Slots) (func : String)
    (args : List String) : Prop :=
  ∃ params, funcs.lookup func = some params ∧
    List.Forall₂ (fun d arg => slots.get? arg = some (.ofTy d.ty))
      (params.flatMap Banking.memoriesOfDecl) args

mutual

/-- Every call of a command fits at its place. -/
def CallsFit (funcs : List (String × List Decl)) (slots : Slots) : TypedCommand → Prop
  | .seq _ cmds => CallsFitSeq funcs slots cmds
  | .branch _ _ onTrue onFalse =>
    CallsFit funcs slots.enter onTrue ∧ CallsFitElse funcs slots.enter onFalse
  | .loop _ header body =>
    CallsFit funcs (slots.enter.rebind header.iter (.iterator header.stop)) body
  | .eval _ (.app _ func args) => CallFits funcs slots func args
  | _ => True

def CallsFitSeq (funcs : List (String × List Decl)) (slots : Slots) : List TypedCommand → Prop
  | [] => True
  | cmd :: cmds => CallsFit funcs slots cmd ∧ CallsFitSeq funcs (slotsAfter slots cmd) cmds

def CallsFitElse (funcs : List (String × List Decl)) (slots : Slots) : Option TypedCommand → Prop
  | none => True
  | some cmd => CallsFit funcs slots cmd

end

section

variable {funcs : List (String × List Decl)} {slots : Slots}

theorem callsFitSeq_append {cmds others : List TypedCommand} (first : CallsFitSeq funcs slots cmds)
    (second : CallsFitSeq funcs (slotsAfterSeq slots cmds) others) :
    CallsFitSeq funcs slots (cmds ++ others) := by
  induction cmds generalizing slots with
  | nil => exact second
  | cons cmd cmds ih => exact ⟨first.1, ih first.2 second⟩

theorem callsFit_eval {e : TypedExpr} (notApp : ∀ ty func args, e ≠ .app ty func args) (pos : Nat) :
    CallsFit funcs slots (.eval pos e) := by
  cases e with
  | app ty func args => exact absurd rfl (notApp ty func args)
  | _ => trivial

theorem callsFitSeq_decls (pos : Nat) (ds : List Decl) :
    CallsFitSeq funcs slots (ds.map fun d => .decl pos d.name d.ty) := by
  induction ds generalizing slots with
  | nil => trivial
  | cons d ds ih => exact ⟨trivial, ih⟩

theorem callsFitSeq_defines {cmds : List TypedCommand}
    (defines : ∀ cmd ∈ cmds, ∃ pos register ty, cmd = .define pos register ty (.lit 0)) :
    CallsFitSeq funcs slots cmds := by
  induction cmds generalizing slots with
  | nil => trivial
  | cons cmd cmds ih =>
    obtain ⟨⟨_, _, _, rfl⟩, rest⟩ := List.forall_mem_cons.mp defines
    exact ⟨trivial, ih rest⟩

theorem callsFit_declBanks {l : Layout} {pos : Nat} {cmd : TypedCommand}
    (banked : Banking.declBanks l pos = .ok cmd) : CallsFit funcs slots cmd := by
  obtain ⟨ds, _, ⟨d, _, rfl⟩ | ⟨_, rfl⟩⟩ := Banking.declBanks_split banked
  · trivial
  · exact callsFitSeq_decls pos ds

theorem callsFit_step {r : Banking.Rotation} {pos : Nat} {cmd : TypedCommand}
    (stepped : r.step pos = .ok cmd) : CallsFit funcs slots cmd := by
  obtain ⟨_, _, _, _, _, _, rfl⟩ := Banking.Rotation.step_update stepped
  trivial

theorem slot_memoryTy (elem : Ty) (dims : List Dim) :
    Slot.ofTy (Banking.memoryTy elem dims) = .memory elem (dims.map Dim.bank) := by
  rw [Banking.memoryTy, Slot.ofTy, Banking.bankDims, List.map_map]
  rfl

/-- The memories of an argument are those of its parameter, bank by bank. -/
theorem fits_of_arguments {types : Typing.Env} {env : Banking.Env} {args banks : List String}
    {params : List Decl}
    (spread : ∀ name binding, types.get? name = some binding → Spread slots name binding)
    (given : Banking.BankedArguments types env args params banks) :
    List.Forall₂ (fun d arg => slots.get? arg = some (.ofTy d.ty))
      (params.flatMap Banking.memoriesOfDecl) banks := by
  induction given with
  | nil => exact .nil
  | @cons _ _ _ _ elem dims _ _ visible same _ named _ ih =>
    rw [List.flatMap_cons]
    refine List.rel_append ?_ ih
    simp only [Banking.banks_eq_memoryNames named, Banking.memoriesOfDecl, same, Banking.memoryNames,
      List.map_map, List.forall₂_map_left_iff, List.forall₂_map_right_iff, List.forall₂_same]
    intro k below
    cases spread _ _ visible with
    | array _ stored =>
      show _ = some (Slot.ofTy (Banking.memoryTy elem dims))
      rw [slot_memoryTy]
      exact stored k (List.mem_range.mp below)

variable {arrays names : List String} {ctx : Banking.Context}

mutual

theorem callsFit_command (clean : Banking.BankNameClean arrays names) {tctx : Typing.Context}
    {types types' : Typing.Env} {env : Banking.Env} {slots : Slots} {cmd cmd' : TypedCommand} :
    Banking.BankedCommand ctx env cmd cmd' → Typing.CheckedCommand tctx types cmd types' →
    Typing.WrittenCommand cmd → Situated arrays names ctx.rotations types env slots →
    Banking.binders cmd ⊆ names → Banking.arraysIn cmd ⊆ arrays → CallsFit tctx.funcs slots cmd'
  | .array _ split, _, _, _, _, _ => callsFit_declBanks split
  | .scalar _, _, _, _, _, _ => trivial
  | .define _, _, _, _, _, _ => trivial
  | .seq all, .seq checked, written, situated, bound, array =>
    callsFit_seq clean all checked written situated bound array
  | .branch _ yes no, .branch _ _ yesChecked noChecked, written, situated, bound, array => by
    have entered : Situated arrays names ctx.rotations _ _ slots.enter :=
      ⟨situated.formed.enter, situated.agrees.enter, situated.spreads.enter⟩
    exact ⟨callsFit_command clean yes yesChecked written.2.1 entered
        (fun x member => bound (List.mem_append_left _ member))
        (fun x member => array (List.mem_append_left _ member)),
      callsFit_else clean no noChecked written.2.2 entered
        (fun x member => bound (List.mem_append_right _ member))
        (fun x member => array (List.mem_append_right _ member))⟩
  | @Banking.BankedCommand.loop _ _ _ header _ _ _ round, .loop range checked, written, situated,
      bound, array => by
    have counted : Spread (slots.enter.rebind header.iter (.iterator header.stop)) header.iter
        (.iterator (.idx header.stop header.unroll)) := .iterator _ (Scope.get?_rebind_self ..)
    have spreads := situated.spreads.enter.rebindPlain clean (bound List.mem_cons_self)
      (by simp) counted
    have inner := callsFit_command clean round checked written.2.2
      ⟨range.wellFormed situated.formed, situated.agrees.round range, spreads⟩
      (fun x member => bound (List.mem_cons_of_mem _ member)) array
    exact inner
  | .update _ _, _, _, _, _, _ => trivial
  | .reduce _ _, _, _, _, _, _ => trivial
  | .eval value, checked, _, situated, _, _ => by
    cases checked with
    | call defined arguments =>
      cases value with
      | app given =>
        exact ⟨_, defined, fits_of_arguments situated.spreads.spread
          (situated.agrees.bankedArguments arguments given)⟩
    | eval checked => exact callsFit_eval (value.ne_app checked.ne_app) _
  | .rotate _ stepped, _, _, _, _, _ => callsFit_step stepped
  | .still _, _, _, _, _, _ => trivial
  | .skip, _, _, _, _, _ => trivial

theorem callsFit_seq (clean : Banking.BankNameClean arrays names) {tctx : Typing.Context}
    {types types' : Typing.Env} {env : Banking.Env} {slots : Slots} {cmds cmds' : List TypedCommand} :
    Banking.BankedSeq ctx env cmds cmds' → Typing.CheckedSeq tctx types cmds types' →
    Command.WrittenSeq TypedExpr.Written cmds → Situated arrays names ctx.rotations types env slots →
    Banking.bindersOfSeq cmds ⊆ names → Banking.arraysInSeq cmds ⊆ arrays →
    CallsFitSeq tctx.funcs slots cmds'
  | .nil, _, _, _, _, _ => trivial
  | .cons first rest, .cons checked others, written, situated, bound, array => by
    have boundFirst := List.Subset.trans (List.subset_append_left _ _) bound
    have arrayFirst := List.Subset.trans (List.subset_append_left _ _) array
    obtain ⟨_, spreads⟩ := physical_command clean first checked written.1 situated boundFirst arrayFirst
    exact ⟨callsFit_command clean first checked written.1 situated boundFirst arrayFirst,
      callsFit_seq clean rest others written.2
        ⟨checked.wellFormed situated.formed, situated.agrees.after checked, spreads⟩
        (List.Subset.trans (List.subset_append_right _ _) bound)
        (List.Subset.trans (List.subset_append_right _ _) array)⟩

theorem callsFit_else (clean : Banking.BankNameClean arrays names) {tctx : Typing.Context}
    {types : Typing.Env} {env : Banking.Env} {slots : Slots} {cmd cmd' : Option TypedCommand} :
    Banking.BankedElse ctx env cmd cmd' → Typing.CheckedElse tctx types cmd →
    Command.WrittenElse TypedExpr.Written cmd → Situated arrays names ctx.rotations types env slots →
    Banking.bindersOfElse cmd ⊆ names → Banking.arraysInElse cmd ⊆ arrays →
    CallsFitElse tctx.funcs slots cmd'
  | .none, _, _, _, _, _ => trivial
  | .some banked, .some checked, written, situated, bound, array =>
    callsFit_command clean banked checked written situated bound array

end

/-- The calls in the body of a component fit behind its storage. -/
theorem callsFit_component {statements : Statements} {ds banked : List Decl} {env : Banking.Env}
    {body body' : Option TypedCommand} {tctx : Typing.Context} {types : Typing.Env}
    (clean : Banking.BankNameClean (Banking.arrayNames ds body) (Banking.boundNames ds body))
    (split : Banking.bankDecls {} ds = .ok (banked, env)) (splitBody : BankedBody statements env body body')
    (decls : Typing.CheckedDecls {} ds types) (checked : Typing.CheckedElse tctx types body)
    (written : ∀ d ∈ ds, d.ty.Written) (writtenBody : Command.WrittenElse TypedExpr.Written body) :
    CallsFitElse tctx.funcs (slotsOf {} banked) body' := by
  have spreads := Spreads.bankDecls clean split decls written (List.subset_append_left _ _)
    (List.subset_append_left _ _) (.empty _ _)
  obtain rfl := Banking.bankDecls_env split
  cases splitBody with
  | none => trivial
  | @some cmd _ split =>
    cases checked with
    | some checked =>
      obtain ⟨prologue, inner, setUp, bankedCommand, rfl⟩ := Banking.bankBody_ok split
      obtain ⟨_, spreads⟩ := spreads.setUp setUp (accounted_body ds cmd)
      have agrees := (Banking.Agrees.empty.declared decls).setUpRotations setUp
      have main := callsFit_command clean bankedCommand checked writtenBody
        ⟨decls.wellFormed .empty, agrees, spreads⟩ (List.subset_append_right _ _)
        (List.subset_append_right _ _)
      split
      · next empty =>
        rw [List.isEmpty_iff.mp empty] at main
        exact main
      · exact callsFitSeq_append (callsFitSeq_defines (Banking.setUp_zero setUp)) ⟨main, trivial⟩

end

/-! ### Callees -/

theorem callees_eval {e : TypedExpr} (notApp : ∀ ty func args, e ≠ .app ty func args) (pos : Nat) :
    callees (.eval pos e) = [] := by
  cases e with
  | app ty func args => exact absurd rfl (notApp ty func args)
  | _ => rfl

theorem calleesOfSeq_append (cmds others : List TypedCommand) :
    calleesOfSeq (cmds ++ others) = calleesOfSeq cmds ++ calleesOfSeq others := by
  induction cmds with
  | nil => rfl
  | cons cmd cmds ih => rw [List.cons_append, calleesOfSeq, calleesOfSeq, ih, List.append_assoc]

theorem calleesOfSeq_eq_nil {cmds : List TypedCommand} (none : ∀ cmd ∈ cmds, callees cmd = []) :
    calleesOfSeq cmds = [] := by
  induction cmds with
  | nil => rfl
  | cons cmd cmds ih =>
    obtain ⟨first, rest⟩ := List.forall_mem_cons.mp none
    rw [calleesOfSeq, first, ih rest]
    rfl

theorem callees_declBanks {l : Layout} {pos : Nat} {cmd : TypedCommand}
    (banked : Banking.declBanks l pos = .ok cmd) : callees cmd = [] := by
  obtain ⟨ds, _, ⟨d, _, rfl⟩ | ⟨_, rfl⟩⟩ := Banking.declBanks_split banked
  · rfl
  · refine calleesOfSeq_eq_nil fun cmd member => ?_
    obtain ⟨d, _, rfl⟩ := List.mem_map.mp member
    rfl

theorem callees_step {r : Banking.Rotation} {pos : Nat} {cmd : TypedCommand}
    (stepped : r.step pos = .ok cmd) : callees cmd = [] := by
  obtain ⟨_, _, _, _, _, _, rfl⟩ := Banking.Rotation.step_update stepped
  rfl

/-- The names are those of functions that the checker has seen. -/
def Seen (funcs : List (String × List Decl)) (names : List String) : Prop :=
  ∀ func ∈ names, ∃ params, funcs.lookup func = some params

theorem Seen.append {funcs : List (String × List Decl)} {names others : List String}
    (first : Seen funcs names) (second : Seen funcs others) : Seen funcs (names ++ others) :=
  List.forall_mem_append.mpr ⟨first, second⟩

section

variable {ctx : Banking.Context}

mutual

/-- A split command calls only functions that come before it. -/
theorem seen_command {tctx : Typing.Context} {types types' : Typing.Env} {env : Banking.Env}
    {cmd cmd' : TypedCommand} : Banking.BankedCommand ctx env cmd cmd' →
    Typing.CheckedCommand tctx types cmd types' → Seen tctx.funcs (callees cmd')
  | .array _ split, _ => by
    rw [callees_declBanks split]
    exact nofun
  | .scalar _, _ => nofun
  | .define _, _ => nofun
  | .seq all, .seq checked => seen_seq all checked
  | .branch _ yes no, .branch _ _ yesChecked noChecked =>
    (seen_command yes yesChecked).append (seen_else no noChecked)
  | .loop _ round, .loop _ checked => by
    have inner := seen_command round checked
    exact inner
  | .update _ _, _ => nofun
  | .reduce _ _, _ => nofun
  | .eval value, checked => by
    cases checked with
    | call defined =>
      cases value with
      | app => exact List.forall_mem_singleton.mpr ⟨_, defined⟩
    | eval checked =>
      rw [callees_eval (value.ne_app checked.ne_app)]
      exact nofun
  | .rotate _ stepped, _ => by
    rw [callees_step stepped]
    exact nofun
  | .still _, _ => nofun
  | .skip, _ => nofun

theorem seen_seq {tctx : Typing.Context} {types types' : Typing.Env} {env : Banking.Env}
    {cmds cmds' : List TypedCommand} : Banking.BankedSeq ctx env cmds cmds' →
    Typing.CheckedSeq tctx types cmds types' → Seen tctx.funcs (calleesOfSeq cmds')
  | .nil, _ => nofun
  | .cons first rest, .cons checked others =>
    (seen_command first checked).append (seen_seq rest others)

theorem seen_else {tctx : Typing.Context} {types : Typing.Env} {env : Banking.Env}
    {cmd cmd' : Option TypedCommand} : Banking.BankedElse ctx env cmd cmd' →
    Typing.CheckedElse tctx types cmd → Seen tctx.funcs (calleesOfElse cmd')
  | .none, _ => nofun
  | .some banked, .some checked => seen_command banked checked

end

end

theorem seen_component {statements : Statements} {env : Banking.Env} {body body' : Option TypedCommand}
    {tctx : Typing.Context} {types : Typing.Env} (splitBody : BankedBody statements env body body')
    (checked : Typing.CheckedElse tctx types body) : Seen tctx.funcs (calleesOfElse body') := by
  cases splitBody with
  | none => exact nofun
  | some split =>
    cases checked with
    | some checked =>
      obtain ⟨prologue, inner, setUp, banked, rfl⟩ := Banking.bankBody_ok split
      have main := seen_command banked checked
      have none : calleesOfSeq prologue.setup = [] := by
        refine calleesOfSeq_eq_nil fun cmd member => ?_
        obtain ⟨_, _, _, rfl⟩ := Banking.setUp_zero setUp cmd member
        rfl
      split
      · exact main
      · show Seen _ (calleesOfSeq (prologue.setup ++ [inner]))
        rw [calleesOfSeq_append, none]
        exact main.append nofun

/-! ### Memories behind names -/

/-- What the cell of a memory instantiates. -/
def Memory.prototype (m : Memory) : Prototype :=
  .primitive s!"seq_mem_d{m.sizes.length}"
    (m.width :: m.sizes ++ m.sizes.map fun size => bitsNeeded (size - 1))

/-- Every name of a memory leads to a cell of its kind. -/
def Sited (cells : List Cell) (env : Env) : Prop :=
  ∀ name m, env.get? name = some (.memory m) →
    ∃ c ∈ cells, c.name = m.cell ∧ c.prototype = m.prototype

section

variable {s : Setting} {env env' : Env} {w v : Workspace} {cells cells' : List Cell}

theorem Sited.empty (cells : List Cell) : Sited cells {} := by
  intro name m found
  cases found

theorem Sited.mono (sited : Sited cells env) (grown : cells <+: cells') : Sited cells' env := by
  intro name m found
  obtain ⟨c, member, same⟩ := sited name m found
  exact ⟨c, grown.subset member, same⟩

theorem Sited.rebind (sited : Sited cells env) {store : Store} (key : String)
    (stored : ∀ m, store = .memory m → ∃ c ∈ cells, c.name = m.cell ∧ c.prototype = m.prototype) :
    Sited cells (env.rebind key store) := by
  intro name m found
  rw [Scope.get?_rebind] at found
  split at found
  · cases found
    exact stored m rfl
  · exact sited name m found

theorem declares_of_run {d : Decl} {exposure : Exposure}
    (ran : (declare s env d exposure).run w = .ok (env', v)) :
    ∃ name, Declares d exposure env w name env' v := by
  have ends := @declare_ends (fun _ => True) s d trivial env exposure w
  rw [ran] at ends
  exact ends.of_ok

theorem cellOf_ofTy {d : Decl} {exposure : Exposure} {name : String} {m : Memory}
    (stored : Store.ofTy name d.ty = .memory m) :
    (cellOf d exposure name).name = m.cell ∧ (cellOf d exposure name).prototype = m.prototype := by
  cases given : d.ty with
  | array elem dims =>
    rw [given] at stored
    cases stored
    rw [cellOf, given, Memory.prototype, List.length_map]
    exact ⟨rfl, rfl⟩
  | _ =>
    rw [given] at stored
    cases stored

theorem declare_sited {d : Decl} {exposure : Exposure} (sited : Sited w.cells env)
    (ran : (declare s env d exposure).run w = .ok (env', v)) : Sited v.cells env' := by
  obtain ⟨name, declares⟩ := declares_of_run ran
  rw [declares.cells, declares.bound]
  refine (sited.mono (List.prefix_append _ _)).rebind d.name fun m stored => ?_
  exact ⟨_, List.mem_append_right _ List.mem_cons_self, cellOf_ofTy stored⟩

theorem declareAll_sited {exposure : Exposure} {ds : List Decl} (sited : Sited w.cells env)
    (ran : (declareAll s exposure env ds).run w = .ok (env', v)) : Sited v.cells env' := by
  induction ds generalizing env w with
  | nil =>
    cases ran
    exact sited
  | cons d ds ih =>
    obtain ⟨next, u, declared, rest⟩ := run_bind_ok_iff.mp ran
    exact ih (declare_sited sited declared) rest

mutual

theorem lowerCommand_sited : {cmd : TypedCommand} → {env env' : Env} → {w v : Workspace} →
    {control : Control} → Sited w.cells env →
    (lowerCommand s env cmd).run w = .ok ((control, env'), v) → Sited v.cells env'
  | _, _, _, _, _, _, sited, ran => by
    have grown := sited.mono (lowerCommand_stepped ran).grows.cells
    cases lowerCommand_ok ran with
    | decl declared => exact declare_sited sited declared
    | @define _ name => exact grown.rebind name nofun
    | seq lowered => exact lowerSeq_sited sited lowered
    | _ => exact grown

theorem lowerSeq_sited : {cmds : List TypedCommand} → {env env' : Env} → {w v : Workspace} →
    {controls : List Control} → Sited w.cells env →
    (lowerSeq s env cmds).run w = .ok ((controls, env'), v) → Sited v.cells env'
  | [], _, _, _, _, _, sited, ran => by
    obtain ⟨rfl, rfl, rfl⟩ := lowerSeq_nil_ok ran
    exact sited
  | _ :: _, _, _, _, _, _, sited, ran => by
    obtain ⟨_, _, _, _, first, rest, rfl⟩ := lowerSeq_cons_ok ran
    exact lowerSeq_sited (lowerCommand_sited sited first) rest

end

end

/-! ### Invocations of a control -/

/-- An invocation that was lowered from a call of one of `funcs`, in the environment `env`. -/
structure InvokedFrom (exact : Prop) (s : Setting) (funcs : List (String × List Decl)) (v : Workspace)
    (cell : String) (refs : List (String × String)) (func : String) (slots : Slots) (env : Env)
    (args : List String) : Prop where
  instance_ : (func, cell) ∈ v.instances
  params : s.signatures.lookup func = some (refs.map Prod.fst)
  memories : List.Forall₂ (fun ref arg => ∃ m, env.get? arg = some (.memory m) ∧ ref.2 = m.cell)
    refs args
  matched : Matches slots env
  sited : Sited v.cells env
  fits : exact → CallFits funcs slots func args

/-- Every invocation of a control was lowered from a call. -/
def Invoked (exact : Prop) (s : Setting) (funcs : List (String × List Decl)) (v : Workspace)
    (calls : List (String × List (String × String))) : Prop :=
  ∀ call ∈ calls, ∃ func slots env args,
    InvokedFrom exact s funcs v call.1 call.2 func slots env args

theorem Step.instances_subset {allowed : String → Prop} {w w' : Workspace} (step : Step allowed w w') :
    w.instances ⊆ w'.instances := by
  cases step with
  | note _ _ same => rw [same]; exact List.Subset.refl _
  | take _ _ same => rw [same]; exact List.Subset.refl _
  | install _ _ _ same => rw [same]; exact List.Subset.refl _
  | instantiate _ _ _ _ _ same => rw [same]; exact List.subset_cons_self _ _

theorem Stepped.instances_subset {allowed : String → Prop} {w w' : Workspace}
    (built : Stepped allowed w w') : w.instances ⊆ w'.instances := by
  induction built with
  | refl => exact List.Subset.refl _
  | tail _ step ih => exact List.Subset.trans ih step.instances_subset

section

variable {exact : Prop} {s : Setting} {funcs : List (String × List Decl)} {env : Env}
  {w v v' : Workspace}

theorem Invoked.nil : Invoked exact s funcs v [] := nofun

theorem Invoked.append {calls others : List (String × List (String × String))}
    (first : Invoked exact s funcs v calls) (second : Invoked exact s funcs v others) :
    Invoked exact s funcs v (calls ++ others) :=
  List.forall_mem_append.mpr ⟨first, second⟩

theorem Invoked.mono {allowed : String → Prop} {calls : List (String × List (String × String))}
    (invoked : Invoked exact s funcs v calls) (built : Stepped allowed v v') :
    Invoked exact s funcs v' calls := by
  intro call member
  obtain ⟨func, slots, env, args, ⟨found, params, memories, matched, sited, fits⟩⟩ :=
    invoked call member
  exact ⟨func, slots, env, args, built.instances_subset found, params, memories, matched,
    sited.mono built.grows.cells, fits⟩

/-- Quoting touches neither instances nor cells. -/
theorem Invoked.quote {calls : List (String × List (String × String))}
    (invoked : Invoked exact s funcs v calls) (pos : Nat) : Invoked exact s funcs (v.quote s pos) calls := by
  intro call member
  obtain ⟨func, slots, env, args, found, params, memories, matched, sited, fits⟩ := invoked call member
  exact ⟨func, slots, env, args, found, params, memories, matched, sited, fits⟩

theorem bindArguments_bound {params args : List String} {refs : List (String × String)}
    (counted : params.length = args.length)
    (ran : (bindArguments env params args).run w = .ok (refs, v)) :
    w = v ∧ refs.map Prod.fst = params ∧
      List.Forall₂ (fun ref arg => ∃ m, env.get? arg = some (.memory m) ∧ ref.2 = m.cell) refs args := by
  induction params generalizing args refs v with
  | nil =>
    cases args with
    | nil =>
      cases ran
      exact ⟨rfl, rfl, .nil⟩
    | cons arg args => cases counted
  | cons param params ih =>
    cases args with
    | nil => cases counted
    | cons arg args =>
      obtain ⟨m, _, looked, ran⟩ := run_bind_ok_iff.mp ran
      obtain ⟨found, rfl⟩ := memoryOf_ok looked
      obtain ⟨rest, _, others, ran⟩ := run_bind_ok_iff.mp ran
      cases ran
      obtain ⟨same, names, memories⟩ := ih (Nat.succ.inj counted) others
      exact ⟨same, congrArg (param :: ·) names, .cons ⟨m, found, rfl⟩ memories⟩

theorem instanceOf_listed {func cell : String} (ran : (instanceOf func).run w = .ok (cell, v)) :
    (func, cell) ∈ v.instances := by
  obtain ⟨_, _, got, ran⟩ := run_bind_ok_iff.mp ran
  cases got
  split at ran
  · next found =>
    cases ran
    obtain ⟨l, l', same, _⟩ := List.lookup_eq_some_iff.mp found
    rw [same]
    exact List.mem_append_right _ List.mem_cons_self
  · obtain ⟨_, _, _, ran⟩ := run_bind_ok_iff.mp ran
    cases ran
    exact List.mem_cons_self

theorem lowerCall_invoked {slots : Slots} {pos : Nat} {func : String} {args : List String}
    {control : Control} (matched : Matches slots env) (sited : Sited w.cells env)
    (fits : exact → CallFits funcs slots func args)
    (ran : (lowerCall s env pos func args).run w = .ok (control, v)) :
    Invoked exact s funcs v control.invocations := by
  have built : Stepped (fun _ => True) w v := ((steps_lowerCall s env pos args trivial).ok ran).1
  obtain ⟨params, refs, cell, _, u, signature, counted, bound, found, rfl, rfl⟩ := lowerCall_ok ran
  obtain ⟨rfl, names, memories⟩ := bindArguments_bound counted bound
  have listed : (func, cell) ∈ u.instances := instanceOf_listed found
  refine List.forall_mem_singleton.mpr ⟨func, slots, env, args, listed, ?_, memories, matched,
    sited.mono built.grows.cells, fits⟩
  rw [names, signature]

theorem Lowers.stepped {slots : Slots} {cmd : TypedCommand} {control : Control} {later : Env}
    (lowers : Lowers exact s slots env w cmd control later v) : Stepped (fun _ => True) w v :=
  lowerCommand_stepped lowers.ran

theorem Lowers.invoked_leaf {slots : Slots} {cmd : TypedCommand} {control : Control} {later : Env}
    (lowers : Lowers exact s slots env w cmd control later v) (leaf : IsLeaf cmd) :
    control.invocations = [] := by
  cases lowerCommand_ok lowers.ran with
  | define _ assigned => exact ((steps_assignRegister _ _ _ _ _ _ _).result assigned).invocations
  | update updated => exact ((steps_lowerUpdate _ _ _ _ _).result updated).invocations
  | reduce reduced => exact ((steps_lowerReduce _ _ _ _ _ _).result reduced).invocations
  | _ => exact leaf.elim

mutual

theorem Lowers.invoked : {cmd : TypedCommand} → {slots : Slots} → {env later : Env} →
    {w v : Workspace} → {control : Control} → Lowers exact s slots env w cmd control later v →
    Sited w.cells env → (exact → CallsFit funcs slots cmd) → Invoked exact s funcs v control.invocations
  | .decl _ _ _, _, _, _, _, _, _, lowers, _, _ => by
    cases lowerCommand_ok lowers.ran
    exact .nil
  | .define _ _ _ _, _, _, _, _, _, _, lowers, _, _ => by
    rw [lowers.invoked_leaf trivial]
    exact .nil
  | .seq _ cmds, _, _, _, _, _, _, lowers, sited, fits =>
    lowersSeq_invoked cmds lowers sited fits
  | .branch _ _ onTrue onFalse, _, _, _, _, _, _, lowers, sited, fits => by
    obtain ⟨pin, group, before, u, yes, next, u', no, rfl, tested, taken, others⟩ := lowers.branch
    have enabling := ((steps_lowerCondition _ _ _ _).result tested).enabling
    have tests : Grows _ u := (steps_lowerCondition _ _ _ _).adds _ _ _ tested
    have entered : Sited u.cells (Scope.enter _) := sited.mono tests.cells
    have first := taken.invoked entered fun known => (fits known).1
    have second := lowersOptional_invoked onFalse others (entered.mono taken.stepped.grows.cells)
      fun known => (fits known).2
    rw [Control.invocations_sequence, List.flatMap_append, enabling.invocations]
    refine .append .nil (.append (.append ?_ second) .nil)
    cases others with
    | none => exact first
    | some other => exact first.mono other.stepped
  | .loop _ _ _, _, _, _, _, _, _, lowers, sited, fits => by
    obtain ⟨frame, u, round, next, _, rfl, rfl, framed, body⟩ := lowers.loop
    have frames : Grows _ u := (steps_addLoop _).adds _ _ _ framed
    have entered : Sited u.cells (Scope.enter _) := sited.mono frames.cells
    rw [Control.invocations_sequence]
    refine .append .nil (.append ?_ .nil)
    rw [Control.invocations, Control.invocations_sequence]
    have round := body.invoked (entered.rebind _ nofun) fits
    exact .append ((round.quote _).quote _) (.append .nil .nil)
  | .update _ _ _, _, _, _, _, _, _, lowers, _, _ => by
    rw [lowers.invoked_leaf trivial]
    exact .nil
  | .reduce _ _ _ _, _, _, _, _, _, _, lowers, _, _ => by
    rw [lowers.invoked_leaf trivial]
    exact .nil
  | .eval _ e, _, _, _, _, _, _, lowers, sited, fits => by
    cases lowerCommand_ok lowers.ran with
    | call called => exact lowerCall_invoked lowers.furnished.matched sited fits called
    | eval _ discarded =>
      have enabling := ((steps_discard _ _ _ _).result discarded).enabling
      rw [Control.invocations_sequence, enabling.invocations]
      exact .nil
  | .advance _ _, _, _, _, _, _, _, lowers, _, _ => by cases lowerCommand_ok lowers.ran
  | .skip _, _, _, _, _, _, _, lowers, _, _ => by
    cases lowerCommand_ok lowers.ran
    exact .nil

theorem lowersSeq_invoked : (cmds : List TypedCommand) → {slots : Slots} → {env later : Env} →
    {w v : Workspace} → {pos : Nat} → {control : Control} →
    Lowers exact s slots env w (.seq pos cmds) control later v → Sited w.cells env →
    (exact → CallsFitSeq funcs slots cmds) → Invoked exact s funcs v control.invocations
  | [], _, _, _, _, _, _, _, lowers, _, _ => by
    cases lowerCommand_ok lowers.ran with
    | seq lowered =>
      obtain ⟨rfl, _, _⟩ := lowerSeq_nil_ok lowered
      exact .nil
  | cmd :: cmds, _, _, _, _, _, _, _, lowers, sited, fits => by
    obtain ⟨head, next, u, rest, rfl, first, others⟩ := lowers.seq
    have early := (first.invoked sited fun known => (fits known).1).mono others.stepped
    have late := lowersSeq_invoked cmds others (lowerCommand_sited sited first.ran)
      fun known => (fits known).2
    rw [Control.invocations_sequence] at late ⊢
    exact early.append late

theorem lowersOptional_invoked : (cmd : Option TypedCommand) → {slots : Slots} → {env : Env} →
    {w v : Workspace} → {control : Control} → LowersOptional exact s slots env w cmd control v →
    Sited w.cells env → (exact → CallsFitElse funcs slots cmd) → Invoked exact s funcs v control.invocations
  | none, _, _, _, _, _, .none _, _, _ => .nil
  | some _, _, _, _, _, _, .some lowers, sited, fits => lowers.invoked sited fits

end

end

end Lowering

end BankedLoops
