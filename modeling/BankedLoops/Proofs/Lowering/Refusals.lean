import BankedLoops.Proofs.Banking.Refusals
import BankedLoops.Proofs.Failures
import BankedLoops.Proofs.Lowering.Components
import BankedLoops.Proofs.Lowering.Settled

/-!
# Lowering fails only for lack of hardware

What `Builds` says of expressions holds of commands but for two refusals: memories have at most four
dimensions, and no two of those seen from outside share a name. The names of a command are resolved
in the environment that the commands before it have left, so the induction follows `Built` through
every success. It is the same for every kind of failure: `Endings` says how simple commands end, and
`fails_lowerCommand` that all commands end so.
-/

namespace BankedLoops

namespace Lowering

variable {α β : Type}

section

variable {allowed : Failure → Prop}

theorem Builds.fails {x : Build α} (builds : Builds x) (crowded : allowed (.fault .overflow))
    (w : Workspace) : Fails allowed (x.run w) := by
  intro f failed
  rw [builds w f failed]
  exact crowded

theorem fails_run_bind {x : Build α} {f : α → Build β} {w : Workspace}
    (first : Fails allowed (x.run w))
    (rest : ∀ a w', x.run w = .ok (a, w') → Fails allowed ((f a).run w')) :
    Fails allowed ((x >>= f).run w) := by
  rw [StateT.run_bind]
  refine .bind_of_ok first ?_
  rintro ⟨a, w'⟩ ran
  exact rest a w' ran

theorem fails_run_pure (a : α) (w : Workspace) : Fails allowed ((pure a : Build α).run w) :=
  .pure (a, w)

theorem fails_run_of_ok {x : Build α} {w : Workspace} {r : α × Workspace} (ran : x.run w = .ok r) :
    Fails allowed (x.run w) := by
  rw [ran]
  exact .pure r

end

/-! ### Declarations -/

theorem addressWidths_ok {sizes : List Nat} (nonempty : ∀ size ∈ sizes, 0 < size) :
    ∃ widths, addressWidths sizes = .ok widths := by
  induction sizes with
  | nil => exact ⟨[], rfl⟩
  | cons size sizes ih =>
    obtain ⟨widths, rest⟩ := ih fun other member => nonempty other (List.mem_cons_of_mem _ member)
    have last : Word.sub size 1 = .ok (size - 1) :=
      Word.sub_eq_ok_iff.mpr ⟨nonempty size List.mem_cons_self, rfl⟩
    unfold addressWidths at rest ⊢
    rw [List.mapM_cons, last, ok_bind, rest]
    exact ⟨_, rfl⟩

theorem regular_memoryName (s : Setting) (d : Decl) (exposure : Exposure) (w : Workspace) :
    Regular ((memoryName s d exposure).run w) := by
  unfold memoryName
  split
  · exact fails_run_of_ok rfl
  · refine fails_run_bind (fails_run_of_ok rfl) fun got w' _ => ?_
    split
    · exact fails_run_of_ok rfl
    · exact Regular.capability _ _

/-- The dimensions of a declared memory are not empty. -/
def NonEmpty : Ty → Prop
  | .array _ dims => ∀ d ∈ dims, 0 < d.size
  | _ => True

theorem regular_declare (s : Setting) (env : Env) {d : Decl} (nonempty : NonEmpty d.ty)
    (exposure : Exposure) (w : Workspace) : Regular ((declare s env d exposure).run w) := by
  unfold declare
  split
  · next elem dims given =>
    rw [given] at nonempty
    have positive : ∀ size ∈ dims.map Dim.size, 0 < size := by
      intro size member
      obtain ⟨dim, inside, rfl⟩ := List.mem_map.mp member
      exact nonempty dim inside
    obtain ⟨widths, addressed⟩ := addressWidths_ok positive
    split
    · rw [StateT.run_bind]
      exact .capability_bind _ _ _
    · refine fails_run_bind (regular_memoryName s d exposure w) fun name v _ => ?_
      refine fails_run_bind (fails_run_of_ok (run_lift_ok_iff.mpr ⟨addressed, rfl⟩)) fun _ _ _ => ?_
      exact fails_run_of_ok rfl
  · exact fails_run_of_ok rfl

theorem regular_declareAll (s : Setting) (env : Env) {ds : List Decl}
    (nonempty : ∀ d ∈ ds, NonEmpty d.ty) (exposure : Exposure) (w : Workspace) :
    Regular ((declareAll s exposure env ds).run w) := by
  induction ds generalizing env w with
  | nil => exact fails_run_pure _ _
  | cons d ds ih =>
    refine fails_run_bind (regular_declare s env (nonempty d List.mem_cons_self) exposure w) ?_
    exact fun env w _ => ih env (fun other member => nonempty other (List.mem_cons_of_mem _ member)) w

theorem nonEmpty_bankTy {l : Layout} (divided : Banking.Divided l.dims) : NonEmpty l.bankTy := by
  intro d member
  obtain ⟨dim, inside, rfl⟩ := List.mem_map.mp member
  exact (Banking.splitsEvenly_iff.mp (divided dim inside)).2.1

theorem nonEmpty_split {l : Layout} (divided : Banking.Divided l.dims) {pos : Nat} {ds : List Decl}
    (split : l.split pos = .ok ds) : ∀ d ∈ ds, NonEmpty d.ty ∧ d.pos = pos := by
  rw [Layout.split_eq split]
  intro d member
  obtain ⟨k, _, rfl⟩ := List.mem_map.mp member
  exact ⟨nonEmpty_bankTy divided, rfl⟩

theorem regular_declBanks (s : Setting) (low : Env) {layout : Layout}
    (divided : Banking.Divided layout.dims) {pos : Nat} {cmd : TypedCommand}
    (split : Banking.declBanks layout pos = .ok cmd) (w : Workspace) :
    Regular ((lowerCommand s low cmd).run w) := by
  obtain ⟨ds, banks, form⟩ := Banking.declBanks_split split
  have shaped := nonEmpty_split divided banks
  obtain ⟨d, rfl, rfl⟩ | ⟨_, rfl⟩ := form
  · rw [lowerCommand]
    have nonempty : NonEmpty d.ty := (shaped d List.mem_cons_self).1
    exact fails_run_bind (regular_declare s low (by exact nonempty) .hidden w) fun _ _ _ =>
      fails_run_pure _ _
  · rw [lowerCommand, lowerSeq_decls low pos ds fun d member => (shaped d member).2, bind_assoc]
    exact fails_run_bind (regular_declareAll s low (fun d member => (shaped d member).1) .hidden w)
      fun _ _ _ => fails_run_bind (fails_run_pure _ _) fun _ _ _ => fails_run_pure _ _

/-! ### Calls -/

/-- The number of memories behind a declaration. -/
def memoryCount : Ty → Nat
  | .array _ dims => Banking.bankTotal dims
  | _ => 1

def memoryCounts (ds : List Decl) : Nat := (ds.map fun d => memoryCount d.ty).sum

/-- Every function takes the memories of its parameters. -/
def Knows (s : Setting) (funcs : List (String × List Decl)) : Prop :=
  ∀ func params, funcs.lookup func = some params →
    ∃ names, s.signatures.lookup func = some names ∧ names.length = memoryCounts params

theorem length_bankedArguments {types : Typing.Env} {env : Banking.Env} {args banks : List String}
    {params : List Decl} (given : Banking.BankedArguments types env args params banks) :
    banks.length = memoryCounts params := by
  induction given with
  | nil => rfl
  | cons _ same _ named _ ih =>
    rw [List.length_append, Layout.length_banks named, ih, memoryCounts, memoryCounts,
      List.map_cons, List.sum_cons, same]
    rfl

theorem length_bankDecls {env env' : Banking.Env} {ds banked : List Decl}
    (split : Banking.bankDecls env ds = .ok (banked, env')) : banked.length = memoryCounts ds := by
  replace split := Banking.bankDecls_ok split
  induction split with
  | nil => rfl
  | array split _ ih =>
    rw [memoryCounts, List.map_cons, List.sum_cons, List.length_append, ih, Layout.split_eq split,
      List.length_map, List.length_range]
    rfl
  | @scalar _ _ d _ _ found _ ih =>
    have one : memoryCount d.ty = 1 := by
      cases ty : d.ty with
      | array elem dims =>
        rw [ty] at found
        cases found
      | _ => rfl
    rw [memoryCounts, List.map_cons, List.sum_cons, List.length_cons, ih, one, Nat.add_comm]
    rfl

/-! ### Commands -/

theorem sized_of_assignable {e : TypedExpr} {ty : Ty} (storable : Typing.Storable ty)
    (fits : assignable e.ty ty = true) : Sized ty.width e := by
  intro n same
  rw [same] at fits
  cases ty with
  | bit width signed =>
    have narrow : bitsNeeded n + signed.toNat ≤ width := by simpa [assignable] using fits
    exact Nat.lt_of_lt_of_le (lt_capacity_bitsNeeded n) (Word.capacity_le (by rw [Ty.width]; omega))
  | static m => exact absurd storable (Typing.not_storable_static m)
  | _ => simp [assignable] at fits

theorem storable_target {tctx : Typing.Context} {types : Typing.Env}
    (formed : Typing.WellFormed types) {target : TypedExpr}
    (place : Typing.CheckedTarget tctx types target) : Typing.Storable target.ty := by
  cases place with
  | register bound =>
    cases formed _ _ bound with
    | scalar storable => exact storable
  | element checked =>
    cases checked with
    | access bound _ =>
      exact (formed.array bound).1

theorem fraction_le {ty : Ty} (storable : Typing.Storable ty) {f : Nat}
    (fixed : ty.frac? = some f) : f ≤ ty.width := by
  cases ty with
  | fix width frac =>
    cases fixed
    exact (Typing.storable_fix_iff.mp storable).2
  | _ => cases fixed

/-- What the lowering of a command relies on, before the command. -/
structure Ready (arrays names : List String) (rotors : List (String × TypedExpr)) (s : Setting)
    (ctx : Banking.Context) (tctx : Typing.Context) (env : Banking.Env) (stage : Stage) (low : Env) :
    Prop where
  formed : Typing.WellFormed stage.scope.types
  agrees : Banking.Agrees stage.scope.types env
  built : Built arrays names ctx.rotations rotors stage low
  knows : Knows s tctx.funcs

section

variable (allowed : Failure → Prop) (met : Banking.IndexSite → Prop)

/-- Where its indices meet a condition, the lowering of a checked command fails in allowed ways. -/
def LowersCommand (arrays names : List String) (rotors : List (String × TypedExpr)) (s : Setting)
    (ctx : Banking.Context) (env : Banking.Env) (cmd cmd' : TypedCommand) : Prop :=
  ∀ ⦃tctx : Typing.Context⦄ ⦃stage : Stage⦄ ⦃types : Typing.Env⦄ ⦃low : Env⦄,
    Typing.CheckedCommand tctx stage.scope.types cmd types →
    Ready arrays names rotors s ctx tctx env stage low → Banking.binders cmd ⊆ names →
    Banking.arraysIn cmd ⊆ arrays → (∀ site ∈ Banking.sitesOfCommand env cmd, met site) →
    Fails allowed ((lowerCommand s low cmd').run stage.space)

def LowersSeq (arrays names : List String) (rotors : List (String × TypedExpr)) (s : Setting)
    (ctx : Banking.Context) (env : Banking.Env) (cmds cmds' : List TypedCommand) : Prop :=
  ∀ ⦃tctx : Typing.Context⦄ ⦃stage : Stage⦄ ⦃types : Typing.Env⦄ ⦃low : Env⦄,
    Typing.CheckedSeq tctx stage.scope.types cmds types →
    Ready arrays names rotors s ctx tctx env stage low → Banking.bindersOfSeq cmds ⊆ names →
    Banking.arraysInSeq cmds ⊆ arrays → (∀ site ∈ Banking.sitesOfSeq env cmds, met site) →
    Fails allowed ((lowerSeq s low cmds').run stage.space)

def LowersElse (arrays names : List String) (rotors : List (String × TypedExpr)) (s : Setting)
    (ctx : Banking.Context) (env : Banking.Env) (cmd cmd' : Option TypedCommand) : Prop :=
  ∀ ⦃tctx : Typing.Context⦄ ⦃stage : Stage⦄ ⦃low : Env⦄,
    Typing.CheckedElse tctx stage.scope.types cmd →
    Ready arrays names rotors s ctx tctx env stage low → Banking.bindersOfElse cmd ⊆ names →
    Banking.arraysInElse cmd ⊆ arrays → (∀ site ∈ Banking.sitesOfElse env cmd, met site) →
    Fails allowed ((lowerElse s low cmd').run stage.space)

/-- How simple commands and conditions end. Declarations fail in permitted ways, and a counter of
names may have no room. -/
structure Endings : Prop where
  permitted : ∀ f, Permitted f → allowed f
  crowded : allowed (.fault .overflow)
  condition : ∀ {arrays names rotors s ctx tctx env stage low} (pos : Nat) {cond cond' : TypedExpr},
    Ready arrays names rotors s ctx tctx env stage low → Banking.ReadAs ctx env cond cond' →
    Typing.CheckedExpr tctx stage.scope.types cond → cond.ty = .bool →
    (∀ site ∈ Banking.sitesOf env cond, met site) →
    Fails allowed ((lowerCondition s low pos cond').run stage.space)
  define : ∀ {arrays names rotors s ctx env pos name ty init init'},
    Banking.ReadAs ctx env init init' → LowersCommand allowed met arrays names rotors s ctx env
      (.define pos name ty init) (.define pos name ty init')
  update : ∀ {arrays names rotors s ctx env pos target target' value value'},
    Banking.WrittenAs ctx env target target' → Banking.ReadAs ctx env value value' →
    LowersCommand allowed met arrays names rotors s ctx env (.update pos target value)
      (.update pos target' value')
  reduce : ∀ {arrays names rotors s ctx env pos op target target' value value'},
    Banking.WrittenAs ctx env target target' → Banking.ReadAs ctx env value value' →
    LowersCommand allowed met arrays names rotors s ctx env (.reduce pos op target value)
      (.reduce pos op target' value')
  eval : ∀ {arrays names rotors s ctx env pos e e'}, Banking.ReadAs ctx env e e' →
    LowersCommand allowed met arrays names rotors s ctx env (.eval pos e) (.eval pos e')
  rotate : ∀ {arrays names rotors s env pos array rotation step} {ctx : Banking.Context},
    ctx.rotations.lookup array = some rotation → rotation.step pos = .ok step →
    LowersCommand allowed met arrays names rotors s ctx env (.advance pos array) step

end

section

variable {allowed : Failure → Prop} {met : Banking.IndexSite → Prop} {arrays names : List String}
  {rotors : List (String × TypedExpr)} {s : Setting} {ctx : Banking.Context} {env : Banking.Env}
  {pos : Nat}

theorem lowers_array (ends : Endings allowed met) {name : String} {ty : Ty} {layout : Layout}
    {banks : TypedCommand} (found : Layout.ofTy? name ty = some layout)
    (split : Banking.declBanks layout pos = .ok banks) :
    LowersCommand allowed met arrays names rotors s ctx env (.decl pos name ty) banks := by
  intro tctx stage types low checked ready bound array sites
  cases checked with
  | decl declared _ =>
    cases ty with
    | array elem dims =>
      cases found
      have divided := (Typing.declared_array declared).2
      exact Fails.mono (regular_declBanks s low (by exact divided) split _) ends.permitted
    | _ => cases found

theorem lowers_scalar (ends : Endings allowed met) {name : String} {ty : Ty}
    (found : Layout.ofTy? name ty = none) : LowersCommand allowed met arrays names rotors s ctx env
      (.decl pos name ty) (.decl pos name ty) := by
  intro tctx stage types low checked ready bound array sites
  have nonempty : NonEmpty ty := by
    cases ty with
    | array elem dims => cases found
    | _ => trivial
  rw [lowerCommand]
  exact fails_run_bind (Fails.mono (regular_declare s low (by exact nonempty) .hidden _)
    ends.permitted) fun _ _ _ => fails_run_pure _ _

theorem lowers_seq {cmds cmds' : List TypedCommand}
    (all : LowersSeq allowed met arrays names rotors s ctx env cmds cmds') :
    LowersCommand allowed met arrays names rotors s ctx env (.seq pos cmds) (.seq pos cmds') := by
  intro tctx stage types low checked ready bound array sites
  cases checked with
  | seq checked =>
    rw [lowerCommand]
    exact fails_run_bind (all checked ready bound array sites) fun _ _ _ => fails_run_pure _ _

theorem lowers_branch (ends : Endings allowed met) {cond cond' : TypedExpr}
    {onTrue onTrue' : TypedCommand} {onFalse onFalse' : Option TypedCommand}
    (value : Banking.ReadAs ctx env cond cond')
    (yes : LowersCommand allowed met arrays names rotors s ctx env.enter onTrue onTrue')
    (wires : WiresCommand arrays names rotors s ctx env.enter onTrue onTrue')
    (no : LowersElse allowed met arrays names rotors s ctx env.enter onFalse onFalse') :
    LowersCommand allowed met arrays names rotors s ctx env (.branch pos cond onTrue onFalse)
      (.branch pos cond' onTrue' onFalse') := by
  intro tctx stage types low checked ready bound array sites
  simp only [Banking.sitesOfCommand, List.mem_append] at sites
  have boundYes : Banking.binders onTrue ⊆ names :=
    fun x member => bound (List.mem_append_left _ member)
  have arrayYes : Banking.arraysIn onTrue ⊆ arrays :=
    fun x member => array (List.mem_append_left _ member)
  cases checked with
  | branch checked isBool yesChecked noChecked =>
    rw [lowerCommand]
    refine fails_run_bind (ends.condition pos ready value checked isBool fun site member =>
      sites site (.inl (.inl member))) ?_
    intro driven v ran
    have grows : Grows stage.space v := (steps_lowerCondition _ _ _ _).adds _ _ _ ran
    have entered : Ready arrays names rotors s ctx tctx env.enter (stage.enter v) low.enter :=
      ⟨ready.formed.enter, ready.agrees.enter, ready.built.enter grows, ready.knows⟩
    refine fails_run_bind (@yes _ (stage.enter v) _ _ yesChecked entered boundYes arrayYes
      fun site member => sites site (.inl (.inr member))) ?_
    rintro ⟨taken, inner⟩ v' loweredYes
    obtain ⟨middle, _, continues⟩ := @wires _ (stage.enter v) _ _ _ _ _ yesChecked
      ready.agrees.enter boundYes arrayYes entered.built loweredYes
    obtain rfl := continues.space
    have resumed : Ready arrays names rotors s ctx tctx env.enter
        ((stage.leave middle).enter middle.space) low.enter :=
      ⟨ready.formed.enter, ready.agrees.enter,
        (ready.built.leave continues.built continues.ledger).enter (.refl _), ready.knows⟩
    refine fails_run_bind (@no _ ((stage.leave middle).enter middle.space) _ noChecked resumed
      (fun x member => bound (List.mem_append_right _ member))
      (fun x member => array (List.mem_append_right _ member))
      fun site member => sites site (.inr member)) fun _ _ _ => ?_
    exact fails_run_pure _ _

theorem lowers_loop (ends : Endings allowed met) (clean : Banking.BankNameClean arrays names) {header : LoopHeader}
    {body body' : TypedCommand} (round : LowersCommand allowed met arrays names rotors s ctx
      (env.enter.rebind header.iter (.iterator ⟨header.start, header.stop - 1⟩)) body body') :
    LowersCommand allowed met arrays names rotors s ctx env (.loop pos header body)
      (.loop pos header body') := by
  intro tctx stage types low checked ready bound array sites
  cases checked with
  | loop range checked =>
    rw [lowerCommand]
    refine fails_run_bind ((builds_addLoop range.runs).fails ends.crowded _) ?_
    intro frame v framed
    obtain ⟨unused, added, grows⟩ := addLoop_ok framed
    let iterator : Store := .iterator frame.reg frame.slice frame.width
    let inside : Stage := (stage.enter v).bind header.iter
      (.iterator (.idx header.stop header.unroll)) (.plain iterator) v
    have entered : Built arrays names ctx.rotations rotors inside
        (low.enter.rebind header.iter iterator) :=
      (ready.built.enter (.refl _)).bindPlain clean (bound List.mem_cons_self) (by simp)
        (.iterator (Scope.get?_rebind_self ..)) grows unused added
    refine fails_run_bind (@round _ inside _ _ checked
      ⟨range.wellFormed ready.formed, ready.agrees.round range, entered, ready.knows⟩
      (fun x member => bound (List.mem_cons_of_mem _ member)) array sites) fun _ _ _ => ?_
    have trips : Word.sub header.stop header.start = .ok (header.stop - header.start) :=
      Word.sub_eq_ok_iff.mpr ⟨Nat.le_of_lt range.runs, rfl⟩
    refine fails_run_bind (fails_run_of_ok rfl) fun _ _ _ => ?_
    refine fails_run_bind (fails_run_of_ok rfl) fun _ _ _ => ?_
    exact fails_run_bind (fails_run_of_ok (run_lift_ok_iff.mpr ⟨trips, rfl⟩)) fun _ _ _ =>
      fails_run_pure _ _

theorem lowers_skip {cmd : TypedCommand} :
    LowersCommand allowed met arrays names rotors s ctx env cmd (.skip pos) := by
  intro tctx stage types low checked ready bound array sites
  rw [lowerCommand]
  exact fails_run_pure _ _

theorem lowers_nil : LowersSeq allowed met arrays names rotors s ctx env [] [] := by
  intro tctx stage types low checked ready bound array sites
  rw [lowerSeq]
  exact fails_run_pure _ _

theorem lowers_cons {cmd cmd' : TypedCommand} {cmds cmds' : List TypedCommand}
    (first : LowersCommand allowed met arrays names rotors s ctx env cmd cmd')
    (wires : WiresCommand arrays names rotors s ctx env cmd cmd')
    (rest : LowersSeq allowed met arrays names rotors s ctx (Banking.after env cmd) cmds cmds') :
    LowersSeq allowed met arrays names rotors s ctx env (cmd :: cmds) (cmd' :: cmds') := by
  intro tctx stage types low checked ready bound array sites
  simp only [Banking.sitesOfSeq, List.mem_append] at sites
  have boundFirst : Banking.binders cmd ⊆ names :=
    fun x member => bound (List.mem_append_left _ member)
  have arrayFirst : Banking.arraysIn cmd ⊆ arrays :=
    fun x member => array (List.mem_append_left _ member)
  cases checked with
  | cons checked checkedRest =>
    rw [lowerSeq]
    refine fails_run_bind (first checked ready boundFirst arrayFirst fun site member =>
      sites site (.inl member)) ?_
    rintro ⟨control, low'⟩ v lowered
    obtain ⟨middle, _, continues⟩ :=
      wires checked ready.agrees boundFirst arrayFirst ready.built lowered
    have formed := checked.wellFormed ready.formed
    have agrees := ready.agrees.after checked
    obtain rfl := continues.types
    obtain rfl := continues.space
    refine fails_run_bind (rest checkedRest ⟨formed, agrees, continues.built, ready.knows⟩
      (fun x member => bound (List.mem_append_right _ member))
      (fun x member => array (List.mem_append_right _ member))
      fun site member => sites site (.inr member)) fun _ _ _ => ?_
    exact fails_run_pure _ _

theorem lowers_none : LowersElse allowed met arrays names rotors s ctx env none none := by
  intro tctx stage low checked ready bound array sites
  rw [lowerElse]
  exact fails_run_pure _ _

theorem lowers_some {cmd cmd' : TypedCommand}
    (lowers : LowersCommand allowed met arrays names rotors s ctx env cmd cmd') :
    LowersElse allowed met arrays names rotors s ctx env (some cmd) (some cmd') := by
  intro tctx stage low checked ready bound array sites
  cases checked with
  | some checked =>
    rw [lowerElse]
    exact fails_run_bind (lowers checked ready bound array sites) fun _ _ _ =>
      fails_run_pure _ _

mutual

/-- A checked command ends as the simple commands do. -/
theorem fails_lowerCommand (ends : Endings allowed met) (clean : Banking.BankNameClean arrays names)
    {env : Banking.Env} : {cmd cmd' : TypedCommand} → Banking.BankedCommand ctx env cmd cmd' →
      LowersCommand allowed met arrays names rotors s ctx env cmd cmd'
  | _, _, .array found split => lowers_array ends found split
  | _, _, .scalar found => lowers_scalar ends found
  | _, _, .define value => ends.define value
  | _, _, .seq all => lowers_seq (fails_lowerSeq ends clean all)
  | _, _, .branch value yes no => lowers_branch ends value (fails_lowerCommand ends clean yes)
      (lowerCommand_wired clean yes) (fails_lowerElse ends clean no)
  | _, _, .loop _ round => lowers_loop ends clean (fails_lowerCommand ends clean round)
  | _, _, .update place read => ends.update place read
  | _, _, .reduce place read => ends.reduce place read
  | _, _, .eval value => ends.eval value
  | _, _, .rotate rotated stepped => ends.rotate rotated stepped
  | _, _, .still _ => lowers_skip
  | _, _, .skip => lowers_skip

theorem fails_lowerSeq (ends : Endings allowed met) (clean : Banking.BankNameClean arrays names)
    {env : Banking.Env} : {cmds cmds' : List TypedCommand} → Banking.BankedSeq ctx env cmds cmds' →
      LowersSeq allowed met arrays names rotors s ctx env cmds cmds'
  | _, _, .nil => lowers_nil
  | _, _, .cons first rest => lowers_cons (fails_lowerCommand ends clean first)
      (lowerCommand_wired clean first) (fails_lowerSeq ends clean rest)

theorem fails_lowerElse (ends : Endings allowed met) (clean : Banking.BankNameClean arrays names)
    {env : Banking.Env} : {cmd cmd' : Option TypedCommand} → Banking.BankedElse ctx env cmd cmd' →
      LowersElse allowed met arrays names rotors s ctx env cmd cmd'
  | _, _, .none => lowers_none
  | _, _, .some banked => lowers_some (fails_lowerCommand ends clean banked)

end

end

/-! ### Settled commands -/

section

variable {arrays names : List String} {rotors : List (String × TypedExpr)} {s : Setting}
  {ctx : Banking.Context} {tctx : Typing.Context} {env : Banking.Env} {stage : Stage} {low : Env}
  {pos : Nat}

theorem Ready.lowerable (ready : Ready arrays names rotors s ctx tctx env stage low)
    {e e' : TypedExpr} (checked : Typing.CheckedExpr tctx stage.scope.types e)
    (read : Banking.ReadAs ctx env e e')
    (settled : ∀ site ∈ Banking.sitesOf env e, site.Settled) : Lowerable low e' :=
  lowerable_read ready.built ready.formed ready.agrees e checked read settled

/-- Commands that settled indices suffice for. -/
abbrev SettlesCommand (arrays names : List String) (rotors : List (String × TypedExpr)) (s : Setting)
    (ctx : Banking.Context) (env : Banking.Env) (cmd cmd' : TypedCommand) : Prop :=
  LowersCommand Crowded Banking.IndexSite.Settled arrays names rotors s ctx env cmd cmd'

theorem settles_condition (pos : Nat) {cond cond' : TypedExpr}
    (ready : Ready arrays names rotors s ctx tctx env stage low)
    (value : Banking.ReadAs ctx env cond cond')
    (checked : Typing.CheckedExpr tctx stage.scope.types cond) (isBool : cond.ty = .bool)
    (settled : ∀ site ∈ Banking.sitesOf env cond, site.Settled) :
    Fails Crowded ((lowerCondition s low pos cond').run stage.space) := by
  have sized : Sized 1 cond' := .of_ty (by rw [value.ty_eq, isBool]; exact nofun)
  exact ((ready.lowerable checked value settled).builds_condition s pos sized).fails .overflow _

theorem settles_define {name : String} {ty : Ty} {init init' : TypedExpr}
    (value : Banking.ReadAs ctx env init init') :
    SettlesCommand arrays names rotors s ctx env (.define pos name ty init)
      (.define pos name ty init') := by
  intro tctx stage types low checked ready bound array settled
  cases checked with
  | define checked storable fits _ =>
    have lowerable := ready.lowerable checked value settled
    have sized : Sized ty.width init' := sized_of_assignable storable (value.ty_eq ▸ fits)
    rw [lowerCommand]
    refine Builds.fails ?_ .overflow _
    exact .bind (builds_addRegister _ _) fun _ =>
      .bind (lowerable.builds_assign s pos _ _ sized) fun _ => .pure _

theorem settles_update {target target' value value' : TypedExpr}
    (place : Banking.WrittenAs ctx env target target') (read : Banking.ReadAs ctx env value value') :
    SettlesCommand arrays names rotors s ctx env (.update pos target value)
      (.update pos target' value') := by
  intro tctx stage types low checked ready bound array settled
  simp only [Banking.sitesOfCommand, List.mem_append] at settled
  cases checked with
  | update placeChecked checked fits =>
    have lowerable := ready.lowerable checked read fun site member => settled site (.inr member)
    obtain ⟨targetLowers, _⟩ := lowerable_target ready.built ready.formed ready.agrees placeChecked
      place fun site member => settled site (.inl member)
    have sized : Sized target.ty.width value' :=
      sized_of_assignable (storable_target ready.formed placeChecked) (read.ty_eq ▸ fits)
    rw [lowerCommand]
    refine Builds.fails ?_ .overflow _
    exact .bind (targetLowers.builds_update s pos lowerable sized) fun _ => .pure _

theorem settles_reduce {op : BinOp} {target target' value value' : TypedExpr}
    (place : Banking.WrittenAs ctx env target target') (read : Banking.ReadAs ctx env value value') :
    SettlesCommand arrays names rotors s ctx env (.reduce pos op target value)
      (.reduce pos op target' value') := by
  intro tctx stage types low checked ready bound array settled
  simp only [Banking.sitesOfCommand, List.mem_append] at settled
  cases checked with
  | reduce placeChecked _ checked fits =>
    have storable := storable_target ready.formed placeChecked
    have lowerable := ready.lowerable checked read fun site member => settled site (.inr member)
    obtain ⟨targetLowers, typed⟩ := lowerable_target ready.built ready.formed ready.agrees
      placeChecked place fun site member => settled site (.inl member)
    have sized : Sized target.ty.width value' := sized_of_assignable storable (read.ty_eq ▸ fits)
    have whole : ∀ f, target'.ty.frac? = some f → f ≤ target.ty.width := by
      rw [typed]
      exact fun f fixed => fraction_le storable fixed
    rw [lowerCommand]
    refine Builds.fails ?_ .overflow _
    exact .bind (targetLowers.builds_reduce s pos op whole lowerable sized) fun _ => .pure _

theorem settles_eval {e e' : TypedExpr} (value : Banking.ReadAs ctx env e e') :
    SettlesCommand arrays names rotors s ctx env (.eval pos e) (.eval pos e') := by
  intro tctx stage types low checked ready bound array settled
  refine Builds.fails ?_ .overflow _
  cases checked with
  | call defined given =>
    cases value with
    | app split =>
      have passed := ready.agrees.bankedArguments given split
      obtain ⟨memories, _, housed⟩ := located_arguments ready.built passed
      obtain ⟨params, signature, count⟩ := ready.knows _ _ defined
      rw [← length_bankedArguments passed] at count
      simp only [lowerCommand, lowerCall, signature, count, ne_eq, not_true_eq_false, if_false,
        bindArguments_eq housed, pure_bind]
      exact .bind (.bind (builds_instanceOf _) fun _ => .bind (builds_quote _ _) fun _ => .pure _)
        fun _ => .pure _
  | eval checked =>
    rw [lowerCommand]
    · exact .bind ((ready.lowerable checked value settled).builds_discard s pos) fun _ => .pure _
    · exact value.ne_app checked.ne_app

theorem settles_rotate {array : String} {rotation : Banking.Rotation} {step : TypedCommand}
    (rotated : ctx.rotations.lookup array = some rotation) (stepped : rotation.step pos = .ok step) :
    SettlesCommand arrays names rotors s ctx env (.advance pos array) step := by
  intro tctx stage types low checked ready bound array settled
  obtain ⟨rotor, _, turn⟩ := ready.built.turns.lookup_some rotated
  obtain ⟨_, cell, width, _, _, found, _⟩ := turn.stored
  obtain ⟨ty, _, sum, added, next, wrapped, rfl⟩ := Banking.Rotation.step_update stepped
  have register : Lowerable low (.var ty rotation.register) := .var ty (.inl ⟨cell, width, found⟩)
  obtain ⟨lowerableSum, computed⟩ := register.widened_add (.lit 1) added
  obtain ⟨lowerable, computedNext⟩ := lowerableSum.wrap computed wrapped
  have place : LowerableTarget low (.var ty rotation.register) width := .register ty found
  rw [lowerCommand]
  refine Builds.fails ?_ .overflow _
  exact .bind (place.builds_update s pos lowerable (.of_ty computedNext)) fun _ => .pure _

/-- A settled command is lowered, or refused for a memory that has no hardware form, or asks for more
names than can be counted. -/
theorem settled_endings : Endings Crowded Banking.IndexSite.Settled :=
  ⟨fun _ => .permitted, .overflow, settles_condition, settles_define, settles_update, settles_reduce,
    settles_eval, settles_rotate⟩

end

end Lowering

end BankedLoops
