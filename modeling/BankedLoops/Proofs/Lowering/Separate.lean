import BankedLoops.Proofs.Banking.Concurrence
import BankedLoops.Proofs.Typing.Concurrence
import BankedLoops.Proofs.Lowering.Hierarchy
import BankedLoops.Proofs.Lowering.Mute

/-!
# Separate compilation

The component of a function depends on the function, on the configuration and on the parameters of the
functions that it calls, and on nothing else of the program around it. Each pass is run twice on the
function, in two programs, and the two runs concur: `concur_checkFunction`, `concur_bankFunction` and
`concur_lowerFunction`. `Program.compile_separate` is the main result.
-/

namespace BankedLoops

namespace Lowering

/-! ### Builds that concur -/

/-- Two workspaces that differ in their quotes at most. -/
def Workspace.Similar (w w' : Workspace) : Prop := w.quoting {} = w'.quoting {}

theorem Workspace.Similar.cells {w w' : Workspace} (similar : w.Similar w') : w.cells = w'.cells := by
  injection similar

theorem Workspace.Similar.groups {w w' : Workspace} (similar : w.Similar w') : w.groups = w'.groups := by
  injection similar

/-- Whether two constructions concur from similar workspaces: where both succeed, they make the same and
leave similar workspaces. -/
def Concurs {α : Type} (x y : Build α) : Prop :=
  ∀ w w' a b v v', w.Similar w' → x.run w = .ok (a, v) → y.run w' = .ok (b, v') → a = b ∧ v.Similar v'

namespace Concurs

variable {α β : Type}

theorem of_mute {x : Build α} (mute : Mute x) : Concurs x x := by
  intro w w' a b v v' similar left right
  have first := mute.run_quoting w {}
  rw [similar, mute.run_quoting w' {}, right, left] at first
  obtain ⟨same, space⟩ := Prod.mk.inj (Except.ok.inj first)
  exact ⟨same.symm, space.symm⟩

theorem refl (x : Build α) [mute : Mute x] : Concurs x x := of_mute mute

theorem bind {x y : Build α} {f g : α → Build β} (head : Concurs x y)
    (tail : ∀ a, Concurs (f a) (g a)) : Concurs (x >>= f) (y >>= g) := by
  intro w w' c d v v' similar left right
  obtain ⟨a, u, first, rest⟩ := run_bind_ok_iff.mp left
  obtain ⟨a', u', first', rest'⟩ := run_bind_ok_iff.mp right
  obtain ⟨rfl, similar⟩ := head w w' a a' u u' similar first first'
  exact tail a u u' c d v v' similar rest rest'

/-- A step that both take, and that quotes nothing. -/
theorem same {x : Build α} [Mute x] {f g : α → Build β} (tail : ∀ a, Concurs (f a) (g a)) :
    Concurs (x >>= f) (x >>= g) := (refl x).bind tail

theorem ite {p : Prop} [Decidable p] {x x' y y' : Build α} (onTrue : Concurs x y)
    (onFalse : Concurs x' y') : Concurs (if p then x else x') (if p then y else y') := by
  split
  · exact onTrue
  · exact onFalse

theorem throw_left (e : Failure) (y : Build α) : Concurs (MonadExcept.throw e) y :=
  fun _ _ _ _ _ _ _ left _ => by cases left

theorem throw_bind (fault : InternalFault) (f : α → Build β) (y : Build β) :
    Concurs (throwInternal fault >>= f) y :=
  fun _ _ _ _ _ _ _ left _ => by cases left

theorem throw_right (x : Build α) (e : Failure) : Concurs x (MonadExcept.throw e) :=
  fun _ _ _ _ _ _ _ _ right => by cases right

/-- Both read what does not depend on the quotes. -/
theorem get_bind {f g : Workspace → Build β} (blind : ∀ w quotes, f (w.quoting quotes) = f w)
    (tail : ∀ w, Concurs (f w) (g w)) : Concurs (MonadState.get >>= f) (MonadState.get >>= g) := by
  intro w w' a b v v' similar left right
  have same : f w = f w' := by rw [← blind w {}, similar, blind]
  exact tail w' w w' a b v v' similar (same ▸ left) right

theorem quote (s s' : Setting) (pos : Nat) : Concurs (Lowering.quote s pos) (Lowering.quote s' pos) := by
  rintro w w' _ _ _ _ similar ⟨⟩ ⟨⟩
  exact ⟨rfl, similar⟩

end Concurs

/-! ### Expressions -/

/-- Two settings that annotate alike. -/
abbrev Setting.Alike (s s' : Setting) : Prop := s.emitPositions = s'.emitPositions

section

variable {s s' : Setting} {env : Env} {pos : Nat}

theorem Setting.Alike.enable_eq (alike : s.Alike s') (group : String) (pos : Nat) :
    s.enable group pos = s'.enable group pos := by
  rw [Setting.enable, Setting.enable, Setting.position, Setting.position, alike]

theorem concurs_enableGroup (alike : s.Alike s') (group : String) :
    Concurs (enableGroup s group pos) (enableGroup s' group pos) := by
  refine (Concurs.quote s s' pos).bind fun _ => ?_
  rw [alike.enable_eq]
  exact .refl _

theorem concurs_finishRead (alike : s.Alike s') (reg : String) (w : Wiring) :
    Concurs (finishRead s pos reg w) (finishRead s' pos reg w) :=
  .same fun group => .same fun _ => (concurs_enableGroup alike group).bind fun _ => .refl _

theorem concurs_readName (w : Wiring) (name : String) :
    Concurs (readName s env pos w name) (readName s' env pos w name) := by
  unfold readName
  split
  · exact .refl _
  · exact .refl _
  · exact .refl _
  · exact .throw_left _ _

theorem concurs_lowerCounted (count : Nat) {lower lower' : AddressLowering}
    (each : ∀ sizes w, Concurs (lower sizes w) (lower' sizes w)) (sizes : List Nat) (w : Wiring) :
    Concurs (lowerCounted count lower sizes w) (lowerCounted count lower' sizes w) :=
  .ite (.throw_bind _ _ _) (each sizes w)

theorem concurs_readMemory (alike : s.Alike s') (reg mem : String) {lower lower' : AddressLowering}
    (each : ∀ sizes w, Concurs (lower sizes w) (lower' sizes w)) :
    Concurs (readMemory s env pos reg mem lower) (readMemory s' env pos reg mem lower') := by
  refine .same fun m => .bind (each m.sizes {}) fun addrs => ?_
  exact concurs_finishRead alike _ _

theorem concurs_readBanks (alike : s.Alike s') (reg : String) (banks : List String)
    {select select' : Nat → Wiring → Build (Pin × Wiring)} {lower lower' : AddressLowering}
    (selects : ∀ width w, Concurs (select width w) (select' width w))
    (each : ∀ sizes w, Concurs (lower sizes w) (lower' sizes w)) :
    Concurs (readBanks s env pos reg banks select lower)
      (readBanks s' env pos reg banks select' lower') := by
  cases banks with
  | nil => exact .throw_left _ _
  | cons first rest =>
    refine .same fun m => .same fun last => .bind (selects _ {}) fun selected => ?_
    refine .bind (each m.sizes _) fun addrs => .same fun w => ?_
    exact concurs_finishRead alike _ _

mutual

theorem concurs_lowerExpr (alike : s.Alike s') {width : Nat} {w : Wiring} : (e : TypedExpr) →
    Concurs (lowerExpr s env pos width w e) (lowerExpr s' env pos width w e)
  | .int .. | .bool .. => by
    rw [lowerExpr, lowerExpr]
    exact .refl _
  | .var ty name => by
    rw [lowerExpr, lowerExpr]
    exact (concurs_readName w name).bind fun _ => .refl _
  | .binop ty op lhs rhs => by
    rcases ty.static_or with ⟨n, rfl⟩ | computed
    · rw [lowerExpr, lowerExpr]
      exact .refl _
    · rw [lowerExpr_computed computed, lowerExpr_computed computed]
      refine (concurs_lowerExpr alike lhs).bind fun left => ?_
      exact (concurs_lowerExpr alike rhs).bind fun right => .refl _
  | .mem ty mem addr => by
    rw [lowerExpr, lowerExpr]
    refine .same fun reg => .bind (concurs_readMemory alike reg mem ?_) fun controls => .refl _
    exact concurs_lowerCounted _ fun sizes w => concurs_lowerAddrs alike addr
  | .muxRead ty banks select addr => by
    rw [lowerExpr, lowerExpr]
    refine .same fun reg => .bind (concurs_readBanks alike reg banks ?_ ?_) fun controls => .refl _
    · exact fun width w => concurs_lowerExpr alike select
    · exact concurs_lowerCounted _ fun sizes w => concurs_lowerAddrs alike addr
  | .access .. | .app .. => by
    rw [lowerExpr, lowerExpr]
    exact .refl _

theorem concurs_lowerAddrs (alike : s.Alike s') {w : Wiring} {sizes : List Nat} :
    (es : List TypedExpr) →
    Concurs (lowerAddrs s env pos w es sizes) (lowerAddrs s' env pos w es sizes)
  | [] => by
    simp only [lowerAddrs]
    exact .refl _
  | e :: es => by
    cases sizes with
    | nil =>
      simp only [lowerAddrs]
      exact .refl _
    | cons size sizes =>
      rw [lowerAddrs, lowerAddrs]
      refine .same fun last => (concurs_lowerExpr alike e).bind fun pin => ?_
      exact (concurs_lowerAddrs alike es).bind fun _ => .refl _

end

theorem concurs_addressing (alike : s.Alike s') (addr : List TypedExpr) (sizes : List Nat)
    (w : Wiring) : Concurs (addressing s env pos addr sizes w) (addressing s' env pos addr sizes w) :=
  concurs_lowerCounted _ (fun _ _ => concurs_lowerAddrs alike addr) sizes w

theorem concurs_readInto (alike : s.Alike s') (reg : String) (e : TypedExpr) :
    Concurs (readInto s env pos reg e) (readInto s' env pos reg e) := by
  cases e with
  | mem ty mem addr => exact concurs_readMemory alike reg mem (concurs_addressing alike addr)
  | muxRead ty banks select addr =>
    rw [readInto, readInto]
    exact concurs_readBanks alike reg banks (fun _ _ => concurs_lowerExpr alike select)
      (concurs_addressing alike addr)
  | _ => exact .throw_left _ _

theorem concurs_discard (alike : s.Alike s') : (e : TypedExpr) →
    Concurs (discard s env pos e) (discard s' env pos e)
  | .binop _ _ lhs rhs => by
    rw [discard, discard]
    refine (concurs_discard alike lhs).bind fun left => ?_
    exact (concurs_discard alike rhs).bind fun right => .refl _
  | .mem .. | .muxRead .. => by
    rw [discard, discard]
    exact .same fun reg => concurs_readInto alike reg _
  | .int .. | .bool .. | .var .. | .access .. | .app .. => .refl (pure [])

/-! ### Commands -/

theorem concurs_finishGroup (alike : s.Alike s') (group : String) (w : Wiring) :
    Concurs (finishGroup s pos group w) (finishGroup s' pos group w) :=
  .same fun _ => (concurs_enableGroup alike group).bind fun _ => .refl _

theorem concurs_assignRegister (alike : s.Alike s') (reg stem : String) (width : Nat)
    (value : TypedExpr) : Concurs (assignRegister s env pos reg width stem value)
      (assignRegister s' env pos reg width stem value) := by
  have computed : Concurs
      (lowerExpr s env pos width {} value >>= fun lowered => freshName stem >>= fun group =>
        finishGroup s pos group (lowered.2.latch group reg lowered.1))
      (lowerExpr s' env pos width {} value >>= fun lowered => freshName stem >>= fun group =>
        finishGroup s' pos group (lowered.2.latch group reg lowered.1)) :=
    (concurs_lowerExpr alike value).bind fun _ => .same fun group => concurs_finishGroup alike _ _
  have captured : Concurs (readInto s env pos reg value >>= fun controls =>
        pure (Control.sequence controls))
      (readInto s' env pos reg value >>= fun controls => pure (Control.sequence controls)) :=
    (concurs_readInto alike reg value).bind fun _ => .refl _
  unfold assignRegister
  cases value with
  | mem | muxRead => exact .ite captured computed
  | _ => exact computed

theorem concurs_storeMemory (alike : s.Alike s') (mem : String) (addr : List TypedExpr)
    (value : TypedExpr) :
    Concurs (storeMemory s env pos mem addr value) (storeMemory s' env pos mem addr value) := by
  refine .same fun m => (concurs_addressing alike addr _ _).bind fun addrs => ?_
  refine (concurs_lowerExpr alike value).bind fun data => .same fun group => ?_
  exact concurs_finishGroup alike _ _

theorem concurs_reduceRegister (alike : s.Alike s') (op : BinOp) (ty : Ty) (reg : String)
    (width : Nat) (value : TypedExpr) : Concurs (reduceRegister s env pos op ty reg width value)
      (reduceRegister s' env pos op ty reg width value) := by
  refine (concurs_lowerExpr alike value).bind fun right => .same fun cell => .same fun group => ?_
  exact concurs_finishGroup alike _ _

theorem concurs_reduceMemory (alike : s.Alike s') (op : BinOp) (ty : Ty) (mem : String)
    (addr : List TypedExpr) (value : TypedExpr) :
    Concurs (reduceMemory s env pos op ty mem addr value)
      (reduceMemory s' env pos op ty mem addr value) := by
  refine .same fun m => (concurs_addressing alike addr _ _).bind fun addrs => ?_
  refine .same fun old => .same fun read => .same fun _ => ?_
  refine (concurs_lowerExpr alike value).bind fun right => .same fun cell => .same fun write => ?_
  refine .same fun _ => (concurs_enableGroup alike read).bind fun _ => ?_
  exact (concurs_enableGroup alike write).bind fun _ => .refl _

theorem concurs_lowerCondition (alike : s.Alike s') (cond : TypedExpr) :
    Concurs (lowerCondition s env pos cond) (lowerCondition s' env pos cond) :=
  (concurs_lowerExpr alike cond).bind fun _ => .refl _

theorem concurs_lowerUpdate (alike : s.Alike s') (target value : TypedExpr) :
    Concurs (lowerUpdate s env pos target value) (lowerUpdate s' env pos target value) := by
  cases target with
  | var ty name => exact .same fun _ => concurs_assignRegister alike _ _ _ value
  | mem ty mem addr => exact concurs_storeMemory alike mem addr value
  | _ => exact .throw_left _ _

theorem concurs_lowerReduce (alike : s.Alike s') (op : BinOp) (target value : TypedExpr) :
    Concurs (lowerReduce s env pos op target value) (lowerReduce s' env pos op target value) := by
  cases target with
  | var ty name => exact .same fun _ => concurs_reduceRegister alike op ty _ _ value
  | mem ty mem addr => exact concurs_reduceMemory alike op ty mem addr value
  | _ => exact .throw_left _ _

theorem concurs_memoryName (d : Decl) (exposure : Exposure) :
    Concurs (memoryName s d exposure) (memoryName s' d exposure) := by
  cases exposure with
  | hidden => exact .refl _
  | external | reference =>
    refine .get_bind (fun _ _ => rfl) fun w => ?_
    split
    · exact .bind (.of_mute (.modify fun _ _ => rfl)) fun _ => .refl _
    · exact .throw_left _ _

theorem concurs_declare (d : Decl) (exposure : Exposure) :
    Concurs (declare s env d exposure) (declare s' env d exposure) := by
  unfold declare
  split
  · refine .ite (.throw_left _ _) ?_
    exact (concurs_memoryName d exposure).bind fun _ => .refl _
  · exact .refl _

theorem concurs_declareAll (exposure : Exposure) (ds : List Decl) :
    Concurs (declareAll s exposure env ds) (declareAll s' exposure env ds) := by
  induction ds generalizing env with
  | nil => exact .refl _
  | cons d ds ih => exact (concurs_declare d exposure).bind fun _ => ih

/-- Two settings that know the same memory parameters of the named functions. -/
def Setting.Signs (s s' : Setting) (funcs : List String) : Prop :=
  ∀ func ∈ funcs, ∀ params params', s.signatures.lookup func = some params →
    s'.signatures.lookup func = some params' → params = params'

theorem concurs_lowerCall (alike : s.Alike s') {func : String} (signs : s.Signs s' [func])
    (args : List String) :
    Concurs (lowerCall s env pos func args) (lowerCall s' env pos func args) := by
  unfold lowerCall
  cases found : s.signatures.lookup func with
  | none => exact .throw_left _ _
  | some params =>
    cases found' : s'.signatures.lookup func with
    | none => exact .throw_right _ _
    | some params' =>
      obtain rfl := signs func List.mem_cons_self params params' found found'
      refine .ite (.throw_bind _ _ _) (.same fun refs => .same fun cell => ?_)
      refine (Concurs.quote s s' pos).bind fun _ => ?_
      rw [Setting.position, Setting.position, alike]
      exact .refl _

theorem Setting.Signs.left {funcs others : List String} (signs : s.Signs s' (funcs ++ others)) :
    s.Signs s' funcs := fun func inside => signs func (List.mem_append_left _ inside)

theorem Setting.Signs.right {funcs others : List String} (signs : s.Signs s' (funcs ++ others)) :
    s.Signs s' others := fun func inside => signs func (List.mem_append_right _ inside)

mutual

theorem concurs_lowerCommand (alike : s.Alike s') {env : Env} : (cmd : TypedCommand) →
    s.Signs s' (callees cmd) → Concurs (lowerCommand s env cmd) (lowerCommand s' env cmd)
  | .decl pos name ty, _ => by
    rw [lowerCommand, lowerCommand]
    exact (concurs_declare _ _).bind fun _ => .refl _
  | .define pos name ty init, _ => by
    rw [lowerCommand, lowerCommand]
    refine .same fun cell => ?_
    exact (concurs_assignRegister alike _ _ _ init).bind fun _ => .refl _
  | .seq _ cmds, signs => by
    rw [lowerCommand, lowerCommand]
    exact (concurs_lowerSeq alike cmds signs).bind fun _ => .refl _
  | .branch pos cond onTrue onFalse, signs => by
    rw [lowerCommand, lowerCommand]
    refine (concurs_lowerCondition alike cond).bind fun _ => ?_
    refine (concurs_lowerCommand alike onTrue signs.left).bind fun _ => ?_
    exact (concurs_lowerElse alike onFalse signs.right).bind fun _ => .refl _
  | .loop pos header body, signs => by
    rw [lowerCommand, lowerCommand]
    refine .same fun frame => (concurs_lowerCommand alike body signs).bind fun _ => ?_
    refine (concurs_enableGroup alike frame.init).bind fun _ => ?_
    exact (concurs_enableGroup alike frame.incr).bind fun _ => .same fun trips => .refl _
  | .update pos target value, _ => by
    rw [lowerCommand, lowerCommand]
    exact (concurs_lowerUpdate alike target value).bind fun _ => .refl _
  | .reduce pos op target value, _ => by
    rw [lowerCommand, lowerCommand]
    exact (concurs_lowerReduce alike op target value).bind fun _ => .refl _
  | .eval pos e, signs => by
    cases e with
    | app ty func args =>
      simp only [lowerCommand]
      exact (concurs_lowerCall alike signs args).bind fun _ => .refl _
    | _ =>
      simp only [lowerCommand]
      exact (concurs_discard alike _).bind fun _ => .refl _
  | .advance _ array, _ => by
    rw [lowerCommand, lowerCommand]
    exact .refl _
  | .skip _, _ => by
    rw [lowerCommand, lowerCommand]
    exact .refl _

theorem concurs_lowerSeq (alike : s.Alike s') {env : Env} : (cmds : List TypedCommand) →
    s.Signs s' (calleesOfSeq cmds) → Concurs (lowerSeq s env cmds) (lowerSeq s' env cmds)
  | [], _ => by
    rw [lowerSeq, lowerSeq]
    exact .refl _
  | cmd :: cmds, signs => by
    rw [lowerSeq, lowerSeq]
    refine (concurs_lowerCommand alike cmd signs.left).bind fun _ => ?_
    exact (concurs_lowerSeq alike cmds signs.right).bind fun _ => .refl _

theorem concurs_lowerElse (alike : s.Alike s') {env : Env} : (cmd : Option TypedCommand) →
    s.Signs s' (calleesOfElse cmd) → Concurs (lowerElse s env cmd) (lowerElse s' env cmd)
  | none, _ => by
    rw [lowerElse, lowerElse]
    exact .refl _
  | some cmd, signs => by
    rw [lowerElse, lowerElse]
    exact (concurs_lowerCommand alike cmd signs).bind fun _ => .refl _

end

/-! ### Functions -/

theorem concur_lowerFunction (alike : s.Alike s') {f : Function Ty TypedExpr}
    (signs : s.Signs s' (callees f.body)) {c c' : Component} (made : Makes (lowerFunction s · f) c)
    (made' : Makes (lowerFunction s' · f) c') : c = c' := by
  have built : Concurs
      (declareAll s .reference {} f.params >>= fun env => lowerCommand s env f.body >>= fun lowered =>
        pure lowered.1)
      (declareAll s' .reference {} f.params >>= fun env => lowerCommand s' env f.body >>= fun lowered =>
        pure lowered.1) := by
    refine (concurs_declareAll _ f.params).bind fun env => ?_
    exact (concurs_lowerCommand alike f.body signs).bind fun _ => .refl _
  obtain ⟨quotes, control, w, ran, rfl⟩ := buildComponent_ok made
  obtain ⟨quotes', control', w', ran', rfl⟩ := buildComponent_ok made'
  obtain ⟨rfl, similar⟩ := built { quotes } { quotes := quotes' } control control' w w' rfl ran ran'
  rw [similar.cells, similar.groups]

end

/-- The names of the memories behind storage. -/
def storageNames (ds : List Decl) : List String := (ds.flatMap Banking.memoriesOfDecl).map (·.name)

end Lowering

/-- The name of a function with the names and the types of its parameters. -/
def Function.signature {τ ε : Type} (f : Function τ ε) : String × List (String × Ty) :=
  (f.name, f.params.map fun d => (d.name, d.ty))

namespace Lowering

/-- The memories behind a parameter have names that its name and its type determine. -/
theorem storageNames_congr {ds es : List Decl}
    (same : ds.map (fun d => (d.name, d.ty)) = es.map fun d => (d.name, d.ty)) :
    storageNames ds = storageNames es := by
  have alone (d : Decl) : (Banking.memoriesOfDecl d).map (·.name) =
      (Banking.memoriesOfDecl ⟨0, d.name, d.ty⟩).map (·.name) := by
    unfold Banking.memoriesOfDecl
    cases d.ty with
    | array elem dims => simp only [List.map_map, Function.comp_def]
    | _ => rfl
  have general (ds : List Decl) : storageNames ds = (ds.map fun d => (d.name, d.ty)).flatMap
      fun entry => (Banking.memoriesOfDecl ⟨0, entry.1, entry.2⟩).map (·.name) := by
    rw [storageNames, List.map_flatMap, List.flatMap_map]
    exact List.flatMap_congr fun d _ => alone d
  rw [general, general, same]

/-! ### Programs -/

theorem checkFunctions_of_check {p : SourceProgram} {typed : TypedProgram}
    (checked : p.check.result = .ok typed) :
    ∃ funcs, (Typing.checkFunctions [] p.defs).result = .ok (typed.defs, funcs) := by
  simp only [Program.check, Outcome.result_bind, Outcome.result_lift, Outcome.result_tell,
    Outcome.result_pure, bind_ok_iff, Except.ok.injEq] at checked
  obtain ⟨⟨defs, funcs⟩, functions, _, _, _, _, _, _, rfl⟩ := checked
  exact ⟨funcs, functions⟩

/-- Where keys differ, a key finds one entry. -/
theorem filter_of_nodup {α : Type} {key : α → String} {xs : List α} {x : α}
    (nodup : (xs.map key).Nodup) (member : x ∈ xs) :
    xs.filter (fun y => key y = key x) = [x] := by
  induction xs with
  | nil => cases member
  | cons y xs ih =>
    obtain ⟨fresh, nodup⟩ := List.nodup_cons.mp nodup
    rcases List.mem_cons.mp member with rfl | later
    · have none : xs.filter (fun y => key y = key x) = [] := by
        refine List.filter_eq_nil_iff.mpr fun y inside same => fresh ?_
        rw [← of_decide_eq_true same]
        exact List.mem_map_of_mem inside
      rw [List.filter_cons_of_pos (by simp), none]
    · have different : key y ≠ key x := fun same => fresh (same ▸ List.mem_map_of_mem later)
      rw [List.filter_cons_of_neg (by simpa using different), ih nodup later]

/-- What a compilation makes of a function that comes after the given ones. -/
structure Generates (before : List (Function (Option Ty) Expr)) (f : Function (Option Ty) Expr)
    (s : Setting) (typed banked : Function Ty TypedExpr) (c : Component) : Prop where
  checked : ∃ known, Typing.checkFunction known f = .ok typed
  split : (Banking.bankFunction s.statements typed).result = .ok banked
  lowered : Makes (lowerFunction s · banked) c
  signed : ∀ func ∈ callees banked.body, ∀ params, s.signatures.lookup func = some params →
    ∃ g ∈ before, g.name = func ∧ params = storageNames g.params

section

variable {p : SourceProgram} {typed : TypedProgram} {statements : Statements} {banked : BankedProgram}
  {before after : List (Function (Option Ty) Expr)} {f : Function (Option Ty) Expr}

/-- The memory parameters of a function that is called are those of an earlier function. -/
theorem signature_of_earlier (checked : p.check.result = .ok typed)
    (split : (typed.toBanks statements).result = .ok banked)
    (defs : p.defs = before ++ f :: after) {t f' : Function Ty TypedExpr}
    (found : typed.defs[before.length]? = some t)
    (function : (Banking.bankFunction statements t).result = .ok f') {func : String}
    (called : func ∈ callees f'.body) {params : List String}
    (signature : (signaturesOf banked.program.defs).lookup func = some params) :
    ∃ g ∈ before, g.name = func ∧ params = storageNames g.params := by
  obtain ⟨_, functions, _⟩ := Program.toBanks_ok split
  obtain ⟨_, _, checkedDefs, _, _⟩ := Typing.checkedProgram_of_check checked
  have known := checkedFunction_at checkedDefs found
  rw [List.append_nil] at known
  obtain ⟨_, _, body, _, splitBody, rfl⟩ := Banking.bankFunction_ok function
  obtain ⟨_, _, _, checkedBody⟩ := known.body
  have seen := seen_component (.some splitBody) (.some checkedBody)
  obtain ⟨declared, listed⟩ := seen func called
  obtain ⟨g, earlier, rfl, rfl⟩ := mem_of_signedBy listed
  -- The signature is that of the split function of the same name, which is the one that was seen.
  obtain ⟨b, member, named, rfl⟩ := mem_of_signaturesOf signature
  obtain ⟨g', among, splitFunction⟩ := mem_bankFunctions functions member
  obtain ⟨_, _, _, splitParams, _, rfl⟩ := Banking.bankFunction_ok splitFunction
  have same : g' = g :=
    List.inj_on_of_nodup_map (nodup_names checkedDefs).1 among (List.mem_of_mem_take earlier) named
  subst same
  obtain ⟨j, inside, at_⟩ := List.mem_take_iff_getElem.mp earlier
  obtain ⟨source, foundSource, annotates⟩ := getElem?_of_forall₂
    (Typing.annotates_of_check checked).defs.flip (List.getElem?_eq_some_iff.mpr ⟨_, at_⟩)
  have below : j < before.length := Nat.lt_of_lt_of_le inside (Nat.min_le_left _ _)
  rw [defs, List.getElem?_append_left below] at foundSource
  refine ⟨source, List.mem_of_getElem? foundSource, annotates.name.symm, ?_⟩
  rw [Banking.bankDecls_eq splitParams, ← annotates.params]
  rfl

theorem generates_of_compile {config : Config} {n : Netlist}
    (compiled : (p.compile config).result = .ok n) (defs : p.defs = before ++ f :: after) :
    ∃ s t f' c, s.emitPositions = config.emitPositions ∧ Generates before f s t f' c ∧
      n.components.filter (·.name = f.name) = [c] := by
  simp only [Program.compile, Outcome.result_bind, Outcome.result_tell, Outcome.result_pure,
    bind_ok_iff, Except.ok.injEq] at compiled
  obtain ⟨typed, checked, banked, split, netlist, lowered, _, _, rfl⟩ := compiled
  obtain ⟨functions, root, loweredFunctions, loweredRoot, components⟩ :=
    BankedProgram.toNetlist_ok lowered
  obtain ⟨_, splitFunctions, _⟩ := Program.toBanks_ok split
  obtain ⟨_, checkedFunctions⟩ := checkFunctions_of_check checked
  have here : p.defs[before.length]? = some f := by
    rw [defs, List.getElem?_append_right (Nat.le_refl _), Nat.sub_self]
    rfl
  obtain ⟨t, foundTyped, checkedFunction⟩ :=
    getElem?_of_forall₂ (Typing.forall₂_checkFunctions checkedFunctions) here
  obtain ⟨f', foundSplit, splitFunction⟩ :=
    getElem?_of_forall₂ (Banking.forall₂_bankFunctions splitFunctions) foundTyped
  obtain ⟨c, foundLowered, built⟩ :=
    getElem?_of_forall₂ loweredFunctions foundSplit
  have generates : Generates before f
      (banked.setting config (.ofProgram p)) t f' c :=
    { checked := checkedFunction
      split := splitFunction
      lowered := built
      signed := fun _ called _ signature =>
        signature_of_earlier checked split defs foundTyped splitFunction called signature }
  refine ⟨_, t, f', c, rfl, generates, ?_⟩
  have named : c.name = f.name := by
    obtain ⟨_, checkedFunction⟩ := checkedFunction
    obtain ⟨_, _, _, _, _, _, rfl⟩ := Typing.checkFunction_body checkedFunction
    obtain ⟨_, _, _, _, _, rfl⟩ := Banking.bankFunction_ok splitFunction
    obtain ⟨_, _, _, _, rfl⟩ := buildComponent_ok built
    rfl
  have member : c ∈ netlist.components := by
    rw [components]
    exact List.mem_append_left _ (List.mem_of_getElem? foundLowered)
  have distinct := nodup_components (Typing.checkedProgram_of_check checked) split lowered
  simpa only [named] using filter_of_nodup distinct member

end

end Lowering

/-- A function that two programs share has one component in the netlist of each, and it is the same
one, whatever else the programs declare, define and do. Only the parameters of the functions before it
matter. Both programs compile, so both define each function that it calls, and a function that only one
of them defines is not called. -/
theorem Program.compile_separate {config : Config} {p q : SourceProgram} {n m : Netlist}
    {before after before' after' : List (Function (Option Ty) Expr)} {f : Function (Option Ty) Expr}
    (compiled : (p.compile config).result = .ok n) (compiled' : (q.compile config).result = .ok m)
    (defs : p.defs = before ++ f :: after) (defs' : q.defs = before' ++ f :: after')
    (available : ∀ g ∈ before, ∀ g' ∈ before', g.name = g'.name → g.signature = g'.signature) :
    ∃ c, n.components.filter (·.name = f.name) = [c] ∧ m.components.filter (·.name = f.name) = [c] := by
  obtain ⟨s, t, b, c, alike, made, alone⟩ := Lowering.generates_of_compile compiled defs
  obtain ⟨s', t', b', c', alike', made', alone'⟩ := Lowering.generates_of_compile compiled' defs'
  obtain ⟨_, checked⟩ := made.checked
  obtain ⟨_, checked'⟩ := made'.checked
  obtain rfl := Typing.concur_checkFunction _ _ f t t' checked checked'
  obtain rfl := Banking.concur_bankFunction t b b' made.split made'.split
  have signs : s.Signs s' (Lowering.callees b.body) := by
    intro func called params params' signature signature'
    obtain ⟨g, earlier, named, rfl⟩ := made.signed func called params signature
    obtain ⟨g', earlier', named', rfl⟩ := made'.signed func called params' signature'
    have same := available g earlier g' earlier' (named.trans named'.symm)
    exact Lowering.storageNames_congr (Prod.mk.inj same).2
  obtain rfl := Lowering.concur_lowerFunction (alike.trans alike'.symm) signs made.lowered made'.lowered
  exact ⟨c, alone, alone'⟩

/-- Calls `g` and writes to the second of two banks:
`def f(m: ubit<8>[4 bank 2]) { g(m); m[3] := 1; }`. -/
def callsAndWrites : Function (Option Ty) Expr :=
  ⟨10, "f", [⟨11, "m", .array (.ubit 8) [⟨4, 2⟩]⟩],
    .seq 12 [.eval 13 (.app "g" [.var "m"]), .update 14 (.access "m" [.int 3]) (.int 1)]⟩

/-- A `g` that writes, and a body that calls `f`. -/
def amongWrites : SourceProgram where
  decls := [⟨0, "a", .array (.ubit 8) [⟨4, 2⟩]⟩]
  defs := [⟨1, "g", [⟨2, "k", .array (.ubit 8) [⟨4, 2⟩]⟩], .update 3 (.access "k" [.int 0]) (.int 7)⟩,
    callsAndWrites]
  body := some (.eval 20 (.app "f" [.var "a"]))

/-- A `g` that turns the banks, between other functions. -/
def amongTurns : SourceProgram where
  decls := []
  defs := [⟨0, "h", [], .skip 1⟩,
    ⟨2, "g", [⟨3, "k", .array (.ubit 8) [⟨4, 2⟩]⟩], .advance 4 "k"⟩, callsAndWrites, ⟨30, "i", [], .skip 31⟩]
  body := none

/-- The two functions `g` do different things and have the same parameters. -/
theorem Program.compile_separate_callsAndWrites : ∃ n m c,
    (amongWrites.compile {}).result = .ok n ∧ (amongTurns.compile {}).result = .ok m ∧
      n.components.map (·.name) = ["g", "f", "main"] ∧
      m.components.map (·.name) = ["h", "g", "f", "i", "main"] ∧
      n.components.filter (·.name = "f") = [c] ∧ m.components.filter (·.name = "f") = [c] := by
  have compiles : ∃ n, (amongWrites.compile {}).result = .ok n ∧
      n.components.map (·.name) = ["g", "f", "main"] := exists_ok_of_map (by decide +kernel)
  have compiles' : ∃ m, (amongTurns.compile {}).result = .ok m ∧
      m.components.map (·.name) = ["h", "g", "f", "i", "main"] := exists_ok_of_map (by decide +kernel)
  obtain ⟨n, compiled, listed⟩ := compiles
  obtain ⟨m, compiled', listed'⟩ := compiles'
  have defs : amongWrites.defs = amongWrites.defs.take 1 ++ callsAndWrites :: [] := rfl
  have defs' : amongTurns.defs =
    amongTurns.defs.take 2 ++ callsAndWrites :: amongTurns.defs.drop 3 := rfl
  obtain ⟨c, alone, alone'⟩ :=
    Program.compile_separate compiled compiled' defs defs' (by decide)
  exact ⟨n, m, c, compiled, compiled', listed, listed', alone, alone'⟩

end BankedLoops
