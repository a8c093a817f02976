import BankedLoops.Proofs.Lowering.Components

/-!
# How many names a component takes

Every cell and every group has a name, so the names that a component takes can be counted along its
body. A counter is never ahead of the names that were given out: no counter of a component overflows
whose names can be counted in a word.
-/

namespace BankedLoops

namespace Lowering

variable {α β : Type}

/-! ### Constructions that take few names -/

/-- How a construction ends that takes at most `n` names. It may fail, but not for want of a number. -/
inductive Supplied (n : Nat) (w : Workspace) : Except Failure (α × Workspace) → Prop where
  | ok {a : α} {v : Workspace} (counted : v.names.Counted)
      (few : v.names.used.length ≤ w.names.used.length + n) : Supplied n w (.ok (a, v))
  | error {f : Failure} (other : f ≠ .fault .overflow) : Supplied n w (.error f)

/-- A construction that takes at most `n` names, and ends well where that many can be counted. -/
def Spends (n : Nat) (x : Build α) : Prop :=
  ∀ w : Workspace, w.names.Counted → w.names.used.length + n < Word.capacity Word.counterBits →
    Supplied n w (x.run w)

theorem run_get_bind (f : Workspace → Build α) (w : Workspace) :
    (MonadState.get >>= f).run w = (f w).run w := rfl

namespace Spends

variable {n m : Nat}

theorem pure (a : α) : Spends 0 (Pure.pure a : Build α) :=
  fun _ counted _ => .ok counted (Nat.le_refl _)

theorem bind {x : Build α} {f : α → Build β} (first : Spends n x) (rest : ∀ a, Spends m (f a)) :
    Spends (n + m) (x >>= f) := by
  intro w counted room
  rw [StateT.run_bind]
  have early := first w counted (by omega)
  generalize x.run w = ran at early
  cases early with
  | error other => exact .error other
  | @ok a v counted few =>
    have late := rest a v counted (by omega)
    show Supplied _ _ ((f a).run v)
    generalize (f a).run v = ran at late
    cases late with
    | error other => exact .error other
    | ok counted more => exact .ok counted (by omega)

theorem mono {x : Build α} (spends : Spends n x) (fewer : n ≤ m) : Spends m x := by
  intro w counted room
  have ends := spends w counted (by omega)
  generalize x.run w = ran at ends
  cases ends with
  | error other => exact .error other
  | ok counted few => exact .ok counted (by omega)

/-- A construction that leaves the names alone. -/
theorem of_names {x : Build α} (runs : ∀ w, ∃ a v, x.run w = .ok (a, v) ∧ v.names = w.names) :
    Spends 0 x := by
  intro w counted _
  obtain ⟨a, v, ran, same⟩ := runs w
  rw [ran]
  exact .ok (same ▸ counted) (same ▸ Nat.le_refl _)

theorem modify {f : Workspace → Workspace} (same : ∀ w, (f w).names = w.names) :
    Spends 0 (modify f : Build Unit) :=
  .of_names fun w => ⟨(), f w, rfl, same w⟩

theorem throw (e : CompileError) : Spends 0 (MonadExcept.throw (Failure.error e) : Build α) :=
  fun _ _ _ => .error (by rintro ⟨⟩)

theorem throw_bind (e : CompileError) (f : α → Build β) :
    Spends 0 (MonadExcept.throw (Failure.error e) >>= f) :=
  fun _ _ _ => .error (by rintro ⟨⟩)

theorem get_bind {f : Workspace → Build β} (rest : ∀ w, Spends n (f w)) :
    Spends n (MonadState.get >>= f) :=
  fun w => rest w w

theorem lift {x : Except Fault α} (other : x ≠ .error .overflow) : Spends 0 (liftM x : Build α) := by
  intro w counted _
  cases x with
  | ok a => exact .ok counted (Nat.le_refl _)
  | error fault =>
    refine .error fun same => other ?_
    cases same
    rfl

end Spends

/-! ### Cells and groups -/

theorem sub_ne_overflow (a b : Nat) : Word.sub a b ≠ .error .overflow := by
  unfold Word.sub
  split <;> rintro ⟨⟩

/-- The number that a counter goes up to is at most the number of names. -/
theorem spends_freshName (stem : String) : Spends 1 (freshName stem) := by
  intro w counted room
  have given := w.names.gives_fresh stem
  have within : w.names.nextNumber stem + 1 ≤ w.names.used.length + 1 := by
    have counter : (w.names.fresh stem).2.counters.lookup stem = some (w.names.nextNumber stem + 1) :=
      List.lookup_cons_self
    exact (given.counted counted).le_length counter
  have counts : w.names.freshWord stem = .ok (w.names.fresh stem) :=
    Names.freshWord_ok.mpr ⟨by omega, rfl⟩
  have runs : (freshName stem).run w =
      .ok ((w.names.fresh stem).1, { w with names := (w.names.fresh stem).2 }) :=
    run_bind_ok_iff.mpr ⟨w, w, rfl, run_bind_ok_iff.mpr ⟨_, w, run_lift_ok_iff.mpr ⟨counts, rfl⟩, rfl⟩⟩
  rw [runs]
  exact .ok (given.counted counted) (Nat.le_of_eq (congrArg List.length given.used))

theorem spends_uniqueName (base : String) : Spends 1 (uniqueName base) := by
  intro w counted _
  have given := w.names.gives_unique base
  exact .ok (given.counted counted) (Nat.le_of_eq (congrArg List.length given.used))

theorem spends_addCell (c : Cell) : Spends 0 (addCell c) := .of_names fun _ => ⟨_, _, rfl, rfl⟩

theorem spends_addGroup (name : String) (latency : Option Nat) (assignments : List Assignment) :
    Spends 0 (addGroup name latency assignments) := .of_names fun _ => ⟨_, _, rfl, rfl⟩

theorem spends_addPrimitive (stem primitive : String) (params : List Nat) :
    Spends 1 (addPrimitive stem primitive params) :=
  .bind (spends_freshName _) fun _ => .bind (spends_addCell _) fun _ => .pure _

theorem spends_addRegister (base : String) (width : Nat) : Spends 1 (addRegister base width) :=
  .bind (spends_uniqueName _) fun _ => .bind (spends_addCell _) fun _ => .pure _

theorem spends_enableGroup (s : Setting) (group : String) (pos : Nat) :
    Spends 0 (enableGroup s group pos) := .of_names fun _ => ⟨_, _, rfl, rfl⟩

theorem spends_constant (width value : Nat) : Spends 1 (constant width value) := by
  unfold constant
  split
  · exact (Spends.throw_bind _ _).mono (Nat.zero_le _)
  · refine .get_bind fun w => ?_
    split
    · exact (Spends.pure _).mono (Nat.zero_le _)
    · exact .bind (spends_addPrimitive _ _ _) fun _ =>
        .bind (.modify (by exact fun _ => rfl)) fun _ => .pure _

theorem spends_instanceOf (func : String) : Spends 1 (instanceOf func) := by
  refine .get_bind fun w => ?_
  split
  · exact (Spends.pure _).mono (Nat.zero_le _)
  · exact .bind (spends_freshName _) fun _ => .bind (spends_addCell _) fun _ =>
      .bind (.modify (by exact fun _ => rfl)) fun _ => .pure _

theorem spends_memoryOf (env : Env) (name : String) : Spends 0 (memoryOf env name) := by
  unfold memoryOf
  split
  · exact .pure _
  · exact .throw _

theorem spends_registerOf (env : Env) (name : String) : Spends 0 (registerOf env name) := by
  unfold registerOf
  split
  · exact .pure _
  · exact .throw _

theorem spends_addOperator (op : BinOp) (width : Nat) (signed : Bool) (frac : Option Nat) :
    Spends 1 (addOperator op width signed frac) := by
  have subtracts : Operator.of op width signed frac ≠ .error .overflow := by
    unfold Operator.of
    split
    · intro failed
      rcases bind_error_iff.mp failed with failed | ⟨_, _, ⟨⟩⟩
      exact sub_ne_overflow _ _ failed
    · rintro ⟨⟩
  exact Spends.mono (.bind (.lift subtracts) fun _ => spends_addPrimitive _ _ _) (by omega)

theorem spends_adapt (W : Wiring) (pin : Pin) (width target : Nat) (signed : Bool) :
    Spends 1 (adapt W pin width target signed) := by
  unfold adapt
  split
  · exact (Spends.pure _).mono (Nat.zero_le _)
  · exact .bind (spends_addPrimitive _ _ _) fun _ => .pure _

/-! ### Expressions -/

mutual

/-- How many names an expression takes at most: one for each constant, operator and adapter, and for
each read a register and a group, with a comparison and a number for each bank to choose from. -/
def namesOf : TypedExpr → Nat
  | .int .. | .var .. => 1
  | .bool .. => 2
  | .binop _ _ lhs rhs => namesOf lhs + namesOf rhs + 2
  | .mem _ _ addr => namesOfAll addr + 3
  | .muxRead _ banks select addr => namesOf select + namesOfAll addr + 2 * banks.length + 3
  | .access .. | .app .. => 0

def namesOfAll : List TypedExpr → Nat
  | [] => 0
  | e :: es => namesOf e + namesOfAll es

end

theorem spends_lowerCounted {count n : Nat} {lower : AddressLowering}
    (spends : ∀ sizes W, Spends n (lower sizes W)) (sizes : List Nat) (W : Wiring) :
    Spends n (lowerCounted count lower sizes W) := by
  unfold lowerCounted
  split
  · exact (Spends.throw_bind _ _).mono (Nat.zero_le _)
  · exact spends sizes W

theorem spends_finishRead (s : Setting) (pos : Nat) (reg : String) (W : Wiring) :
    Spends 1 (finishRead s pos reg W) :=
  .bind (spends_freshName _) fun _ => .bind (spends_addGroup _ _ _) fun _ =>
    .bind (spends_enableGroup _ _ _) fun _ => .pure _

theorem spends_readMemory (s : Setting) (env : Env) (pos : Nat) (reg mem : String) {n : Nat}
    {addresses : AddressLowering} (spends : ∀ sizes W, Spends n (addresses sizes W)) :
    Spends (n + 1) (readMemory s env pos reg mem addresses) :=
  Spends.mono (.bind (spends_memoryOf _ _) fun _ => .bind (spends _ _) fun _ =>
    spends_finishRead _ _ _ _) (by omega)

theorem spends_captureBanks (env : Env) (reg : String) (select : Pin) (width : Nat)
    (addrs : List Pin) (W : Wiring) (k : Nat) (banks : List String) :
    Spends (2 * banks.length) (captureBanks env reg select width addrs W k banks) := by
  induction banks generalizing W k with
  | nil => exact .pure _
  | cons bank banks ih =>
    refine Spends.mono (.bind (spends_memoryOf _ _) fun _ => .bind (spends_addPrimitive _ _ _) fun _ =>
      .bind (spends_constant _ _) fun _ => ih _ _) ?_
    rw [List.length_cons]
    omega

theorem spends_readBanks (s : Setting) (env : Env) (pos : Nat) (reg : String) (banks : List String)
    {select : Nat → Wiring → Build (Pin × Wiring)} {addresses : AddressLowering} {n m : Nat}
    (selects : ∀ width W, Spends n (select width W))
    (spends : ∀ sizes W, Spends m (addresses sizes W)) :
    Spends (n + m + 2 * banks.length + 1) (readBanks s env pos reg banks select addresses) := by
  unfold readBanks
  split
  · exact (Spends.throw _).mono (Nat.zero_le _)
  · exact Spends.mono (.bind (spends_memoryOf _ _) fun _ => .bind (.lift (sub_ne_overflow _ _)) fun _ =>
      .bind (selects _ _) fun _ => .bind (spends _ _) fun _ =>
      .bind (spends_captureBanks _ _ _ _ _ _ _ _) fun _ => spends_finishRead _ _ _ _) (by omega)

theorem spends_readName (s : Setting) (env : Env) (pos : Nat) (W : Wiring) (name : String) :
    Spends 0 (readName s env pos W name) := by
  unfold readName
  split
  · exact .pure _
  · exact .pure _
  · exact .pure _
  · exact .throw _

mutual

theorem spends_lowerExpr (s : Setting) (env : Env) (pos width : Nat) (W : Wiring) :
    (e : TypedExpr) → Spends (namesOf e) (lowerExpr s env pos width W e)
  | .int _ _ => by
    unfold lowerExpr
    exact .bind (spends_constant _ _) fun _ => .pure _
  | .bool _ _ => by
    unfold lowerExpr
    exact .bind (spends_constant _ _) fun _ => spends_adapt _ _ _ _ _
  | .var _ _ => by
    unfold lowerExpr
    exact Spends.mono (.bind (spends_readName _ _ _ _ _) fun _ => spends_adapt _ _ _ _ _) (by rw [namesOf])
  | .binop ty op lhs rhs => by
    rw [namesOf]
    rcases ty.static_or with ⟨n, rfl⟩ | computed
    · rw [lowerExpr]
      exact Spends.mono (.bind (spends_constant _ _) fun _ => .pure _) (by omega)
    · rw [lowerExpr_computed computed]
      exact Spends.mono (.bind (spends_lowerExpr s env pos _ W lhs) fun _ =>
        .bind (spends_lowerExpr s env pos _ _ rhs) fun _ => .bind (spends_addOperator _ _ _ _) fun _ =>
        spends_adapt _ _ _ _ _) (by omega)
  | .mem ty mem addr => by
    rw [namesOf]
    unfold lowerExpr
    exact Spends.mono (.bind (spends_addPrimitive _ _ _) fun _ =>
      .bind (spends_readMemory _ _ _ _ _ (spends_lowerCounted
        fun sizes W => spends_lowerAddrs s env pos W addr sizes)) fun _ =>
      spends_adapt _ _ _ _ _) (by omega)
  | .muxRead ty banks select addr => by
    rw [namesOf]
    unfold lowerExpr
    exact Spends.mono (.bind (spends_addPrimitive _ _ _) fun _ =>
      .bind (spends_readBanks _ _ _ _ _ (fun width W => spends_lowerExpr s env pos width W select)
        (spends_lowerCounted fun sizes W => spends_lowerAddrs s env pos W addr sizes)) fun _ =>
      spends_adapt _ _ _ _ _) (by omega)
  | .access _ _ _ => by
    unfold lowerExpr
    exact .throw _
  | .app _ _ _ => by
    unfold lowerExpr
    exact .throw _

theorem spends_lowerAddrs (s : Setting) (env : Env) (pos : Nat) (W : Wiring) :
    (es : List TypedExpr) → (sizes : List Nat) → Spends (namesOfAll es) (lowerAddrs s env pos W es sizes)
  | [], _ => by
    unfold lowerAddrs
    exact (Spends.pure _).mono (Nat.zero_le _)
  | _ :: _, [] => by
    unfold lowerAddrs
    exact (Spends.pure _).mono (Nat.zero_le _)
  | e :: es, size :: sizes => by
    rw [namesOfAll]
    unfold lowerAddrs
    exact Spends.mono (.bind (.lift (sub_ne_overflow _ _)) fun _ =>
      .bind (spends_lowerExpr s env pos _ W e) fun _ =>
      .bind (spends_lowerAddrs s env pos _ es sizes) fun _ => .pure _) (by omega)

end

theorem spends_addressing (s : Setting) (env : Env) (pos : Nat) (addr : List TypedExpr)
    (sizes : List Nat) (W : Wiring) : Spends (namesOfAll addr) (addressing s env pos addr sizes W) :=
  spends_lowerCounted (fun _ _ => spends_lowerAddrs _ _ _ _ _ _) _ _

/-- A read into a register that is there spends two names less. -/
theorem spends_readInto (s : Setting) (env : Env) (pos : Nat) (reg : String) (e : TypedExpr) :
    Spends (namesOf e - 2) (readInto s env pos reg e) := by
  unfold readInto
  split
  · rw [namesOf]
    exact (spends_readMemory _ _ _ _ _ (spends_addressing s env pos _)).mono (by omega)
  · rw [namesOf]
    exact (spends_readBanks _ _ _ _ _ (fun _ _ => spends_lowerExpr _ _ _ _ _ _)
      (spends_addressing s env pos _)).mono (by omega)
  · exact (Spends.throw _).mono (Nat.zero_le _)

theorem spends_discard (s : Setting) (env : Env) (pos : Nat) (e : TypedExpr) :
    Spends (namesOf e) (discard s env pos e) := by
  fun_induction discard s env pos e with
  | case1 ty op lhs rhs left right =>
    rw [namesOf]
    exact Spends.mono (.bind left fun _ => .bind right fun _ => .pure _) (by omega)
  | case2 ty mem addr =>
    have spent : 2 < namesOf (.mem ty mem addr) := by
      rw [namesOf]
      omega
    exact Spends.mono (.bind (spends_addPrimitive _ _ _) fun _ => spends_readInto _ _ _ _ _) (by omega)
  | case3 ty banks select addr =>
    have spent : 2 < namesOf (.muxRead ty banks select addr) := by
      rw [namesOf]
      omega
    exact Spends.mono (.bind (spends_addPrimitive _ _ _) fun _ => spends_readInto _ _ _ _ _) (by omega)
  | case4 => exact (Spends.pure _).mono (Nat.zero_le _)

/-! ### Commands -/

theorem spends_memoryName (s : Setting) (d : Decl) (exposure : Exposure) :
    Spends 1 (memoryName s d exposure) := by
  unfold memoryName
  split
  · exact spends_uniqueName _
  · intro w counted _
    rw [run_get_bind]
    split
    · next names reserved =>
      have given := Names.reserve?_gives reserved
      exact .ok (given.counted counted) (Nat.le_of_eq (congrArg List.length given.used))
    · exact .error (by rintro ⟨⟩)

theorem addressWidths_ne_overflow (sizes : List Nat) : addressWidths sizes ≠ .error .overflow := by
  induction sizes with
  | nil => rintro ⟨⟩
  | cons size sizes ih =>
    unfold addressWidths at ih ⊢
    rw [List.mapM_cons]
    intro failed
    rcases bind_error_iff.mp failed with failed | ⟨_, _, failed⟩
    · rcases bind_error_iff.mp failed with failed | ⟨_, _, ⟨⟩⟩
      exact sub_ne_overflow _ _ failed
    · rcases bind_error_iff.mp failed with failed | ⟨_, _, ⟨⟩⟩
      exact ih failed

theorem spends_declare (s : Setting) (env : Env) (d : Decl) (exposure : Exposure) :
    Spends 1 (declare s env d exposure) := by
  unfold declare
  split
  · split
    · exact (Spends.throw_bind _ _).mono (Nat.zero_le _)
    · exact .bind (spends_memoryName _ _ _) fun _ =>
        .bind (.lift (addressWidths_ne_overflow _)) fun _ => .bind (spends_addCell _) fun _ => .pure _
  · exact .bind (spends_addRegister _ _) fun _ => .pure _

theorem spends_declareAll (s : Setting) (exposure : Exposure) (env : Env) (ds : List Decl) :
    Spends ds.length (declareAll s exposure env ds) := by
  induction ds generalizing env with
  | nil => exact .pure _
  | cons d ds ih =>
    refine Spends.mono (.bind (spends_declare s env d exposure) fun env => ih env) ?_
    rw [List.length_cons]
    omega

theorem spends_finishGroup (s : Setting) (pos : Nat) (group : String) (W : Wiring) :
    Spends 0 (finishGroup s pos group W) :=
  .bind (spends_addGroup _ _ _) fun _ => .bind (spends_enableGroup _ _ _) fun _ => .pure _

theorem spends_assignRegister (s : Setting) (env : Env) (pos : Nat) (reg : String) (width : Nat)
    (stem : String) (value : TypedExpr) :
    Spends (namesOf value + 1) (assignRegister s env pos reg width stem value) := by
  have computed : Spends (namesOf value + 1) (do
      let lowered ← lowerExpr s env pos width {} value
      let group ← freshName stem
      finishGroup s pos group (lowered.2.latch group reg lowered.1)) :=
    .bind (spends_lowerExpr _ _ _ _ _ _) fun _ => .bind (spends_freshName _) fun _ =>
      spends_finishGroup _ _ _ _
  have direct : Spends (namesOf value + 1) (do
      let controls ← readInto s env pos reg value
      pure (Control.sequence controls)) :=
    Spends.mono (.bind (spends_readInto _ _ _ _ _) fun _ => .pure _) (by omega)
  unfold assignRegister
  split
  · split
    · exact direct
    · exact computed
  · split
    · exact direct
    · exact computed
  · exact computed

theorem spends_storeMemory (s : Setting) (env : Env) (pos : Nat) (mem : String)
    (addr : List TypedExpr) (value : TypedExpr) :
    Spends (namesOfAll addr + namesOf value + 1) (storeMemory s env pos mem addr value) :=
  Spends.mono (.bind (spends_memoryOf _ _) fun _ => .bind (spends_addressing _ _ _ _ _ _) fun _ =>
    .bind (spends_lowerExpr _ _ _ _ _ _) fun _ => .bind (spends_freshName _) fun _ =>
    spends_finishGroup _ _ _ _) (by omega)

theorem spends_reduceRegister (s : Setting) (env : Env) (pos : Nat) (op : BinOp) (ty : Ty)
    (reg : String) (width : Nat) (value : TypedExpr) :
    Spends (namesOf value + 2) (reduceRegister s env pos op ty reg width value) :=
  .bind (spends_lowerExpr _ _ _ _ _ _) fun _ => .bind (spends_addOperator _ _ _ _) fun _ =>
    .bind (spends_freshName _) fun _ => spends_finishGroup _ _ _ _

theorem spends_reduceMemory (s : Setting) (env : Env) (pos : Nat) (op : BinOp) (ty : Ty)
    (mem : String) (addr : List TypedExpr) (value : TypedExpr) :
    Spends (namesOfAll addr + namesOf value + 4) (reduceMemory s env pos op ty mem addr value) :=
  Spends.mono (.bind (spends_memoryOf _ _) fun _ => .bind (spends_addressing _ _ _ _ _ _) fun _ =>
    .bind (spends_addPrimitive _ _ _) fun _ => .bind (spends_freshName _) fun _ =>
    .bind (spends_addGroup _ _ _) fun _ => .bind (spends_lowerExpr _ _ _ _ _ _) fun _ =>
    .bind (spends_addOperator _ _ _ _) fun _ => .bind (spends_freshName _) fun _ =>
    .bind (spends_addGroup _ _ _) fun _ => .bind (spends_enableGroup _ _ _) fun _ =>
    .bind (spends_enableGroup _ _ _) fun _ => .pure _) (by omega)

theorem spends_lowerUpdate (s : Setting) (env : Env) (pos : Nat) (target value : TypedExpr) :
    Spends (namesOf target + namesOf value) (lowerUpdate s env pos target value) := by
  unfold lowerUpdate
  split
  · rw [namesOf]
    exact Spends.mono (.bind (spends_registerOf _ _) fun _ => spends_assignRegister _ _ _ _ _ _ _)
      (by omega)
  · rw [namesOf]
    exact (spends_storeMemory _ _ _ _ _ _).mono (by omega)
  · exact (Spends.throw _).mono (Nat.zero_le _)

theorem spends_lowerReduce (s : Setting) (env : Env) (pos : Nat) (op : BinOp)
    (target value : TypedExpr) :
    Spends (namesOf target + namesOf value + 1) (lowerReduce s env pos op target value) := by
  unfold lowerReduce
  split
  · rw [namesOf]
    exact Spends.mono (.bind (spends_registerOf _ _) fun _ =>
      spends_reduceRegister _ _ _ _ _ _ _ _) (by omega)
  · rw [namesOf]
    exact (spends_reduceMemory _ _ _ _ _ _ _ _).mono (by omega)
  · exact (Spends.throw _).mono (Nat.zero_le _)

theorem spends_addLoop (h : LoopHeader) : Spends 10 (addLoop h) := by
  have init (reg : String) (width : Nat) : Spends 2 (addInit h.iter reg width h.start) :=
    .bind (spends_uniqueName _) fun _ => .bind (spends_constant _ _) fun _ =>
      .bind (spends_addGroup _ _ _) fun _ => .pure _
  have cond (reg : String) (width : Nat) : Spends 3 (addCond h.iter reg width h.stop) :=
    .bind (spends_uniqueName _) fun _ => .bind (spends_addPrimitive _ _ _) fun _ =>
      .bind (spends_constant _ _) fun _ => .bind (spends_addGroup _ _ _) fun _ => .pure _
  have incr (reg : String) (width : Nat) : Spends 3 (addIncr h.iter reg width) :=
    .bind (spends_uniqueName _) fun _ => .bind (spends_addPrimitive _ _ _) fun _ =>
      .bind (spends_constant _ _) fun _ => .bind (spends_addGroup _ _ _) fun _ => .pure _
  have groups (reg : String) (width : Nat) (slice : Option String) (narrow : Nat) : Spends 8 (do
      let init ← addInit h.iter reg width h.start
      let cond ← addCond h.iter reg width h.stop
      let incr ← addIncr h.iter reg width
      pure (LoopFrame.mk reg slice narrow init cond.1 cond.2 incr)) :=
    .bind (init _ _) fun _ => .bind (cond _ _) fun _ => .bind (incr _ _) fun _ => .pure _
  refine Spends.mono (n := 0 + (1 + 9)) (.bind (.lift (sub_ne_overflow _ _)) fun last =>
    .bind (spends_addRegister _ _) fun reg => ?_) (by omega)
  split
  · exact .bind (.bind (spends_addPrimitive _ _ _) fun _ => .pure _) fun _ => groups _ _ _ _
  · exact (groups _ _ _ _).mono (by omega)

theorem spends_bindArguments (env : Env) (params args : List String) :
    Spends 0 (bindArguments env params args) := by
  fun_induction bindArguments env params args with
  | case1 param params arg args ih => exact .bind (spends_memoryOf _ _) fun _ => .bind ih fun _ => .pure _
  | case2 => exact .pure _

theorem spends_lowerCall (s : Setting) (env : Env) (pos : Nat) (func : String) (args : List String) :
    Spends 1 (lowerCall s env pos func args) := by
  unfold lowerCall
  split
  · exact (Spends.throw _).mono (Nat.zero_le _)
  · split
    · exact (Spends.throw_bind _ _).mono (Nat.zero_le _)
    · exact Spends.mono (.bind (spends_bindArguments _ _ _) fun _ => .bind (spends_instanceOf _) fun _ =>
        .bind (.modify (by exact fun _ => rfl)) fun _ => .pure _) (by omega)

theorem spends_lowerCondition (s : Setting) (env : Env) (pos : Nat) (cond : TypedExpr) :
    Spends (namesOf cond + 1) (lowerCondition s env pos cond) := by
  refine .bind (spends_lowerExpr _ _ _ _ _ _) fun lowered => ?_
  dsimp only
  split
  · exact (Spends.pure _).mono (Nat.zero_le _)
  · exact .bind (spends_freshName _) fun _ => .bind (spends_addGroup _ _ _) fun _ => .pure _

mutual

/-- How many names a command takes at most, those of its expressions included. -/
def namesIn : TypedCommand → Nat
  | .decl .. => 1
  | .define _ _ _ init => namesOf init + 2
  | .seq _ cmds => namesInSeq cmds
  | .branch _ cond onTrue onFalse => namesOf cond + namesIn onTrue + namesInElse onFalse + 1
  | .loop _ _ body => namesIn body + 10
  | .update _ target value => namesOf target + namesOf value
  | .reduce _ _ target value => namesOf target + namesOf value + 1
  | .eval _ e => namesOf e + 1
  | .advance .. | .skip .. => 0

def namesInSeq : List TypedCommand → Nat
  | [] => 0
  | cmd :: cmds => namesIn cmd + namesInSeq cmds

def namesInElse : Option TypedCommand → Nat
  | none => 0
  | some cmd => namesIn cmd

end

mutual

theorem spends_lowerCommand (s : Setting) (env : Env) :
    (cmd : TypedCommand) → Spends (namesIn cmd) (lowerCommand s env cmd)
  | .decl .. => by
    rw [lowerCommand]
    exact .bind (spends_declare _ _ _ _) fun _ => .pure _
  | .define .. => by
    rw [lowerCommand, namesIn]
    exact Spends.mono (.bind (spends_addRegister _ _) fun _ =>
      .bind (spends_assignRegister _ _ _ _ _ _ _) fun _ => .pure _) (by omega)
  | .seq _ cmds => by
    rw [lowerCommand, namesIn]
    exact .bind (spends_lowerSeq s env cmds) fun _ => .pure _
  | .branch _ _ onTrue onFalse => by
    rw [lowerCommand, namesIn]
    exact Spends.mono (.bind (spends_lowerCondition _ _ _ _) fun _ =>
      .bind (spends_lowerCommand s env.enter onTrue) fun _ =>
      .bind (spends_lowerElse s env.enter onFalse) fun _ => .pure _) (by omega)
  | .loop _ header body => by
    rw [lowerCommand, namesIn]
    exact Spends.mono (.bind (spends_addLoop _) fun frame => .bind (spends_lowerCommand s _ body) fun _ =>
      .bind (spends_enableGroup _ _ _) fun _ => .bind (spends_enableGroup _ _ _) fun _ =>
      .bind (.lift (sub_ne_overflow _ _)) fun _ => .pure _) (by omega)
  | .update .. => by
    rw [lowerCommand, namesIn]
    exact Spends.mono (.bind (spends_lowerUpdate _ _ _ _ _) fun _ => .pure _) (by omega)
  | .reduce .. => by
    rw [lowerCommand, namesIn]
    exact Spends.mono (.bind (spends_lowerReduce _ _ _ _ _ _) fun _ => .pure _) (by omega)
  | .eval _ e => by
    rw [namesIn]
    by_cases call : ∃ ty func args, e = .app ty func args
    · obtain ⟨_, func, args, rfl⟩ := call
      rw [lowerCommand]
      exact Spends.mono (.bind (spends_lowerCall _ _ _ _ _) fun _ => .pure _) (by omega)
    · rw [lowerCommand]
      · exact Spends.mono (.bind (spends_discard _ _ _ _) fun _ => .pure _) (by omega)
      · exact fun ty func args same => call ⟨ty, func, args, same⟩
  | .advance .. => by
    rw [lowerCommand]
    exact .throw _
  | .skip .. => by
    rw [lowerCommand]
    exact .pure _

theorem spends_lowerSeq (s : Setting) (env : Env) :
    (cmds : List TypedCommand) → Spends (namesInSeq cmds) (lowerSeq s env cmds)
  | [] => by
    rw [lowerSeq]
    exact .pure _
  | cmd :: cmds => by
    rw [lowerSeq, namesInSeq]
    exact .bind (spends_lowerCommand s env cmd) fun next =>
      .bind (spends_lowerSeq s next.2 cmds) fun _ => .pure _

theorem spends_lowerElse (s : Setting) (env : Env) :
    (cmd : Option TypedCommand) → Spends (namesInElse cmd) (lowerElse s env cmd)
  | none => by
    rw [lowerElse]
    exact .pure _
  | some cmd => by
    rw [lowerElse]
    exact .bind (spends_lowerCommand s env cmd) fun _ => .pure _

end

/-! ### Components -/

/-- How many names a component takes at most, which has an instance of each function given. -/
def componentNames (ds : List Decl) (instances : List String) (body : Option TypedCommand) : Nat :=
  ds.length + instances.length + namesInElse body

theorem spends_instantiateAll (funcs : List String) : Spends funcs.length (instantiateAll funcs) := by
  induction funcs with
  | nil => exact .pure _
  | cons func funcs ih =>
    refine Spends.mono (.bind (spends_instanceOf func) fun _ => ih) ?_
    rw [List.length_cons]
    omega

theorem spends_assemble (s : Setting) (exposure : Exposure) (ds : List Decl) (instances : List String)
    (body : Option TypedCommand) :
    Spends (componentNames ds instances body) (assemble s exposure ds instances body) :=
  Spends.mono (.bind (spends_declareAll _ _ _ _) fun _ => .bind (spends_instantiateAll _) fun _ =>
    spends_lowerElse _ _ _) (by rw [componentNames]; omega)

/-- Whether the names of a component can be counted. -/
def FewNames (ds : List Decl) (instances : List String) (body : Option TypedCommand) : Prop :=
  componentNames ds instances body < Word.capacity Word.counterBits

instance (ds : List Decl) (instances : List String) (body : Option TypedCommand) :
    Decidable (FewNames ds instances body) :=
  inferInstanceAs (Decidable (_ < _))

theorem FewNames.supplied {ds : List Decl} {instances : List String} {body : Option TypedCommand}
    (few : FewNames ds instances body) (s : Setting) (exposure : Exposure) (quotes : Statements) :
    Supplied (componentNames ds instances body) { quotes }
      ((assemble s exposure ds instances body).run { quotes }) := by
  refine spends_assemble s exposure ds instances body { quotes } nofun ?_
  rwa [List.length_nil, Nat.zero_add]

/-- No counter overflows. -/
abbrev Counts {α : Type} (x : Except Failure α) : Prop := Fails (· ≠ .fault .overflow) x

theorem FewNames.counts {ds : List Decl} {instances : List String} {body : Option TypedCommand}
    (few : FewNames ds instances body) (s : Setting) (exposure : Exposure) (name : String)
    (quotes : Statements) :
    Counts (buildComponent name quotes (assemble s exposure ds instances body)).result := by
  refine fails_buildComponent ?_
  have ends := few.supplied s exposure quotes
  generalize (assemble s exposure ds instances body).run { quotes } = ran at ends
  cases ends with
  | ok _ _ => exact .pure _
  | error other =>
    intro f failed
    cases failed
    exact other

end Lowering

/-- Whether the names of every component can be counted. -/
structure Program.FewNames (p : TypedProgram) : Prop where
  functions : ∀ f ∈ p.defs, Lowering.FewNames f.params [] (some f.body)
  root : Lowering.FewNames p.decls (p.defs.map (·.name)) p.body

instance (p : TypedProgram) : Decidable p.FewNames :=
  decidable_of_iff ((∀ f ∈ p.defs, Lowering.FewNames f.params [] (some f.body)) ∧
      Lowering.FewNames p.decls (p.defs.map (·.name)) p.body)
    ⟨fun ⟨functions, root⟩ => ⟨functions, root⟩, fun few => ⟨few.functions, few.root⟩⟩

open Lowering

theorem Lowering.counts_lowerFunctions (s : Setting) (quotes : Statements)
    {fs : List (Function Ty TypedExpr)} (few : ∀ f ∈ fs, FewNames f.params [] (some f.body)) :
    Counts (lowerFunctions s quotes fs).result := by
  induction fs generalizing quotes with
  | nil => exact .pure _
  | cons f fs ih =>
    obtain ⟨first, others⟩ := List.forall_mem_cons.mp few
    simp only [lowerFunctions, Outcome.result_bind, lowerFunction_eq]
    exact .bind (first.counts _ _ _ _) fun made => .bind (ih made.2 others) fun _ => .pure _

/-- Lowering overflows for no program over memories whose names can be counted. -/
theorem BankedProgram.counts_toNetlist {p : BankedProgram} (few : p.program.FewNames)
    (config : Config) (statements : Statements) : Counts (p.toNetlist config statements).result := by
  simp only [toNetlist]
  split
  · simp only [Outcome.result_bind, Outcome.result_lift]
    exact .refuse_bind (by rintro ⟨⟩) _
  · simp only [Outcome.result_bind]
    refine .bind (counts_lowerFunctions _ _ few.functions) fun functions => ?_
    rw [lowerRoot_eq]
    refine .bind (few.root.counts _ _ _ _) fun root => ?_
    split
    · simp only [Outcome.result_bind, Outcome.result_lift]
      exact .refuse_bind (by rintro ⟨⟩) _
    · exact .bind (.pure ()) fun _ => .pure _

/-- Whether the components of a program have names that can be counted, once it is split into banks. -/
def Program.Nameable (statements : Statements) (p : TypedProgram) : Prop :=
  ∀ banked, (p.toBanks statements).result = .ok banked → banked.program.FewNames

theorem Program.nameable_of_computed {statements : Statements} {p : TypedProgram}
    (computed : (p.toBanks statements).result.toOption.map (decide ·.program.FewNames) = some true) :
    p.Nameable statements := by
  intro banked split
  obtain ⟨banked', split', few⟩ := exists_ok_of_map computed
  cases split.symm.trans split'
  exact of_decide_eq_true few

end BankedLoops
