import BankedLoops.Proofs.Words
import BankedLoops.Proofs.Lowering.Renaming

/-!
# Expressions that can be lowered

`Lowerable` collects what the construction of an expression takes: names that lead to registers and
memories, one address for each dimension, and constants that fit the bits they are lowered to. Where
it holds, nothing but a counter of names can go wrong, so `lowerExpr` and what is built from it end with
a result as long as the counters have room.
-/

namespace BankedLoops

namespace Lowering

variable {α β : Type}

/-- A construction that ends with a result in every workspace where the counters have room. -/
def Builds (x : Build α) : Prop :=
  ∀ w f, x.run w = .error f → f = .fault .overflow

namespace Builds

theorem of_ok {x : Build α} (runs : ∀ w, ∃ r, x.run w = .ok r) : Builds x := by
  intro w f failed
  obtain ⟨r, ran⟩ := runs w
  rw [ran] at failed
  cases failed

theorem pure (a : α) : Builds (Pure.pure a : Build α) := of_ok fun w => ⟨(a, w), rfl⟩

theorem bind {x : Build α} {f : α → Build β} (first : Builds x) (rest : ∀ a, Builds (f a)) :
    Builds (x >>= f) := by
  intro w failure failed
  rw [StateT.run_bind, bind_error_iff] at failed
  rcases failed with failed | ⟨⟨a, v⟩, _, failed⟩
  · exact first w failure failed
  · exact rest a v failure failed

theorem get : Builds (MonadState.get : Build Workspace) := of_ok fun w => ⟨(w, w), rfl⟩

theorem modify (f : Workspace → Workspace) : Builds (modify f : Build Unit) :=
  of_ok fun w => ⟨((), f w), rfl⟩

theorem lift {x : Except Fault α} {a : α} (value : x = .ok a) : Builds (liftM x : Build α) :=
  of_ok fun w => ⟨(a, w), run_lift_ok_iff.mpr ⟨value, rfl⟩⟩

end Builds

theorem lift_eq_pure {x : Except Fault α} {a : α} (value : x = .ok a) :
    (liftM x : Build α) = Pure.pure a := by
  rw [value]
  rfl

/-! ### Cells and groups -/

/-- The one step that may fail: a counter goes up. -/
theorem builds_freshName (stem : String) : Builds (freshName stem) := by
  refine .bind .get fun w => .bind (fun v f failed => ?_) fun _ => .bind (.modify _) fun _ => .pure _
  simp only [Names.freshWord, Word.add] at failed
  split at failed
  · cases failed
  · cases failed
    rfl

theorem builds_uniqueName (base : String) : Builds (uniqueName base) := .of_ok fun _ => ⟨_, rfl⟩

theorem builds_addGroup (name : String) (latency : Option Nat) (assignments : List Assignment) :
    Builds (addGroup name latency assignments) := .of_ok fun _ => ⟨_, rfl⟩

theorem builds_addPrimitive (stem primitive : String) (params : List Nat) :
    Builds (addPrimitive stem primitive params) :=
  .bind (builds_freshName _) fun _ => .bind (.modify _) fun _ => .pure _

theorem builds_addRegister (base : String) (width : Nat) : Builds (addRegister base width) :=
  .of_ok fun _ => ⟨_, rfl⟩

theorem builds_quote (s : Setting) (pos : Nat) : Builds (quote s pos) := .modify _

theorem builds_enableGroup (s : Setting) (group : String) (pos : Nat) :
    Builds (enableGroup s group pos) := .bind (builds_quote _ _) fun _ => .pure _

theorem builds_constant {width value : Nat} (fits : value < Word.capacity width) :
    Builds (constant width value) := by
  unfold constant
  rw [if_neg (by omega)]
  refine .bind .get fun w => ?_
  split
  · exact .pure _
  · exact .bind (builds_addPrimitive _ _ _) fun _ => .bind (.modify _) fun _ => .pure _

theorem builds_instanceOf (func : String) : Builds (instanceOf func) := by
  unfold instanceOf
  refine .bind .get fun w => ?_
  split
  · exact .pure _
  · exact .bind (builds_freshName _) fun _ => .bind (.modify _) fun _ => .bind (.modify _) fun _ =>
      .pure _

theorem builds_adapt (w : Wiring) (pin : Pin) (width target : Nat) (signed : Bool) :
    Builds (adapt w pin width target signed) := by
  unfold adapt
  split
  · exact .pure _
  · exact .bind (builds_addPrimitive _ _ _) fun _ => .pure _

theorem builds_addOperator (op : BinOp) {width : Nat} (signed : Bool) {frac : Option Nat}
    (whole : ∀ f, frac = some f → f ≤ width) : Builds (addOperator op width signed frac) := by
  have primitive : ∃ operator, Operator.of op width signed frac = .ok operator := by
    unfold Operator.of
    split
    · next f stem _ =>
      have inside : f ≤ width := whole f rfl
      exact ⟨_, by rw [Word.sub, if_pos inside]; rfl⟩
    · exact ⟨_, rfl⟩
  obtain ⟨operator, found⟩ := primitive
  exact .bind (.lift found) fun _ => builds_addPrimitive _ _ _

/-! ### The judgement -/

/-- A literal that is lowered to `width` bits fits in them. -/
def Sized (width : Nat) (e : TypedExpr) : Prop :=
  ∀ n, e.ty = .static n → n < Word.capacity width

theorem Sized.of_ty {width : Nat} {e : TypedExpr} (computed : ∀ n, e.ty ≠ .static n) :
    Sized width e :=
  fun n same => absurd same (computed n)

theorem Sized.of_width {width : Nat} {e : TypedExpr} (wide : e.ty.width ≤ width) :
    Sized width e := by
  intro n same
  rw [same] at wide
  exact Nat.lt_of_lt_of_le (lt_capacity_bitsNeeded n) (Word.capacity_le wide)

/-- The name leads to a register, maybe that of a loop. -/
def Readable (low : Env) (name : String) : Prop :=
  (∃ cell width, low.get? name = some (.register cell width)) ∨
    ∃ cell slice width, low.get? name = some (.iterator cell slice width)

def IsMemory (low : Env) (name : String) : Prop :=
  ∃ m, low.get? name = some (.memory m)

mutual

inductive Lowerable (low : Env) : TypedExpr → Prop where
  | int (n : Nat) : Lowerable low (.int (.static n) n)
  | bool (ty : Ty) (b : Bool) : Lowerable low (.bool ty b)
  | var (ty : Ty) {name : String} (found : Readable low name) : Lowerable low (.var ty name)
  | folded (n : Nat) (op : BinOp) {lhs rhs : TypedExpr} (left : Lowerable low lhs)
      (right : Lowerable low rhs) : Lowerable low (.binop (.static n) op lhs rhs)
  | binop {ty : Ty} {op : BinOp} {lhs rhs : TypedExpr} (computed : ∀ n, ty ≠ .static n)
      (left : Lowerable low lhs) (right : Lowerable low rhs)
      (leftSized : Sized (operatorWidths op ty lhs.ty rhs.ty).1 lhs)
      (rightSized : Sized (operatorWidths op ty lhs.ty rhs.ty).1 rhs)
      (whole : op.isArithmetic = true → ∀ f, ty.frac? = some f →
        f ≤ (operatorWidths op ty lhs.ty rhs.ty).1) : Lowerable low (.binop ty op lhs rhs)
  | mem (ty : Ty) {mem : String} {addr : List TypedExpr} {m : Memory}
      (found : low.get? mem = some (.memory m)) (addressed : LowerableAll low addr m.sizes) :
      Lowerable low (.mem ty mem addr)
  | muxRead (ty : Ty) {first : String} {banks : List String} {select : TypedExpr}
      {addr : List TypedExpr} {m : Memory} (found : low.get? first = some (.memory m))
      (others : ∀ bank ∈ banks, IsMemory low bank) (selected : Lowerable low select)
      (sized : Sized (bitsNeeded banks.length) select)
      (addressed : LowerableAll low addr m.sizes) :
      Lowerable low (.muxRead ty (first :: banks) select addr)

/-- One address for each dimension. -/
inductive LowerableAll (low : Env) : List TypedExpr → List Nat → Prop where
  | nil : LowerableAll low [] []
  | cons {e : TypedExpr} {es : List TypedExpr} {size : Nat} {sizes : List Nat}
      (nonempty : 0 < size) (first : Lowerable low e) (sized : Sized (bitsNeeded (size - 1)) e)
      (rest : LowerableAll low es sizes) : LowerableAll low (e :: es) (size :: sizes)

end

theorem LowerableAll.length_eq {low : Env} {es : List TypedExpr} {sizes : List Nat}
    (all : LowerableAll low es sizes) : es.length = sizes.length := by
  induction es generalizing sizes with
  | nil =>
    cases all
    rfl
  | cons e es ih =>
    cases all with
    | cons _ _ _ rest => rw [List.length_cons, List.length_cons, ih rest]

/-! ### Reads -/

theorem builds_finishRead (s : Setting) (pos : Nat) (reg : String) (w : Wiring) :
    Builds (finishRead s pos reg w) :=
  .bind (builds_freshName _) fun _ => .bind (builds_addGroup _ _ _) fun _ =>
    .bind (builds_enableGroup _ _ _) fun _ => .pure _

theorem builds_lowerCounted {count : Nat} {lower : AddressLowering} {sizes : List Nat}
    (counted : count = sizes.length) {w : Wiring} (builds : Builds (lower sizes w)) :
    Builds (lowerCounted count lower sizes w) := by
  unfold lowerCounted
  rw [if_neg (by omega)]
  exact builds

theorem builds_readMemory (s : Setting) {low : Env} (pos : Nat) (reg : String) {mem : String}
    {m : Memory} (found : low.get? mem = some (.memory m)) {addresses : AddressLowering}
    (addressed : ∀ w, Builds (addresses m.sizes w)) :
    Builds (readMemory s low pos reg mem addresses) := by
  unfold readMemory
  rw [memoryOf_eq found, pure_bind]
  exact .bind (addressed _) fun _ => builds_finishRead _ _ _ _

theorem builds_captureBanks {low : Env} (reg : String) (select : Pin) {width : Nat}
    (addrs : List Pin) (w : Wiring) (k : Nat) {banks : List String}
    (memories : ∀ bank ∈ banks, IsMemory low bank)
    (fits : ∀ j, j < banks.length → k + j < Word.capacity width) :
    Builds (captureBanks low reg select width addrs w k banks) := by
  induction banks generalizing w k with
  | nil => exact .pure _
  | cons bank banks ih =>
    obtain ⟨m, found⟩ := memories bank List.mem_cons_self
    have number : k < Word.capacity width := fits 0 (Nat.zero_lt_succ _)
    have later : ∀ j, j < banks.length → k + 1 + j < Word.capacity width := by
      intro j inside
      have next := fits (j + 1) (Nat.succ_lt_succ inside)
      omega
    rw [captureBanks, memoryOf_eq found, pure_bind]
    exact .bind (builds_addPrimitive _ _ _) fun _ => .bind (builds_constant number) fun _ =>
      ih _ _ (fun other member => memories other (List.mem_cons_of_mem _ member)) later

theorem builds_readBanks (s : Setting) {low : Env} (pos : Nat) (reg : String) {first : String}
    {banks : List String} {m : Memory} (found : low.get? first = some (.memory m))
    (others : ∀ bank ∈ banks, IsMemory low bank)
    {select : Nat → Wiring → Build (Pin × Wiring)} {addresses : AddressLowering}
    (selected : ∀ w, Builds (select (bitsNeeded banks.length) w))
    (addressed : ∀ w, Builds (addresses m.sizes w)) :
    Builds (readBanks s low pos reg (first :: banks) select addresses) := by
  have last : Word.sub (first :: banks).length 1 = .ok banks.length := by
    rw [Word.sub_eq_ok_iff, List.length_cons]
    omega
  have memories : ∀ bank ∈ first :: banks, IsMemory low bank := by
    intro bank member
    rcases List.mem_cons.mp member with rfl | later
    · exact ⟨m, found⟩
    · exact others bank later
  have fits : ∀ j, j < (first :: banks).length →
      0 + j < Word.capacity (bitsNeeded banks.length) := by
    intro j inside
    have wide := lt_capacity_bitsNeeded banks.length
    rw [List.length_cons] at inside
    omega
  simp only [readBanks, memoryOf_eq found, lift_eq_pure last, pure_bind]
  exact .bind (selected _) fun _ => .bind (addressed _) fun _ =>
    .bind (builds_captureBanks _ _ _ _ _ memories fits) fun _ => builds_finishRead _ _ _ _

theorem builds_readName (s : Setting) {low : Env} (pos : Nat) (w : Wiring) {name : String}
    (found : Readable low name) : Builds (readName s low pos w name) := by
  unfold readName
  rcases found with ⟨cell, width, found⟩ | ⟨cell, slice, width, found⟩
  · rw [found]
    exact .pure _
  · rw [found]
    cases slice <;> exact .pure _

/-! ### Expressions -/

mutual

/-- A lowerable expression ends in a pin of the bits that it fits in. -/
theorem Lowerable.builds {low : Env} (s : Setting) (pos : Nat) :
    {e : TypedExpr} → Lowerable low e → {width : Nat} → Sized width e → (w : Wiring) →
    Builds (lowerExpr s low pos width w e)
  | _, .int n, width, sized, w => by
    rw [lowerExpr]
    exact .bind (builds_constant (sized n rfl)) fun _ => .pure _
  | _, .bool ty b, width, sized, w => by
    rw [lowerExpr]
    exact .bind (builds_constant (by cases b <;> decide)) fun _ => builds_adapt _ _ _ _ _
  | _, .var ty found, width, sized, w => by
    rw [lowerExpr]
    exact .bind (builds_readName s pos w found) fun _ => builds_adapt _ _ _ _ _
  | _, .folded n op left right, width, sized, w => by
    rw [lowerExpr]
    exact .bind (builds_constant (sized n rfl)) fun _ => .pure _
  | .binop ty op lhs rhs, .binop computed left right leftSized rightSized whole, width, sized, w => by
    rw [lowerExpr_computed computed]
    refine .bind (left.builds s pos leftSized _) fun _ =>
      .bind (right.builds s pos rightSized _) fun _ =>
      .bind (builds_addOperator _ _ ?_) fun _ => builds_adapt _ _ _ _ _
    intro f same
    split at same
    · next arithmetic => exact whole arithmetic f same
    · cases same
  | _, .mem ty found addressed, width, sized, w => by
    rw [lowerExpr]
    exact .bind (builds_addPrimitive _ _ _) fun _ =>
      .bind (builds_readMemory s pos _ found fun w =>
        builds_lowerCounted addressed.length_eq (addressed.builds s pos w)) fun _ =>
      builds_adapt _ _ _ _ _
  | _, .muxRead ty found others selected fits addressed, width, sized, w => by
    rw [lowerExpr]
    exact .bind (builds_addPrimitive _ _ _) fun _ =>
      .bind (builds_readBanks s pos _ found others (selected.builds s pos fits) fun w =>
        builds_lowerCounted addressed.length_eq (addressed.builds s pos w)) fun _ =>
      builds_adapt _ _ _ _ _

theorem LowerableAll.builds {low : Env} (s : Setting) (pos : Nat) :
    {es : List TypedExpr} → {sizes : List Nat} → LowerableAll low es sizes → (w : Wiring) →
    Builds (lowerAddrs s low pos w es sizes)
  | _, _, .nil, w => by
    rw [lowerAddrs]
    · exact .pure _
    · exact nofun
  | _, _, .cons nonempty first sized rest, w => by
    rw [lowerAddrs, lift_eq_pure (Word.sub_eq_ok_iff.mpr ⟨nonempty, rfl⟩), pure_bind]
    exact .bind (first.builds s pos sized w) fun _ => .bind (rest.builds s pos _) fun _ => .pure _

end

theorem LowerableAll.addresses {low : Env} (s : Setting) (pos : Nat) {es : List TypedExpr}
    {sizes : List Nat} (all : LowerableAll low es sizes) (w : Wiring) :
    Builds (addressing s low pos es sizes w) :=
  builds_lowerCounted all.length_eq (all.builds s pos w)

theorem Lowerable.builds_readMem {low : Env} (s : Setting) (pos : Nat) (reg : String) {ty : Ty}
    {mem : String} {addr : List TypedExpr} (lowerable : Lowerable low (.mem ty mem addr)) :
    Builds (readInto s low pos reg (.mem ty mem addr)) := by
  cases lowerable with
  | mem _ found addressed => exact builds_readMemory s pos reg found (addressed.addresses s pos)

theorem Lowerable.builds_readMux {low : Env} (s : Setting) (pos : Nat) (reg : String) {ty : Ty}
    {banks : List String} {select : TypedExpr} {addr : List TypedExpr}
    (lowerable : Lowerable low (.muxRead ty banks select addr)) :
    Builds (readInto s low pos reg (.muxRead ty banks select addr)) := by
  cases lowerable with
  | muxRead _ found others selected fits addressed =>
    rw [readInto]
    exact builds_readBanks s pos reg found others (selected.builds s pos fits)
      (addressed.addresses s pos)

theorem Lowerable.builds_discard {low : Env} (s : Setting) (pos : Nat) {e : TypedExpr}
    (lowerable : Lowerable low e) : Builds (discard s low pos e) := by
  fun_induction discard s low pos e with
  | case1 _ _ lhs rhs left right =>
    cases lowerable with
    | folded _ _ leftLowers rightLowers =>
      exact .bind (left leftLowers) fun _ => .bind (right rightLowers) fun _ => .pure _
    | binop _ leftLowers rightLowers =>
      exact .bind (left leftLowers) fun _ => .bind (right rightLowers) fun _ => .pure _
  | case2 => exact .bind (builds_addPrimitive _ _ _) fun _ => lowerable.builds_readMem s pos _
  | case3 => exact .bind (builds_addPrimitive _ _ _) fun _ => lowerable.builds_readMux s pos _
  | case4 => exact .pure _

/-! ### Statements -/

theorem builds_finishGroup (s : Setting) (pos : Nat) (group : String) (w : Wiring) :
    Builds (finishGroup s pos group w) :=
  .bind (builds_addGroup _ _ _) fun _ => .bind (builds_enableGroup _ _ _) fun _ => .pure _

theorem Lowerable.builds_assign {low : Env} (s : Setting) (pos : Nat) (reg : String) {width : Nat}
    (stem : String) {value : TypedExpr} (lowerable : Lowerable low value)
    (sized : Sized width value) : Builds (assignRegister s low pos reg width stem value) := by
  have latched : Builds (do
      let lowered ← lowerExpr s low pos width {} value
      let group ← freshName stem
      finishGroup s pos group (lowered.2.latch group reg lowered.1)) :=
    .bind (lowerable.builds s pos sized _) fun _ => .bind (builds_freshName _) fun _ =>
      builds_finishGroup _ _ _ _
  unfold assignRegister
  split
  · split
    · exact .bind (lowerable.builds_readMem s pos _) fun _ => .pure _
    · exact latched
  · split
    · exact .bind (lowerable.builds_readMux s pos _) fun _ => .pure _
    · exact latched
  · exact latched

theorem Lowerable.builds_condition {low : Env} (s : Setting) (pos : Nat) {cond : TypedExpr}
    (lowerable : Lowerable low cond) (sized : Sized 1 cond) :
    Builds (lowerCondition s low pos cond) := by
  refine .bind (lowerable.builds s pos sized _) ?_
  rintro ⟨pin, w⟩
  dsimp only
  split
  · exact .pure _
  · exact .bind (builds_freshName _) fun _ => .bind (builds_addGroup _ _ _) fun _ => .pure _

/-- A register or a memory element of `width` bits. -/
inductive LowerableTarget (low : Env) : TypedExpr → Nat → Prop where
  | register (ty : Ty) {name cell : String} {width : Nat}
      (found : low.get? name = some (.register cell width)) :
      LowerableTarget low (.var ty name) width
  | element (ty : Ty) {mem : String} {addr : List TypedExpr} {m : Memory}
      (found : low.get? mem = some (.memory m)) (addressed : LowerableAll low addr m.sizes) :
      LowerableTarget low (.mem ty mem addr) m.width

theorem LowerableTarget.builds_update {low : Env} (s : Setting) (pos : Nat)
    {target value : TypedExpr} {width : Nat} (place : LowerableTarget low target width)
    (lowerable : Lowerable low value) (sized : Sized width value) :
    Builds (lowerUpdate s low pos target value) := by
  cases place with
  | register _ found =>
    simp only [lowerUpdate, registerOf_eq found, pure_bind]
    exact lowerable.builds_assign s pos _ _ sized
  | element _ found addressed =>
    simp only [lowerUpdate, storeMemory, memoryOf_eq found, pure_bind]
    exact .bind (addressed.addresses s pos _) fun _ => .bind (lowerable.builds s pos sized _) fun _ =>
      .bind (builds_freshName _) fun _ => builds_finishGroup _ _ _ _

theorem LowerableTarget.builds_reduce {low : Env} (s : Setting) (pos : Nat) (op : BinOp)
    {target value : TypedExpr} {width : Nat} (place : LowerableTarget low target width)
    (whole : ∀ f, target.ty.frac? = some f → f ≤ width) (lowerable : Lowerable low value)
    (sized : Sized width value) : Builds (lowerReduce s low pos op target value) := by
  cases place with
  | register _ found =>
    simp only [lowerReduce, reduceRegister, registerOf_eq found, pure_bind]
    exact .bind (lowerable.builds s pos sized _) fun _ => .bind (builds_addOperator _ _ whole) fun _ =>
      .bind (builds_freshName _) fun _ => builds_finishGroup _ _ _ _
  | element _ found addressed =>
    simp only [lowerReduce, reduceMemory, memoryOf_eq found, pure_bind]
    exact .bind (addressed.addresses s pos _) fun _ => .bind (builds_addPrimitive _ _ _) fun _ =>
      .bind (builds_freshName _) fun _ => .bind (builds_addGroup _ _ _) fun _ =>
      .bind (lowerable.builds s pos sized _) fun _ => .bind (builds_addOperator _ _ whole) fun _ =>
      .bind (builds_freshName _) fun _ => .bind (builds_addGroup _ _ _) fun _ =>
      .bind (builds_enableGroup _ _ _) fun _ => .bind (builds_enableGroup _ _ _) fun _ => .pure _

/-- The hardware of a loop that runs at least once. -/
theorem builds_addLoop {h : LoopHeader} (runs : h.start < h.stop) : Builds (addLoop h) := by
  have last : Word.sub h.stop 1 = .ok (h.stop - 1) := Word.sub_eq_ok_iff.mpr ⟨by omega, rfl⟩
  have exit := lt_capacity_bitsNeeded h.stop
  have one : 1 < Word.capacity (bitsNeeded h.stop) :=
    (bitsNeeded_le_iff (bitsNeeded_pos _)).mp (bitsNeeded_mono (by omega))
  have init (reg : String) : Builds (addInit h.iter reg (bitsNeeded h.stop) h.start) :=
    .bind (builds_uniqueName _) fun _ => .bind (builds_constant (by omega)) fun _ =>
      .bind (builds_addGroup _ _ _) fun _ => .pure _
  have cond (reg : String) : Builds (addCond h.iter reg (bitsNeeded h.stop) h.stop) :=
    .bind (builds_uniqueName _) fun _ => .bind (builds_addPrimitive _ _ _) fun _ =>
      .bind (builds_constant exit) fun _ => .bind (builds_addGroup _ _ _) fun _ => .pure _
  have incr (reg : String) : Builds (addIncr h.iter reg (bitsNeeded h.stop)) :=
    .bind (builds_uniqueName _) fun _ => .bind (builds_addPrimitive _ _ _) fun _ =>
      .bind (builds_constant one) fun _ => .bind (builds_addGroup _ _ _) fun _ => .pure _
  simp only [addLoop, lift_eq_pure last, pure_bind]
  refine .bind (builds_addRegister _ _) fun reg => ?_
  split
  · rw [map_eq_pure_bind, bind_assoc]
    exact .bind (builds_addPrimitive _ _ _) fun _ => .bind (.pure _) fun _ => .bind (init reg) fun _ =>
      .bind (cond reg) fun _ => .bind (incr reg) fun _ => .pure _
  · exact .bind (init reg) fun _ => .bind (cond reg) fun _ => .bind (incr reg) fun _ => .pure _

end Lowering

end BankedLoops
