import BankedLoops.Proofs.Banking.Loads
import BankedLoops.Proofs.Banking.OverBanks
import BankedLoops.Proofs.Lowering.Netlists

/-!
# Groups that read and groups that write

A component has a group of two cycles for each memory read in its body and a group that ends with a
memory's `write_done` for each update or reduction of an array element. How many memory reads a body
takes was counted where its arrays were split.
-/

namespace BankedLoops

/-- Whether the group reads a memory: only a read takes two cycles. -/
def Group.isRead (g : Group) : Bool := g.latency == some 2

/-- Whether the atom tells that a memory has been written. -/
def Atom.isWritten : Atom → Bool
  | .pin (.cell _ port) => port == "write_done"
  | _ => false

/-- Whether the group is done when a memory has been written. -/
def Group.isWrite (g : Group) : Bool :=
  g.assignments.any fun a => a.dst == .done g.name && a.src.isWritten

namespace Lowering

/-! ### Tallies -/

/-- Between the two workspaces `reads` groups that read and `writes` groups that write were closed. -/
structure Tally (reads writes : Nat) (w w' : Workspace) : Prop where
  reads : w'.groups.countP (·.isRead) = w.groups.countP (·.isRead) + reads
  writes : w'.groups.countP (·.isWrite) = w.groups.countP (·.isWrite) + writes

/-- A construction that closes `reads` groups that read and `writes` groups that write, and has a
result for which `P` holds. -/
def Tallies {α : Type} (reads writes : Nat) (x : Build α) (P : α → Prop) : Prop :=
  ∀ w a w', x.run w = .ok (a, w') → Tally reads writes w w' ∧ P a

namespace Tallies

variable {α β : Type} {r r' k k' : Nat} {P : α → Prop} {Q : β → Prop}

theorem pure {a : α} (holds : P a) : Tallies 0 0 (Pure.pure a) P := by
  intro w b w' ran
  obtain ⟨rfl, rfl⟩ := run_pure_ok_iff.mp ran
  exact ⟨⟨rfl, rfl⟩, holds⟩

theorem bind {x : Build α} {f : α → Build β} (first : Tallies r k x P)
    (rest : ∀ a, P a → Tallies r' k' (f a) Q) : Tallies (r + r') (k + k') (x >>= f) Q := by
  intro w b w'' ran
  obtain ⟨a, w', ranFirst, ranRest⟩ := run_bind_ok_iff.mp ran
  obtain ⟨early, holds⟩ := first w a w' ranFirst
  obtain ⟨late, result⟩ := rest a holds w' b w'' ranRest
  refine ⟨⟨?_, ?_⟩, result⟩
  · rw [late.reads, early.reads, Nat.add_assoc]
  · rw [late.writes, early.writes, Nat.add_assoc]

/-- A first step that only reads. -/
theorem reading {x : Build α} {f : α → Build β} (first : Tallies r 0 x P)
    (rest : ∀ a, P a → Tallies r' k (f a) Q) : Tallies (r + r') k (x >>= f) Q := by
  have both := first.bind rest
  rwa [Nat.zero_add] at both

/-- A first step that only reads, behind which nothing is read. -/
theorem writing {x : Build α} {f : α → Build β} (first : Tallies r 0 x P)
    (rest : ∀ a, P a → Tallies 0 k (f a) Q) : Tallies r k (x >>= f) Q :=
  first.reading rest

/-- A first step that closes neither kind of group. -/
theorem silent {x : Build α} {f : α → Build β} (first : Tallies 0 0 x P)
    (rest : ∀ a, P a → Tallies r k (f a) Q) : Tallies r k (x >>= f) Q := by
  have both := first.reading rest
  rwa [Nat.zero_add] at both

/-- A first step behind which neither kind of group is closed. -/
theorem closing {x : Build α} {f : α → Build β} (first : Tallies r k x P)
    (rest : ∀ a, P a → Tallies 0 0 (f a) Q) : Tallies r k (x >>= f) Q :=
  first.bind rest

theorem congr {x : Build α} (tallies : Tallies r k x P) (reads : r = r') (writes : k = k') :
    Tallies r' k' x P :=
  reads ▸ writes ▸ tallies

theorem lift (x : Except Fault α) : Tallies 0 0 (liftM x) fun _ => True := by
  intro w a w' ran
  obtain ⟨_, rfl⟩ := run_lift_ok_iff.mp ran
  exact ⟨⟨rfl, rfl⟩, trivial⟩

theorem throwInternal (fault : InternalFault) : Tallies r k (throwInternal fault : Build α) P :=
  fun _ _ _ ran => nomatch ran

theorem throw_bind (fault : InternalFault) (f : α → Build β) :
    Tallies r k (Lowering.throwInternal fault >>= f) Q :=
  fun _ _ _ ran => nomatch ran

/-- A construction that leaves the groups alone. -/
theorem of_groups {x : Build α} (same : ∀ w a w', x.run w = .ok (a, w') → w'.groups = w.groups) :
    Tallies 0 0 x fun _ => True := by
  intro w a w' ran
  have groups := same w a w' ran
  exact ⟨⟨congrArg _ groups, congrArg _ groups⟩, trivial⟩

theorem countP_concat {γ : Type} (p : γ → Bool) (gs : List γ) (g : γ) :
    (gs ++ [g]).countP p = gs.countP p + (p g).toNat := by
  rw [List.countP_append, List.countP_singleton]
  cases p g <;> rfl

/-- Closing a group. -/
theorem addGroup {name : String} {latency : Option Nat} {assignments : List Assignment}
    (reads : (Group.mk name latency assignments).isRead.toNat = r)
    (writes : (Group.mk name latency assignments).isWrite.toNat = k) :
    Tallies r k (addGroup name latency assignments) fun _ => True := by
  rintro w _ _ ⟨⟩
  refine ⟨⟨?_, ?_⟩, trivial⟩
  · rw [← reads]
    exact countP_concat ..
  · rw [← writes]
    exact countP_concat ..

end Tallies

/-! ### Wires -/

/-- Only pins of cells are driven. -/
def Wiring.Plain (W : Wiring) : Prop := ∀ a ∈ W.assigns, ∃ cell pin, a.dst = .cell cell pin

namespace Wiring

theorem mem_assign {W : Wiring} {dst : Pin} {src : Atom} {guard : Guard} {a : Assignment} :
    a ∈ (W.assign dst src guard).assigns ↔ a ∈ W.assigns ∨ a = ⟨dst, src, guard⟩ := by
  unfold assign
  dsimp only
  split
  · next present =>
    have inside : ⟨dst, src, guard⟩ ∈ W.assigns := by simpa using present
    exact ⟨.inl, fun either => either.elim id fun same => same ▸ inside⟩
  · simp

theorem plain_empty : Plain {} := nofun

namespace Plain

variable {W : Wiring}

theorem assign (plain : W.Plain) (cell pin : String) (src : Atom) (guard : Guard) :
    (W.assign (.cell cell pin) src guard).Plain := by
  intro a member
  rcases mem_assign.mp member with old | rfl
  · exact plain a old
  · exact ⟨cell, pin, rfl⟩

theorem connect (plain : W.Plain) (cell pin : String) (src : Pin) :
    (W.connect (.cell cell pin) src).Plain :=
  plain.assign cell pin (.pin src) .always

theorem address (plain : W.Plain) (mem : String) (addrs : List Pin) (guard : Guard) :
    (W.address mem addrs guard).Plain := by
  unfold Wiring.address
  induction addrs.zipIdx generalizing W with
  | nil => exact plain
  | cons entry entries ih => exact ih (plain.assign _ _ _ _)

theorem capture (plain : W.Plain) (mem : String) (addrs : List Pin) (select : Guard) (reg : String) :
    (W.capture mem addrs select reg).Plain :=
  (((plain.address _ _ _).assign _ _ _ _).assign _ _ _ _).assign _ _ _ _

theorem after (plain : W.Plain) (controls : List Control) : (W.after controls).Plain := plain

/-- A group without an end of its own writes nothing. -/
theorem isWrite (plain : W.Plain) (name : String) (latency : Option Nat) :
    (Group.mk name latency W.assigns).isWrite = false := by
  refine Bool.eq_false_iff.mpr fun some => ?_
  obtain ⟨a, member, ends⟩ := List.any_eq_true.mp some
  obtain ⟨cell, pin, same⟩ := plain a member
  rw [same] at ends
  cases ends

/-- A group that ends with a register's `done` writes nothing. -/
theorem isWrite_done (plain : W.Plain) (name reg : String) (latency : Option Nat) :
    (Group.mk name latency (W.connect (.done name) (.cell reg "done")).assigns).isWrite = false := by
  refine Bool.eq_false_iff.mpr fun some => ?_
  obtain ⟨a, member, ends⟩ := List.any_eq_true.mp some
  rcases mem_assign.mp member with old | rfl
  · obtain ⟨cell, pin, same⟩ := plain a old
    rw [same] at ends
    cases ends
  · simp [Atom.isWritten] at ends

end Plain

theorem isWrite_connect (W : Wiring) (name mem : String) (latency : Option Nat) :
    (Group.mk name latency (W.connect (.done name) (.cell mem "write_done")).assigns).isWrite = true :=
  List.any_eq_true.mpr ⟨_, mem_assign.mpr (.inr rfl), by simp [Atom.isWritten]⟩

end Wiring

/-! ### Cells -/

theorem tallies_freshName (stem : String) : Tallies 0 0 (freshName stem) fun _ => True :=
  .of_groups fun _ _ _ ran => by
    obtain ⟨_, rfl⟩ := freshName_ok ran
    rfl

theorem tallies_uniqueName (base : String) : Tallies 0 0 (uniqueName base) fun _ => True :=
  .of_groups fun _ _ _ ran => by
    cases ran
    rfl

theorem tallies_quote (s : Setting) (pos : Nat) : Tallies 0 0 (quote s pos) fun _ => True :=
  .of_groups fun _ _ _ ran => by
    cases ran
    rfl

theorem tallies_enableGroup (s : Setting) (group : String) (pos : Nat) :
    Tallies 0 0 (enableGroup s group pos) fun _ => True :=
  .silent (tallies_quote s pos) fun _ _ => .pure trivial

theorem tallies_addCell (c : Cell) : Tallies 0 0 (addCell c) fun _ => True :=
  .of_groups fun _ _ _ ran => by
    cases ran
    rfl

theorem tallies_addPrimitive (stem primitive : String) (params : List Nat) :
    Tallies 0 0 (addPrimitive stem primitive params) fun _ => True :=
  .silent (tallies_freshName _) fun _ _ => .silent (tallies_addCell _) fun _ _ => .pure trivial

theorem tallies_addRegister (base : String) (width : Nat) :
    Tallies 0 0 (addRegister base width) fun _ => True :=
  .silent (tallies_uniqueName _) fun _ _ => .silent (tallies_addCell _) fun _ _ => .pure trivial

theorem tallies_get : Tallies 0 0 (MonadState.get : Build Workspace) fun _ => True :=
  .of_groups fun _ _ _ ran => by
    cases ran
    rfl

theorem tallies_constant (width value : Nat) : Tallies 0 0 (constant width value) fun _ => True := by
  unfold constant
  split
  · exact .throw_bind _ _
  · refine .silent tallies_get fun w _ => ?_
    split
    · exact .pure trivial
    · refine .silent (tallies_addPrimitive _ _ _) fun _ _ => .silent (P := fun _ => True) ?_
        fun _ _ => .pure trivial
      exact .of_groups fun _ _ _ ran => by
        cases ran
        rfl

theorem tallies_instanceOf (func : String) : Tallies 0 0 (instanceOf func) fun _ => True := by
  refine .silent tallies_get fun w _ => ?_
  split
  · exact .pure trivial
  · refine .silent (tallies_freshName _) fun _ _ => .silent (tallies_addCell _) fun _ _ => ?_
    refine .silent (P := fun _ => True) ?_ fun _ _ => .pure trivial
    exact .of_groups fun _ _ _ ran => by
      cases ran
      rfl

theorem tallies_memoryOf (env : Env) (name : String) :
    Tallies 0 0 (memoryOf env name) fun _ => True := by
  unfold memoryOf
  split
  · exact .pure trivial
  · exact .throwInternal _

theorem tallies_registerOf (env : Env) (name : String) :
    Tallies 0 0 (registerOf env name) fun _ => True := by
  unfold registerOf
  split
  · exact .pure trivial
  · exact .throwInternal _

theorem tallies_addOperator (op : BinOp) (width : Nat) (signed : Bool) (frac : Option Nat) :
    Tallies 0 0 (addOperator op width signed frac) fun _ => True :=
  .silent (.lift _) fun _ _ => tallies_addPrimitive _ _ _

theorem tallies_adapt {W : Wiring} (plain : W.Plain) (pin : Pin) (width target : Nat) (signed : Bool) :
    Tallies 0 0 (adapt W pin width target signed) fun r => r.2.Plain := by
  unfold adapt
  split
  · exact .pure plain
  · exact .silent (tallies_addPrimitive _ _ _) fun _ _ => .pure (plain.connect _ _ _)

/-! ### Expressions -/

theorem tallies_finishRead (s : Setting) (pos : Nat) (reg : String) {W : Wiring} (plain : W.Plain) :
    Tallies 1 0 (finishRead s pos reg W) fun _ => True := by
  refine .silent (tallies_freshName _) fun group _ => ?_
  exact .closing (.addGroup (r := 1) rfl (by rw [plain.isWrite_done]; rfl)) fun _ _ =>
    .silent (tallies_enableGroup _ _ _) fun _ _ => .pure trivial

/-- Addresses that take `reads` reads. -/
def TalliesAddresses (reads : Nat) (lower : AddressLowering) : Prop :=
  ∀ sizes (W : Wiring), W.Plain → Tallies reads 0 (lower sizes W) fun r => r.2.Plain

theorem tallies_lowerCounted {count reads : Nat} {lower : AddressLowering}
    (tallies : ∀ sizes (W : Wiring), count = sizes.length → W.Plain →
      Tallies reads 0 (lower sizes W) fun r => r.2.Plain) :
    TalliesAddresses reads (lowerCounted count lower) := by
  intro sizes W plain
  unfold lowerCounted
  split
  · exact .throw_bind _ _
  · next counted => exact tallies sizes W (not_not.mp counted) plain

theorem tallies_readMemory (s : Setting) (env : Env) (pos : Nat) (reg mem : String) {reads : Nat}
    {addresses : AddressLowering} (tallies : TalliesAddresses reads addresses) :
    Tallies (reads + 1) 0 (readMemory s env pos reg mem addresses) fun _ => True :=
  .silent (tallies_memoryOf _ _) fun _ _ => .reading (tallies _ _ Wiring.plain_empty) fun _ plain =>
    tallies_finishRead _ _ _ (plain.capture _ _ _ _)

theorem tallies_captureBanks (env : Env) (reg : String) (select : Pin) (width : Nat)
    (addrs : List Pin) {W : Wiring} (plain : W.Plain) (k : Nat) (banks : List String) :
    Tallies 0 0 (captureBanks env reg select width addrs W k banks) Wiring.Plain := by
  induction banks generalizing W k with
  | nil => exact .pure plain
  | cons bank banks ih =>
    exact .silent (tallies_memoryOf _ _) fun _ _ => .silent (tallies_addPrimitive _ _ _) fun _ _ =>
      .silent (tallies_constant _ _) fun _ _ =>
      ih (((plain.connect _ _ _).connect _ _ _).capture _ _ _ _) _

theorem tallies_readBanks (s : Setting) (env : Env) (pos : Nat) (reg : String) (banks : List String)
    {select : Nat → Wiring → Build (Pin × Wiring)} {addresses : AddressLowering} {chosen reads : Nat}
    (selects : ∀ width (W : Wiring), W.Plain →
      Tallies chosen 0 (select width W) fun r => r.2.Plain)
    (tallies : TalliesAddresses reads addresses) :
    Tallies (chosen + (reads + 1)) 0 (readBanks s env pos reg banks select addresses)
      fun _ => True := by
  unfold readBanks
  split
  · exact .throwInternal _
  · exact .silent (tallies_memoryOf _ _) fun _ _ => .silent (.lift _) fun _ _ =>
      .reading (selects _ _ Wiring.plain_empty) fun _ plain => .reading (tallies _ _ plain) fun _ plain =>
      .silent (tallies_captureBanks _ _ _ _ _ plain _ _) fun _ plain => tallies_finishRead _ _ _ plain

theorem tallies_readName (s : Setting) (env : Env) (pos : Nat) {W : Wiring} (plain : W.Plain)
    (name : String) : Tallies 0 0 (readName s env pos W name) fun r => r.2.2.Plain := by
  unfold readName
  split
  · exact .pure plain
  · exact .pure plain
  · exact .pure (plain.connect _ _ _)
  · exact .throwInternal _

mutual

theorem tallies_lowerExpr (s : Setting) (env : Env) (pos width : Nat) {W : Wiring}
    (plain : W.Plain) : (e : TypedExpr) →
      Tallies e.loads 0 (lowerExpr s env pos width W e) fun r => r.2.Plain
  | .int _ _ => by
    unfold lowerExpr
    exact .silent (tallies_constant _ _) fun _ _ => .pure plain
  | .bool _ _ => by
    unfold lowerExpr
    exact .silent (tallies_constant _ _) fun _ _ => tallies_adapt plain _ _ _ _
  | .var _ _ => by
    unfold lowerExpr
    exact .silent (tallies_readName _ _ _ plain _) fun _ plain => tallies_adapt plain _ _ _ _
  | .binop ty op lhs rhs => by
    rcases ty.static_or with ⟨n, rfl⟩ | computed
    · rw [lowerExpr]
      exact .silent (tallies_constant _ _) fun _ _ => .pure plain
    · rw [lowerExpr_computed computed, TypedExpr.loads_binop computed]
      exact .reading (tallies_lowerExpr s env pos _ plain lhs) fun _ plain =>
        .closing (tallies_lowerExpr s env pos _ plain rhs) fun _ plain =>
        .silent (tallies_addOperator _ _ _ _) fun _ _ =>
        tallies_adapt ((plain.connect _ _ _).connect _ _ _) _ _ _ _
  | .mem ty mem addr => by
    unfold lowerExpr
    rw [TypedExpr.loads, Nat.add_comm]
    have addresses := tallies_lowerCounted fun sizes _ same plain =>
      tallies_lowerAddrs s env pos plain addr sizes same
    exact .silent (tallies_addPrimitive _ _ _) fun _ _ =>
      .closing (tallies_readMemory _ _ _ _ _ addresses) fun _ _ => tallies_adapt (plain.after _) _ _ _ _
  | .muxRead ty banks select addr => by
    unfold lowerExpr
    rw [TypedExpr.loads, Nat.add_assoc, Nat.add_left_comm, Nat.add_comm 1]
    have addresses := tallies_lowerCounted fun sizes _ same plain =>
      tallies_lowerAddrs s env pos plain addr sizes same
    exact .silent (tallies_addPrimitive _ _ _) fun _ _ =>
      .closing (tallies_readBanks _ _ _ _ _
        (fun width _ plain => tallies_lowerExpr s env pos width plain select) addresses) fun _ _ =>
      tallies_adapt (plain.after _) _ _ _ _
  | .access _ _ _ => by
    unfold lowerExpr
    exact .throwInternal _
  | .app _ _ _ => by
    unfold lowerExpr
    exact .throwInternal _

theorem tallies_lowerAddrs (s : Setting) (env : Env) (pos : Nat) {W : Wiring} (plain : W.Plain) :
    (es : List TypedExpr) → (sizes : List Nat) → es.length = sizes.length →
      Tallies (TypedExpr.loadsOf es) 0 (lowerAddrs s env pos W es sizes) fun r => r.2.Plain
  | [], _, _ => by
    unfold lowerAddrs
    exact .pure plain
  | e :: es, size :: sizes, same => by
    unfold lowerAddrs
    rw [TypedExpr.loadsOf]
    refine .silent (.lift _) fun _ _ => .reading (tallies_lowerExpr s env pos _ plain e) fun _ plain => ?_
    refine .closing (tallies_lowerAddrs s env pos plain es sizes (Nat.succ.inj same)) fun _ plain => ?_
    exact .pure plain

end

theorem tallies_addressing (s : Setting) (env : Env) (pos : Nat) (addr : List TypedExpr) :
    TalliesAddresses (TypedExpr.loadsOf addr) (addressing s env pos addr) :=
  tallies_lowerCounted fun sizes _ same plain => tallies_lowerAddrs s env pos plain addr sizes same

theorem tallies_readInto (s : Setting) (env : Env) (pos : Nat) (reg : String) (e : TypedExpr) :
    Tallies e.loads 0 (readInto s env pos reg e) fun _ => True := by
  cases e with
  | mem ty mem addr =>
    rw [TypedExpr.loads, Nat.add_comm]
    exact tallies_readMemory _ _ _ _ _ (tallies_addressing _ _ _ _)
  | muxRead ty banks select addr =>
    rw [readInto, TypedExpr.loads, Nat.add_assoc, Nat.add_left_comm, Nat.add_comm 1]
    exact tallies_readBanks _ _ _ _ _ (fun _ _ plain => tallies_lowerExpr _ _ _ _ plain _)
      (tallies_addressing _ _ _ _)
  | _ => exact .throwInternal _

theorem tallies_discard (s : Setting) (env : Env) (pos : Nat) (e : TypedExpr) :
    Tallies e.discarded 0 (discard s env pos e) fun _ => True := by
  fun_induction discard s env pos e with
  | case1 _ _ lhs rhs left right =>
    exact .reading left fun _ _ => .closing right fun _ _ => .pure trivial
  | case2 => exact .silent (tallies_addPrimitive _ _ _) fun _ _ => tallies_readInto _ _ _ _ _
  | case3 => exact .silent (tallies_addPrimitive _ _ _) fun _ _ => tallies_readInto _ _ _ _ _
  | case4 e notBinop notMem notMux =>
    cases e with
    | binop => exact absurd rfl (notBinop _ _ _ _)
    | mem => exact absurd rfl (notMem _ _ _)
    | muxRead => exact absurd rfl (notMux _ _ _ _)
    | _ => exact .pure trivial

/-! ### Commands -/

theorem tallies_finishGroup (s : Setting) (pos : Nat) {group : String} {W : Wiring} {k : Nat}
    (writes : (Group.mk group (some 1) W.assigns).isWrite.toNat = k) :
    Tallies 0 k (finishGroup s pos group W) fun _ => True :=
  .closing (.addGroup rfl writes) fun _ _ =>
    .silent (tallies_enableGroup _ _ _) fun _ _ => .pure trivial

theorem tallies_latch (s : Setting) (pos : Nat) (group reg : String) (data : Pin) {W : Wiring}
    (plain : W.Plain) : Tallies 0 0 (finishGroup s pos group (W.latch group reg data)) fun _ => True :=
  tallies_finishGroup _ _ (congrArg Bool.toNat
    (((plain.connect _ _ _).assign _ _ _ _).isWrite_done _ _ _))

theorem tallies_assignRegister (s : Setting) (env : Env) (pos : Nat) (reg : String) (width : Nat)
    (stem : String) (value : TypedExpr) :
    Tallies value.loads 0 (assignRegister s env pos reg width stem value) fun _ => True := by
  have latched : Tallies value.loads 0 (do
      let lowered ← lowerExpr s env pos width {} value
      let group ← freshName stem
      finishGroup s pos group (lowered.2.latch group reg lowered.1)) fun _ => True :=
    .closing (tallies_lowerExpr _ _ _ _ Wiring.plain_empty _) fun _ plain =>
      .silent (tallies_freshName _) fun _ _ => tallies_latch _ _ _ _ _ plain
  have captured : Tallies value.loads 0 (do
      return Control.sequence (← readInto s env pos reg value)) fun _ => True :=
    .closing (tallies_readInto _ _ _ _ _) fun _ _ => .pure trivial
  unfold assignRegister
  split
  · split
    · exact captured
    · exact latched
  · split
    · exact captured
    · exact latched
  · exact latched

theorem tallies_storeMemory (s : Setting) (env : Env) (pos : Nat) (mem : String)
    (addr : List TypedExpr) (value : TypedExpr) :
    Tallies (TypedExpr.loadsOf addr + value.loads) 1 (storeMemory s env pos mem addr value)
      fun _ => True := by
  refine .silent (tallies_memoryOf _ _) fun m _ => ?_
  refine .reading (tallies_addressing _ _ _ _ _ _ Wiring.plain_empty) fun _ plain => ?_
  refine .writing (tallies_lowerExpr _ _ _ _ plain _) fun _ _ => ?_
  exact .silent (tallies_freshName _) fun group _ =>
    tallies_finishGroup _ _ (congrArg Bool.toNat (Wiring.isWrite_connect _ _ _ _))

theorem tallies_reduceRegister (s : Setting) (env : Env) (pos : Nat) (op : BinOp) (ty : Ty)
    (reg : String) (width : Nat) (value : TypedExpr) :
    Tallies value.loads 0 (reduceRegister s env pos op ty reg width value) fun _ => True :=
  .closing (tallies_lowerExpr _ _ _ _ Wiring.plain_empty _) fun _ plain =>
    .silent (tallies_addOperator _ _ _ _) fun _ _ => .silent (tallies_freshName _) fun _ _ =>
    tallies_latch _ _ _ _ _ ((plain.connect _ _ _).connect _ _ _)

theorem tallies_reduceMemory (s : Setting) (env : Env) (pos : Nat) (op : BinOp) (ty : Ty)
    (mem : String) (addr : List TypedExpr) (value : TypedExpr) :
    Tallies (TypedExpr.loadsOf addr + (1 + value.loads)) 1
      (reduceMemory s env pos op ty mem addr value) fun _ => True := by
  refine .silent (tallies_memoryOf _ _) fun m _ => ?_
  refine .reading (tallies_addressing _ _ _ _ _ _ Wiring.plain_empty) fun r (plain : r.2.Plain) => ?_
  have bare : Wiring.Plain { assigns := r.2.assigns } := plain
  refine .silent (tallies_addPrimitive _ _ _) fun old _ => .silent (tallies_freshName _) fun read _ => ?_
  refine .reading (.addGroup rfl (congrArg Bool.toNat ((bare.capture _ _ _ _).isWrite_done _ _ _)))
    fun _ _ => ?_
  refine .writing (tallies_lowerExpr _ _ _ _ bare _) fun _ _ => ?_
  refine .silent (tallies_addOperator _ _ _ _) fun _ _ => .silent (tallies_freshName _) fun write _ => ?_
  exact .closing (.addGroup rfl (congrArg Bool.toNat (Wiring.isWrite_connect _ _ _ _))) fun _ _ =>
    .silent (tallies_enableGroup _ _ _) fun _ _ => .silent (tallies_enableGroup _ _ _) fun _ _ =>
    .pure trivial

theorem tallies_updateRegister (s : Setting) (env : Env) (pos : Nat) (ty : Ty) (name : String)
    (value : TypedExpr) :
    Tallies value.loads 0 (lowerUpdate s env pos (.var ty name) value) fun _ => True :=
  .silent (tallies_registerOf _ _) fun _ _ => tallies_assignRegister _ _ _ _ _ _ _

theorem tallies_combineRegister (s : Setting) (env : Env) (pos : Nat) (op : BinOp) (ty : Ty)
    (name : String) (value : TypedExpr) :
    Tallies value.loads 0 (lowerReduce s env pos op (.var ty name) value) fun _ => True :=
  .silent (tallies_registerOf _ _) fun _ _ => tallies_reduceRegister _ _ _ _ _ _ _ _

theorem tallies_lowerCondition (s : Setting) (env : Env) (pos : Nat) (cond : TypedExpr) :
    Tallies cond.loads 0 (lowerCondition s env pos cond) fun _ => True := by
  refine .closing (tallies_lowerExpr _ _ _ _ Wiring.plain_empty _) fun driven plain => ?_
  show Tallies 0 0 (if driven.2.assigns.isEmpty = true then _ else _) _
  split
  · exact .pure trivial
  · exact .silent (tallies_freshName _) fun _ _ =>
      .silent (.addGroup rfl (congrArg Bool.toNat (plain.isWrite _ _))) fun _ _ => .pure trivial

theorem tallies_bindArguments (env : Env) (params args : List String) :
    Tallies 0 0 (bindArguments env params args) fun _ => True := by
  fun_induction bindArguments env params args with
  | case1 param params arg args ih =>
    exact .silent (tallies_memoryOf _ _) fun _ _ => .silent ih fun _ _ => .pure trivial
  | case2 => exact .pure trivial

theorem tallies_lowerCall (s : Setting) (env : Env) (pos : Nat) (func : String) (args : List String) :
    Tallies 0 0 (lowerCall s env pos func args) fun _ => True := by
  unfold lowerCall
  split
  · exact .throwInternal _
  · dsimp only
    split
    · exact .throw_bind _ _
    · exact .silent (tallies_bindArguments _ _ _) fun _ _ =>
        .silent (tallies_instanceOf _) fun _ _ => .silent (tallies_quote _ _) fun _ _ => .pure trivial

theorem tallies_addInit (iter reg : String) (width start : Nat) :
    Tallies 0 0 (addInit iter reg width start) fun _ => True :=
  .silent (tallies_uniqueName _) fun _ _ => .silent (tallies_constant _ _) fun _ _ =>
    .silent (.addGroup rfl (by simp [Group.isWrite, Atom.isWritten, Pin.done])) fun _ _ => .pure trivial

theorem tallies_addCond (iter reg : String) (width stop : Nat) :
    Tallies 0 0 (addCond iter reg width stop) fun _ => True :=
  .silent (tallies_uniqueName _) fun _ _ => .silent (tallies_addPrimitive _ _ _) fun _ _ =>
    .silent (tallies_constant _ _) fun _ _ =>
    .silent (.addGroup rfl (by simp [Group.isWrite, Pin.done])) fun _ _ => .pure trivial

theorem tallies_addIncr (iter reg : String) (width : Nat) :
    Tallies 0 0 (addIncr iter reg width) fun _ => True :=
  .silent (tallies_uniqueName _) fun _ _ => .silent (tallies_addPrimitive _ _ _) fun _ _ =>
    .silent (tallies_constant _ _) fun _ _ =>
    .silent (.addGroup rfl (by simp [Group.isWrite, Atom.isWritten, Pin.done])) fun _ _ => .pure trivial

theorem tallies_addLoop (h : LoopHeader) : Tallies 0 0 (addLoop h) fun _ => True := by
  have counts (reg : String) (slice : Option String) (last : Nat) : Tallies 0 0 (do
      let init ← addInit h.iter reg (bitsNeeded h.stop) h.start
      let cond ← addCond h.iter reg (bitsNeeded h.stop) h.stop
      let incr ← addIncr h.iter reg (bitsNeeded h.stop)
      pure (LoopFrame.mk reg slice (bitsNeeded last) init cond.1 cond.2 incr)) fun _ => True :=
    .silent (tallies_addInit _ _ _ _) fun _ _ => .silent (tallies_addCond _ _ _ _) fun _ _ =>
      .silent (tallies_addIncr _ _ _) fun _ _ => .pure trivial
  refine .silent (.lift _) fun last _ => .silent (tallies_addRegister _ _) fun reg _ => ?_
  split
  · rw [map_eq_pure_bind, bind_assoc]
    exact .silent (tallies_addPrimitive _ _ _) fun _ _ => counts reg _ last
  · exact counts reg none last

theorem tallies_memoryName (s : Setting) (d : Decl) (exposure : Exposure) :
    Tallies 0 0 (memoryName s d exposure) fun _ => True := by
  unfold memoryName
  split
  · exact tallies_uniqueName _
  · refine .silent tallies_get fun w _ => ?_
    split
    · refine .silent (P := fun _ => True) (.of_groups fun _ _ _ ran => ?_) fun _ _ => .pure trivial
      cases ran
      rfl
    · intro _ _ _ ran
      cases ran

theorem tallies_declare (s : Setting) (env : Env) (d : Decl) (exposure : Exposure) :
    Tallies 0 0 (declare s env d exposure) fun _ => True := by
  unfold declare
  split
  · dsimp only
    split
    · intro w control v ran
      cases ran
    · exact .silent (tallies_memoryName _ _ _) fun _ _ => .silent (.lift _) fun _ _ =>
        .silent (tallies_addCell _) fun _ _ => .pure trivial
  · exact .silent (tallies_addRegister _ _) fun _ _ => .pure trivial

theorem tallies_declareAll (s : Setting) (exposure : Exposure) (env : Env) (ds : List Decl) :
    Tallies 0 0 (declareAll s exposure env ds) fun _ => True := by
  induction ds generalizing env with
  | nil => exact .pure trivial
  | cons d ds ih => exact .silent (tallies_declare _ _ _ _) fun env _ => ih env

theorem tallies_instantiateAll (funcs : List String) :
    Tallies 0 0 (instantiateAll funcs) fun _ => True := by
  induction funcs with
  | nil => exact .pure trivial
  | cons func funcs ih => exact .silent (tallies_instanceOf _) fun _ _ => ih

theorem tallies_declBanks {s : Setting} {layout : Layout} {pos : Nat} {banks : TypedCommand}
    (split : Banking.declBanks layout pos = .ok banks) (env : Env) :
    Tallies 0 0 (lowerCommand s env banks) fun _ => True := by
  have each (env : Env) (d : Decl) :
      Tallies 0 0 (lowerCommand s env (.decl pos d.name d.ty)) fun _ => True := by
    rw [lowerCommand]
    exact .silent (tallies_declare _ _ _ _) fun _ _ => .pure trivial
  have all (ds : List Decl) (env : Env) :
      Tallies 0 0 (lowerSeq s env (ds.map fun d => .decl pos d.name d.ty)) fun _ => True := by
    induction ds generalizing env with
    | nil =>
      rw [List.map_nil, lowerSeq]
      exact .pure trivial
    | cons d ds ih =>
      rw [List.map_cons, lowerSeq]
      exact .silent (each env d) fun _ _ => .silent (ih _) fun _ _ => .pure trivial
  obtain ⟨ds, _, ⟨d, _, rfl⟩ | ⟨_, rfl⟩⟩ := Banking.declBanks_split split
  · exact each env d
  · rw [lowerCommand]
    exact .silent (all ds env) fun _ _ => .pure trivial

/-- Moving a rotation on reads no memory. -/
theorem tallies_step {s : Setting} {r : Banking.Rotation} {pos : Nat} {step : TypedCommand}
    (stepped : r.step pos = .ok step) (env : Env) :
    Tallies 0 0 (lowerCommand s env step) fun _ => True := by
  obtain ⟨ty, _, sum, added, value, wrapped, rfl⟩ := Banking.Rotation.step_update stepped
  have none : value.loads = 0 := by
    rw [Banking.loads_wrap wrapped, Banking.loads_widened added]
    rfl
  rw [lowerCommand]
  exact .silent ((tallies_updateRegister _ _ _ _ _ _).congr none rfl) fun _ _ => .pure trivial

theorem readsOf_vars (names : List String) : Expr.readsOf (names.map .var) = 0 := by
  induction names with
  | nil => rfl
  | cons name names ih => rw [List.map_cons, Expr.readsOf, ih, Expr.reads]

section

open Typing (CheckedCommand CheckedSeq CheckedElse CheckedExpr CheckedTarget Annotates AnnotatesSeq
  AnnotatesElse WellFormed)
open Banking (BankedCommand BankedSeq BankedElse ReadAs WrittenAs Agrees)

variable {s : Setting} {ctx : Banking.Context}

section

variable {env : Banking.Env} {tctx : Typing.Context} {types : Typing.Env} {shapes : Shapes} {low : Env}
  {target target' value value' : TypedExpr} {l e : Expr}

theorem tallies_lowerUpdate (formed : WellFormed types) (agrees : Agrees types env)
    (fit : shapes.Fit types) {pos : Nat} (place : WrittenAs ctx env target target')
    (read : ReadAs ctx env value value') (checkedTarget : CheckedTarget tctx types target)
    (checked : CheckedExpr tctx types value) (erasedTarget : target.erase? = some l)
    (erased : value.erase? = some e) :
    Tallies (Command.reads (.update pos l e) + Command.repeats shapes (.update pos l e))
      (Command.stores (.update pos l e)) (lowerUpdate s low pos target' value') fun _ => True := by
  have value := (read.loads_eq formed agrees fit checked erased).1
  obtain ⟨ty, name, rfl, rfl⟩ | ⟨ty, mem, addr, array, idxs, rfl, rfl, addressed⟩ :=
    place.loads_eq formed agrees fit checkedTarget erasedTarget
  · refine (tallies_updateRegister _ _ _ _ _ _).congr ?_ rfl
    simp only [Command.reads, Command.repeats, Expr.indexReads, Expr.repeats]
    omega
  · refine (tallies_storeMemory _ _ _ _ _ _).congr ?_ rfl
    simp only [Command.reads, Command.repeats, Expr.indexReads]
    omega

/-- A reduction also reads the element that it combines with. -/
theorem tallies_lowerReduce (formed : WellFormed types) (agrees : Agrees types env)
    (fit : shapes.Fit types) {pos : Nat} {op : BinOp} (place : WrittenAs ctx env target target')
    (read : ReadAs ctx env value value') (checkedTarget : CheckedTarget tctx types target)
    (checked : CheckedExpr tctx types value) (erasedTarget : target.erase? = some l)
    (erased : value.erase? = some e) :
    Tallies (Command.reads (.reduce pos op l e) + Command.repeats shapes (.reduce pos op l e))
      (Command.stores (.reduce pos op l e)) (lowerReduce s low pos op target' value')
      fun _ => True := by
  have value := (read.loads_eq formed agrees fit checked erased).1
  obtain ⟨ty, name, rfl, rfl⟩ | ⟨ty, mem, addr, array, idxs, rfl, rfl, addressed⟩ :=
    place.loads_eq formed agrees fit checkedTarget erasedTarget
  · refine (tallies_combineRegister _ _ _ _ _ _ _).congr ?_ rfl
    simp only [Command.reads, Command.repeats, Expr.reads, Expr.repeats]
    omega
  · refine (tallies_reduceMemory _ _ _ _ _ _ _ _).congr ?_ rfl
    simp only [Command.reads, Command.repeats, Expr.reads]
    omega

end

mutual

theorem tallies_lowerCommand {env : Banking.Env} {cmd cmd' : TypedCommand} {tctx : Typing.Context}
    {types types' : Typing.Env} {shapes : Shapes} {low : Env} {source : SourceCommand}
    (formed : WellFormed types) (agrees : Agrees types env) (fit : shapes.Fit types) :
      BankedCommand ctx env cmd cmd' → CheckedCommand tctx types cmd types' → Annotates source cmd →
      Tallies (source.reads + source.repeats shapes) source.stores (lowerCommand s low cmd')
        fun _ => True
  | .array _ split, _, .decl .. => tallies_declBanks split low
  | .scalar _, _, .decl .. => by
    rw [lowerCommand]
    exact .silent (tallies_declare _ _ _ _) fun _ _ => .pure trivial
  | .define value, .define checked _ _ _, .define _ _ _ erased => by
    rw [lowerCommand, Command.reads, Command.repeats,
      ← (value.loads_eq formed agrees fit checked erased).1]
    exact .silent (tallies_addRegister _ _) fun _ _ =>
      .closing (tallies_assignRegister _ _ _ _ _ _ _) fun _ _ => .pure trivial
  | .seq all, .seq checked, .seq _ each => by
    rw [lowerCommand]
    exact .closing (tallies_lowerSeq formed agrees fit all checked each) fun _ _ => .pure trivial
  | .branch value yes no, .branch checked _ checkedYes checkedNo, .branch _ erased first second => by
    rw [lowerCommand]
    have cond := (value.loads_eq formed agrees fit checked erased).1
    refine Tallies.congr (.reading (tallies_lowerCondition _ _ _ _) fun _ _ => .bind
      (tallies_lowerCommand formed.enter agrees.enter fit yes checkedYes first) fun _ _ => .closing
      (tallies_lowerElse formed.enter agrees.enter fit no checkedNo second) fun _ _ =>
      .pure trivial) ?_ rfl
    simp only [Command.reads, Command.repeats]
    omega
  | .loop _ round, .loop range checked, .loop _ _ inner => by
    rw [lowerCommand, Command.reads, Command.repeats, Command.stores]
    exact .silent (tallies_addLoop _) fun _ _ => .closing
      (tallies_lowerCommand (range.wellFormed formed) (agrees.round range) (fit.enter.rebind nofun)
        round checked inner) fun _ _ => .silent (tallies_enableGroup _ _ _) fun _ _ =>
      .silent (tallies_enableGroup _ _ _) fun _ _ => .silent (.lift _) fun _ _ => .pure trivial
  | .update place read, .update target checked _, .update _ erasedTarget erased => by
    rw [lowerCommand]
    exact .closing (tallies_lowerUpdate formed agrees fit place read target checked erasedTarget
      erased) fun _ _ => .pure trivial
  | .reduce place read, .reduce target _ checked _, .reduce _ _ erasedTarget erased => by
    rw [lowerCommand]
    exact .closing (tallies_lowerReduce formed agrees fit place read target checked erasedTarget
      erased) fun _ _ => .pure trivial
  | .eval value, checked, .eval _ erased => by
    cases checked with
    | call =>
      cases value
      cases erased
      rw [lowerCommand, Command.reads, Expr.reads, readsOf_vars]
      exact .closing (tallies_lowerCall _ _ _ _ _) fun _ _ => .pure trivial
    | eval checked =>
      rw [lowerCommand, Command.reads, Command.repeats,
        ← (value.loads_eq formed agrees fit checked erased).2]
      · exact .closing (tallies_discard _ _ _ _) fun _ _ => .pure trivial
      · exact value.ne_app checked.ne_app
  | .rotate _ stepped, _, .advance .. => tallies_step stepped low
  | .still _, _, .advance .. => by
    rw [lowerCommand]
    exact .pure trivial
  | .skip, _, .skip _ => by
    rw [lowerCommand]
    exact .pure trivial

theorem tallies_lowerSeq {env : Banking.Env} {cmds cmds' : List TypedCommand} {tctx : Typing.Context}
    {types types' : Typing.Env} {shapes : Shapes} {low : Env} {sources : List SourceCommand}
    (formed : WellFormed types) (agrees : Agrees types env) (fit : shapes.Fit types) :
      BankedSeq ctx env cmds cmds' → CheckedSeq tctx types cmds types' →
      AnnotatesSeq sources cmds →
      Tallies (readsOfSeq sources + repeatsOfSeq shapes sources) (storesOfSeq sources)
        (lowerSeq s low cmds') fun _ => True
  | .nil, .nil, .nil => by
    rw [lowerSeq]
    exact .pure trivial
  | .cons first rest, .cons checked checkedRest, .cons annotated others => by
    rw [lowerSeq]
    refine Tallies.congr (.bind (tallies_lowerCommand formed agrees fit first checked annotated)
      fun _ _ => .closing (tallies_lowerSeq (checked.wellFormed formed) (agrees.after checked)
        (fit.after checked annotated) rest checkedRest others) fun _ _ => .pure trivial) ?_ rfl
    simp only [readsOfSeq, repeatsOfSeq]
    omega

theorem tallies_lowerElse {env : Banking.Env} {cmd cmd' : Option TypedCommand} {tctx : Typing.Context}
    {types : Typing.Env} {shapes : Shapes} {low : Env} {source : Option SourceCommand}
    (formed : WellFormed types) (agrees : Agrees types env) (fit : shapes.Fit types) :
      BankedElse ctx env cmd cmd' → CheckedElse tctx types cmd → AnnotatesElse source cmd →
      Tallies (readsOfElse source + repeatsOfElse shapes source) (storesOfElse source)
        (lowerElse s low cmd') fun _ => True
  | .none, .none, .none => by
    rw [lowerElse]
    exact .pure trivial
  | .some banked, .some checked, .some annotated => by
    rw [lowerElse]
    exact .closing (tallies_lowerCommand formed agrees fit banked checked annotated) fun _ _ =>
      .pure trivial

end

/-- The registers of rotations are set without a read, in front of the body. -/
theorem tallies_setUp {setup : List TypedCommand} {body : TypedCommand} {reads writes : Nat}
    (zero : ∀ cmd ∈ setup, ∃ pos register ty, cmd = .define pos register ty (.lit 0))
    (tallies : ∀ low, Tallies reads writes (lowerCommand s low body) fun _ => True) (low : Env) :
    Tallies reads writes (lowerSeq s low (setup ++ [body])) fun _ => True := by
  induction setup generalizing low with
  | nil =>
    rw [List.nil_append, lowerSeq]
    refine .closing (tallies low) fun after _ => .silent (P := fun _ => True) ?_ fun _ _ => .pure trivial
    rw [lowerSeq]
    exact .pure trivial
  | cons cmd setup ih =>
    obtain ⟨⟨pos, register, ty, rfl⟩, others⟩ := List.forall_mem_cons.mp zero
    have first : Tallies 0 0 (lowerCommand s low (.define pos register ty (.lit 0)))
        fun _ => True := by
      rw [lowerCommand]
      exact .silent (tallies_addRegister _ _) fun _ _ =>
        .silent (tallies_assignRegister _ _ _ _ _ _ _) fun _ _ => .pure trivial
    rw [List.cons_append, lowerSeq]
    exact .silent first fun _ _ => .closing (ih others _) fun _ _ => .pure trivial

theorem tallies_bankBody {statements : Statements} {env : Banking.Env} {tctx : Typing.Context}
    {types types' : Typing.Env} {shapes : Shapes} {body body' : TypedCommand}
    {source : SourceCommand} (formed : WellFormed types) (agrees : Agrees types env)
    (fit : shapes.Fit types) (checked : CheckedCommand tctx types body types')
    (annotated : Annotates source body)
    (split : (Banking.bankBody statements env body).result = .ok body') (low : Env) :
    Tallies (source.reads + source.repeats shapes) source.stores (lowerCommand s low body')
      fun _ => True := by
  obtain ⟨prologue, inner, setUp, banked, rfl⟩ := Banking.bankBody_ok split
  have main (low : Env) : Tallies (source.reads + source.repeats shapes) source.stores
      (lowerCommand s low inner) fun _ => True :=
    tallies_lowerCommand formed (agrees.setUpRotations setUp) fit banked checked annotated
  split
  · exact main low
  · rw [lowerCommand]
    exact .closing (tallies_setUp (Banking.setUp_zero setUp) main low) fun _ _ => .pure trivial

end

end Lowering

/-! ### Components -/

/-- The groups of a component that read and that write are those of a body over storage. -/
structure Component.Counts (c : Component) (ds : List Decl) (body : Option SourceCommand) :
    Prop where
  reads : c.groups.countP (·.isRead) = readsOfElse body + repeatsOfElse (.ofDecls ds) body
  writes : c.groups.countP (·.isWrite) = storesOfElse body

namespace Lowering

theorem buildComponent_counts {s : Setting} {exposure : Exposure} {ds banked : List Decl}
    {env : Banking.Env} {body body' : Option TypedCommand} {source : Option SourceCommand}
    {statements : Statements} {instances : List String}
    (split : Banking.bankDecls {} ds = .ok (banked, env))
    (splitBody : BankedBody statements env body body') {tctx : Typing.Context} {types : Typing.Env}
    (decls : Typing.CheckedDecls {} ds types) (checked : Typing.CheckedElse tctx types body)
    (annotated : Typing.AnnotatesElse source body) {name : String} {c : Component}
    (lowered : Makes (buildComponent name · (assemble s exposure banked instances body')) c) :
    c.name = name ∧ c.Counts ds source := by
  obtain ⟨_, control, w, ran, rfl⟩ := buildComponent_ok lowered
  obtain rfl := Banking.bankDecls_env split
  have main (low : Env) : Tallies (readsOfElse source + repeatsOfElse (.ofDecls ds) source)
      (storesOfElse source) (lowerElse s low body') fun _ => True := by
    cases splitBody with
    | none =>
      cases annotated
      rw [lowerElse]
      exact .pure trivial
    | some split =>
      obtain ⟨_⟩ | ⟨annotated⟩ := annotated
      obtain ⟨_⟩ | ⟨checked⟩ := checked
      rw [lowerElse]
      exact .closing (tallies_bankBody (decls.wellFormed Typing.WellFormed.empty)
        (Banking.Agrees.empty.declared decls) (.ofDecls decls) checked annotated split low)
        fun _ _ => .pure trivial
  have whole : Tallies _ _ (assemble s exposure banked instances body') fun _ => True :=
    .silent (tallies_declareAll _ _ _ _) fun low _ =>
      .silent (tallies_instantiateAll _) fun _ _ => main low
  obtain ⟨counts, _⟩ := whole _ _ _ ran
  exact ⟨rfl, counts.reads.trans (Nat.zero_add _), counts.writes.trans (Nat.zero_add _)⟩

theorem lowerFunctions_counts {s : Setting} {statements : Statements}
    {funcs funcs' : List (String × List Decl)} {sources : List (Function (Option Ty) Expr)}
    {fs fs' : List (Function Ty TypedExpr)} (checked : Typing.CheckedFunctions funcs fs funcs')
    (annotated : List.Forall₂ Typing.AnnotatesFunction sources fs)
    (split : (Banking.bankFunctions statements fs).result = .ok fs') {components : List Component}
    (lowered : MakesAll s fs' components) :
    List.Forall₂ (fun f c => c.name = f.name ∧ c.Counts f.params (some f.body)) sources
      components := by
  replace split := Banking.forall₂_bankFunctions split
  induction annotated generalizing funcs fs' components with
  | nil =>
    cases split
    cases lowered
    exact .nil
  | cons first _ ih =>
    obtain _ | ⟨checkedFirst, checkedRest⟩ := checked
    obtain _ | ⟨banked, others⟩ := split
    obtain _ | ⟨lowered, loweredRest⟩ := lowered
    obtain ⟨params, env, body, splitParams, splitBody, rfl⟩ := Banking.bankFunction_ok banked
    obtain ⟨types, types', decls, checked⟩ := checkedFirst.body
    simp only [lowerFunction_eq] at lowered
    refine .cons ?_ (ih checkedRest loweredRest others)
    rw [← first.name, ← first.params]
    exact buildComponent_counts splitParams (.some splitBody) decls (.some checked)
      (.some first.body) lowered

end Lowering

open Lowering

/-- In every component of a compiled text, as many groups take two cycles as the body reads array
elements, where a read inside an index that chooses a bank and an element of it counts twice; and as
many groups end with a memory's `write_done` as the body updates or reduces array elements. -/
theorem compile_latencies {config : Config} {text : String} {netlist : Netlist}
    (compiled : (compile config text).result = .ok netlist) :
    ∃ source functions root, parse text = .ok source ∧ netlist.components = functions ++ [root] ∧
      List.Forall₂ (fun f c => c.name = f.name ∧ c.Counts f.params (some f.body)) source.defs
        functions ∧
      root.name = config.topName ∧ root.Counts source.decls source.body := by
  obtain ⟨source, p, banked, parsed, checked, split, lowered⟩ := compile_ok compiled
  obtain ⟨functions, root, loweredFunctions, loweredRoot, components⟩ :=
    BankedProgram.toNetlist_ok lowered
  obtain ⟨env, splitFunctions, storage, _, splitBody⟩ := Program.toBanks_ok split
  obtain ⟨funcs, types, defs, decls, body⟩ := Typing.checkedProgram_of_check checked
  have annotated := Typing.annotates_of_check checked
  simp only [lowerRoot_eq] at loweredRoot
  refine ⟨source, functions, root, parsed, components,
    lowerFunctions_counts defs annotated.defs splitFunctions loweredFunctions, ?_⟩
  rw [← annotated.decls]
  exact buildComponent_counts storage (bankedBody_of_cases splitBody) decls body annotated.body
    loweredRoot

/-- Adds to an element of an array of two banks one whose number is looked up twice, and calls a
function that moves an element. -/
def lookUp : String :=
  "decl a: ubit<8>[4 bank 2]; decl b: ubit<2>[4]; " ++
    "def move(m: ubit<2>[4]) \x7b m[1] := m[0]; \x7d " ++ "a[0] += a[b[b[3]]]; move(b);"

/-- The root has four reads, of which the two in a split index take place twice. -/
theorem compile_latencies_lookUp : ∃ netlist, (compile {} lookUp).result = .ok netlist ∧
    netlist.components.map (fun c => (c.groups.countP (·.isRead), c.groups.countP (·.isWrite))) =
      [(1, 1), (6, 1)] ∧
    ∃ source functions root, parse lookUp = .ok source ∧
      netlist.components = functions ++ [root] ∧
      List.Forall₂ (fun f c => c.name = f.name ∧ c.Counts f.params (some f.body)) source.defs
        functions ∧
      root.name = "main" ∧ root.Counts source.decls source.body := by
  have computed : ∃ netlist, (compile {} lookUp).result = .ok netlist ∧
      netlist.components.map (fun c => (c.groups.countP (·.isRead), c.groups.countP (·.isWrite))) =
        [(1, 1), (6, 1)] := exists_ok_of_map (by decide +kernel)
  obtain ⟨netlist, compiled, counted⟩ := computed
  exact ⟨netlist, compiled, counted, compile_latencies compiled⟩

end BankedLoops
