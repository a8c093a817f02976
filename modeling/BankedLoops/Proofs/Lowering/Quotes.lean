import BankedLoops.Proofs.Lowering.Controls
import BankedLoops.Proofs.Lowering.Mute
import BankedLoops.Proofs.Tables

/-!
# Quotes

A statement is quoted where a group or an invocation is scheduled for it, and the control reaches its
place in the schedule later. `Records` says of a construction that the two stay in step: it quotes the
statements of what it schedules, and no others.
-/

namespace BankedLoops

/-! ### Annotations -/

namespace Control

mutual

/-- The annotations of the enabled groups and the invocations, in the order of the schedule. -/
def marks : Control → List (Option Nat)
  | .empty => []
  | .enable _ pos => [pos]
  | .seq items => marksOfSeq items
  | .loop _ _ body _ => marks body
  | .branch _ _ onTrue onFalse => marks onTrue ++ marks onFalse
  | .invoke _ _ pos => [pos]

def marksOfSeq : List Control → List (Option Nat)
  | [] => []
  | c :: cs => marks c ++ marksOfSeq cs

end

theorem marksOfSeq_eq (items : List Control) : marksOfSeq items = items.flatMap marks := by
  induction items with
  | nil => rfl
  | cons c cs ih => rw [marksOfSeq, ih, List.flatMap_cons]

/-- Flattening a sequence loses no annotation. -/
theorem marks_sequence (cs : List Control) : (sequence cs).marks = cs.flatMap marks :=
  collect_sequence rfl (fun items => marksOfSeq_eq items) cs

end Control

namespace Lowering

variable {α β : Type}

/-! ### Constructions that quote what they schedule -/

section

variable {s : Setting}

/-- The quotes have gained those of the statements that the marks name, and no others. -/
structure Quoted (s : Setting) (quotes : Statements) (marks : List (Option Nat)) (quotes' : Statements) :
    Prop where
  ascending : Table.Ascending quotes.entries → Table.Ascending quotes'.entries
  keys : ∀ n, n ∈ quotes'.entries.map Prod.fst ↔
    n ∈ quotes.entries.map Prod.fst ∨ s.emitMetadata = true ∧ some n ∈ marks
  texts : ∀ entry ∈ quotes'.entries, entry ∈ quotes.entries ∨ entry.2 = s.statements.describe entry.1

namespace Quoted

variable {quotes quotes' quotes'' : Statements} {marks marks' : List (Option Nat)}

theorem still (unnamed : s.emitMetadata = true → ∀ n, some n ∉ marks) : Quoted s quotes marks quotes where
  ascending := id
  keys n := (or_iff_left fun ⟨metadata, named⟩ => unnamed metadata n named).symm
  texts _ member := .inl member

theorem refl (quotes : Statements) : Quoted s quotes [] quotes :=
  still fun _ _ => List.not_mem_nil

theorem trans (first : Quoted s quotes marks quotes') (second : Quoted s quotes' marks' quotes'') :
    Quoted s quotes (marks ++ marks') quotes'' where
  ascending ascending := second.ascending (first.ascending ascending)
  keys n := by rw [second.keys, first.keys, List.mem_append, and_or_left, or_assoc]
  texts entry member := (second.texts entry member).elim (first.texts entry) .inr

theorem congr (quoted : Quoted s quotes marks quotes') (same : ∀ mark, mark ∈ marks ↔ mark ∈ marks') :
    Quoted s quotes marks' quotes' where
  ascending := quoted.ascending
  keys n := by rw [quoted.keys, same]
  texts := quoted.texts

theorem quote (pos : Nat) (quotes : Statements) :
    Quoted s quotes [s.position pos] (s.quote pos quotes) := by
  unfold Setting.quote
  split
  · next on =>
    obtain ⟨positions, metadata⟩ := Bool.and_eq_true_iff.mp on
    rw [Setting.position, if_pos positions]
    exact
      { ascending := fun ascending => ascending.insertNew _ _
        keys := fun n => by
          rw [Table.keys_insertNew, List.mem_singleton, Option.some_inj, or_comm, and_iff_right metadata]
        texts := fun entry member => (Table.mem_insertNew member).symm.imp_right fun same => by rw [same] }
  · next off =>
    refine still fun metadata n named => off (Bool.and_eq_true_iff.mpr ⟨?_, metadata⟩)
    unfold Setting.position at named
    split at named
    · assumption
    · cases List.mem_singleton.mp named

end Quoted

/-- Puts control in the place of `front`, and quotes what it schedules beyond that. -/
def Records (s : Setting) (front : List Control) (x : Build α) (control : α → List Control) : Prop :=
  ∀ quotes w a v, x.run w = .ok (a, v) → Quoted s quotes (front.flatMap Control.marks) w.quotes →
    Quoted s quotes ((control a).flatMap Control.marks) v.quotes

namespace Records

variable {front : List Control} {control : α → List Control}

/-- The control in front is put in its place. Its order does not matter. -/
theorem place {a : α}
    (same : ∀ mark, mark ∈ front.flatMap Control.marks ↔ mark ∈ (control a).flatMap Control.marks) :
    Records s front (Pure.pure a) control := by
  intro quotes w b v ran before
  obtain ⟨rfl, rfl⟩ := run_pure_ok_iff.mp ran
  exact before.congr same

theorem pure {a : α} (placed : control a = front) : Records s front (Pure.pure a) control :=
  place fun _ => by rw [placed]

theorem sequence {a : α} (placed : control a = [.sequence front]) :
    Records s front (Pure.pure a) control :=
  place fun _ => by rw [placed, List.flatMap_singleton, Control.marks_sequence]

theorem bind {x : Build α} {f : α → Build β} {final : β → List Control} (first : Records s front x control)
    (rest : ∀ a, Records s (control a) (f a) final) : Records s front (x >>= f) final := by
  intro quotes w b v ran before
  obtain ⟨a, u, ranFirst, ranRest⟩ := run_bind_ok_iff.mp ran
  exact rest a quotes u b v ranRest (first quotes w a u ranFirst before)

theorem mute (front : List Control) (x : Build α) [Mute x] : Records s front x fun _ => front := by
  intro quotes w a v ran before
  rwa [Mute.quotes_eq ran]

/-- After a step that schedules nothing. -/
theorem mute_bind {x : Build α} [Mute x] {f : α → Build β} {final : β → List Control}
    (rest : ∀ a, Records s front (f a) final) : Records s front (x >>= f) final :=
  (mute front x).bind rest

theorem throw (e : Failure) : Records s front (MonadExcept.throw e : Build α) control :=
  fun _ _ _ _ ran => by cases ran

/-- What is quoted does not depend on the control in front. -/
theorem after {x : Build α} (quotes : Records s [] x control) (front : List Control) :
    Records s front x fun a => front ++ control a := by
  intro earlier w a v ran before
  rw [List.flatMap_append]
  exact before.trans (quotes w.quotes w a v ran (.refl _))

end Records

end

/-! ### Expressions -/

section

variable {s : Setting} {env : Env} {pos : Nat}

theorem records_enableGroup (front : List Control) (group : String) :
    Records s front (enableGroup s group pos) fun c => front ++ [c] := by
  intro quotes w c v ran before
  obtain ⟨rfl, rfl⟩ := enableGroup_ok ran
  rw [List.flatMap_append]
  exact before.trans (.quote pos w.quotes)

theorem records_adapt (W : Wiring) (pin : Pin) (width target : Nat) (signed : Bool) :
    Records s W.before (adapt W pin width target signed) fun r => r.2.before := by
  unfold adapt
  split
  · exact .pure rfl
  · refine .mute_bind fun cell => ?_
    rw [← W.before_connect (.cell cell "in") pin]
    exact .pure rfl

theorem records_readName (W : Wiring) (name : String) :
    Records s W.before (readName s env pos W name) fun r => r.2.2.before := by
  unfold readName
  split
  · exact .pure rfl
  · exact .pure rfl
  · next cell slice width _ =>
    rw [← W.before_connect (.cell slice "in") (.out cell)]
    exact .pure rfl
  · exact .throw _

/-- Addresses quote the reads that they put in front. -/
def RecordsAddresses (s : Setting) (lower : AddressLowering) : Prop :=
  ∀ sizes W, Records s W.before (lower sizes W) fun r => r.2.before

theorem RecordsAddresses.counted {lower : AddressLowering} (each : RecordsAddresses s lower) (count : Nat) :
    RecordsAddresses s (lowerCounted count lower) := by
  intro sizes W
  unfold lowerCounted
  split
  · exact .throw _
  · exact each sizes W

theorem records_finishRead (reg : String) (W : Wiring) :
    Records s W.before (finishRead s pos reg W) id :=
  .mute_bind fun _ => .mute_bind fun _ => .bind (records_enableGroup W.before _) fun _ => .pure rfl

theorem records_readMemory (reg mem : String) {lower : AddressLowering} (each : RecordsAddresses s lower) :
    Records s [] (readMemory s env pos reg mem lower) id := by
  refine .mute_bind fun m => .bind (each m.sizes {}) fun r => ?_
  rw [← r.2.before_capture m.cell r.1 .always reg]
  exact records_finishRead reg _

theorem before_captureBanks {reg : String} {select : Pin} {width : Nat} {addrs : List Pin} {W W' : Wiring}
    {k : Nat} {banks : List String} {w v : Workspace}
    (ran : (captureBanks env reg select width addrs W k banks).run w = .ok (W', v)) :
    W'.before = W.before := by
  induction banks generalizing W k w with
  | nil =>
    obtain ⟨rfl, _⟩ := run_pure_ok_iff.mp ran
    rfl
  | cons bank banks ih =>
    obtain ⟨m, _, _, ran⟩ := run_bind_ok_iff.mp ran
    obtain ⟨eq, _, _, ran⟩ := run_bind_ok_iff.mp ran
    obtain ⟨number, _, _, ran⟩ := run_bind_ok_iff.mp ran
    rw [ih ran, Wiring.before_capture, Wiring.before_connect, Wiring.before_connect]

theorem records_captureBanks (reg : String) (select : Pin) (width : Nat) (addrs : List Pin) (W : Wiring)
    (k : Nat) (banks : List String) :
    Records s W.before (captureBanks env reg select width addrs W k banks) Wiring.before := by
  intro quotes w W' v ran before
  rw [before_captureBanks ran]
  exact Records.mute W.before _ quotes w W' v ran before

theorem records_readBanks (reg : String) (banks : List String)
    {select : Nat → Wiring → Build (Pin × Wiring)} {lower : AddressLowering}
    (selects : ∀ width W, Records s W.before (select width W) fun r => r.2.before)
    (each : RecordsAddresses s lower) : Records s [] (readBanks s env pos reg banks select lower) id := by
  cases banks with
  | nil => exact .throw _
  | cons first rest =>
    refine .mute_bind fun m => .mute_bind fun last => .bind (selects _ {}) fun selected => ?_
    refine .bind (each m.sizes _) fun addrs => .bind (records_captureBanks _ _ _ _ _ _ _) fun W => ?_
    exact records_finishRead reg W

mutual

theorem records_lowerExpr {width : Nat} {W : Wiring} : (e : TypedExpr) →
    Records s W.before (lowerExpr s env pos width W e) fun r => r.2.before
  | .int .. => by
    rw [lowerExpr]
    exact .mute_bind fun pin => .pure rfl
  | .bool .. => by
    rw [lowerExpr]
    exact .mute_bind fun pin => records_adapt _ _ _ _ _
  | .var ty name => by
    rw [lowerExpr]
    exact (records_readName W name).bind fun _ => records_adapt _ _ _ _ _
  | .binop ty op lhs rhs => by
    rcases ty.static_or with ⟨n, rfl⟩ | computed
    · rw [lowerExpr]
      exact .mute_bind fun pin => .pure rfl
    · rw [lowerExpr_computed computed]
      refine (records_lowerExpr lhs).bind fun left => (records_lowerExpr rhs).bind fun right => ?_
      refine .mute_bind fun cell => ?_
      rw [← right.2.before_connect (.cell cell "left") left.1,
        ← Wiring.before_connect _ (.cell cell "right") right.1]
      exact records_adapt _ _ _ _ _
  | .mem ty mem addr => by
    rw [lowerExpr]
    have addresses : RecordsAddresses s fun sizes W => lowerAddrs s env pos W addr sizes :=
      fun _ _ => records_lowerAddrs addr
    refine .mute_bind fun reg => .bind ((records_readMemory reg mem (addresses.counted _)).after W.before) ?_
    exact fun controls => records_adapt (W.after controls) _ _ _ _
  | .muxRead ty banks select addr => by
    rw [lowerExpr]
    have addresses : RecordsAddresses s fun sizes W => lowerAddrs s env pos W addr sizes :=
      fun _ _ => records_lowerAddrs addr
    refine .mute_bind fun reg => .bind ((records_readBanks reg banks
      (fun _ _ => records_lowerExpr select) (addresses.counted _)).after W.before) ?_
    exact fun controls => records_adapt (W.after controls) _ _ _ _
  | .access .. | .app .. => by
    rw [lowerExpr]
    exact .throw _

theorem records_lowerAddrs {W : Wiring} {sizes : List Nat} : (es : List TypedExpr) →
    Records s W.before (lowerAddrs s env pos W es sizes) fun r => r.2.before
  | [] => by
    simp only [lowerAddrs]
    exact .pure rfl
  | e :: es => by
    cases sizes with
    | nil =>
      simp only [lowerAddrs]
      exact .pure rfl
    | cons size sizes =>
      rw [lowerAddrs]
      refine .mute_bind fun last => (records_lowerExpr e).bind fun pin => ?_
      exact (records_lowerAddrs es).bind fun pins => .pure rfl

end

theorem records_addressing (addr : List TypedExpr) : RecordsAddresses s (addressing s env pos addr) :=
  RecordsAddresses.counted (fun _ _ => records_lowerAddrs addr) addr.length

theorem records_readInto (reg : String) (e : TypedExpr) : Records s [] (readInto s env pos reg e) id := by
  cases e with
  | mem ty mem addr => exact records_readMemory reg mem (records_addressing addr)
  | muxRead ty banks select addr =>
    rw [readInto]
    exact records_readBanks reg banks (fun _ _ => records_lowerExpr select) (records_addressing addr)
  | _ => exact .throw _

theorem records_discard : (e : TypedExpr) → Records s [] (discard s env pos e) id
  | .binop _ _ lhs rhs => by
    rw [discard]
    refine (records_discard lhs).bind fun left => ((records_discard rhs).after left).bind fun right => ?_
    exact .pure rfl
  | .mem .. | .muxRead .. => by
    rw [discard]
    exact .mute_bind fun reg => records_readInto reg _
  | .int .. | .bool .. | .var .. | .access .. | .app .. => .pure rfl

/-! ### Commands -/

theorem records_finishGroup (group : String) (W : Wiring) :
    Records s W.before (finishGroup s pos group W) fun c => [c] :=
  .mute_bind fun _ => .bind (records_enableGroup W.before group) fun _ => .sequence rfl

theorem records_assignRegister (reg stem : String) (width : Nat) (value : TypedExpr) :
    Records s [] (assignRegister s env pos reg width stem value) fun c => [c] := by
  have computed : Records s []
      (lowerExpr s env pos width {} value >>= fun lowered => freshName stem >>= fun group =>
        finishGroup s pos group (lowered.2.latch group reg lowered.1)) fun c => [c] := by
    refine (records_lowerExpr (W := {}) value).bind fun lowered => .mute_bind fun group => ?_
    rw [← lowered.2.before_latch group reg lowered.1]
    exact records_finishGroup group _
  have captured : Records s []
      (readInto s env pos reg value >>= fun controls => pure (Control.sequence controls)) fun c => [c] :=
    (records_readInto reg value).bind fun controls => .sequence rfl
  unfold assignRegister
  cases value with
  | mem | muxRead =>
    simp only
    split
    · exact captured
    · exact computed
  | _ => exact computed

theorem records_storeMemory (mem : String) (addr : List TypedExpr) (value : TypedExpr) :
    Records s [] (storeMemory s env pos mem addr value) fun c => [c] := by
  refine .mute_bind fun m => (records_addressing addr m.sizes {}).bind fun addrs => ?_
  refine (records_lowerExpr value).bind fun data => .mute_bind fun group => ?_
  rw [← data.2.before_store group m.cell addrs.1 data.1]
  exact records_finishGroup group _

theorem records_reduceRegister (op : BinOp) (ty : Ty) (reg : String) (width : Nat) (value : TypedExpr) :
    Records s [] (reduceRegister s env pos op ty reg width value) fun c => [c] := by
  refine (records_lowerExpr (W := {}) value).bind fun right => .mute_bind fun cell => ?_
  refine .mute_bind fun group => ?_
  rw [← right.2.before_connect (.cell cell "left") (.out reg),
    ← Wiring.before_connect _ (.cell cell "right") right.1, ← Wiring.before_latch _ group reg (.out cell)]
  exact records_finishGroup group _

theorem records_reduceMemory (op : BinOp) (ty : Ty) (mem : String) (addr : List TypedExpr)
    (value : TypedExpr) : Records s [] (reduceMemory s env pos op ty mem addr value) fun c => [c] := by
  refine .mute_bind fun m => (records_addressing addr m.sizes {}).bind fun addrs => ?_
  refine .mute_bind fun old => .mute_bind fun read => .mute_bind fun _ => ?_
  -- The value is lowered into a group of its own, so what precedes it comes behind the addresses' reads.
  have lowered : Records s [] (lowerExpr s env pos m.width { assigns := addrs.2.assigns } value)
      fun r => r.2.before := records_lowerExpr value
  refine (lowered.after addrs.2.before).bind fun right => ?_
  refine .mute_bind fun cell => .mute_bind fun write => .mute_bind fun _ => ?_
  refine (records_enableGroup _ read).bind fun first => ?_
  refine (records_enableGroup _ write).bind fun second => ?_
  exact .sequence (by simp only [Wiring.before_connect, List.append_assoc, List.singleton_append])

theorem records_lowerCondition (cond : TypedExpr) :
    Records s [] (lowerCondition s env pos cond) fun r => r.2.2 := by
  refine (records_lowerExpr (W := {}) cond).bind fun lowered => ?_
  simp only
  split
  · exact .pure rfl
  · exact .mute_bind fun group => .mute_bind fun _ => .pure rfl

theorem records_lowerUpdate (target value : TypedExpr) :
    Records s [] (lowerUpdate s env pos target value) fun c => [c] := by
  cases target with
  | var ty name => exact .mute_bind fun _ => records_assignRegister _ _ _ value
  | mem ty mem addr => exact records_storeMemory mem addr value
  | _ => exact .throw _

theorem records_lowerReduce (op : BinOp) (target value : TypedExpr) :
    Records s [] (lowerReduce s env pos op target value) fun c => [c] := by
  cases target with
  | var ty name => exact .mute_bind fun _ => records_reduceRegister op ty _ _ value
  | mem ty mem addr => exact records_reduceMemory op ty mem addr value
  | _ => exact .throw _

theorem records_lowerCall (func : String) (args : List String) :
    Records s [] (lowerCall s env pos func args) fun c => [c] := by
  intro quotes w c v ran before
  obtain ⟨params, refs, cell, u, u', _, _, bound, found, rfl, rfl⟩ := lowerCall_ok ran
  have same : u'.quotes = w.quotes := (Mute.quotes_eq found).trans (Mute.quotes_eq bound)
  rw [← same] at before
  exact before.trans (.quote pos u'.quotes)

mutual

theorem records_lowerCommand {env : Env} : (cmd : TypedCommand) →
    Records s [] (lowerCommand s env cmd) fun r => [r.1]
  | .decl pos name ty => by
    rw [lowerCommand]
    exact .mute_bind fun env => .place fun _ => .rfl
  | .define pos name ty init => by
    rw [lowerCommand]
    refine .mute_bind fun cell => (records_assignRegister cell "let" ty.width init).bind fun control => ?_
    exact .pure rfl
  | .seq _ cmds => by
    rw [lowerCommand]
    exact (records_lowerSeq cmds).bind fun r => .sequence rfl
  | .branch pos cond onTrue onFalse => by
    rw [lowerCommand]
    refine (records_lowerCondition cond).bind fun tested => ?_
    refine ((records_lowerCommand onTrue).after tested.2.2).bind fun yes => ?_
    refine ((records_lowerElse onFalse).after _).bind fun no => .place fun mark => ?_
    simp [Control.marks_sequence, Control.marks]
  | .loop pos header body => by
    rw [lowerCommand]
    refine .mute_bind fun frame => (records_lowerCommand body).bind fun round => ?_
    refine (records_enableGroup _ frame.init).bind fun init => ?_
    refine (records_enableGroup _ frame.incr).bind fun incr => .mute_bind fun trips => .place fun mark => ?_
    -- The body is lowered before its loop is scheduled, and comes between the two groups of the loop.
    simp [Control.marks_sequence, Control.marks, or_left_comm]
  | .update pos target value => by
    rw [lowerCommand]
    exact (records_lowerUpdate target value).bind fun control => .pure rfl
  | .reduce pos op target value => by
    rw [lowerCommand]
    exact (records_lowerReduce op target value).bind fun control => .pure rfl
  | .eval pos e => by
    cases e with
    | app ty func args =>
      simp only [lowerCommand]
      exact (records_lowerCall func args).bind fun control => .pure rfl
    | _ =>
      simp only [lowerCommand]
      exact (records_discard _).bind fun controls => .sequence rfl
  | .advance .. => by
    rw [lowerCommand]
    exact .throw _
  | .skip _ => by
    rw [lowerCommand]
    exact .place fun _ => .rfl

theorem records_lowerSeq {env : Env} : (cmds : List TypedCommand) →
    Records s [] (lowerSeq s env cmds) Prod.fst
  | [] => .pure rfl
  | cmd :: cmds => by
    rw [lowerSeq]
    refine (records_lowerCommand cmd).bind fun first => ?_
    exact ((records_lowerSeq cmds).after [first.1]).bind fun rest => .pure rfl

theorem records_lowerElse {env : Env} : (cmd : Option TypedCommand) →
    Records s [] (lowerElse s env cmd) fun c => [c]
  | none => .place fun _ => .rfl
  | some cmd => by
    rw [lowerElse]
    exact (records_lowerCommand cmd).bind fun r => .pure rfl

end

/-! ### Components -/

theorem records_assemble (exposure : Exposure) (ds : List Decl) (instances : List String)
    (body : Option TypedCommand) : Records s [] (assemble s exposure ds instances body) fun c => [c] :=
  .mute_bind fun _ => .mute_bind fun _ => records_lowerElse body

/-- A component quotes what it schedules, behind the quotes of the components before it. -/
theorem quoted_buildComponent {name : String} {quotes quotes' : Statements} {build : Build Control}
    {c : Component} (each : Records s [] build fun control => [control])
    (built : (buildComponent name quotes build).result = .ok (c, quotes')) :
    Quoted s quotes c.control.marks quotes' := by
  obtain ⟨control, w, ran, rfl, rfl⟩ := run_buildComponent_ok built
  rw [← List.flatMap_singleton Control.marks control]
  exact each _ _ control w ran (.refl _)

theorem quoted_lowerFunctions {fs : List (Function Ty TypedExpr)} {quotes quotes' : Statements}
    {cs : List Component} (lowered : (lowerFunctions s quotes fs).result = .ok (cs, quotes')) :
    Quoted s quotes (cs.flatMap (·.control.marks)) quotes' := by
  induction fs generalizing quotes cs with
  | nil =>
    cases lowered
    exact .refl _
  | cons f fs ih =>
    simp only [lowerFunctions, Outcome.result_bind, Outcome.result_pure, bind_ok_iff,
      lowerFunction_eq] at lowered
    obtain ⟨⟨c, between⟩, first, ⟨cs, final⟩, rest, done⟩ := lowered
    cases done
    rw [List.flatMap_cons]
    exact (quoted_buildComponent (records_assemble _ _ _ _) first).trans (ih rest)

end

end Lowering

open Lowering in
/-- The table of a netlist has gained the quotes of what all its components schedule. -/
theorem BankedProgram.quoted_toNetlist {config : Config} {statements : Statements} {p : BankedProgram}
    {netlist : Netlist} (lowered : (p.toNetlist config statements).result = .ok netlist) :
    Quoted (p.setting config statements) {} (netlist.components.flatMap (·.control.marks))
      netlist.metadata := by
  obtain ⟨functions, root, quotes, quotes', first, last, rfl⟩ := toNetlist_built lowered
  rw [lowerRoot_eq] at last
  rw [List.flatMap_append, List.flatMap_singleton]
  exact (quoted_lowerFunctions first).trans (quoted_buildComponent (records_assemble _ _ _ _) last)

end BankedLoops
