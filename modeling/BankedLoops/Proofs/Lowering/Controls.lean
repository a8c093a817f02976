import BankedLoops.Proofs.Lowering.Expressions
import BankedLoops.Proofs.Lowering.Rules

/-!
# Lowered commands

A command adds legal groups, and its control enables or tests each of them once. `Planned` says so of
a list of controls; `lowerCommand_planned` is the result for every command.
-/

namespace BankedLoops

/-! ### Sequences -/

namespace Control

/-- What is collected along a schedule is collected from the items of a sequence in turn. -/
theorem collect_sequence {α : Type} {f : Control → List α} (empty : f .empty = [])
    (seq : ∀ items, f (.seq items) = items.flatMap f) (cs : List Control) :
    f (.sequence cs) = cs.flatMap f := by
  have items (c : Control) : c.items.flatMap f = f c := by
    cases c with
    | empty => exact empty.symm
    | seq cs => exact (seq cs).symm
    | _ => exact List.append_nil _
  have flat : (cs.flatMap Control.items).flatMap f = cs.flatMap f := by
    rw [List.flatMap_assoc]
    exact congrArg (cs.flatMap ·) (funext items)
  rw [← flat, sequence]
  split
  · next none => rw [none, empty]; rfl
  · next c one => rw [one]; exact (List.append_nil _).symm
  · next flat _ _ => exact seq _

theorem enablesOfSeq_eq (items : List Control) : enablesOfSeq items = items.flatMap enables := by
  induction items with
  | nil => rfl
  | cons c cs ih => rw [enablesOfSeq, ih, List.flatMap_cons]

theorem conditionsOfSeq_eq (items : List Control) :
    conditionsOfSeq items = items.flatMap conditions := by
  induction items with
  | nil => rfl
  | cons c cs ih => rw [conditionsOfSeq, ih, List.flatMap_cons]

theorem invokedOfSeq_eq (items : List Control) : invokedOfSeq items = items.flatMap invoked := by
  induction items with
  | nil => rfl
  | cons c cs ih => rw [invokedOfSeq, ih, List.flatMap_cons]

theorem enables_sequence (cs : List Control) : (sequence cs).enables = cs.flatMap enables :=
  collect_sequence rfl (fun items => enablesOfSeq_eq items) cs

theorem conditions_sequence (cs : List Control) : (sequence cs).conditions = cs.flatMap conditions :=
  collect_sequence rfl (fun items => conditionsOfSeq_eq items) cs

theorem invoked_sequence (cs : List Control) : (sequence cs).invoked = cs.flatMap invoked :=
  collect_sequence rfl (fun items => invokedOfSeq_eq items) cs

theorem conds_sequence (cs : List Control) : (sequence cs).conds = cs.flatMap conds := by
  rw [conds, conditions_sequence, List.filterMap_flatMap]
  rfl

theorem conds_branch (pin : Pin) (cond : Option String) (onTrue onFalse : Control) :
    (branch pin cond onTrue onFalse).conds = cond.toList ++ (onTrue.conds ++ onFalse.conds) := by
  cases cond <;> simp [conds, conditions]

theorem conds_loop (pin : Pin) (cond : Option String) (body : Control) (bound : Option Nat) :
    (loop pin cond body bound).conds = cond.toList ++ body.conds := by
  cases cond <;> simp [conds, conditions]

end Control

namespace Lowering

open Library (Part)

/-! ### Controls -/

/-- A tested pin carries one bit, which the group of the test computes. -/
def Tested (w : Workspace) (p : Pin) (cond : Option String) : Prop :=
  ∃ assigns, Sourced w.cells assigns p 1 ∧
    match cond with
    | none => assigns = []
    | some group => ∃ g ∈ w.groups, g.name = group ∧ g.assignments = assigns

structure LegalControl (w : Workspace) (c : Control) : Prop where
  tests : ∀ entry ∈ c.conditions, Tested w entry.1 entry.2
  invoked : ∀ name ∈ c.invoked, name ∈ w.cellNames

/-- What the controls name was added, and the groups that were added are scheduled. -/
structure Planned (exact : Prop) (w : Workspace) (cs : List Control) (v : Workspace) : Prop where
  extends_ : Extends exact w v
  legal : ∀ c ∈ cs, LegalControl v c
  schedules : Schedules w cs v

section

variable {exact : Prop} {w v u : Workspace} {cs ds : List Control}

theorem Tested.mono (grown : Extends exact w v) {p : Pin} {cond : Option String}
    (tested : Tested w p cond) : Tested v p cond := by
  obtain ⟨assigns, source, computed⟩ := tested
  refine ⟨assigns, source.mono grown.cells (List.Subset.refl _), ?_⟩
  cases cond with
  | none => exact computed
  | some group =>
    obtain ⟨g, member, computes⟩ := computed
    exact ⟨g, grown.groups.subset member, computes⟩

theorem LegalControl.mono (grown : Extends exact w v) {c : Control} (legal : LegalControl w c) :
    LegalControl v c :=
  ⟨fun entry member => (legal.tests entry member).mono grown,
    fun name member => grown.cellNames (legal.invoked name member)⟩

theorem legalControl_enable (w : Workspace) (group : String) (pos : Option Nat) :
    LegalControl w (.enable group pos) := ⟨nofun, nofun⟩

theorem legalControl_empty (w : Workspace) : LegalControl w .empty := ⟨nofun, nofun⟩

theorem legalControl_sequence (legal : ∀ c ∈ cs, LegalControl w c) :
    LegalControl w (.sequence cs) := by
  constructor
  · intro entry member
    rw [Control.conditions_sequence] at member
    obtain ⟨c, inside, isTest⟩ := List.mem_flatMap.mp member
    exact (legal c inside).tests entry isTest
  · intro name member
    rw [Control.invoked_sequence] at member
    obtain ⟨c, inside, named⟩ := List.mem_flatMap.mp member
    exact (legal c inside).invoked name named

/-- A test may run any legal controls. -/
theorem legalControl_branch {pin : Pin} {cond : Option String} {onTrue onFalse : Control}
    (test : LegalControl w (.branch pin cond .empty .empty)) (yes : LegalControl w onTrue)
    (no : LegalControl w onFalse) : LegalControl w (.branch pin cond onTrue onFalse) := by
  constructor
  · intro entry isTest
    rcases List.mem_cons.mp isTest with rfl | inside
    · exact test.tests _ List.mem_cons_self
    · exact (List.mem_append.mp inside).elim (yes.tests entry) (no.tests entry)
  · intro name isNamed
    exact (List.mem_append.mp isNamed).elim (yes.invoked name) (no.invoked name)

theorem legalControl_loop {pin : Pin} {cond : Option String} {body round : Control}
    {bound : Option Nat} (test : LegalControl w (.loop pin cond body bound))
    (legal : LegalControl w round) : LegalControl w (.loop pin cond round bound) := by
  refine ⟨?_, legal.invoked⟩
  intro entry isTest
  rcases List.mem_cons.mp isTest with rfl | inside
  · exact test.tests _ List.mem_cons_self
  · exact legal.tests entry inside

namespace Schedules

/-- Only how often a group is enabled or tested matters. -/
theorem congr (scheduled : Schedules w cs v)
    (enables : (cs.flatMap Control.enables).Perm (ds.flatMap Control.enables))
    (conds : (cs.flatMap Control.conds).Perm (ds.flatMap Control.conds)) : Schedules w ds v where
  enables := fun name => by rw [← enables.count_eq, scheduled.enables]
  conds := fun name => by rw [← conds.count_eq, scheduled.conds]

theorem sequence (scheduled : Schedules w cs v) : Schedules w [.sequence cs] v := by
  refine scheduled.congr (.of_eq ?_) (.of_eq ?_)
  · rw [List.flatMap_singleton, Control.enables_sequence]
  · rw [List.flatMap_singleton, Control.conds_sequence]

/-- A group that computes a condition. -/
theorem test {g : Group} (combinational : g.isStatic = false) (groups : v.groups = w.groups ++ [g])
    {c : Control} (enables : c.enables = []) (conds : c.conds = [g.name]) : Schedules w [c] v := by
  constructor
  · intro name
    simp [Workspace.scheduled, groups, combinational, enables]
  · intro name
    simp [Workspace.scheduled, groups, combinational, conds]

end Schedules

namespace Planned

theorem refl (legal : w.Legal exact) : Planned exact w [] w :=
  ⟨legal.extends_refl, nofun, .of_groups rfl⟩

theorem of_extends (grown : Extends exact w v) (groups : v.groups = w.groups) :
    Planned exact w [] v :=
  ⟨grown, nofun, .of_groups groups⟩

theorem trans (first : Planned exact w cs v) (second : Planned exact v ds u) :
    Planned exact w (cs ++ ds) u := by
  refine ⟨first.extends_.trans second.extends_, ?_, first.schedules.trans second.schedules⟩
  intro c member
  rcases List.mem_append.mp member with early | late
  · exact (first.legal c early).mono second.extends_
  · exact second.legal c late

/-- Controls name no quotes. -/
theorem quote (planned : Planned exact w cs v) (s : Setting) (pos : Nat) :
    Planned exact w cs (v.quote s pos) where
  extends_ := planned.extends_.quote s pos
  legal := fun c member => ⟨(planned.legal c member).tests, (planned.legal c member).invoked⟩
  schedules := planned.schedules.quote s pos

theorem sequence (planned : Planned exact w cs v) : Planned exact w [.sequence cs] v := by
  refine ⟨planned.extends_, ?_, planned.schedules.sequence⟩
  intro c member
  rw [List.mem_singleton.mp member]
  exact legalControl_sequence planned.legal

/-- A control that names no group. -/
theorem free (planned : Planned exact w [] v) {c : Control} (legal : LegalControl v c)
    (enables : c.enables = []) (conds : c.conds = []) : Planned exact w [c] v := by
  refine ⟨planned.extends_, ?_, planned.schedules.congr (.of_eq ?_) (.of_eq ?_)⟩
  · intro other member
    rw [List.mem_singleton.mp member]
    exact legal
  · rw [List.flatMap_singleton, enables]
    rfl
  · rw [List.flatMap_singleton, conds]
    rfl

/-- The same groups in another order. -/
theorem perm (planned : Planned exact w cs v) (same : cs.Perm ds) : Planned exact w ds v :=
  ⟨planned.extends_, fun c member => planned.legal c (same.mem_iff.mpr member),
    planned.schedules.congr (same.flatMap_right _) (same.flatMap_right _)⟩

theorem enable {g : Group} (grown : Extends exact w v) (static : g.isStatic = true)
    (groups : v.groups = w.groups ++ [g]) (pos : Option Nat) :
    Planned exact w [.enable g.name pos] v := by
  refine ⟨grown, ?_, .enable static groups pos⟩
  intro c member
  rw [List.mem_singleton.mp member]
  exact legalControl_enable _ _ _

/-- Two plans behind that of a test become its branches. -/
theorem branch {pin : Pin} {cond : Option String} {onTrue onFalse : Control} {taken : Workspace}
    (test : Planned exact w (cs ++ [.branch pin cond .empty .empty]) v)
    (yes : Planned exact v [onTrue] taken) (no : Planned exact taken [onFalse] u) :
    Planned exact w (cs ++ [.branch pin cond onTrue onFalse]) u := by
  have all := test.trans (yes.trans no)
  refine ⟨all.extends_, ?_, all.schedules.congr (.of_eq ?_) (.of_eq ?_)⟩
  · intro c member
    rcases List.mem_append.mp member with early | late
    · exact all.legal c (List.mem_append_left _ (List.mem_append_left _ early))
    · rw [List.mem_singleton.mp late]
      exact legalControl_branch (all.legal (.branch pin cond .empty .empty) (by simp))
        (all.legal onTrue (by simp)) (all.legal onFalse (by simp))
  · simp [Control.enables]
  · simp [Control.conds_branch, show Control.empty.conds = [] from rfl]

/-- A plan behind that of a loop becomes the front of its round. -/
theorem round {init : Control} {pin : Pin} {cond : Option String} {body rest : Control}
    {bound : Option Nat} (frame : Planned exact w [init, .loop pin cond rest bound] v)
    (inner : Planned exact v [body] u) :
    Planned exact w [init, .loop pin cond (.sequence [body, rest]) bound] u := by
  have all := frame.trans inner
  refine ⟨all.extends_, ?_, all.schedules.congr ?_ ?_⟩
  · intro c member
    rcases List.mem_cons.mp member with rfl | late
    · exact all.legal c (by simp)
    · rw [List.mem_singleton.mp late]
      have legalLoop := all.legal (.loop pin cond rest bound) (by simp)
      refine legalControl_loop legalLoop (legalControl_sequence ?_)
      intro c member
      rcases List.mem_cons.mp member with rfl | member
      · exact all.legal c (by simp)
      · rw [List.mem_singleton.mp member]
        exact ⟨fun entry inside => legalLoop.tests entry (List.mem_cons_of_mem _ inside),
          legalLoop.invoked⟩
  · simp only [List.flatMap_append, List.flatMap_cons, List.flatMap_nil, List.append_nil,
      Control.enables, Control.enables_sequence]
    rw [List.append_assoc]
    exact List.Perm.append_left _ List.perm_append_comm
  · simp only [List.flatMap_append, List.flatMap_cons, List.flatMap_nil, List.append_nil,
      Control.conds_loop, Control.conds_sequence, List.append_assoc]
    exact List.Perm.append_left _ (List.Perm.append_left _ List.perm_append_comm)

end Planned

theorem Hoisted.planned (hoisted : Hoisted exact w cs v) : Planned exact w cs v := by
  refine ⟨hoisted.extends_, ?_, hoisted.schedules⟩
  intro c member
  obtain ⟨group, pos, rfl⟩ := hoisted.enabling c member
  exact legalControl_enable _ _ _

theorem Lowered.planned {env : Env} {W : Wiring} (lowered : Lowered exact env w {} v W) :
    Planned exact w W.before v := by
  obtain ⟨cs, before, enabling, scheduled⟩ := lowered.before
  rw [before, List.nil_append]
  exact Hoisted.planned ⟨lowered.extends_, enabling, scheduled⟩

end

/-! ### Groups that end in a register or a memory -/

section

variable {exact : Prop} {env : Env} {cells : List Cell} {W : Wiring}

theorem legalGroup_latch (wired : LegalWiring cells env W) {reg : String} {width bits : Nat}
    (isRegister : partOf? cells reg = some (.register width)) {data : Pin}
    (source : Sourced cells W.assigns data bits) (fits : exact → bits = width) (group : String) :
    (W.latch group reg data).assigns = W.assigns ++ latchWires group reg data ∧
      LegalGroup exact cells ⟨group, some 1, W.assigns ++ latchWires group reg data⟩ := by
  have more : W.assigns ⊆ W.assigns ++ latchWires group reg data := List.subset_append_left _ _
  rw [Wiring.latch_eq]
  refine legalGroup_of_clocked wired ?_ (by simp [latchWires, Pin.done]) _
  intro a member
  simp only [latchWires, List.mem_cons, List.not_mem_nil, or_false] at member
  rcases member with rfl | rfl | rfl
  · refine .port isRegister rfl (show "in" ∉ ["out", "done"] by decide)
      (source.mono List.prefix_rfl more) ?_ (List.forall_mem_nil _)
    intro known
    rw [fits known]
    exact List.mem_cons_self
  · exact clocked_high isRegister rfl (show "write_en" ∉ ["out", "done"] by decide)
      (List.mem_cons_of_mem _ List.mem_cons_self) (List.forall_mem_nil _)
  · exact .done (.output isRegister (List.mem_cons_of_mem _ List.mem_cons_self) (by rintro ⟨⟩))

theorem dst_storeWires (group mem : String) (addrs : List Pin) (data : Pin) :
    ((storeWires group mem addrs data).map (·.dst)).Nodup := by
  rw [storeWires, List.map_append]
  refine List.nodup_append.mpr ⟨dst_addressWires _ _ _, by simp [Pin.done], ?_⟩
  rintro p address p' others rfl
  obtain ⟨a, member, rfl⟩ := List.mem_map.mp address
  obtain ⟨k, _, _, rfl⟩ := mem_addressWires.mp member
  have apart (port : String) (other : port.toList.head? ≠ some 'a') := addressPort_ne other k
  simp only [List.map_cons, List.map_nil, List.mem_cons, List.not_mem_nil, or_false, Pin.cell.injEq,
    true_and, Pin.done, reduceCtorEq] at others
  rcases others with same | same
  · exact apart _ (by decide) same
  · exact apart _ (by decide) same

theorem legalGroup_store (wired : LegalWiring cells env W) {m : Memory}
    (stored : Stored cells (.memory m)) {addrs : List Pin}
    (sources : List.Forall₂ (fun p size => Sourced cells W.assigns p (bitsNeeded (size - 1)))
      addrs m.sizes)
    {data : Pin} {bits : Nat} (source : Sourced cells W.assigns data bits)
    (fits : exact → bits = m.width) (group : String) :
    (W.store group m.cell addrs data).assigns = W.assigns ++ storeWires group m.cell addrs data ∧
      LegalGroup exact cells ⟨group, some 1, W.assigns ++ storeWires group m.cell addrs data⟩ := by
  have more : W.assigns ⊆ W.assigns ++ storeWires group m.cell addrs data :=
    List.subset_append_left _ _
  rw [Wiring.store_eq]
  refine legalGroup_of_clocked wired ?_ (dst_storeWires _ _ _ _) _
  intro a member
  rcases List.mem_append.mp member with address | others
  · exact clocked_address stored (sources.imp fun _ _ source => source.mono List.prefix_rfl more)
      (fun _ => rfl) (List.forall_mem_nil _) a address
  · cases stored with
    | memory found =>
      simp only [List.mem_cons, List.not_mem_nil, or_false] at others
      rcases others with rfl | rfl | rfl
      · refine .port found rfl
          (show "write_data" ∉ ["read_data", "read_done", "write_done"] by decide)
          (source.mono List.prefix_rfl more) ?_ (List.forall_mem_nil _)
        intro known
        rw [fits known]
        exact List.mem_cons_of_mem _ List.mem_cons_self
      · exact clocked_high found rfl
          (show "write_en" ∉ ["read_data", "read_done", "write_done"] by decide)
          (List.mem_cons_of_mem _ (List.mem_cons_of_mem _ List.mem_cons_self)) (List.forall_mem_nil _)
      · exact .done (.output found
          (List.mem_cons_of_mem _ (List.mem_cons_of_mem _ List.mem_cons_self)) nofun)

end

/-! ### Assignments -/

section

variable {exact : Prop} {slots : Slots} {env : Env} {s : Setting} {pos : Nat} {w v : Workspace}

theorem addressing_lowers (matched : Matches slots env) {addr : List TypedExpr} (tidy : TidyAll addr)
    (typed : exact → PhysicalAll slots addr) : LowersPins exact env (addressing s env pos addr) :=
  lowerCounted_lowers fun sizes => lowerAddrs_lowered matched addr tidy typed sizes

theorem readInto_hoisted {e : TypedExpr} {reg : String} {controls : List Control}
    (legal : w.Legal exact) (named : LegalEnv w.cells env) (matched : Matches slots env)
    (tidy : Tidy e) (typed : exact → Physical slots e)
    (isRegister : partOf? w.cells reg = some (.register e.ty.width))
    (ran : (readInto s env pos reg e).run w = .ok (controls, v)) : Hoisted exact w controls v := by
  cases e with
  | mem ty mem addr =>
    exact readMemory_hoisted legal named
      (addressing_lowers matched tidy fun known => by
        cases typed known
        assumption)
      isRegister (fun known => (typed known).width_of_mem matched) ran
  | muxRead ty banks select addr =>
    exact readBanks_hoisted legal named
      (fun width => lowerExpr_lowered matched width select tidy.2.1 fun known => by
        cases typed known
        assumption)
      (addressing_lowers matched tidy.2.2 fun known => by
        cases typed known
        assumption)
      tidy.1 isRegister (fun known => (typed known).alike_of_muxRead matched) ran
  | _ => cases ran

/-- Reads into fresh registers that nothing uses. -/
theorem discard_hoisted (matched : Matches slots env) : {e : TypedExpr} → {controls : List Control} →
    {w v : Workspace} → w.Legal exact → LegalEnv w.cells env → Tidy e → (exact → Physical slots e) →
    (discard s env pos e).run w = .ok (controls, v) → Hoisted exact w controls v
  | .binop ty op lhs rhs, controls, w, v, legal, named, tidy, typed, ran => by
    obtain ⟨left, between, first, ran⟩ := run_bind_ok_iff.mp ran
    obtain ⟨right, later, second, ran⟩ := run_bind_ok_iff.mp ran
    cases ran
    have early := discard_hoisted matched legal named tidy.1 (fun known => by
      cases typed known
      assumption) first
    have late := discard_hoisted matched early.extends_.legal (named.mono early.extends_.cells) tidy.2
      (fun known => by
        cases typed known
        assumption) second
    refine ⟨early.extends_.trans late.extends_, ?_, early.schedules.trans late.schedules⟩
    intro c member
    rcases List.mem_append.mp member with inLeft | inRight
    · exact early.enabling c inLeft
    · exact late.enabling c inRight
  | .mem ty mem addr, controls, w, v, legal, named, tidy, typed, ran => by
    obtain ⟨reg, between, added, ran⟩ := run_bind_ok_iff.mp ran
    have installs := addPrimitive_installs (.register ty.width) legal rfl nofun added
    have grown := installs.extends_
    have hoisted := readInto_hoisted (e := .mem ty mem addr) grown.legal (named.mono grown.cells)
      matched tidy typed installs.found ran
    exact ⟨grown.trans hoisted.extends_, hoisted.enabling,
      (Schedules.of_groups installs.groups).trans hoisted.schedules⟩
  | .muxRead ty banks select addr, controls, w, v, legal, named, tidy, typed, ran => by
    obtain ⟨reg, between, added, ran⟩ := run_bind_ok_iff.mp ran
    have installs := addPrimitive_installs (.register ty.width) legal rfl nofun added
    have grown := installs.extends_
    have hoisted := readInto_hoisted (e := .muxRead ty banks select addr) grown.legal
      (named.mono grown.cells) matched tidy typed installs.found ran
    exact ⟨grown.trans hoisted.extends_, hoisted.enabling,
      (Schedules.of_groups installs.groups).trans hoisted.schedules⟩
  | .int .., _, _, _, legal, _, _, _, ran | .bool .., _, _, _, legal, _, _, _, ran
  | .var .., _, _, _, legal, _, _, _, ran | .access .., _, _, _, legal, _, _, _, ran
  | .app .., _, _, _, legal, _, _, _, ran => by
    cases ran
    exact ⟨legal.extends_refl, nofun, .of_groups rfl⟩

/-- A group that was just named, behind what must run before it. -/
theorem finishGroup_planned {group : String} {W : Wiring} {control : Control} {named : Workspace}
    (legal : w.Legal exact) (takes : Takes w group named)
    (closed : LegalGroup exact w.cells ⟨group, some 1, W.assigns⟩)
    (ran : (finishGroup s pos group W).run named = .ok (control, v)) :
    control = .sequence (W.before ++ [s.enable group pos]) ∧
      Planned exact w [s.enable group pos] v := by
  cases ran
  obtain ⟨grown, groups⟩ := Takes.addGroup (g := ⟨group, some 1, W.assigns⟩) takes legal closed
  have enabled : Planned exact w [s.enable group pos] { named with groups := named.groups ++ [_] } :=
    .enable (g := ⟨group, some 1, W.assigns⟩) grown rfl groups _
  exact ⟨rfl, enabled.quote s pos⟩

theorem assignRegister_planned {reg stem : String} {width : Nat} {value : TypedExpr}
    {control : Control} (legal : w.Legal exact) (named : LegalEnv w.cells env)
    (matched : Matches slots env) (tidy : Tidy value) (typed : exact → Physical slots value)
    (isRegister : partOf? w.cells reg = some (.register width))
    (ran : (assignRegister s env pos reg width stem value).run w = .ok (control, v)) :
    Planned exact w [control] v := by
  have computed (ran : (do
      let lowered ← lowerExpr s env pos width {} value
      let group ← freshName stem
      finishGroup s pos group (lowered.2.latch group reg lowered.1)).run w = .ok (control, v)) :
      Planned exact w [control] v := by
    obtain ⟨⟨pin, W⟩, lowered_, lowering, ran⟩ := run_bind_ok_iff.mp ran
    obtain ⟨group, given, naming, ran⟩ := run_bind_ok_iff.mp ran
    obtain ⟨lowered, source⟩ := lowerExpr_lowered matched width value tidy typed _ _ _ _ _ legal named
      (legalWiring_empty _ _) lowering
    have grown := lowered.extends_
    obtain ⟨assigns, closed⟩ := legalGroup_latch lowered.wired
      (partOf?_of_isPrefix grown.cells isRegister) source (fun _ => rfl) group
    obtain ⟨rfl, planned⟩ := finishGroup_planned grown.legal (freshName_takes naming)
      (by rw [assigns]; exact closed) ran
    rw [Wiring.latch_eq, Wiring.before_assignAll]
    exact (lowered.planned.trans planned).sequence
  have direct {controls : List Control} {u : Workspace} (same : value.ty.width = width)
      (reading : (readInto s env pos reg value).run w = .ok (controls, u)) :
      Planned exact w [.sequence controls] u :=
    (readInto_hoisted legal named matched tidy typed (same ▸ isRegister) reading).planned.sequence
  unfold assignRegister at ran
  split at ran
  · split at ran
    · next same =>
      obtain ⟨controls, between, reading, rest⟩ := run_bind_ok_iff.mp ran
      cases rest
      exact direct same reading
    · exact computed ran
  · split at ran
    · next same =>
      obtain ⟨controls, between, reading, rest⟩ := run_bind_ok_iff.mp ran
      cases rest
      exact direct same reading
    · exact computed ran
  · exact computed ran

theorem storeMemory_planned {mem : String} {addr : List TypedExpr} {value : TypedExpr}
    {control : Control} (legal : w.Legal exact) (named : LegalEnv w.cells env)
    (matched : Matches slots env) (tidyAddr : TidyAll addr) (typedAddr : exact → PhysicalAll slots addr)
    (tidy : Tidy value) (typed : exact → Physical slots value)
    (ran : (storeMemory s env pos mem addr value).run w = .ok (control, v)) :
    Planned exact w [control] v := by
  obtain ⟨m, _, looked, ran⟩ := run_bind_ok_iff.mp ran
  obtain ⟨found, rfl⟩ := memoryOf_ok looked
  obtain ⟨⟨addrs, W⟩, addressed, placing, ran⟩ := run_bind_ok_iff.mp ran
  obtain ⟨⟨data, W'⟩, computed, lowering, ran⟩ := run_bind_ok_iff.mp ran
  obtain ⟨group, given, naming, ran⟩ := run_bind_ok_iff.mp ran
  obtain ⟨placed, sources⟩ := addressing_lowers matched tidyAddr typedAddr _ _ _ _ _ _ legal named
    (legalWiring_empty _ _) placing
  obtain ⟨lowered, source⟩ := lowerExpr_lowered matched m.width value tidy typed _ _ _ _ _
    placed.extends_.legal (named.mono placed.extends_.cells) placed.wired lowering
  have grown := placed.extends_.trans lowered.extends_
  obtain ⟨assigns, closed⟩ := legalGroup_store lowered.wired
    ((named.stored mem _ found).mono grown.cells)
    (sources.imp fun _ _ source => source.mono lowered.extends_.cells lowered.more) source
    (fun _ => rfl) group
  obtain ⟨rfl, planned⟩ := finishGroup_planned grown.legal (freshName_takes naming)
    (by rw [assigns]; exact closed) ran
  rw [Wiring.store_eq, Wiring.before_assignAll]
  exact ((placed.trans lowered).planned.trans planned).sequence

theorem reduceRegister_planned {op : BinOp} {ty : Ty} {reg : String} {width : Nat}
    {value : TypedExpr} {control : Control} (legal : w.Legal exact) (named : LegalEnv w.cells env)
    (matched : Matches slots env) (tidy : Tidy value) (typed : exact → Physical slots value)
    (numeric : exact → op.isComparison = false)
    (isRegister : partOf? w.cells reg = some (.register width))
    (ran : (reduceRegister s env pos op ty reg width value).run w = .ok (control, v)) :
    Planned exact w [control] v := by
  obtain ⟨⟨right, W⟩, computed, lowering, ran⟩ := run_bind_ok_iff.mp ran
  obtain ⟨cell, operated, operating, ran⟩ := run_bind_ok_iff.mp ran
  obtain ⟨group, given, naming, ran⟩ := run_bind_ok_iff.mp ran
  obtain ⟨lowered, source⟩ := lowerExpr_lowered matched width value tidy typed _ _ _ _ _ legal named
    (legalWiring_empty _ _) lowering
  have old : Sourced computed.cells W.assigns (.out reg) width :=
    .register (partOf?_of_isPrefix lowered.extends_.cells isRegister)
  obtain ⟨combined, result⟩ := operate_lowered lowered.extends_.legal
    (named.mono lowered.extends_.cells) lowered.wired old source operating
  have grown := lowered.extends_.trans combined.extends_
  obtain ⟨assigns, closed⟩ := legalGroup_latch combined.wired
    (partOf?_of_isPrefix grown.cells isRegister) result
    (fun known => by rw [numeric known]; rfl) group
  obtain ⟨rfl, planned⟩ := finishGroup_planned grown.legal (freshName_takes naming)
    (by rw [assigns]; exact closed) ran
  rw [Wiring.latch_eq, Wiring.before_assignAll]
  exact ((lowered.trans combined).planned.trans planned).sequence

/-- The group that reads the old element. It holds the wires of the addresses only, which serve the
write as well. -/
def oldGroup (read mem : String) (assigns : List Assignment) (addrs : List Pin) (old : String) : Group :=
  let reading : Wiring := { assigns }
  ⟨read, some 2, ((reading.capture mem addrs .always old).connect (.done read) (.cell old "done")).assigns⟩

theorem oldGroup_extends {old read : String} {m : Memory} {addrs : List Pin} {W : Wiring}
    {registered readNamed added : Workspace} (legal : w.Legal exact) (wired : LegalWiring w.cells env W)
    (stored : Stored w.cells (.memory m))
    (sources : List.Forall₂ (fun p size => Sourced w.cells W.assigns p (bitsNeeded (size - 1)))
      addrs m.sizes)
    (adding : (addFreshRegister "r" m.width).run w = .ok (old, registered))
    (naming : (freshName "read").run registered = .ok (read, readNamed))
    (closing : (addGroup read (some 2) (oldGroup read m.cell W.assigns addrs old).assignments).run
      readNamed = .ok ((), added)) :
    Installs exact w old (.register m.width) registered ∧ Extends exact registered added ∧
      added.groups = registered.groups ++ [oldGroup read m.cell W.assigns addrs old] ∧
      LegalWiring added.cells env { assigns := W.assigns } := by
  cases closing
  have installs := addPrimitive_installs (.register m.width) legal rfl nofun adding
  have grown := installs.extends_
  have shared : LegalWiring registered.cells env { assigns := W.assigns } := by
    have kept := wired.mono grown.cells
    exact ⟨kept.links, kept.distinct, kept.slices⟩
  obtain ⟨assigns, closed⟩ := legalGroup_read shared (stored.mono grown.cells) installs.found
    (fun _ => rfl)
    (sources.imp fun _ _ source => source.mono grown.cells (List.Subset.refl W.assigns)) read
  rw [← assigns, ← capture_connect] at closed
  obtain ⟨readGrown, readGroups⟩ := Takes.addGroup (g := oldGroup read m.cell W.assigns addrs old)
    (freshName_takes naming) grown.legal closed
  exact ⟨installs, readGrown, readGroups, shared.mono readGrown.cells⟩

/-- What runs before the addresses runs first. -/
theorem reduceMemory_planned {op : BinOp} {ty : Ty} {mem : String} {addr : List TypedExpr}
    {value : TypedExpr} {control : Control} (legal : w.Legal exact) (named : LegalEnv w.cells env)
    (matched : Matches slots env) (tidyAddr : TidyAll addr) (typedAddr : exact → PhysicalAll slots addr)
    (tidy : Tidy value) (typed : exact → Physical slots value)
    (numeric : exact → op.isComparison = false)
    (ran : (reduceMemory s env pos op ty mem addr value).run w = .ok (control, v)) :
    Planned exact w [control] v := by
  obtain ⟨m, _, looked, ran⟩ := run_bind_ok_iff.mp ran
  obtain ⟨found, rfl⟩ := memoryOf_ok looked
  obtain ⟨⟨addrs, W⟩, addressed, placing, ran⟩ := run_bind_ok_iff.mp ran
  obtain ⟨old, registered, adding, ran⟩ := run_bind_ok_iff.mp ran
  obtain ⟨read, readNamed, readNaming, ran⟩ := run_bind_ok_iff.mp ran
  obtain ⟨_, readAdded, readAdding, ran⟩ := run_bind_ok_iff.mp ran
  obtain ⟨⟨right, W'⟩, computed, lowering, ran⟩ := run_bind_ok_iff.mp ran
  obtain ⟨cell, operated, operating, ran⟩ := run_bind_ok_iff.mp ran
  obtain ⟨write, writeNamed, writeNaming, ran⟩ := run_bind_ok_iff.mp ran
  cases ran
  obtain ⟨placed, sources⟩ := addressing_lowers matched tidyAddr typedAddr _ _ _ _ _ _ legal named
    (legalWiring_empty _ _) placing
  have stored := named.stored mem _ found
  obtain ⟨installs, readGrown, readGroups, shared⟩ := oldGroup_extends placed.extends_.legal placed.wired
    (stored.mono placed.extends_.cells) sources adding readNaming readAdding
  have toRead := placed.extends_.trans (installs.extends_.trans readGrown)
  have reading : Planned exact addressed [s.enable read pos] _ :=
    (Planned.of_extends installs.extends_ installs.groups).trans (.enable readGrown rfl readGroups _)
  obtain ⟨lowered, source⟩ := lowerExpr_lowered matched m.width value tidy typed _ _ _ _ _
    readGrown.legal (named.mono toRead.cells) shared lowering
  have previous : Sourced computed.cells W'.assigns (.out old) m.width :=
    .register (partOf?_of_isPrefix (readGrown.trans lowered.extends_).cells installs.found)
  obtain ⟨combined, result⟩ := operate_lowered lowered.extends_.legal
    (named.mono (toRead.trans lowered.extends_).cells) lowered.wired previous source operating
  have writing := lowered.trans combined
  have grown := toRead.trans writing.extends_
  have sources' := sources.imp fun _ _ source => source.mono
    (installs.extends_.trans (readGrown.trans writing.extends_)).cells writing.more
  obtain ⟨writeAssigns, writeClosed⟩ := legalGroup_store writing.wired (stored.mono grown.cells) sources'
    result (fun known => by rw [numeric known]; rfl) write
  obtain ⟨writeGrown, writeGroups⟩ := Takes.addGroup (g := ⟨write, some 1, _⟩)
    (freshName_takes writeNaming) grown.legal writeClosed
  rw [← writeAssigns] at writeGrown writeGroups
  have storing : Planned exact operated [s.enable write pos] _ := .enable writeGrown rfl writeGroups _
  obtain ⟨cs, before, enabling, scheduled⟩ := writing.before
  have hoisted : Planned exact _ cs operated := Hoisted.planned ⟨writing.extends_, enabling, scheduled⟩
  rw [List.nil_append] at before
  rw [before]
  have planned := placed.planned.trans (reading.trans (hoisted.trans storing))
  refine (((planned.quote s pos).quote s pos).perm ?_).sequence
  -- the reads of the value were wired after the read group, but run before it
  rw [List.append_assoc W.before cs, List.singleton_append]
  exact List.Perm.append_left _ List.perm_middle.symm

theorem registerOf_ok {name cell : String} {width : Nat}
    (ran : (registerOf env name).run w = .ok ((cell, width), v)) :
    env.get? name = some (.register cell width) ∧ w = v := by
  unfold registerOf at ran
  split at ran
  · next found =>
    cases ran
    exact ⟨found, rfl⟩
  · cases ran

theorem LegalEnv.register (named : LegalEnv w.cells env) {name cell : String} {width : Nat}
    (found : env.get? name = some (.register cell width)) :
    partOf? w.cells cell = some (.register width) := by
  cases named.stored name _ found with
  | register isRegister => exact isRegister

theorem lowerUpdate_planned {target value : TypedExpr} {control : Control} (legal : w.Legal exact)
    (named : LegalEnv w.cells env) (matched : Matches slots env) (tidyTarget : Tidy target)
    (typedTarget : exact → Physical slots target) (tidy : Tidy value)
    (typed : exact → Physical slots value)
    (ran : (lowerUpdate s env pos target value).run w = .ok (control, v)) :
    Planned exact w [control] v := by
  cases target with
  | var ty name =>
    obtain ⟨⟨cell, width⟩, _, looked, ran⟩ := run_bind_ok_iff.mp ran
    obtain ⟨found, rfl⟩ := registerOf_ok looked
    exact assignRegister_planned legal named matched tidy typed (named.register found) ran
  | mem ty mem addr =>
    exact storeMemory_planned legal named matched tidyTarget (fun known => by
      cases typedTarget known
      assumption) tidy typed ran
  | _ => cases ran

theorem lowerReduce_planned {op : BinOp} {target value : TypedExpr} {control : Control}
    (legal : w.Legal exact) (named : LegalEnv w.cells env) (matched : Matches slots env)
    (tidyTarget : Tidy target) (typedTarget : exact → Physical slots target) (tidy : Tidy value)
    (typed : exact → Physical slots value) (numeric : exact → op.isComparison = false)
    (ran : (lowerReduce s env pos op target value).run w = .ok (control, v)) :
    Planned exact w [control] v := by
  cases target with
  | var ty name =>
    obtain ⟨⟨cell, width⟩, _, looked, ran⟩ := run_bind_ok_iff.mp ran
    obtain ⟨found, rfl⟩ := registerOf_ok looked
    exact reduceRegister_planned legal named matched tidy typed numeric (named.register found) ran
  | mem ty mem addr =>
    exact reduceMemory_planned legal named matched tidyTarget (fun known => by
      cases typedTarget known
      assumption) tidy typed numeric ran
  | _ => cases ran

/-! ### Conditions and calls -/

/-- The condition is tested by a control that schedules its group. -/
theorem lowerCondition_planned {cond : TypedExpr} {pin : Pin} {group : Option String}
    {before : List Control} (legal : w.Legal exact) (named : LegalEnv w.cells env)
    (matched : Matches slots env) (tidy : Tidy cond) (typed : exact → Physical slots cond)
    (ran : (lowerCondition s env pos cond).run w = .ok ((pin, group, before), v)) :
    Planned exact w (before ++ [.branch pin group .empty .empty]) v := by
  have tests (c : Pin × Option String) (tested : Tested v c.1 c.2) :
      LegalControl v (.branch c.1 c.2 .empty .empty) := by
    refine ⟨?_, nofun⟩
    intro entry member
    rw [List.mem_singleton.mp member]
    exact tested
  obtain ⟨⟨pin', W⟩, computed, lowering, ran⟩ := run_bind_ok_iff.mp ran
  obtain ⟨lowered, source⟩ := lowerExpr_lowered matched 1 cond tidy typed _ _ _ _ _ legal named
    (legalWiring_empty _ _) lowering
  dsimp only at ran
  split at ran
  · next isEmpty =>
    cases ran
    rw [List.isEmpty_iff.mp isEmpty] at source
    exact lowered.planned.trans ((Planned.refl lowered.extends_.legal).free
      (tests (pin, none) ⟨[], source, rfl⟩) rfl rfl)
  · obtain ⟨name, given, naming, ran⟩ := run_bind_ok_iff.mp ran
    cases ran
    have closed : LegalGroup exact computed.cells ⟨name, none, W.assigns⟩ :=
      ⟨fun a member => .inl (lowered.wired.links a member),
        fun p => .inl (length_drivers_le lowered.wired.distinct p)⟩
    obtain ⟨grown, groups⟩ :=
      Takes.addGroup (g := ⟨name, none, W.assigns⟩) (freshName_takes naming) lowered.extends_.legal closed
    refine lowered.planned.trans ⟨grown, ?_, .test (g := ⟨name, none, W.assigns⟩) rfl groups rfl rfl⟩
    intro c member
    rw [List.mem_singleton.mp member]
    exact tests (pin, some name) ⟨W.assigns, source.mono grown.cells (List.Subset.refl _), _,
      List.mem_append_right _ List.mem_cons_self, rfl, rfl⟩

theorem bindArguments_mem {params args : List String} {refs : List (String × String)}
    (named : LegalEnv w.cells env) (ran : (bindArguments env params args).run w = .ok (refs, v)) :
    w = v ∧ ∀ name ∈ refs.map Prod.snd, name ∈ w.cellNames := by
  induction params generalizing args refs v with
  | nil =>
    cases ran
    exact ⟨rfl, nofun⟩
  | cons param params ih =>
    cases args with
    | nil =>
      cases ran
      exact ⟨rfl, nofun⟩
    | cons arg args =>
      obtain ⟨m, _, looked, ran⟩ := run_bind_ok_iff.mp ran
      obtain ⟨found, rfl⟩ := memoryOf_ok looked
      obtain ⟨rest, between, others, ran⟩ := run_bind_ok_iff.mp ran
      cases ran
      obtain ⟨rfl, inside⟩ := ih others
      refine ⟨rfl, ?_⟩
      intro name member
      rcases List.mem_cons.mp member with rfl | member
      · exact (named.stored arg _ found).mem _ List.mem_cons_self
      · exact inside name member

theorem lowerCall_planned {func : String} {args : List String} {control : Control}
    (legal : w.Legal exact) (named : LegalEnv w.cells env)
    (ran : (lowerCall s env pos func args).run w = .ok (control, v)) :
    Planned exact w [control] v := by
  obtain ⟨_, refs, cell, _, _, _, _, binding, instantiating, rfl, rfl⟩ := lowerCall_ok ran
  obtain ⟨rfl, inside⟩ := bindArguments_mem named binding
  obtain ⟨grown, groups, member⟩ := instanceOf_legal legal instantiating
  refine ((Planned.of_extends grown groups).quote s pos).free ⟨nofun, ?_⟩ rfl rfl
  intro name isNamed
  rcases List.mem_cons.mp isNamed with rfl | isNamed
  · exact member
  · exact grown.cellNames (inside name isNamed)

end

end Lowering

end BankedLoops
