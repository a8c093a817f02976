import BankedLoops.Proofs.Lowering.Netlists

/-!
# Flat schedules

Putting controls in sequence flattens one level: a sequence gives its items and an empty control
nothing. On normal controls, which have nothing left to flatten, this is associative and keeps a
single control as it is. Lowering never builds a control that is not normal, so one level is enough
at every place where controls are put in sequence.
-/

namespace BankedLoops

namespace Control

/-- What a flat sequence consists of: neither empty controls nor sequences. -/
def isItem : Control → Bool
  | .empty | .seq _ => false
  | _ => true

/-- Every sequence in the control is flat and has two items at least. -/
inductive Normal : Control → Prop where
  | empty : Normal .empty
  | enable (group : String) (pos : Option Nat) : Normal (.enable group pos)
  | seq {items : List Control} (several : 2 ≤ items.length) (flat : ∀ c ∈ items, c.isItem = true)
      (normal : ∀ c ∈ items, Normal c) : Normal (.seq items)
  | loop {body : Control} (pin : Pin) (cond : Option String) (bound : Option Nat)
      (normal : Normal body) : Normal (.loop pin cond body bound)
  | branch {onTrue onFalse : Control} (pin : Pin) (cond : Option String) (yes : Normal onTrue)
      (no : Normal onFalse) : Normal (.branch pin cond onTrue onFalse)
  | invoke (cell : String) (refs : List (String × String)) (pos : Option Nat) :
      Normal (.invoke cell refs pos)

/-! ### Sequences of normal controls -/

theorem items_of_isItem {c : Control} (item : c.isItem = true) : c.items = [c] := by
  cases c with
  | empty | seq => cases item
  | _ => rfl

theorem Normal.item {c i : Control} (normal : c.Normal) (member : i ∈ c.items) :
    i.isItem = true ∧ i.Normal := by
  cases c with
  | empty => cases member
  | seq items =>
    cases normal with
    | seq several flat normal => exact ⟨flat i member, normal i member⟩
  | _ =>
    obtain rfl := List.mem_singleton.mp member
    exact ⟨rfl, normal⟩

section

variable {c : Control} {cs xs ys : List Control}

theorem item_of_normal (normal : ∀ c ∈ cs, c.Normal) {i : Control} (member : i ∈ cs.flatMap items) :
    i.isItem = true ∧ i.Normal := by
  obtain ⟨c, inside, member⟩ := List.mem_flatMap.mp member
  exact (normal c inside).item member

/-- Normal controls in sequence are a normal control again. -/
theorem normal_sequence (normal : ∀ c ∈ cs, c.Normal) : (sequence cs).Normal := by
  have flat : ∀ i ∈ cs.flatMap items, i.isItem = true ∧ i.Normal := fun _ => item_of_normal normal
  unfold sequence
  split
  · exact .empty
  · next i one =>
    rw [one] at flat
    exact (flat i List.mem_cons_self).2
  · next none single =>
    refine .seq ?_ (fun i member => (flat i member).1) fun i member => (flat i member).2
    rcases found : cs.flatMap items with _ | ⟨i, _ | ⟨j, rest⟩⟩
    · exact absurd found none
    · exact absurd found (single i)
    · exact Nat.le_add_left 2 rest.length

/-- What normal controls contribute to a sequence, they contribute together as well. -/
theorem items_sequence (normal : ∀ c ∈ cs, c.Normal) : (sequence cs).items = cs.flatMap items := by
  unfold sequence
  split
  · next none => exact none.symm
  · next i one =>
    have inside : i ∈ cs.flatMap items := one ▸ List.mem_cons_self
    rw [one, items_of_isItem (item_of_normal normal inside).1]
  · rfl

/-- A normal control in sequence with nothing else is left as it is. -/
theorem sequence_singleton (normal : c.Normal) : sequence [c] = c := by
  cases normal with
  | @seq items several =>
    obtain ⟨i, j, rest, rfl⟩ : ∃ i j rest, items = i :: j :: rest := by
      rcases items with _ | ⟨i, _ | ⟨j, rest⟩⟩
      · exact absurd several (by decide)
      · exact absurd several (by simp)
      · exact ⟨i, j, rest, rfl⟩
    exact congrArg (fun tail => Control.seq (i :: j :: tail)) (List.append_nil rest)
  | _ => rfl

/-- Normal controls may be put in sequence part by part. -/
theorem sequence_append (first : ∀ c ∈ xs, c.Normal) (second : ∀ c ∈ ys, c.Normal) :
    sequence (xs ++ ys) = sequence [sequence xs, sequence ys] := by
  have same : (xs ++ ys).flatMap items = [sequence xs, sequence ys].flatMap items := by
    rw [List.flatMap_append, List.flatMap_cons, List.flatMap_singleton, items_sequence first,
      items_sequence second]
  unfold sequence at same ⊢
  rw [same]

end

end Control

/-- The schedule of every component is normal. -/
def Netlist.Normal (n : Netlist) : Prop := ∀ c ∈ n.components, c.control.Normal

namespace Lowering

/-! ### What lowering builds -/

section

variable {mark : Option Nat} {control : Control} {cs : List Control}

theorem EnablingAt.normal (enabling : EnablingAt mark cs) : ∀ c ∈ cs, c.Normal := by
  intro c member
  obtain ⟨group, rfl⟩ := enabling c member
  exact .enable group mark

theorem Sequential.normal (sequential : Sequential mark control) : control.Normal := by
  obtain ⟨cs, enabling, rfl⟩ := sequential
  exact Control.normal_sequence enabling.normal

theorem normal_pair {c d : Control} (first : c.Normal) (second : d.Normal) :
    (Control.sequence [c, d]).Normal :=
  Control.normal_sequence (List.forall_mem_cons.mpr ⟨first, List.forall_mem_singleton.mpr second⟩)

theorem normal_enable (s : Setting) (group : String) (pos : Nat) : (s.enable group pos).Normal :=
  .enable group _

end

mutual

/-- A command is lowered to a normal control: a leaf enables groups in sequence, and every other
command puts the controls of its parts in sequence, in a loop or in a branch. -/
theorem normal_lowerCommand (s : Setting) (env : Env) : (cmd : TypedCommand) →
    Steps (fun _ => True) (fun _ => True) (lowerCommand s env cmd) fun r => r.1.Normal
  | .decl pos name ty => by
    unfold lowerCommand
    exact .bind (steps_declare trivial _) fun _ _ => .pure .empty
  | .define pos name ty init => by
    unfold lowerCommand
    exact .bind (steps_addRegister _ _) fun _ _ =>
      .bind (steps_assignRegister _ _ _ _ _ _ _) fun _ assigned => .pure assigned.normal
  | .seq pos cmds => by
    unfold lowerCommand
    exact .bind (normal_lowerSeq s env cmds) fun _ normal => .pure (Control.normal_sequence normal)
  | .branch pos cond onTrue onFalse => by
    unfold lowerCommand
    refine .bind (steps_lowerCondition _ _ _ _) fun _ tested =>
      .bind (normal_lowerCommand s env.enter onTrue) fun _ yes =>
      .bind (normal_lowerElse s env.enter onFalse) fun _ no => .pure ?_
    refine Control.normal_sequence (List.forall_mem_append.mpr ⟨tested.normal, ?_⟩)
    exact List.forall_mem_singleton.mpr (.branch _ _ yes no)
  | .loop pos header body => by
    unfold lowerCommand
    refine .bind (steps_addLoop _) fun frame _ =>
      .bind (normal_lowerCommand s _ body) fun _ body =>
      .bind (steps_enableGroup s frame.init pos) fun init first =>
      .bind (steps_enableGroup s frame.incr pos) fun incr last => .bind (.lift _) fun trips _ => .pure ?_
    rw [first, last]
    have round := normal_pair body (normal_enable s frame.incr pos)
    exact normal_pair (normal_enable s frame.init pos) (.loop _ _ _ round)
  | .update pos target value => by
    unfold lowerCommand
    exact .bind (steps_lowerUpdate _ _ _ _ _) fun _ updated => .pure updated.normal
  | .reduce pos op target value => by
    unfold lowerCommand
    exact .bind (steps_lowerReduce _ _ _ _ _ _) fun _ reduced => .pure reduced.normal
  | .eval pos e => by
    cases e with
    | app ty func args =>
      rw [lowerCommand]
      refine .bind (steps_lowerCall _ _ _ _ trivial) fun _ called => .pure ?_
      obtain ⟨cell, refs, rfl⟩ := called
      exact .invoke cell refs _
    | _ =>
      rw [lowerCommand]
      · exact .bind (steps_discard _ _ _ _) fun _ enabling =>
          .pure (Control.normal_sequence enabling.normal)
      · exact nofun
  | .advance pos array => by
    unfold lowerCommand
    exact .throwInternal nofun
  | .skip pos => by
    unfold lowerCommand
    exact .pure .empty

theorem normal_lowerSeq (s : Setting) (env : Env) : (cmds : List TypedCommand) →
    Steps (fun _ => True) (fun _ => True) (lowerSeq s env cmds) fun r => ∀ c ∈ r.1, c.Normal
  | [] => by
    unfold lowerSeq
    exact .pure nofun
  | cmd :: cmds => by
    unfold lowerSeq
    exact .bind (normal_lowerCommand s env cmd) fun _ first =>
      .bind (normal_lowerSeq s _ cmds) fun _ rest => .pure (List.forall_mem_cons.mpr ⟨first, rest⟩)

theorem normal_lowerElse (s : Setting) (env : Env) : (cmd : Option TypedCommand) →
    Steps (fun _ => True) (fun _ => True) (lowerElse s env cmd) Control.Normal
  | none => by
    unfold lowerElse
    exact .pure .empty
  | some cmd => by
    unfold lowerElse
    exact .bind (normal_lowerCommand s env cmd) fun _ normal => .pure normal

end

theorem normal_assemble {s : Setting} {exposure : Exposure} {decls : List Decl}
    {instances : List String} {body : Option TypedCommand} {control : Control} {w v : Workspace}
    (ran : (assemble s exposure decls instances body).run w = .ok (control, v)) : control.Normal := by
  obtain ⟨env, _, _, ran⟩ := run_bind_ok_iff.mp ran
  obtain ⟨_, _, _, ran⟩ := run_bind_ok_iff.mp ran
  exact (normal_lowerElse s env body).result ran

end Lowering

/-! ### Netlists -/

open Lowering

theorem BankedProgram.toNetlist_normal {config : Config} {statements : Statements}
    {p : BankedProgram} {netlist : Netlist}
    (lowered : (p.toNetlist config statements).result = .ok netlist) : netlist.Normal := by
  intro c member
  obtain ⟨functions, root, loweredFunctions, loweredRoot, components⟩ := toNetlist_ok lowered
  rw [components, List.mem_append, List.mem_singleton] at member
  rcases member with inside | rfl
  · obtain ⟨f, _, built⟩ := exists_mem_of_related loweredFunctions inside
    simp only [lowerFunction_eq] at built
    obtain ⟨_, control, w, ran, rfl⟩ := buildComponent_ok built
    exact normal_assemble ran
  · simp only [lowerRoot_eq] at loweredRoot
    obtain ⟨_, control, w, ran, rfl⟩ := buildComponent_ok loweredRoot
    exact normal_assemble ran

/-- Sequencing keeps what is enabled and its order. On normal controls it is closed, leaves a single
control as it is and may go part by part; and only normal controls are ever lowered to. -/
theorem sequencing_flattens :
    (∀ cs : List Control, (Control.sequence cs).enables = cs.flatMap Control.enables) ∧
    (∀ cs : List Control, (∀ c ∈ cs, c.Normal) → (Control.sequence cs).Normal) ∧
    (∀ c : Control, c.Normal → Control.sequence [c] = c) ∧
    (∀ xs ys : List Control, (∀ c ∈ xs ++ ys, c.Normal) →
      Control.sequence (xs ++ ys) = Control.sequence [Control.sequence xs, Control.sequence ys]) ∧
    (∀ (config : Config) (statements : Statements) (p : BankedProgram) (netlist : Netlist),
      (p.toNetlist config statements).result = .ok netlist → netlist.Normal) ∧
    ∀ (config : Config) (source : String) (netlist : Netlist),
      (compile config source).result = .ok netlist → netlist.Normal := by
  refine ⟨Control.enables_sequence, fun _ => Control.normal_sequence,
    fun _ => Control.sequence_singleton, fun xs ys normal => ?_,
    fun _ _ _ _ => BankedProgram.toNetlist_normal, fun config source netlist compiled => ?_⟩
  · obtain ⟨first, second⟩ := List.forall_mem_append.mp normal
    exact Control.sequence_append first second
  · obtain ⟨_, _, _, _, _, _, lowered⟩ := compile_ok compiled
    exact BankedProgram.toNetlist_normal lowered

/-- A loop in a loop around a branch, with reads in front of its test and of its store and one whose
value is not used. -/
def readingLoops : String :=
  "decl a: ubit<8>[4]; decl b: ubit<2>[4]; " ++
    "for (let i = 0..2) \x7b for (let j = 0..2) \x7b " ++
    "if (a[b[j]] < 3) \x7b a[i] := a[b[j]]; a[j]; \x7d \x7d \x7d"

/-- The schedule of the nested loops is normal. Alone in a sequence it stays as it is, and it may be
put in sequence with itself and an empty control part by part. -/
theorem sequencing_flattens_readingLoops : ∃ netlist, (compile {} readingLoops).result = .ok netlist ∧
    netlist.components.map (·.control.enables) = [["init_i", "init_j", "read0", "read1", "read2",
      "read3", "write0", "read4", "incr_j", "incr_i"]] ∧
    netlist.Normal ∧ ∀ c ∈ netlist.components,
      Control.sequence [c.control] = c.control ∧ (Control.sequence [c.control, .empty]).Normal ∧
      Control.sequence ([c.control, .empty] ++ [c.control]) =
        Control.sequence [.sequence [c.control, .empty], .sequence [c.control]] := by
  have computed : ∃ netlist, (compile {} readingLoops).result = .ok netlist ∧
      netlist.components.map (·.control.enables) = [["init_i", "init_j", "read0", "read1", "read2",
        "read3", "write0", "read4", "incr_j", "incr_i"]] := exists_ok_of_map (by decide +kernel)
  obtain ⟨netlist, compiled, enables⟩ := computed
  obtain ⟨_, closed, single, parts, _, normal⟩ := sequencing_flattens
  have schedules := normal {} readingLoops netlist compiled
  refine ⟨netlist, compiled, enables, schedules, fun c member => ?_⟩
  have schedule : c.control.Normal := schedules c member
  have both : ∀ d ∈ [c.control, .empty], d.Normal :=
    List.forall_mem_cons.mpr ⟨schedule, List.forall_mem_singleton.mpr .empty⟩
  refine ⟨single _ schedule, closed _ both, parts _ _ ?_⟩
  exact List.forall_mem_append.mpr ⟨both, List.forall_mem_singleton.mpr schedule⟩

end BankedLoops
