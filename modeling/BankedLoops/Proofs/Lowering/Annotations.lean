import BankedLoops.Proofs.Banking.Refusals
import BankedLoops.Proofs.Lowering.Netlists
import BankedLoops.Proofs.Lowering.Quotes
import BankedLoops.Proofs.Parser.Positions
import BankedLoops.Proofs.Typing.Erasure

/-!
# Annotated netlists

What a component schedules is annotated with the positions of statements of the source. Positions
pass from the source to the typed program unchanged; splitting into banks and lowering make several
commands and groups out of one statement, and each of them keeps its position. So the table of a
netlist quotes statements only, and each by its own text.
-/

namespace BankedLoops

variable {τ ε : Type}

/-! ### Statement numbers -/

/-- The positions of the statements among commands. -/
def numbersOf (cmds : List (Command τ ε)) : List Nat :=
  (cmds.filter (·.isStatement)).map Command.pos

theorem numbersOf_append (cmds others : List (Command τ ε)) :
    numbersOf (cmds ++ others) = numbersOf cmds ++ numbersOf others := by
  rw [numbersOf, List.filter_append, List.map_append]
  rfl

theorem mem_numbersOf {cmds : List (Command τ ε)} {n : Nat} :
    n ∈ numbersOf cmds ↔ ∃ cmd ∈ cmds, cmd.isStatement = true ∧ cmd.pos = n := by
  rw [numbersOf, List.mem_map]
  exact exists_congr fun cmd => by rw [List.mem_filter, and_assoc]

theorem numbersOf_seq (pos : Nat) (cmds : List (Command τ ε)) :
    numbersOf (Command.seq pos cmds).preorder = numbersOf (Command.preorderSeq cmds) := rfl

theorem numbersOf_branch (pos : Nat) (cond : ε) (onTrue : Command τ ε)
    (onFalse : Option (Command τ ε)) :
    numbersOf (Command.branch pos cond onTrue onFalse).preorder =
      pos :: (numbersOf onTrue.preorder ++ numbersOf (Command.preorderElse onFalse)) :=
  congrArg (pos :: ·) (numbersOf_append _ _)

theorem numbersOf_loop (pos : Nat) (header : LoopHeader) (body : Command τ ε) :
    numbersOf (Command.loop pos header body).preorder = pos :: numbersOf body.preorder := rfl

theorem numbersOf_cons (cmd : Command τ ε) (cmds : List (Command τ ε)) :
    numbersOf (Command.preorderSeq (cmd :: cmds)) =
      numbersOf cmd.preorder ++ numbersOf (Command.preorderSeq cmds) :=
  numbersOf_append _ _

namespace Typing

mutual

/-- The checker keeps the position of every statement. -/
theorem Annotates.numbers {cmd : SourceCommand} {typed : TypedCommand} :
    Annotates cmd typed → numbersOf typed.preorder = numbersOf cmd.preorder
  | .seq _ each => by rw [numbersOf_seq, numbersOf_seq, each.numbers]
  | .branch _ _ first second => by
    rw [numbersOf_branch, numbersOf_branch, first.numbers, second.numbers]
  | .loop _ _ inner => by rw [numbersOf_loop, numbersOf_loop, inner.numbers]
  | .decl .. | .define .. | .update .. | .reduce .. | .eval .. | .advance .. | .skip _ => rfl

theorem AnnotatesSeq.numbers {cmds : List SourceCommand} {typed : List TypedCommand} :
    AnnotatesSeq cmds typed →
      numbersOf (Command.preorderSeq typed) = numbersOf (Command.preorderSeq cmds)
  | .nil => rfl
  | .cons first others => by rw [numbersOf_cons, numbersOf_cons, first.numbers, others.numbers]

theorem AnnotatesElse.numbers {cmd : Option SourceCommand} {typed : Option TypedCommand} :
    AnnotatesElse cmd typed →
      numbersOf (Command.preorderElse typed) = numbersOf (Command.preorderElse cmd)
  | .none => rfl
  | .some inner => inner.numbers

end

theorem numbers_functions {fs : List (Function (Option Ty) Expr)}
    {typed : List (Function Ty TypedExpr)} (annotated : List.Forall₂ AnnotatesFunction fs typed) :
    numbersOf (typed.flatMap (·.body.preorder)) = numbersOf (fs.flatMap (·.body.preorder)) := by
  induction annotated with
  | nil => rfl
  | cons first _ ih =>
    rw [List.flatMap_cons, List.flatMap_cons, numbersOf_append, numbersOf_append,
      first.body.numbers, ih]

theorem AnnotatesProgram.numbers {p : SourceProgram} {typed : TypedProgram}
    (annotated : AnnotatesProgram p typed) : numbersOf typed.commands = numbersOf p.commands := by
  rw [Program.commands, Program.commands, numbersOf_append, numbersOf_append,
    numbers_functions annotated.defs, annotated.body.numbers]

end Typing

theorem Program.numbers_function {p : Program τ ε} {f : Function τ ε} (defined : f ∈ p.defs) :
    numbersOf f.body.preorder ⊆ numbersOf p.commands := by
  intro n member
  obtain ⟨cmd, inside, statement⟩ := mem_numbersOf.mp member
  exact mem_numbersOf.mpr
    ⟨cmd, List.mem_append_left _ (List.mem_flatMap.mpr ⟨f, defined, inside⟩), statement⟩

theorem Program.numbers_body (p : Program τ ε) :
    numbersOf (Command.preorderElse p.body) ⊆ numbersOf p.commands := by
  rw [Program.commands, numbersOf_append]
  exact List.subset_append_right _ _

/-! ### Banks -/

namespace Banking

theorem append_subset_append {α : Type} {xs xs' ys ys' : List α} (first : xs ⊆ xs')
    (second : ys ⊆ ys') : xs ++ ys ⊆ xs' ++ ys' :=
  List.append_subset.mpr ⟨List.subset_append_of_subset_left _ first,
    List.subset_append_of_subset_right _ second⟩

theorem numbers_decls (pos : Nat) (ds : List Decl) :
    numbersOf (Command.preorderSeq (ds.map fun d => (.decl pos d.name d.ty : TypedCommand))) ⊆ [pos] := by
  induction ds with
  | nil => exact nofun
  | cons d ds ih =>
    rw [List.map_cons, numbersOf_cons]
    exact List.append_subset.mpr ⟨List.Subset.refl _, ih⟩

theorem numbers_declBanks {layout : Layout} {pos : Nat} {banks : TypedCommand}
    (split : declBanks layout pos = .ok banks) : numbersOf banks.preorder ⊆ [pos] := by
  obtain ⟨ds, _, ⟨d, _, rfl⟩ | ⟨_, rfl⟩⟩ := declBanks_split split
  · exact List.Subset.refl _
  · exact numbers_decls pos ds

theorem numbers_step {rotation : Rotation} {pos : Nat} {step : TypedCommand}
    (stepped : rotation.step pos = .ok step) : numbersOf step.preorder = [pos] := by
  obtain ⟨_, _, _, _, _, _, rfl⟩ := Rotation.step_update stepped
  rfl

mutual

/-- A command over banks has statements of the command it was made from. -/
theorem BankedCommand.numbers {ctx : Context} {env : Env} {cmd banked : TypedCommand} :
    BankedCommand ctx env cmd banked → numbersOf banked.preorder ⊆ numbersOf cmd.preorder
  | .array _ split => numbers_declBanks split
  | .seq all => all.numbers
  | .branch _ yes no => by
    rw [numbersOf_branch, numbersOf_branch]
    exact List.cons_subset_cons _ (append_subset_append yes.numbers no.numbers)
  | .loop _ round => List.cons_subset_cons _ round.numbers
  | .rotate _ stepped => by
    rw [numbers_step stepped]
    exact List.Subset.refl _
  | .scalar _ | .define _ | .update _ _ | .reduce _ _ | .eval _ => List.Subset.refl _
  | .still _ | .skip => nofun

theorem BankedSeq.numbers {ctx : Context} {env : Env} {cmds banked : List TypedCommand} :
    BankedSeq ctx env cmds banked →
      numbersOf (Command.preorderSeq banked) ⊆ numbersOf (Command.preorderSeq cmds)
  | .nil => nofun
  | .cons first rest => by
    rw [numbersOf_cons, numbersOf_cons]
    exact append_subset_append first.numbers rest.numbers

theorem BankedElse.numbers {ctx : Context} {env : Env} {cmd banked : Option TypedCommand} :
    BankedElse ctx env cmd banked →
      numbersOf (Command.preorderElse banked) ⊆ numbersOf (Command.preorderElse cmd)
  | .none => nofun
  | .some inner => inner.numbers

end

/-- A hidden register is set up for the statement that first advances its array. -/
theorem numbers_setUp {statements : Statements} {body : TypedCommand} {env : Env}
    {taken : List String} {arrays : List (String × Nat)} {prologue : Prologue}
    (success : (setUpRotations statements body env taken arrays).result = .ok prologue) :
    numbersOf (Command.preorderSeq prologue.setup) ⊆ arrays.map Prod.snd := by
  induction arrays generalizing env taken prologue with
  | nil =>
    cases success
    exact nofun
  | cons entry arrays ih =>
    obtain ⟨layout, banks, _, _, ⟨_, rest⟩ | ⟨register, ty, inner, _, _, _, rest, rfl⟩⟩ :=
      setUpRotations_cons success
    · exact List.subset_cons_of_subset _ (ih rest)
    · exact List.cons_subset_cons _ (ih rest)

theorem numbers_preorderSeq_concat (cmds : List TypedCommand) (last : TypedCommand) :
    numbersOf (Command.preorderSeq (cmds ++ [last])) =
      numbersOf (Command.preorderSeq cmds) ++ numbersOf last.preorder := by
  induction cmds with
  | nil =>
    rw [List.nil_append, numbersOf_cons]
    exact List.append_nil _
  | cons cmd cmds ih => rw [List.cons_append, numbersOf_cons, ih, numbersOf_cons, List.append_assoc]

theorem numbers_bankBody {statements : Statements} {env : Env} {body banked : TypedCommand}
    (success : (bankBody statements env body).result = .ok banked) :
    numbersOf banked.preorder ⊆ numbersOf body.preorder := by
  obtain ⟨prologue, inner, setUp, banked, rfl⟩ := bankBody_ok success
  split
  · exact banked.numbers
  · rw [numbersOf_seq, numbers_preorderSeq_concat]
    refine List.append_subset.mpr ⟨fun n member => ?_, banked.numbers⟩
    obtain ⟨entry, first, rfl⟩ := List.mem_map.mp (numbers_setUp setUp member)
    exact mem_numbersOf.mpr
      ⟨_, (advance_mem_preorder_iff body).mpr (firstOfEach_subset _ first), rfl, rfl⟩

end Banking

theorem Lowering.BankedBody.numbers {statements : Statements} {env : Banking.Env}
    {body banked : Option TypedCommand} (split : BankedBody statements env body banked) :
    numbersOf (Command.preorderElse banked) ⊆ numbersOf (Command.preorderElse body) := by
  cases split with
  | none => exact nofun
  | some split => exact Banking.numbers_bankBody split

/-- The program over banks has statements of the program it was made from. -/
theorem Program.numbers_toBanks {p : TypedProgram} {statements : Statements} {banked : BankedProgram}
    (split : (p.toBanks statements).result = .ok banked) :
    banked.program.Bodies fun _ body =>
      numbersOf (Command.preorderElse body) ⊆ numbersOf p.commands := by
  obtain ⟨env, splitFunctions, _, _, splitBody⟩ := Program.toBanks_ok split
  constructor
  · intro f' member
    obtain ⟨f, defined, splitFunction⟩ := Lowering.mem_bankFunctions splitFunctions member
    obtain ⟨params, env, body, _, splitBody, rfl⟩ := Banking.bankFunction_ok splitFunction
    exact List.Subset.trans (Banking.numbers_bankBody splitBody) (Program.numbers_function defined)
  · exact List.Subset.trans (Lowering.bankedBody_of_cases splitBody).numbers p.numbers_body

/-! ### Annotations -/

namespace Lowering

/-- Every annotation of a control is that of one of the given statements. -/
def Marked (s : Setting) (numbers : List Nat) (c : Control) : Prop :=
  ∀ mark ∈ c.marks, ∃ n ∈ numbers, mark = s.position n

section

variable {s : Setting} {numbers : List Nat} {pos : Nat} {cs : List Control}

theorem Marked.mono {larger : List Nat} {c : Control} (marked : Marked s numbers c)
    (subset : numbers ⊆ larger) : Marked s larger c := by
  intro mark member
  obtain ⟨n, among, same⟩ := marked mark member
  exact ⟨n, subset among, same⟩

theorem marked_sequence (marked : ∀ c ∈ cs, Marked s numbers c) : Marked s numbers (.sequence cs) := by
  intro mark member
  rw [Control.marks_sequence] at member
  obtain ⟨c, inside, member⟩ := List.mem_flatMap.mp member
  exact marked c inside mark member

theorem marked_enable (group : String) (among : pos ∈ numbers) :
    Marked s numbers (s.enable group pos) := by
  intro mark member
  exact ⟨pos, among, List.mem_singleton.mp member⟩

theorem EnablingAt.marked (enabling : EnablingAt (s.position pos) cs) (among : pos ∈ numbers) :
    ∀ c ∈ cs, Marked s numbers c := by
  intro c member
  obtain ⟨group, rfl⟩ := enabling c member
  exact marked_enable group among

theorem Sequential.marked {control : Control} (sequential : Sequential (s.position pos) control)
    (among : pos ∈ numbers) : Marked s numbers control := by
  obtain ⟨cs, enabling, rfl⟩ := sequential
  exact marked_sequence (enabling.marked among)

theorem marked_loop {body : Control} (init incr : String) (pin : Pin) (cond : Option String)
    (bound : Option Nat) (among : pos ∈ numbers) (round : Marked s numbers body) :
    Marked s numbers (.sequence
      [s.enable init pos, .loop pin cond (.sequence [body, s.enable incr pos]) bound]) := by
  have repeats : Marked s numbers (.sequence [body, s.enable incr pos]) :=
    marked_sequence (List.forall_mem_cons.mpr
      ⟨round, List.forall_mem_singleton.mpr (marked_enable incr among)⟩)
  exact marked_sequence (List.forall_mem_cons.mpr
    ⟨marked_enable init among, List.forall_mem_singleton.mpr repeats⟩)

end

mutual

/-- A command schedules groups and invocations for its own statements only. -/
theorem marked_lowerCommand (s : Setting) (env : Env) : (cmd : TypedCommand) →
    Steps (fun _ => True) (fun _ => True) (lowerCommand s env cmd) fun r => Marked s (numbersOf cmd.preorder) r.1
  | .decl pos name ty => by
    unfold lowerCommand
    exact .bind (steps_declare trivial _) fun _ _ => .pure nofun
  | .define pos name ty init => by
    unfold lowerCommand
    exact .bind (steps_addRegister _ _) fun _ _ =>
      .bind (steps_assignRegister _ _ _ _ _ _ _) fun _ assigned =>
      .pure (assigned.marked List.mem_cons_self)
  | .seq pos cmds => by
    unfold lowerCommand
    exact .bind (marked_lowerSeq s env cmds) fun _ marked => .pure (marked_sequence marked)
  | .branch pos cond onTrue onFalse => by
    unfold lowerCommand
    refine .bind (steps_lowerCondition _ _ _ _) fun _ tested =>
      .bind (marked_lowerCommand s env.enter onTrue) fun _ yes =>
      .bind (marked_lowerElse s env.enter onFalse) fun _ no => .pure ?_
    rw [numbersOf_branch]
    refine marked_sequence (List.forall_mem_append.mpr ⟨tested.marked List.mem_cons_self, ?_⟩)
    refine List.forall_mem_singleton.mpr (List.forall_mem_append.mpr ⟨?_, ?_⟩)
    · exact yes.mono (List.subset_cons_of_subset _ (List.subset_append_left _ _))
    · exact no.mono (List.subset_cons_of_subset _ (List.subset_append_right _ _))
  | .loop pos header body => by
    unfold lowerCommand
    refine .bind (steps_addLoop _) fun frame _ =>
      .bind (marked_lowerCommand s _ body) fun _ round =>
      .bind (steps_enableGroup s frame.init pos) fun init first =>
      .bind (steps_enableGroup s frame.incr pos) fun incr last => .bind (.lift _) fun trips _ => .pure ?_
    rw [first, last]
    exact marked_loop frame.init frame.incr _ _ _ List.mem_cons_self
      (round.mono (List.subset_cons_self pos _))
  | .update pos target value => by
    unfold lowerCommand
    exact .bind (steps_lowerUpdate _ _ _ _ _) fun _ updated =>
      .pure (updated.marked List.mem_cons_self)
  | .reduce pos op target value => by
    unfold lowerCommand
    exact .bind (steps_lowerReduce _ _ _ _ _ _) fun _ reduced =>
      .pure (reduced.marked List.mem_cons_self)
  | .eval pos e => by
    cases e with
    | app ty func args =>
      rw [lowerCommand]
      refine .bind (steps_lowerCall _ _ _ _ trivial) fun _ called => .pure ?_
      obtain ⟨cell, refs, rfl⟩ := called
      exact List.forall_mem_singleton.mpr ⟨pos, List.mem_cons_self, rfl⟩
    | _ =>
      rw [lowerCommand]
      · exact .bind (steps_discard _ _ _ _) fun _ enabling =>
          .pure (marked_sequence (enabling.marked List.mem_cons_self))
      · exact nofun
  | .advance pos array => by
    unfold lowerCommand
    exact .throwInternal nofun
  | .skip pos => by
    unfold lowerCommand
    exact .pure nofun

theorem marked_lowerSeq (s : Setting) (env : Env) : (cmds : List TypedCommand) →
    Steps (fun _ => True) (fun _ => True) (lowerSeq s env cmds) fun r =>
      ∀ c ∈ r.1, Marked s (numbersOf (Command.preorderSeq cmds)) c
  | [] => by
    unfold lowerSeq
    exact .pure nofun
  | cmd :: cmds => by
    unfold lowerSeq
    refine .bind (marked_lowerCommand s env cmd) fun _ first =>
      .bind (marked_lowerSeq s _ cmds) fun _ rest => .pure ?_
    rw [numbersOf_cons]
    refine List.forall_mem_cons.mpr ⟨first.mono (List.subset_append_left _ _), ?_⟩
    exact fun c member => (rest c member).mono (List.subset_append_right _ _)

theorem marked_lowerElse (s : Setting) (env : Env) : (cmd : Option TypedCommand) →
    Steps (fun _ => True) (fun _ => True) (lowerElse s env cmd) fun c =>
      Marked s (numbersOf (Command.preorderElse cmd)) c
  | none => by
    unfold lowerElse
    exact .pure nofun
  | some cmd => by
    unfold lowerElse
    exact .bind (marked_lowerCommand s env cmd) fun _ marked => .pure marked

end

theorem marked_assemble {s : Setting} {exposure : Exposure} {decls : List Decl}
    {instances : List String} {body : Option TypedCommand} {control : Control} {w v : Workspace}
    (ran : (assemble s exposure decls instances body).run w = .ok (control, v)) :
    Marked s (numbersOf (Command.preorderElse body)) control := by
  obtain ⟨env, _, _, ran⟩ := run_bind_ok_iff.mp ran
  obtain ⟨_, _, _, ran⟩ := run_bind_ok_iff.mp ran
  exact (marked_lowerElse s env body).result ran

end Lowering

/-! ### Netlists -/

open Lowering

theorem BankedProgram.toNetlist_marked {config : Config} {statements : Statements}
    {p : BankedProgram} {netlist : Netlist} {numbers : List Nat}
    (bodies : p.program.Bodies fun _ body => numbersOf (Command.preorderElse body) ⊆ numbers)
    (lowered : (p.toNetlist config statements).result = .ok netlist) :
    ∀ c ∈ netlist.components,
      Marked (p.setting config statements) numbers c.control := by
  intro c member
  obtain ⟨functions, root, loweredFunctions, loweredRoot, components⟩ := toNetlist_ok lowered
  rw [components, List.mem_append, List.mem_singleton] at member
  rcases member with inside | rfl
  · obtain ⟨f, among, built⟩ := exists_mem_of_related loweredFunctions inside
    simp only [lowerFunction_eq] at built
    obtain ⟨_, control, w, ran, rfl⟩ := buildComponent_ok built
    exact (marked_assemble ran).mono (bodies.functions f among)
  · simp only [lowerRoot_eq] at loweredRoot
    obtain ⟨_, control, w, ran, rfl⟩ := buildComponent_ok loweredRoot
    exact (marked_assemble ran).mono bodies.root

/-- Everything that is scheduled is annotated, and the table quotes the statements of the
annotations, each by its own text. -/
structure Netlist.Documents (netlist : Netlist) (p : SourceProgram) : Prop where
  annotated : ∀ c ∈ netlist.components, ∀ mark ∈ c.control.marks, mark.isSome = true
  ascending : Table.Ascending netlist.metadata.entries
  keys : ∀ pos, pos ∈ netlist.metadata.entries.map Prod.fst ↔
    ∃ c ∈ netlist.components, some pos ∈ c.control.marks
  quotes : ∀ pos text, (pos, text) ∈ netlist.metadata.entries →
    ∃ cmd ∈ p.commands, cmd.pos = pos ∧ cmd.text = text ∧ text ≠ placeholder pos ∧
      ∀ other ∈ p.commands, other.pos = pos → other = cmd

/-- With positions and metadata on, the table of a compiled text documents it. Without positions
nothing is annotated, and without either there is no table. -/
theorem compile_documents {config : Config} {source : String} {netlist : Netlist}
    (compiled : (compile config source).result = .ok netlist) :
    ∃ p, parse source = .ok p ∧
      (config.emitPositions = true → config.emitMetadata = true → netlist.Documents p) ∧
      (config.emitPositions = false → netlist.metadata.entries = [] ∧
        ∀ c ∈ netlist.components, ∀ mark ∈ c.control.marks, mark = none) ∧
      (config.emitMetadata = false → netlist.metadata.entries = []) := by
  obtain ⟨p, typed, banked, parsed, checked, split, lowered⟩ := compile_ok compiled
  have marked := BankedProgram.toNetlist_marked (Program.numbers_toBanks split) lowered
  rw [(Typing.annotates_of_check checked).numbers] at marked
  have quoted := BankedProgram.quoted_toNetlist lowered
  have annotation (c : Component) (member : c ∈ netlist.components) (mark : Option Nat)
      (scheduled : mark ∈ c.control.marks) : ∃ cmd ∈ p.commands, cmd.isStatement = true ∧
        mark = if config.emitPositions then some cmd.pos else none := by
    obtain ⟨n, among, rfl⟩ := marked c member mark scheduled
    obtain ⟨cmd, inside, statement, rfl⟩ := mem_numbersOf.mp among
    exact ⟨cmd, inside, statement, rfl⟩
  have keys (pos : Nat) : pos ∈ netlist.metadata.entries.map Prod.fst ↔
      config.emitMetadata = true ∧ ∃ c ∈ netlist.components, some pos ∈ c.control.marks := by
    rw [quoted.keys pos, List.mem_flatMap]
    exact or_iff_right List.not_mem_nil
  have empty (unnamed : ∀ pos, pos ∉ netlist.metadata.entries.map Prod.fst) :
      netlist.metadata.entries = [] :=
    List.map_eq_nil_iff.mp (List.eq_nil_iff_forall_not_mem.mpr unnamed)
  refine ⟨p, parsed, fun positions metadata => ?_, fun silent => ?_, fun bare => ?_⟩
  · simp only [positions, if_true] at annotation
    simp only [metadata, true_and] at keys
    refine ⟨?_, quoted.ascending .nil, keys, ?_⟩
    · intro c member mark scheduled
      obtain ⟨cmd, _, _, rfl⟩ := annotation c member mark scheduled
      rfl
    · intro pos text entry
      obtain ⟨c, member, scheduled⟩ := (keys pos).mp (List.mem_map_of_mem entry)
      obtain ⟨cmd, inside, statement, same⟩ := annotation c member _ scheduled
      obtain rfl := Option.some.inj same
      obtain rfl : text = (Statements.ofProgram p).describe cmd.pos :=
        (quoted.texts _ entry).resolve_left List.not_mem_nil
      rw [describe_eq_text parsed inside statement]
      exact ⟨cmd, inside, rfl, rfl, text_ne_placeholder statement cmd.pos,
        fun other among same => command_eq_of_pos_eq parsed inside among same⟩
  · have unmarked (c : Component) (member : c ∈ netlist.components) (mark : Option Nat)
        (scheduled : mark ∈ c.control.marks) : mark = none := by
      obtain ⟨_, _, _, same⟩ := annotation c member mark scheduled
      simpa [silent] using same
    refine ⟨empty fun pos key => ?_, unmarked⟩
    obtain ⟨_, c, member, scheduled⟩ := (keys pos).mp key
    cases unmarked c member _ scheduled
  · refine empty fun pos key => ?_
    obtain ⟨metadata, _⟩ := (keys pos).mp key
    rw [bare] at metadata
    cases metadata

/-- Clears one of the two banks of an array in a function, then tests and rotates the array. -/
def documented : String :=
  "decl a: ubit<8>[4 bank 2]; " ++
    "def clear(m: ubit<8>[4 bank 2]) \x7b for (let i = 0..2) \x7b m[i] := 0; \x7d \x7d " ++
    "clear(a); if (a[1] < 3) \x7b advance a; \x7d else \x7b \x7d"

/-- The table quotes the loop and the store of the function, and the call, the test and the rotation
of the body; the last one also stands at the set-up of the hidden register. -/
theorem compile_documents_clear : ∃ netlist p, (compile {} documented).result = .ok netlist ∧
    netlist.metadata.entries = [(4, "for (let i = 0..2)"), (6, "m[i] := 0;"), (8, "clear(a);"),
      (9, "if (a[1] < 3)"), (11, "advance a;")] ∧
    parse documented = .ok p ∧ netlist.Documents p := by
  have computed : ∃ netlist, (compile {} documented).result = .ok netlist ∧
      netlist.metadata.entries = [(4, "for (let i = 0..2)"), (6, "m[i] := 0;"), (8, "clear(a);"),
        (9, "if (a[1] < 3)"), (11, "advance a;")] := exists_ok_of_map (by decide +kernel)
  obtain ⟨netlist, compiled, entries⟩ := computed
  obtain ⟨p, parsed, documents, _⟩ := compile_documents compiled
  exact ⟨netlist, p, compiled, entries, parsed, documents rfl rfl⟩

end BankedLoops
