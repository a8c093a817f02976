import BankedLoops.Proofs.Names
import BankedLoops.Proofs.Parser.Whole
import BankedLoops.Proofs.Preorder
import BankedLoops.Proofs.Success
import BankedLoops.Proofs.Tables
import BankedLoops.Statements

/-!
# Positions

The positions of a parsed program ascend in the order of its text. So a position belongs to one
statement only, and the table of statement texts has the text of that statement there. Whatever takes a
position takes a token too, so words of 32 bits hold the positions of a text that is below 2^32 characters
long.
-/

namespace BankedLoops

/-- Numbers that ascend from `n` on and stay below `m`. -/
inductive Ascends : Nat → List Nat → Nat → Prop where
  | nil {n m : Nat} (le : n ≤ m) : Ascends n [] m
  | cons {n m p : Nat} {ps : List Nat} (le : n ≤ p) (rest : Ascends (p + 1) ps m) :
      Ascends n (p :: ps) m

namespace Ascends

variable {n m k : Nat} {ps qs : List Nat}

theorem mono (ascends : Ascends n ps m) (le : k ≤ n) : Ascends k ps m := by
  cases ascends with
  | nil below => exact .nil (Nat.le_trans le below)
  | cons below rest => exact .cons (Nat.le_trans le below) rest

theorem le (ascends : Ascends n ps m) : n ≤ m := by
  induction ascends with
  | nil le => exact le
  | cons le _ ih => omega

theorem append (first : Ascends n ps k) (second : Ascends k qs m) : Ascends n (ps ++ qs) m := by
  induction first with
  | nil le => exact second.mono le
  | cons le _ ih => exact .cons le (ih second)

theorem lower (ascends : Ascends n ps m) : ∀ p ∈ ps, n ≤ p := by
  induction ascends with
  | nil => exact nofun
  | cons le _ ih =>
    intro p member
    rcases List.mem_cons.mp member with rfl | later
    · exact le
    · have := ih p later
      omega

theorem upper (ascends : Ascends n ps m) : ∀ p ∈ ps, p < m := by
  induction ascends with
  | nil => exact nofun
  | @cons n m p ps _ rest ih =>
    intro q member
    rcases List.mem_cons.mp member with rfl | later
    · exact rest.le
    · exact ih q later

theorem pairwise (ascends : Ascends n ps m) : ps.Pairwise (· < ·) := by
  induction ascends with
  | nil => exact .nil
  | cons _ rest ih => exact List.pairwise_cons.mpr ⟨fun p member => rest.lower p member, ih⟩

end Ascends

namespace Grammar

/-! ### Numbered forms -/

/-- The positions of a command and of the commands inside it. -/
abbrev positionsOf (cmds : List SourceCommand) : List Nat := cmds.map Command.pos

theorem ascends_group {n m : Nat} {cmds : List SourceCommand}
    (inside : Ascends (n + 1) (positionsOf (Command.preorderSeq cmds)) m) :
    Ascends n (positionsOf (group n cmds).preorder) m := by
  unfold group
  split
  · next cmd =>
    rw [Command.preorderSeq, Command.preorderSeq, List.append_nil] at inside
    exact inside.mono (Nat.le_succ n)
  · exact .cons (Nat.le_refl n) inside

mutual

theorem CommandForm.ascends {n m : Nat} {ts : List Token} {cmd : SourceCommand} :
    CommandForm n ts cmd m → Ascends n (positionsOf cmd.preorder) m
  | .decl _ | .define _ _ | .defineTyped _ _ _ | .update _ _ | .reduce _ _ _ | .eval _ | .advance _ =>
    .cons (Nat.le_refl _) (.nil (Nat.le_refl _))
  | .loop _ block => .cons (Nat.le_refl _) block.ascends
  | .branch _ block otherwise => by
    refine .cons (Nat.le_refl _) ?_
    rw [List.map_append]
    exact block.ascends.append otherwise.ascends

theorem ElseForm.ascends {n m : Nat} {ts : List Token} {cmd : Option SourceCommand} :
    ElseForm n ts cmd m → Ascends n (positionsOf (Command.preorderElse cmd)) m
  | .none => .nil (Nat.le_refl _)
  | .branch next => next.ascends
  | .block body => body.ascends

theorem BlockForm.ascends {n m : Nat} {ts : List Token} {cmd : SourceCommand} :
    BlockForm n ts cmd m → Ascends n (positionsOf cmd.preorder) m
  | .empty => .cons (Nat.le_refl _) (.nil (Nat.le_refl _))
  | .list _ commands => ascends_group commands.ascends

theorem ListForm.ascends {n m : Nat} {ts : List Token} {cmds : List SourceCommand} :
    ListForm n ts cmds m → Ascends n (positionsOf (Command.preorderSeq cmds)) m
  | .nil => .nil (Nat.le_refl _)
  | .separator later => later.ascends
  | .cons head tail => by
    rw [Command.preorderSeq, positionsOf, List.map_append]
    exact head.ascends.append tail.ascends

end

/-! ### Numbers and tokens -/

theorem HeaderForm.pos {ts : List Token} {header : LoopHeader} (form : HeaderForm ts header) :
    0 < ts.length := by
  cases form <;> simp

mutual

/-- A command gives away no more numbers than it has tokens. -/
theorem CommandForm.le {n m : Nat} {ts : List Token} {cmd : SourceCommand} :
    CommandForm n ts cmd m → m ≤ n + ts.length
  | .decl _ | .define _ _ | .defineTyped _ _ _ | .advance _ => by
    rw [List.length_cons]
    omega
  | .update _ _ | .reduce _ _ _ | .eval _ => by
    rw [List.length_append, List.length_cons]
    omega
  | .loop head block => by
    have := head.pos
    have := block.le
    rw [List.length_append]
    omega
  | .branch _ block otherwise => by
    have := block.le
    have := otherwise.le
    simp only [List.length_cons, List.length_append]
    omega

theorem ElseForm.le {n m : Nat} {ts : List Token} {cmd : Option SourceCommand} :
    ElseForm n ts cmd m → m ≤ n + ts.length
  | .none => Nat.le_refl _
  | .branch next => Nat.le_succ_of_le next.le
  | .block body => Nat.le_succ_of_le body.le

theorem BlockForm.le {n m : Nat} {ts : List Token} {cmd : SourceCommand} :
    BlockForm n ts cmd m → m ≤ n + ts.length
  | .empty => Nat.le_succ _
  | .list _ commands => by
    have := commands.le
    rw [List.length_cons, List.length_append]
    omega

theorem ListForm.le {n m : Nat} {ts : List Token} {cmds : List SourceCommand} :
    ListForm n ts cmds m → m ≤ n + ts.length
  | .nil => Nat.le_refl _
  | .separator later => Nat.le_succ_of_le later.le
  | .cons head tail => by
    have := head.le
    have := tail.le
    rw [List.length_append]
    omega

end

end Grammar

/-- All positions of a program: of the declarations, of each function with its parameters and
commands, and of the commands of the body. -/
def Program.positions {τ ε : Type} (p : Program τ ε) : List Nat :=
  p.decls.map (·.pos)
    ++ p.defs.flatMap (fun f => f.pos :: f.params.map (·.pos) ++ f.body.preorder.map Command.pos)
    ++ (Command.preorderElse p.body).map Command.pos

namespace Grammar

theorem Many.ascends {α : Type} {form : Form α} {positions : α → List Nat} {n m : Nat}
    {ts : List Token} {as : List α} (many : Many form n ts as m)
    (each : ∀ {n ts a m}, form n ts a m → Ascends n (positions a) m) :
    Ascends n (as.flatMap positions) m := by
  induction many with
  | nil => exact .nil (Nat.le_refl _)
  | cons head _ ih => exact (each head).append ih

theorem BindingForm.pos_eq {n : Nat} {ts : List Token} {d : Decl} (form : BindingForm n ts d) :
    d.pos = n := by
  cases form
  rfl

theorem ascends_params {n m : Nat} {ts : List Token} {params : List Decl}
    (listed : Listed ParamForm n ts params m) : Ascends n (params.map (·.pos)) m := by
  have one {n m : Nat} {ts : List Token} {d : Decl} (form : ParamForm n ts d m) :
      Ascends n [d.pos] m := by
    obtain ⟨binding⟩ := form
    rw [binding.pos_eq]
    exact .cons (Nat.le_refl _) (.nil (Nat.le_refl _))
  cases listed with
  | none => exact .nil (Nat.le_refl _)
  | some items =>
    induction items with
    | one only => exact one only
    | cons head _ ih => exact (one head).append ih

theorem Many.le {α : Type} {form : Form α} {n m : Nat} {ts : List Token} {as : List α}
    (many : Many form n ts as m) (each : ∀ {n ts a m}, form n ts a m → m ≤ n + ts.length) :
    m ≤ n + ts.length := by
  induction many with
  | nil => exact Nat.le_refl _
  | cons head _ ih =>
    have := each head
    rw [List.length_append]
    omega

theorem ParamForm.le {n m : Nat} {ts : List Token} {d : Decl} (form : ParamForm n ts d m) :
    m ≤ n + ts.length := by
  obtain ⟨⟨_, _⟩⟩ := form
  rw [List.length_cons]
  omega

theorem DeclForm.le {n m : Nat} {ts : List Token} {d : Decl} : DeclForm n ts d m → m ≤ n + ts.length
  | .mk _ => by
    rw [List.length_cons]
    omega

theorem Listed.le {α : Type} {form : Form α} {n m : Nat} {ts : List Token} {as : List α}
    (listed : Listed form n ts as m) (each : ∀ {n ts a m}, form n ts a m → m ≤ n + ts.length) :
    m ≤ n + ts.length := by
  cases listed with
  | none => exact Nat.le_refl _
  | some items =>
    induction items with
    | one only => exact each only
    | cons head _ ih =>
      have := each head
      rw [List.length_append, List.length_cons]
      omega

theorem FunctionForm.le {n m : Nat} {ts : List Token} {f : Function (Option Ty) Expr} :
    FunctionForm n ts f m → m ≤ n + ts.length
  | .mk _ parameters block => by
    have := parameters.le ParamForm.le
    have := block.le
    simp only [List.length_cons, List.length_append]
    omega

theorem FunctionForm.ascends {n m : Nat} {ts : List Token} {f : Function (Option Ty) Expr}
    (form : FunctionForm n ts f m) :
    Ascends n (f.pos :: f.params.map (·.pos) ++ f.body.preorder.map Command.pos) m := by
  obtain ⟨name, parameters, block⟩ := form
  exact .cons (Nat.le_refl _) ((ascends_params parameters).append block.ascends)

theorem ProgramForm.ascends {ts : List Token} {p : SourceProgram} (form : ProgramForm ts p) :
    ∃ next, Ascends 0 p.positions next ∧ next ≤ ts.length + 1 := by
  obtain @⟨n, m, l, _, _, _, decls, _, _, declarations, functions, commands⟩ := form
  have first : Ascends 0 (decls.map (·.pos)) n := by
    rw [← List.flatMap_singleton' (decls.map _), List.flatMap_map]
    refine declarations.ascends fun ⟨binding⟩ => ?_
    rw [binding.pos_eq]
    exact .cons (Nat.le_refl _) (.nil (Nat.le_refl _))
  have before := declarations.le DeclForm.le
  have between := functions.le FunctionForm.le
  rw [List.length_append, List.length_append]
  refine ⟨l, (first.append (functions.ascends fun form => form.ascends)).append ?_, ?_⟩
  · cases commands with
    | none => exact .nil (Nat.le_refl _)
    | list commands => exact ascends_group commands.ascends
  · cases commands with
    | none => omega
    | list commands =>
      -- The body takes a number for its list, which has no token of its own.
      have := commands.le
      omega

end Grammar

/-! ### Statement texts -/

/-- The entry of a command in the table of texts. -/
abbrev Command.entry (cmd : SourceCommand) : Nat × String := (cmd.pos, cmd.text)

mutual

theorem Command.statements_eq : (cmd : SourceCommand) →
    cmd.statements = (cmd.preorder.filter (·.isStatement)).map Command.entry
  | .seq pos cmds => by
    rw [Command.statements, Command.preorder, List.filter_cons_of_neg (by exact nofun)]
    exact statementsOfSeq_eq cmds
  | .branch pos cond onTrue onFalse => by
    rw [Command.statements, Command.preorder, List.filter_cons_of_pos rfl, List.filter_append,
      List.map_cons, List.map_append, onTrue.statements_eq, statementsOfElse_eq onFalse]
    rfl
  | .loop pos header body => by
    rw [Command.statements, Command.preorder, List.filter_cons_of_pos rfl, List.map_cons,
      body.statements_eq]
    rfl
  | .decl .. | .define .. | .update .. | .reduce .. | .eval .. | .advance .. | .skip _ => rfl

theorem statementsOfSeq_eq : (cmds : List SourceCommand) → statementsOfSeq cmds =
    ((Command.preorderSeq cmds).filter (·.isStatement)).map Command.entry
  | [] => rfl
  | cmd :: cmds => by
    rw [statementsOfSeq, Command.preorderSeq, List.filter_append, List.map_append, cmd.statements_eq,
      statementsOfSeq_eq cmds]

theorem statementsOfElse_eq : (cmd : Option SourceCommand) → statementsOfElse cmd =
    ((Command.preorderElse cmd).filter (·.isStatement)).map Command.entry
  | none => rfl
  | some cmd => cmd.statements_eq

end

/-- `p.Writes pos text`: what `p` has at position `pos` reads `text`. -/
inductive Program.Writes (p : SourceProgram) : Nat → String → Prop where
  | decl {d : Decl} (member : d ∈ p.decls) : p.Writes d.pos s!"decl {d.text};"
  | function {f : Function (Option Ty) Expr} (defined : f ∈ p.defs) : p.Writes f.pos f.text
  | param {f : Function (Option Ty) Expr} {d : Decl} (defined : f ∈ p.defs)
      (member : d ∈ f.params) : p.Writes d.pos d.text
  | command {cmd : SourceCommand} (member : cmd ∈ p.commands) (statement : cmd.isStatement = true) :
      p.Writes cmd.pos cmd.text

theorem mem_statements {p : SourceProgram} {pos : Nat} {text : String} :
    (pos, text) ∈ p.statements ↔ p.Writes pos text := by
  unfold Program.statements
  simp only [List.mem_append, List.mem_flatMap, List.mem_cons, List.mem_map, Prod.mk.injEq,
    Command.statements_eq, statementsOfElse_eq, List.mem_filter, and_assoc]
  constructor
  · rintro ((⟨d, member, rfl, rfl⟩ | ⟨f, defined, (⟨rfl, rfl⟩ | ⟨d, member, rfl, rfl⟩) | inside⟩) | inside)
    · exact .decl member
    · exact .function defined
    · exact .param defined member
    · obtain ⟨cmd, member, statement, rfl, rfl⟩ := inside
      exact .command (List.mem_append_left _ (List.mem_flatMap.mpr ⟨f, defined, member⟩)) statement
    · obtain ⟨cmd, member, statement, rfl, rfl⟩ := inside
      exact .command (List.mem_append_right _ member) statement
  · rintro (member | defined | ⟨defined, member⟩ | ⟨member, statement⟩)
    · exact .inl (.inl ⟨_, member, rfl, rfl⟩)
    · exact .inl (.inr ⟨_, defined, .inl (.inl ⟨rfl, rfl⟩)⟩)
    · exact .inl (.inr ⟨_, defined, .inl (.inr ⟨_, member, rfl, rfl⟩)⟩)
    · rcases List.mem_append.mp member with inFunction | inBody
      · obtain ⟨f, defined, inside⟩ := List.mem_flatMap.mp inFunction
        exact .inl (.inr ⟨f, defined, .inr ⟨_, inside, statement, rfl, rfl⟩⟩)
      · exact .inr ⟨_, inBody, statement, rfl, rfl⟩

/-- What describes a position that has no statement. -/
abbrev placeholder (pos : Nat) : String := s!"<statement {pos}>"

theorem getLast_append {s t : String} {c : Char} (last : t.toList.getLast? = some c) :
    (s ++ t).toList.getLast? = some c := by
  rw [String.toList_append, List.getLast?_append, last]
  rfl

/-- The text of a statement ends in `;`, in `)` or in a digit. -/
theorem last_text {cmd : SourceCommand} (statement : cmd.isStatement = true) :
    ∃ last, cmd.text.toList.getLast? = some last ∧ last ≠ '>' := by
  have ended (s : String) : ∃ last, (s ++ ";").toList.getLast? = some last ∧ last ≠ '>' :=
    ⟨';', getLast_append rfl, by decide⟩
  have closed (s : String) : ∃ last, (s ++ ")").toList.getLast? = some last ∧ last ≠ '>' :=
    ⟨')', getLast_append rfl, by decide⟩
  cases cmd with
  | seq => cases statement
  | skip => cases statement
  | define pos name ty init => cases ty <;> exact ended _
  | branch => exact closed _
  | loop pos header body =>
    rw [Command.text, LoopHeader.text]
    split
    · exact closed _
    · next k _ =>
      obtain ⟨digit, last⟩ := Option.isSome_iff_exists.mp
        (List.getLast?_isSome.mpr (Nat.toDigits_ne_nil : Nat.toDigits 10 k ≠ []))
      refine ⟨digit, getLast_append ?_, ?_⟩
      · rw [← last, Nat.toString_eq_repr, Nat.toList_repr]
      · rintro rfl
        cases FreeName.isDigit_toDigits k '>' (List.mem_of_getLast? last)
  | _ => exact ended _

theorem text_ne_placeholder {cmd : SourceCommand} (statement : cmd.isStatement = true) (pos : Nat) :
    cmd.text ≠ placeholder pos := by
  intro same
  obtain ⟨last, ends, other⟩ := last_text statement
  rw [same, getLast_append rfl] at ends
  exact other (Option.some.inj ends).symm

theorem keys_filter_sublist (cmds : List SourceCommand) :
    (((cmds.filter (·.isStatement)).map Command.entry).map Prod.fst).Sublist
      (cmds.map Command.pos) := by
  rw [List.map_map]
  exact List.filter_sublist.map _

/-- Lists and empty blocks have positions but no texts. -/
theorem keys_statements_sublist (p : SourceProgram) :
    (p.statements.map Prod.fst).Sublist p.positions := by
  unfold Program.statements Program.positions
  rw [List.map_append, List.map_append, List.map_map, statementsOfElse_eq]
  refine List.Sublist.append (List.Sublist.append (List.Sublist.refl _) ?_) (keys_filter_sublist _)
  induction p.defs with
  | nil => exact List.Sublist.refl _
  | cons f fs ih =>
    rw [List.flatMap_cons, List.flatMap_cons, List.map_append]
    refine List.Sublist.append ?_ ih
    rw [List.map_append, List.map_cons, List.map_map, Command.statements_eq]
    exact List.Sublist.append (List.Sublist.refl _) (keys_filter_sublist _)

theorem positions_commands_sublist {τ ε : Type} (p : Program τ ε) :
    (p.commands.map Command.pos).Sublist p.positions := by
  unfold Program.commands Program.positions
  rw [List.map_append]
  refine List.Sublist.append (List.Sublist.trans ?_ (List.sublist_append_right _ _)) (List.Sublist.refl _)
  induction p.defs with
  | nil => exact List.Sublist.refl _
  | cons f fs ih =>
    rw [List.flatMap_cons, List.flatMap_cons, List.map_append]
    exact List.Sublist.append (List.sublist_append_right _ _) ih

/-! ### Parsed programs -/

theorem Lexer.length_scan_le (owed offset : Nat) (cs : List Char) :
    (scan owed offset cs).length ≤ cs.length := by
  induction cs generalizing owed offset with
  | nil => exact Nat.le_refl _
  | cons c cs ih =>
    unfold scan
    split
    · exact Nat.le_succ_of_le (ih _ _)
    · dsimp only
      split
      · exact Nat.le_succ_of_le (ih _ _)
      · exact Nat.succ_le_succ (ih _ _)

theorem length_lexemes_le (source : String) : (lexemes source).length ≤ source.length := by
  rw [← String.length_toList]
  exact Lexer.length_scan_le _ _ _

section

variable {source : String} {p : SourceProgram}

theorem positions_pairwise (parsed : parse source = .ok p) : p.positions.Pairwise (· < ·) := by
  obtain ⟨ts, _, _, form, _⟩ := Parser.parse_reads parsed
  obtain ⟨next, ascends, _⟩ := form.ascends
  exact ascends.pairwise

/-- No position is beyond the length of the text. -/
theorem pos_le_length (parsed : parse source = .ok p) : ∀ pos ∈ p.positions, pos ≤ source.length := by
  obtain ⟨ts, rest, reads, form, _⟩ := Parser.parse_reads parsed
  obtain ⟨next, ascends, few⟩ := form.ascends
  intro pos member
  have below := ascends.upper pos member
  have tokens := reads.length_eq
  have cut := length_lexemes_le source
  omega

/-- A position belongs to one command only. -/
theorem command_eq_of_pos_eq (parsed : parse source = .ok p) {cmd other : SourceCommand}
    (member : cmd ∈ p.commands) (among : other ∈ p.commands) (same : other.pos = cmd.pos) :
    other = cmd := by
  have nodup : (p.commands.map Command.pos).Nodup :=
    ((positions_pairwise parsed).sublist (positions_commands_sublist p)).imp Nat.ne_of_lt
  exact List.inj_on_of_nodup_map nodup among member same

theorem get?_ofProgram (parsed : parse source = .ok p) {pos : Nat} {text : String} :
    (Statements.ofProgram p).get? pos = some text ↔ p.Writes pos text := by
  have nodup : (p.statements.map Prod.fst).Nodup :=
    ((positions_pairwise parsed).sublist (keys_statements_sublist p)).imp Nat.ne_of_lt
  rw [Statements.ofProgram, Table.get?_ofList_eq_some_iff nodup, mem_statements]

/-- The table of texts describes each statement by its text. -/
theorem describe_eq_text (parsed : parse source = .ok p) {cmd : SourceCommand}
    (member : cmd ∈ p.commands) (statement : cmd.isStatement = true) :
    (Statements.ofProgram p).describe cmd.pos = cmd.text := by
  rw [Statements.describe, (get?_ofProgram parsed).mpr (.command member statement)]
  rfl

/-- Positions identify what they were given to: they ascend in the order of the text, so no two are
the same, and the table of texts holds what the program has at each position and nothing else. -/
theorem statements_of_parse (parsed : parse source = .ok p) :
    p.positions.Pairwise (· < ·) ∧ p.positions.Nodup ∧
      ∀ pos text, (Statements.ofProgram p).get? pos = some text ↔ p.Writes pos text :=
  ⟨positions_pairwise parsed, (positions_pairwise parsed).imp Nat.ne_of_lt,
    fun _ _ => get?_ofProgram parsed⟩

end

/-- A function with a one-command body, whose block has a position that no command keeps, and an
`else if` before an empty block. -/
def nested : String :=
  "decl a: ubit<8>[4]; def put(m: ubit<8>[4], v: ubit<8>) \x7b m[0] := v; \x7d " ++
    "for (let i = 0..4) \x7b if (a[i] < 3) \x7b put(a, 1); advance a; \x7d " ++
    "else if (true) \x7b \x7d \x7d"

theorem statements_of_parse_nested : ∃ p, parse nested = .ok p ∧
    p.positions = [0, 1, 2, 3, 5, 7, 9, 10, 11, 12, 13, 14] ∧
    (Statements.ofProgram p).get? 10 = none ∧ p.positions.Pairwise (· < ·) ∧ p.positions.Nodup ∧
    ∀ pos text, (Statements.ofProgram p).get? pos = some text ↔ p.Writes pos text := by
  have computed : ∃ p, parse nested = .ok p ∧
      (p.positions, (Statements.ofProgram p).get? 10) =
        ([0, 1, 2, 3, 5, 7, 9, 10, 11, 12, 13, 14], none) := exists_ok_of_map (by decide +kernel)
  obtain ⟨p, parsed, values⟩ := computed
  obtain ⟨positions, missing⟩ := Prod.mk.inj values
  exact ⟨p, parsed, positions, missing, statements_of_parse parsed⟩

end BankedLoops
