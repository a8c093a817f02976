import BankedLoops.Parser.Command
import BankedLoops.Proofs.Success

/-!
# What can be written

Every number of a source text is a word, and an array type has dimensions. `Yields` follows such a
property through the parser: from the lexemes, which hold no larger numbers, to `parse_written`.
-/

namespace BankedLoops

/-! ### Written programs -/

def IsWord (n : Nat) : Prop := n < Word.capacity Word.sizeBits

instance (n : Nat) : Decidable (IsWord n) := inferInstanceAs (Decidable (n < _))

/-- An array type has dimensions, and their sizes are words. -/
def Ty.Written : Ty → Prop
  | .array _ dims => dims ≠ [] ∧ ∀ d ∈ dims, IsWord d.size ∧ IsWord d.bank
  | _ => True

mutual

/-- Every literal is a word. -/
def Expr.Written : Expr → Prop
  | .int n => IsWord n
  | .bool _ | .var _ => True
  | .binop _ lhs rhs => lhs.Written ∧ rhs.Written
  | .access _ idxs => WrittenAll idxs
  | .app _ args => WrittenAll args

def Expr.WrittenAll : List Expr → Prop
  | [] => True
  | e :: es => e.Written ∧ WrittenAll es

end

namespace Command

variable {τ ε : Type}

mutual

/-- The bounds of loops are words, the types of declarations can be written, reductions are
arithmetic, and every expression satisfies `value`. -/
def Written (value : ε → Prop) : Command τ ε → Prop
  | .decl _ _ ty => ty.Written
  | .define _ _ _ init => value init
  | .seq _ cmds => WrittenSeq value cmds
  | .branch _ cond onTrue onFalse => value cond ∧ Written value onTrue ∧ WrittenElse value onFalse
  | .loop _ header body => IsWord header.start ∧ IsWord header.stop ∧ Written value body
  | .update _ target e => value target ∧ value e
  | .reduce _ op target e => op.isArithmetic = true ∧ value target ∧ value e
  | .eval _ e => value e
  | .advance .. | .skip _ => True

def WrittenSeq (value : ε → Prop) : List (Command τ ε) → Prop
  | [] => True
  | cmd :: cmds => Written value cmd ∧ WrittenSeq value cmds

def WrittenElse (value : ε → Prop) : Option (Command τ ε) → Prop
  | none => True
  | some cmd => Written value cmd

end

end Command

structure Program.Written {τ ε : Type} (value : ε → Prop) (p : Program τ ε) : Prop where
  decls : ∀ d ∈ p.decls, d.ty.Written
  params : ∀ f ∈ p.defs, ∀ d ∈ f.params, d.ty.Written
  functions : ∀ f ∈ p.defs, f.body.Written value
  body : Command.WrittenElse value p.body

/-! ### Lexemes -/

/-- The number of a lexeme, if it is one, is a word. -/
def Lexeme.InWords (l : Lexeme) : Prop := ∀ n, l.item = .token (.int n) → IsWord n

namespace Lexer

theorem number_inWords {digits : List Char} {n : Nat} (isNumber : number digits = .token (.int n)) :
    IsWord n := by
  unfold number at isNumber
  dsimp only at isNumber
  split at isNumber
  · next fits =>
    cases isNumber
    exact Word.fits_iff.mp fits
  · cases isNumber

theorem next_inWords {c : Char} {cs : List Char} {n : Nat}
    (isNumber : (next c cs).item = some (.token (.int n))) : IsWord n := by
  unfold next at isNumber
  split at isNumber
  · cases isNumber
  split at isNumber
  · cases isNumber
  split at isNumber
  · exact number_inWords (Option.some.inj isNumber)
  split at isNumber
  · unfold word at isNumber
    dsimp only at isNumber
    split at isNumber <;> cases isNumber
  · split at isNumber <;> cases isNumber

theorem scan_inWords (owed offset : Nat) (cs : List Char) : ∀ l ∈ scan owed offset cs, l.InWords := by
  induction cs generalizing owed offset with
  | nil => exact nofun
  | cons c cs ih =>
    unfold scan
    split
    · exact ih _ _
    · dsimp only
      split
      · exact ih _ _
      · next item found =>
        intro l member
        rcases List.mem_cons.mp member with rfl | later
        · intro n isNumber
          rw [show item = .token (.int n) from isNumber] at found
          exact next_inWords found
        · exact ih _ _ l later

end Lexer

/-! ### Parsers -/

namespace Parser

variable {α β : Type}

def State.InWords (s : State) : Prop := ∀ l ∈ s.lexemes, l.InWords

/-- The text is to blame. -/
inductive Blames : CompileError → Prop where
  | lexical (offset : Nat) (text : String) : Blames (.lexical offset text)
  | parse (fault : ParseFault) : Blames (.parse fault)

/-- How a run ends: with a result that satisfies `holds`, before lexemes whose numbers are words, or
with a complaint about the text. -/
inductive Ends (holds : α → Prop) : Except CompileError (α × State) → Prop where
  | ok {a : α} {s : State} (fact : holds a) (words : s.InWords) : Ends holds (.ok (a, s))
  | error {e : CompileError} (text : Blames e) : Ends holds (.error e)

/-- From lexemes whose numbers are words the parser goes on to such lexemes, with a result that
satisfies `holds`. -/
def Yields (holds : α → Prop) (p : Parser α) : Prop :=
  ∀ s, s.InWords → Ends holds (p.run s)

namespace Yields

variable {holds : α → Prop} {held : β → Prop}

theorem pure {a : α} (fact : holds a) : Yields holds (Pure.pure a) :=
  fun _ words => .ok fact words

theorem bind {p : Parser α} {f : α → Parser β} (first : Yields holds p)
    (rest : ∀ a, holds a → Yields held (f a)) : Yields held (p >>= f) := by
  intro s words
  have ended := first s words
  rw [StateT.run_bind]
  generalize p.run s = ran at ended
  cases ended with
  | ok fact words => exact rest _ fact _ words
  | error text => exact .error text

theorem throw {e : CompileError} (text : Blames e) : Yields holds (throw e : Parser α) :=
  fun _ _ => .error text

theorem ite {c : Prop} [Decidable c] {p q : Parser α} (yes : Yields holds p) (no : Yields holds q) :
    Yields holds (if c then p else q) := by
  split
  · exact yes
  · exact no

theorem map {p : Parser α} {f : α → β} (yields : Yields holds p) (fact : ∀ a, holds a → held (f a)) :
    Yields held (f <$> p) := by
  rw [map_eq_pure_bind]
  exact yields.bind fun a given => .pure (fact a given)

end Yields

/-- The result is of no interest. -/
abbrev Runs (p : Parser α) : Prop := Yields (fun _ => True) p

theorem runs_get : Yields State.InWords (get : Parser State) :=
  fun _ words => .ok words words

theorem yields_current : Yields (fun t => ∀ n, t = some (.int n) → IsWord n) current := by
  refine runs_get.bind fun s words => ?_
  split
  · next start stop t rest same =>
    refine .pure fun n isNumber => ?_
    cases isNumber
    exact words ⟨start, stop, .token (.int n)⟩ (same ▸ List.mem_cons_self) n rfl
  · exact .pure nofun

theorem runs_reach {lexemes : List Lexeme} (words : ∀ l ∈ lexemes, l.InWords) :
    Runs (reach lexemes) := by
  unfold reach
  split
  · exact .throw (.lexical _ _)
  · exact fun _ _ => .ok trivial words

theorem runs_advance : Runs advance := by
  refine runs_get.bind fun s words => runs_reach ?_
  intro l member
  exact words l (List.mem_of_mem_tail member)

theorem runs_remaining : Runs remaining := runs_get.bind fun _ _ => .pure trivial

theorem yields_unexpected {holds : α → Prop} (wanted : Expected) :
    Yields holds (unexpected wanted : Parser α) := by
  refine runs_get.bind fun s _ => ?_
  split
  · exact .throw (.parse _)
  · exact .throw (.parse _)

theorem runs_isAt (t : Token) : Runs (isAt t) := yields_current.bind fun _ _ => .pure trivial

theorem runs_eat (t : Token) : Runs (eat t) :=
  (runs_isAt t).bind fun _ _ => .ite (runs_advance.bind fun _ _ => .pure trivial) (.pure trivial)

theorem runs_expect (t : Token) : Runs (expect t) :=
  (runs_isAt t).bind fun _ _ => .ite runs_advance (yields_unexpected _)

theorem runs_identifier : Runs identifier := by
  refine yields_current.bind fun t _ => ?_
  split
  · exact runs_advance.bind fun _ _ => .pure trivial
  · exact yields_unexpected _

theorem yields_integer : Yields IsWord integer := by
  refine yields_current.bind fun t word => ?_
  split
  · exact runs_advance.bind fun _ _ => .pure (word _ rfl)
  · exact yields_unexpected _

theorem runs_freshPos : Runs freshPos :=
  fun _ words => .ok trivial words

section

variable {holds : α → Prop} {item : Parser α}

theorem yields_announced (mark : Token) (each : Yields holds item) (rounds : Nat) :
    Yields (fun xs => ∀ x ∈ xs, holds x) (announced mark item rounds) := by
  induction rounds with
  | zero => exact .pure nofun
  | succ rounds ih =>
    refine (runs_eat mark).bind fun _ _ => .ite ?_ (.pure nofun)
    exact each.bind fun x fact => ih.bind fun xs facts => .pure (List.forall_mem_cons.mpr ⟨fact, facts⟩)

theorem yields_separated (each : Yields holds item) (rounds : Nat) :
    Yields (fun xs => ∀ x ∈ xs, holds x) (separated item rounds) := by
  induction rounds with
  | zero => exact each.bind fun x fact => .pure (by simpa using fact)
  | succ rounds ih =>
    refine each.bind fun x fact => (runs_eat _).bind fun _ _ => .ite ?_ (.pure (by simpa using fact))
    exact ih.bind fun xs facts => .pure (List.forall_mem_cons.mpr ⟨fact, facts⟩)

theorem yields_parenthesized (each : Yields holds item) :
    Yields (fun xs => ∀ x ∈ xs, holds x) (parenthesized item) := by
  refine (runs_isAt _).bind fun _ _ => .ite ?_ ?_
  · exact (runs_expect _).bind fun _ _ => .pure nofun
  · exact runs_remaining.bind fun _ _ => (yields_separated each _).bind fun xs facts =>
      (runs_expect _).bind fun _ _ => .pure facts

end

/-! ### Expressions -/

section

variable {operand : Parser Expr}

theorem writtenAll_of_forall : {es : List Expr} → (∀ e ∈ es, e.Written) → Expr.WrittenAll es
  | [], _ => trivial
  | e :: _, all => ⟨all e List.mem_cons_self, writtenAll_of_forall fun e member =>
      all e (List.mem_cons_of_mem _ member)⟩

theorem yields_chain (each : Yields Expr.Written operand) (op? : Symbol → Option BinOp) (rounds : Nat)
    {left : Expr} (written : left.Written) : Yields Expr.Written (chain operand op? left rounds) := by
  induction rounds generalizing left with
  | zero => exact .pure written
  | succ rounds ih =>
    refine yields_current.bind fun t _ => ?_
    split
    · split
      · exact runs_advance.bind fun _ _ => each.bind fun right writtenRight => ih ⟨written, writtenRight⟩
      · exact .pure written
    · exact .pure written

theorem yields_leftAssociative (each : Yields Expr.Written operand) (op? : Symbol → Option BinOp) :
    Yields Expr.Written (leftAssociative operand op?) :=
  each.bind fun _ written => runs_remaining.bind fun _ _ => yields_chain each op? _ written

theorem yields_comparison (each : Yields Expr.Written operand) :
    Yields Expr.Written (comparison operand) :=
  each.bind fun _ written => yields_chain each _ _ written

theorem yields_named (each : Yields Expr.Written operand) (name : String) :
    Yields Expr.Written (named operand name) := by
  have index : Yields Expr.Written (do
      let idx ← operand
      expect (.symbol .rBracket)
      Pure.pure idx) :=
    each.bind fun _ written => (runs_expect _).bind fun _ _ => .pure written
  refine (runs_eat _).bind fun _ _ => .ite ?_ ?_
  · exact (yields_parenthesized each).bind fun args all => .pure (writtenAll_of_forall all)
  · refine runs_remaining.bind fun _ _ => (yields_announced _ index _).bind fun idxs all => ?_
    split
    · exact .pure trivial
    · exact .pure (writtenAll_of_forall all)

theorem yields_primary (each : Yields Expr.Written operand) : Yields Expr.Written (primary operand) := by
  refine yields_current.bind fun t word => ?_
  split
  · exact runs_advance.bind fun _ _ => .pure (word _ rfl)
  · exact runs_advance.bind fun _ _ => .pure trivial
  · exact runs_advance.bind fun _ _ => .pure trivial
  · exact runs_advance.bind fun _ _ => each.bind fun _ written =>
      (runs_expect _).bind fun _ _ => .pure written
  · exact runs_advance.bind fun _ _ => yields_named each _
  · exact yields_unexpected _

theorem yields_exprWithin (depth : Nat) : Yields Expr.Written (exprWithin depth) := by
  induction depth with
  | zero => exact yields_unexpected _
  | succ depth ih =>
    exact yields_leftAssociative (yields_leftAssociative (yields_comparison
      (yields_leftAssociative (yields_leftAssociative (yields_leftAssociative (yields_primary ih) _) _)
        _)) _) _

theorem yields_expr : Yields Expr.Written expr := runs_remaining.bind fun _ _ => yields_exprWithin _

end

/-! ### Types -/

theorem runs_bitWidth : Runs bitWidth :=
  yields_integer.bind fun _ _ => .ite (.pure trivial) (.throw (.parse _))

theorem yields_angled {holds : Ty → Prop} {inner : Parser Ty} (each : Yields holds inner) :
    Yields holds (angled inner) :=
  runs_advance.bind fun _ _ => (runs_expect _).bind fun _ _ => each.bind fun _ fact =>
    (runs_expect _).bind fun _ _ => .pure fact

theorem yields_scalarTy : Yields Ty.Written scalarTy := by
  refine yields_current.bind fun t _ => ?_
  split
  · exact runs_advance.bind fun _ _ => .pure trivial
  · exact yields_angled (runs_bitWidth.bind fun _ _ => .pure trivial)
  · exact yields_angled (runs_bitWidth.bind fun _ _ => .pure trivial)
  · exact yields_angled (runs_bitWidth.bind fun _ _ => (runs_expect _).bind fun _ _ =>
      runs_bitWidth.bind fun _ _ => .pure trivial)
  · exact yields_unexpected _

theorem yields_dimension : Yields (fun d => IsWord d.size ∧ IsWord d.bank) dimension := by
  refine yields_integer.bind fun size word => (runs_eat _).bind fun _ _ => .ite ?_ ?_
  · exact yields_integer.bind fun bank other => (runs_expect _).bind fun _ _ => .pure ⟨word, other⟩
  · exact (runs_expect _).bind fun _ _ => .pure ⟨word, word⟩

theorem yields_type : Yields Ty.Written type := by
  refine yields_scalarTy.bind fun scalar written => runs_remaining.bind fun _ _ =>
    (yields_announced _ yields_dimension _).bind fun dims words => ?_
  split
  · exact .pure written
  · next some_ => exact .pure ⟨some_, words⟩

theorem yields_binding (pos : Nat) : Yields (fun d => d.ty.Written) (binding pos) :=
  runs_identifier.bind fun _ _ => (runs_expect _).bind fun _ _ => yields_type.bind fun _ written =>
    .pure written

/-! ### Commands -/

/-- A source command that can be written. -/
abbrev WrittenCommand (cmd : SourceCommand) : Prop := cmd.Written Expr.Written

theorem writtenSeq_of_forall : {cmds : List SourceCommand} → (∀ cmd ∈ cmds, WrittenCommand cmd) →
    Command.WrittenSeq Expr.Written cmds
  | [], _ => trivial
  | cmd :: _, all => ⟨all cmd List.mem_cons_self, writtenSeq_of_forall fun cmd member =>
      all cmd (List.mem_cons_of_mem _ member)⟩

section

variable {inner : Parser SourceCommand}

theorem yields_commandList (each : Yields WrittenCommand inner) (rounds : Nat) :
    Yields (fun cmds => ∀ cmd ∈ cmds, WrittenCommand cmd) (commandList inner rounds) := by
  induction rounds with
  | zero => exact .pure nofun
  | succ rounds ih =>
    refine yields_current.bind fun t _ => ?_
    split
    · exact .pure nofun
    · exact .pure nofun
    · exact runs_advance.bind fun _ _ => ih
    · exact each.bind fun cmd written => ih.bind fun cmds all =>
        .pure (List.forall_mem_cons.mpr ⟨written, all⟩)

theorem yields_commands (each : Yields WrittenCommand inner) : Yields WrittenCommand (commands inner) := by
  refine runs_freshPos.bind fun _ _ => runs_remaining.bind fun _ _ =>
    (yields_commandList each _).bind fun cmds all => ?_
  split
  · next cmd => exact .pure (all cmd List.mem_cons_self)
  · exact .pure (writtenSeq_of_forall all)

theorem yields_block (each : Yields WrittenCommand inner) : Yields WrittenCommand (block inner) := by
  refine (runs_expect _).bind fun _ _ => (runs_isAt _).bind fun _ _ => .ite ?_ ?_
  · exact runs_freshPos.bind fun _ _ => (runs_expect _).bind fun _ _ => .pure trivial
  · exact (yields_commands each).bind fun _ written => (runs_expect _).bind fun _ _ => .pure written

theorem reduction_arithmetic {mark : Symbol} {op : BinOp} (found : reduction? mark = some op) :
    op.isArithmetic = true := by
  cases mark <;> cases found <;> rfl

theorem yields_exprCommand (pos : Nat) : Yields WrittenCommand (exprCommand pos) := by
  have ended {cmd : SourceCommand} (written : WrittenCommand cmd) : Yields WrittenCommand (do
      expect (.symbol .semicolon)
      Pure.pure cmd) := (runs_expect _).bind fun _ _ => .pure written
  refine yields_expr.bind fun target written => yields_current.bind fun t _ => ?_
  split
  · exact runs_advance.bind fun _ _ => yields_expr.bind fun _ other => ended ⟨written, other⟩
  · split
    · next found =>
      exact runs_advance.bind fun _ _ => yields_expr.bind fun _ other =>
        ended ⟨reduction_arithmetic found, written, other⟩
    · exact ended written
  · exact ended written

theorem yields_declCommand (pos : Nat) : Yields WrittenCommand (declCommand pos) :=
  runs_advance.bind fun _ _ => (yields_binding pos).bind fun _ written =>
    (runs_expect _).bind fun _ _ => .pure written

theorem yields_letCommand (pos : Nat) : Yields WrittenCommand (letCommand pos) := by
  have rest (name : String) (ty : Option Ty) : Yields WrittenCommand (do
      expect (.symbol .equals)
      let init ← expr
      expect (.symbol .semicolon)
      Pure.pure (.define pos name ty init)) :=
    (runs_expect _).bind fun _ _ => yields_expr.bind fun _ written =>
      (runs_expect _).bind fun _ _ => .pure written
  refine runs_advance.bind fun _ _ => runs_identifier.bind fun name _ => (runs_eat _).bind fun _ _ =>
    .ite ?_ (rest name none)
  have annotated : Yields (fun _ => True) (some <$> type) := yields_type.map fun _ _ => trivial
  exact annotated.bind fun ty _ => rest name ty

theorem yields_loopHeader : Yields (fun h => IsWord h.start ∧ IsWord h.stop) loopHeader := by
  refine runs_advance.bind fun _ _ => (runs_expect _).bind fun _ _ => (runs_expect _).bind fun _ _ =>
    runs_identifier.bind fun _ _ => (runs_expect _).bind fun _ _ => yields_integer.bind fun _ start =>
    (runs_expect _).bind fun _ _ => yields_integer.bind fun _ stop => (runs_expect _).bind fun _ _ =>
    (runs_eat _).bind fun _ _ => .ite ?_ (.pure ⟨start, stop⟩)
  have unrolled : Yields (fun _ => True) (some <$> integer) := yields_integer.map fun _ _ => trivial
  exact unrolled.bind fun _ _ => .pure ⟨start, stop⟩

theorem yields_advanceCommand (pos : Nat) : Yields WrittenCommand (advanceCommand pos) :=
  runs_advance.bind fun _ _ => runs_identifier.bind fun _ _ => (runs_expect _).bind fun _ _ =>
    .pure trivial

theorem yields_commandOver (each : Yields WrittenCommand inner) :
    Yields WrittenCommand (commandOver inner) := by
  refine runs_freshPos.bind fun pos _ => yields_current.bind fun t _ => ?_
  split
  · exact yields_declCommand pos
  · exact yields_letCommand pos
  · exact yields_loopHeader.bind fun _ bounds => (yields_block each).bind fun _ written =>
      .pure ⟨bounds.1, bounds.2, written⟩
  · refine runs_advance.bind fun _ _ => (runs_expect _).bind fun _ _ =>
      yields_expr.bind fun _ cond => (runs_expect _).bind fun _ _ =>
      (yields_block each).bind fun _ yes => (runs_eat _).bind fun _ _ => .ite ?_ ?_
    · have chained : Yields WrittenCommand
          (do if ← isAt (.keyword .if_) then inner else block inner) :=
        (runs_isAt _).bind fun _ _ => .ite each (yields_block each)
      have other : Yields (Command.WrittenElse Expr.Written)
          (some <$> (do if ← isAt (.keyword .if_) then inner else block inner)) :=
        chained.map fun _ written => written
      exact other.bind fun _ no => .pure ⟨cond, yes, no⟩
    · exact .pure ⟨cond, yes, trivial⟩
  · exact yields_advanceCommand pos
  · exact yields_exprCommand pos

end

theorem yields_command : Yields WrittenCommand command := by
  have within (depth : Nat) : Yields WrittenCommand (commandWithin depth) := by
    induction depth with
    | zero => exact yields_unexpected _
    | succ depth ih => exact yields_commandOver ih
  exact runs_remaining.bind fun _ _ => within _

/-! ### Programs -/

theorem yields_declarations (rounds : Nat) :
    Yields (fun ds => ∀ d ∈ ds, d.ty.Written) (declarations rounds) := by
  induction rounds with
  | zero => exact .pure nofun
  | succ rounds ih =>
    refine (runs_isAt _).bind fun _ _ => .ite ?_ (.pure nofun)
    refine runs_freshPos.bind fun pos _ => ?_
    have one : Yields (fun d => d.ty.Written) (declaration pos) :=
      runs_advance.bind fun _ _ => (yields_binding pos).bind fun _ written =>
        (runs_expect _).bind fun _ _ => .pure written
    exact one.bind fun d written => ih.bind fun ds all => .pure (List.forall_mem_cons.mpr ⟨written, all⟩)

/-- The parameters and the body of a function can be written. -/
def WrittenFunction (f : Function (Option Ty) Expr) : Prop :=
  (∀ d ∈ f.params, d.ty.Written) ∧ WrittenCommand f.body

theorem yields_function : Yields WrittenFunction function := by
  have parameters : Yields (fun d => d.ty.Written) parameter :=
    runs_freshPos.bind fun pos _ => yields_binding pos
  exact runs_freshPos.bind fun _ _ => (runs_expect _).bind fun _ _ => runs_identifier.bind fun _ _ =>
    (runs_expect _).bind fun _ _ => (yields_parenthesized parameters).bind fun _ params =>
    (yields_block yields_command).bind fun _ body => .pure ⟨params, body⟩

theorem yields_functions (rounds : Nat) :
    Yields (fun fs => ∀ f ∈ fs, WrittenFunction f) (functions rounds) := by
  induction rounds with
  | zero => exact .pure nofun
  | succ rounds ih =>
    refine (runs_isAt _).bind fun _ _ => .ite ?_ (.pure nofun)
    exact yields_function.bind fun f written => ih.bind fun fs all =>
      .pure (List.forall_mem_cons.mpr ⟨written, all⟩)

theorem yields_program {text : List Lexeme} (words : ∀ l ∈ text, l.InWords) :
    Yields (Program.Written Expr.Written) (program text) := by
  refine (runs_reach words).bind fun _ _ => runs_remaining.bind fun _ _ =>
    (yields_declarations _).bind fun ds decls => runs_remaining.bind fun _ _ =>
    (yields_functions _).bind fun fs defs => yields_current.bind fun t _ => ?_
  have params (f : Function (Option Ty) Expr) (member : f ∈ fs) := (defs f member).1
  have bodies (f : Function (Option Ty) Expr) (member : f ∈ fs) := (defs f member).2
  split
  · exact .pure ⟨decls, params, bodies, trivial⟩
  · exact (yields_commands yields_command).bind fun cmd written => .pure ⟨decls, params, bodies, written⟩

end Parser

/-- A text is read as a program that can be written, or is to blame. -/
theorem parse_ends (text : String) : (∃ p, parse text = .ok p ∧ p.Written Expr.Written) ∨
    ∃ e, parse text = .error e ∧ Parser.Blames e := by
  have ended : Parser.Ends (Program.Written Expr.Written) (Parser.program (lexemes text) ⟨[], 0⟩) :=
    Parser.yields_program (Lexer.scan_inWords 0 0 text.toList) _ (List.forall_mem_nil _)
  rw [parse, StateT.run']
  generalize Parser.program (lexemes text) ⟨[], 0⟩ = ran at ended
  cases ended with
  | ok fact _ => exact .inl ⟨_, rfl, fact⟩
  | error blames => exact .inr ⟨_, rfl, blames⟩

theorem parse_written {text : String} {p : SourceProgram} (parsed : parse text = .ok p) :
    p.Written Expr.Written := by
  rcases parse_ends text with ⟨_, read, written⟩ | ⟨_, failed, _⟩
  · cases parsed.symm.trans read
    exact written
  · cases parsed.symm.trans failed

end BankedLoops
