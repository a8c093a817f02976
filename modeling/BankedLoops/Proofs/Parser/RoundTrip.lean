import BankedLoops.Proofs.Parser.Acceptance
import BankedLoops.Proofs.Parser.Whole
import BankedLoops.Proofs.Preorder
import BankedLoops.Proofs.Token.Spelling

/-!
# Reading back what is printed

What was parsed has a text that is cut into tokens of the same expression, type or statement, with
parentheses only where the text has them. So parsing the text of a statement gives the statement
again.
-/

namespace BankedLoops

open Grammar Lexer

/-! ### Texts as tokens -/

/-- The text is cut into `ts`, whatever follows behind a separator. -/
def Spelled (text : String) (ts : List Token) : Prop :=
  ∀ ⦃rest : List Char⦄ ⦃us : List Token⦄, Ends rest → Spells rest us →
    Spells (text.toList ++ rest) (ts ++ us)

/-- The text is cut into tokens of the given form. -/
def Printed (form : List Token → Prop) (text : String) : Prop :=
  ∃ ts, form ts ∧ Spelled text ts

theorem Printed.mono {form weaker : List Token → Prop} {text : String} (printed : Printed form text)
    (implies : ∀ {ts}, form ts → weaker ts) : Printed weaker text := by
  obtain ⟨ts, formed, spelled⟩ := printed
  exact ⟨ts, implies formed, spelled⟩

theorem toList_toString_nat (n : Nat) : (toString n).toList = Nat.toDigits 10 n :=
  Nat.toList_repr

theorem spelled_number {n : Nat} (word : IsWord n) : Spelled (toString n) [.int n] := by
  intro rest us ends spells
  rw [toList_toString_nat]
  exact spells_number word ends.word spells

theorem spelled_name {name : String} (valid : IsName name) : Spelled name [.ident name] :=
  fun _ _ ends spells => spells_name valid ends.word spells

theorem spelled_keyword (k : Keyword) : Spelled k.text [.keyword k] :=
  fun _ _ ends spells => spells_keyword k ends.word spells

theorem toList_symbol (op : BinOp) : op.symbol.toList = op.mark.chars := by
  cases op <;> rfl

/-! ### Expressions -/

theorem printed_binop (op : BinOp) {lhs rhs : Expr}
    (left : Printed (ExprForm 6 · lhs) (lhs.enclose lhs.text))
    (right : Printed (ExprForm 6 · rhs) (rhs.enclose rhs.text)) :
    Printed (ExprForm 0 · (.binop op lhs rhs)) (Expr.binop op lhs rhs).text := by
  obtain ⟨ls, leftForm, leftSpelled⟩ := left
  obtain ⟨rs, rightForm, rightSpelled⟩ := right
  have small : op.leftLevel ≤ 6 ∧ op.level + 1 ≤ 6 := by cases op <;> decide
  refine ⟨_, .binop (Nat.zero_le _) (leftForm.mono small.1) (rightForm.mono small.2), ?_⟩
  intro rest us ends spells
  have text : (Expr.binop op lhs rhs).text.toList ++ rest = (lhs.enclose lhs.text).toList ++
      (' ' :: (op.mark.chars ++ (' ' :: ((rhs.enclose rhs.text).toList ++ rest)))) := by
    simp [Expr.text, toString, toList_symbol]
  rw [text, List.append_assoc]
  refine leftSpelled (.cons rfl) (.blank ?_)
  exact spells_symbol _ (Ends.cons rfl).symbol (.blank (rightSpelled ends spells))

theorem printed_parens {e : Expr} (printed : Printed (ExprForm 0 · e) e.text) :
    Printed (ExprForm 6 · e) s!"({e.text})" := by
  obtain ⟨ts, form, spelled⟩ := printed
  refine ⟨_, .parens form, fun rest us ends spells => ?_⟩
  have text : (s!"({e.text})").toList ++ rest =
      Symbol.lParen.chars ++ (e.text.toList ++ (Symbol.rParen.chars ++ rest)) := by
    simp [toString, Symbol.chars]
  rw [text, List.cons_append, List.append_assoc]
  exact spells_solo rfl (spelled (.cons rfl) (spells_solo rfl spells))

/-- What is no operation is printed the same way as an operand. -/
theorem printed_atom {e : Expr} (atom : e.isBinop = false) (printed : Printed (ExprForm 6 · e) e.text) :
    Printed (ExprForm 0 · e) e.text ∧ Printed (ExprForm 6 · e) (e.enclose e.text) := by
  refine ⟨printed.mono fun form => form.mono (by decide), ?_⟩
  rw [Expr.enclose, atom]
  exact printed

theorem toList_indexText_cons (idx : Expr) (idxs : List Expr) (rest : List Char) :
    (Expr.indexText (idx :: idxs)).toList ++ rest = Symbol.lBracket.chars ++
      (idx.text.toList ++ (Symbol.rBracket.chars ++ ((Expr.indexText idxs).toList ++ rest))) := by
  simp [Expr.indexText, toString, Symbol.chars]

theorem ends_indexText (idxs : List Expr) {rest : List Char} (ends : Ends rest) :
    Ends ((Expr.indexText idxs).toList ++ rest) := by
  cases idxs with
  | nil => exact ends
  | cons idx idxs =>
    rw [toList_indexText_cons]
    exact .cons rfl

/-- Commas between the arguments. -/
theorem printed_arguments_cons {arg next : Expr} {args : List Expr}
    (head : Printed (ExprForm 0 · arg) arg.text)
    (tail : Printed (ArgumentForm · (next :: args)) (Expr.argumentText (next :: args))) :
    Printed (ArgumentForm · (arg :: next :: args)) (Expr.argumentText (arg :: next :: args)) := by
  obtain ⟨ts, headForm, headSpelled⟩ := head
  obtain ⟨us, tailForm, tailSpelled⟩ := tail
  refine ⟨_, .cons headForm tailForm, fun rest vs ends spells => ?_⟩
  have text : (Expr.argumentText (arg :: next :: args)).toList ++ rest = arg.text.toList ++
      (Symbol.comma.chars ++ (' ' :: ((Expr.argumentText (next :: args)).toList ++ rest))) := by
    simp [Expr.argumentText, toString, Symbol.chars]
  rw [text, List.append_assoc]
  exact headSpelled (.cons rfl) (spells_solo rfl (.blank (tailSpelled ends spells)))

mutual

theorem printed_of_exprForm {k : Nat} {ts : List Token} {e : Expr} (lexable : ∀ t ∈ ts, t.Lexable) :
    ExprForm k ts e →
    Printed (ExprForm 0 · e) e.text ∧ Printed (ExprForm 6 · e) (e.enclose e.text)
  | .int n => printed_atom rfl ⟨_, .int n, spelled_number (lexable _ List.mem_cons_self)⟩
  | .yes => printed_atom rfl ⟨_, .yes, spelled_keyword .true_⟩
  | .no => printed_atom rfl ⟨_, .no, spelled_keyword .false_⟩
  | .var name => printed_atom rfl ⟨_, .var name, spelled_name (lexable _ List.mem_cons_self)⟩
  | @ExprForm.access _ _ idxs array some_ indices => by
    obtain ⟨name, lexable⟩ := List.forall_mem_cons.mp lexable
    obtain ⟨us, form, spelled⟩ := printed_of_indexForm lexable indices
    refine printed_atom rfl ⟨_, .access array some_ form, fun rest vs ends spells => ?_⟩
    have text : (Expr.access array idxs).text.toList ++ rest =
        array.toList ++ ((Expr.indexText idxs).toList ++ rest) := by
      simp [Expr.text]
    rw [text]
    exact spells_name name (ends_indexText idxs ends).word (spelled ends spells)
  | @ExprForm.app _ _ args func arguments => by
    obtain ⟨name, lexable⟩ := List.forall_mem_cons.mp lexable
    obtain ⟨us, form, spelled⟩ := printed_of_argumentForm (fun t member => lexable t (by simp [member])) arguments
    refine printed_atom rfl ⟨_, .app func form, fun rest vs ends spells => ?_⟩
    have text : (Expr.app func args).text.toList ++ rest = func.toList ++
        (Symbol.lParen.chars ++ ((Expr.argumentText args).toList ++ (Symbol.rParen.chars ++ rest))) := by
      simp [Expr.text, toString, Symbol.chars]
    rw [text, List.cons_append, List.cons_append, List.append_assoc]
    refine spells_name name (Ends.cons rfl).word (spells_solo rfl ?_)
    exact spelled (.cons rfl) (spells_solo rfl spells)
  | .parens inner => printed_of_exprForm (fun t member => lexable t (by simp [member])) inner
  | @ExprForm.binop _ _ _ _ _ op _ left right => by
    have lhs := printed_of_exprForm (fun t member => lexable t (by simp [member])) left
    have rhs := printed_of_exprForm (fun t member => lexable t (by simp [member])) right
    have whole := printed_binop op lhs.2 rhs.2
    exact ⟨whole, printed_parens whole⟩

theorem printed_of_indexForm {ts : List Token} {idxs : List Expr} (lexable : ∀ t ∈ ts, t.Lexable) :
    IndexForm ts idxs → Printed (IndexForm · idxs) (Expr.indexText idxs)
  | .nil => ⟨[], .nil, fun _ _ _ spells => spells⟩
  | .cons head tail => by
    have first := printed_of_exprForm (fun t member => lexable t (by simp [member])) head
    obtain ⟨ts, form, spelled⟩ := first.1
    obtain ⟨us, forms, spelledAll⟩ :=
      printed_of_indexForm (fun t member => lexable t (by simp [member])) tail
    refine ⟨_, .cons form forms, fun rest vs ends spells => ?_⟩
    rw [toList_indexText_cons, List.cons_append, List.append_assoc]
    exact spells_solo rfl (spelled (.cons rfl) (spells_solo rfl (spelledAll ends spells)))

theorem printed_of_argumentForm {ts : List Token} {args : List Expr} (lexable : ∀ t ∈ ts, t.Lexable) :
    ArgumentForm ts args → Printed (ArgumentForm · args) (Expr.argumentText args)
  | .none => ⟨[], .none, fun _ _ _ spells => spells⟩
  | .one only => (printed_of_exprForm lexable only).1.mono .one
  | .cons head tail => by
    have first := printed_of_exprForm (fun t member => lexable t (by simp [member])) head
    exact printed_arguments_cons first.1
      (printed_of_argumentForm (fun t member => lexable t (by simp [member])) tail)

end

/-! ### Types -/

theorem endsWord_cons {c : Char} {cs : List Char} (other : isWordRest c = false) : EndsWord (c :: cs) := by
  rintro d ⟨⟩
  exact other

theorem endsSymbol_digits (n : Nat) (rest : List Char) : EndsSymbol (Nat.toDigits 10 n ++ rest) := by
  have digits := FreeName.isDigit_toDigits n
  have some_ : Nat.toDigits 10 n ≠ [] := Nat.toDigits_ne_nil
  generalize Nat.toDigits 10 n = run at digits some_
  cases run with
  | nil => exact absurd rfl some_
  | cons c cs =>
    rintro d ⟨⟩
    have digit := digits c List.mem_cons_self
    intro member
    simp only [List.mem_cons, List.not_mem_nil, or_false] at member
    rcases member with rfl | rfl | rfl | rfl <;> cases digit

/-- Numbers between `<` and `>`. -/
theorem spells_angled (k : Keyword) (ts : List Token) {n : Nat} {inner rest : List Char} {us : List Token}
    (ends : Ends rest)
    (inside : ∀ {rest us}, EndsWord rest → Spells rest us →
      Spells (Nat.toDigits 10 n ++ (inner ++ rest)) (ts ++ us))
    (spells : Spells rest us) :
    Spells (k.text.toList ++ ('<' :: (Nat.toDigits 10 n ++ (inner ++ ('>' :: rest)))))
      (.keyword k :: .symbol .lt :: (ts ++ .symbol .gt :: us)) := by
  refine spells_keyword k (endsWord_cons rfl) ?_
  refine spells_symbol .lt (endsSymbol_digits n _) (inside (endsWord_cons rfl) ?_)
  exact spells_symbol .gt ends.symbol spells

theorem spelled_of_scalarForm {ts : List Token} {ty : Ty} (lexable : ∀ t ∈ ts, t.Lexable)
    (form : ScalarForm ts ty) : Spelled ty.text ts := by
  intro rest us ends spells
  cases form with
  | bool => exact spells_keyword .bool ends.word spells
  | @ubit width valid =>
    have word : IsWord width := lexable (.int width) (by simp)
    have text : (Ty.bit width false).text.toList ++ rest =
        Keyword.ubit.text.toList ++ ('<' :: (Nat.toDigits 10 width ++ ([] ++ ('>' :: rest)))) := by
      simp [Ty.text, toString, Keyword.text]
    rw [text]
    exact spells_angled .ubit [.int width] ends (spells_number word) spells
  | @bit width valid =>
    have word : IsWord width := lexable (.int width) (by simp)
    have text : (Ty.bit width true).text.toList ++ rest =
        Keyword.bit.text.toList ++ ('<' :: (Nat.toDigits 10 width ++ ([] ++ ('>' :: rest)))) := by
      simp [Ty.text, toString, Keyword.text]
    rw [text]
    exact spells_angled .bit [.int width] ends (spells_number word) spells
  | @fix width frac valid validFrac =>
    have word : IsWord width := lexable (.int width) (by simp)
    have wordFrac : IsWord frac := lexable (.int frac) (by simp)
    have text : (Ty.fix width frac).text.toList ++ rest = Keyword.fix.text.toList ++
        ('<' :: (Nat.toDigits 10 width ++ ((',' :: ' ' :: Nat.toDigits 10 frac) ++ ('>' :: rest)))) := by
      simp [Ty.text, toString, Keyword.text]
    rw [text]
    refine spells_angled .fix [.int width, .symbol .comma, .int frac] ends ?_ spells
    intro rest us ends spells
    refine spells_number word (Ends.cons rfl).word ?_
    exact spells_solo (s := .comma) rfl (.blank (spells_number wordFrac ends spells))

theorem printed_of_dimForm {ts : List Token} {d : Dim} (lexable : ∀ t ∈ ts, t.Lexable)
    (form : DimForm ts d) : Printed (DimForm · d) d.text := by
  have words : IsWord d.size ∧ IsWord d.bank := by
    cases form with
    | whole size =>
      have word : IsWord size := lexable (.int size) (by simp)
      exact ⟨word, word⟩
    | banked size bank => exact ⟨lexable (.int size) (by simp), lexable (.int bank) (by simp)⟩
  obtain ⟨size, bank⟩ := d
  by_cases whole : bank = size
  · subst whole
    refine ⟨_, .whole bank, fun rest us ends spells => ?_⟩
    have text : (Dim.mk bank bank).text.toList ++ rest =
        Symbol.lBracket.chars ++ (Nat.toDigits 10 bank ++ (Symbol.rBracket.chars ++ rest)) := by
      simp [Dim.text, toString, Symbol.chars]
    rw [text]
    exact spells_solo rfl (spells_number words.1 (Ends.cons rfl).word (spells_solo rfl spells))
  · refine ⟨_, .banked size bank, fun rest us ends spells => ?_⟩
    have text : (Dim.mk size bank).text.toList ++ rest = Symbol.lBracket.chars ++
        (Nat.toDigits 10 size ++ (' ' :: (Keyword.bank.text.toList ++
          (' ' :: (Nat.toDigits 10 bank ++ (Symbol.rBracket.chars ++ rest)))))) := by
      simp [Dim.text, whole, toString, Symbol.chars, Keyword.text]
    rw [text]
    refine spells_solo rfl (spells_number words.1 (Ends.cons rfl).word (.blank ?_))
    refine spells_keyword .bank (Ends.cons rfl).word (.blank ?_)
    exact spells_number words.2 (Ends.cons rfl).word (spells_solo rfl spells)

theorem ends_dims (dims : List Dim) {rest : List Char} (ends : Ends rest) :
    Ends ((String.join (dims.map Dim.text)).toList ++ rest) := by
  cases dims with
  | nil => exact ends
  | cons d dims =>
    have text : ∃ cs, d.text.toList = '[' :: cs := by
      unfold Dim.text
      split <;> exact ⟨_, by simp [toString]; rfl⟩
    obtain ⟨cs, text⟩ := text
    rw [List.map_cons, String.join_cons, String.toList_append, text]
    exact .cons rfl

theorem printed_of_dims {n m : Nat} {ts : List Token} {dims : List Dim}
    (lexable : ∀ t ∈ ts, t.Lexable) (many : Many (Unnumbered DimForm) n ts dims m) :
    Printed (Many (Unnumbered DimForm) n · dims n) (String.join (dims.map Dim.text)) := by
  induction many with
  | nil => exact ⟨[], .nil, fun _ _ _ spells => spells⟩
  | cons head tail ih =>
    obtain ⟨rfl, form⟩ := head
    obtain ⟨ts, form, spelled⟩ := printed_of_dimForm (fun t member => lexable t (by simp [member])) form
    obtain ⟨us, forms, spelledAll⟩ := ih (fun t member => lexable t (by simp [member]))
    refine ⟨_, .cons ⟨rfl, form⟩ forms, fun rest vs ends spells => ?_⟩
    rw [List.map_cons, String.join_cons, String.toList_append, List.append_assoc, List.append_assoc]
    exact spelled (ends_dims _ ends) (spelledAll ends spells)

theorem printed_of_tyForm {ts : List Token} {ty : Ty} (lexable : ∀ t ∈ ts, t.Lexable)
    (form : TyForm ts ty) : Printed (TyForm · ty) ty.text := by
  cases form with
  | scalar form => exact ⟨ts, .scalar form, spelled_of_scalarForm lexable form⟩
  | @array _ _ ts us elem dims scalar some_ each =>
    have first := spelled_of_scalarForm (fun t member => lexable t (by simp [member])) scalar
    obtain ⟨vs, forms, spelled⟩ := printed_of_dims (fun t member => lexable t (by simp [member])) each
    refine ⟨_, .array scalar some_ forms, fun rest ws ends spells => ?_⟩
    rw [Ty.text, String.toList_append, List.append_assoc, List.append_assoc]
    exact first (ends_dims dims ends) (spelled ends spells)

/-! ### Statements -/

namespace Command

variable {τ ε : Type}

/-- A command of one line. -/
def isOneLine : Command τ ε → Bool
  | .seq .. | .branch .. | .loop .. | .skip _ => false
  | _ => true

/-- The same command with another position. -/
def moveTo (pos : Nat) : Command τ ε → Command τ ε
  | .decl _ name ty => .decl pos name ty
  | .define _ name ty init => .define pos name ty init
  | .seq _ cmds => .seq pos cmds
  | .branch _ cond onTrue onFalse => .branch pos cond onTrue onFalse
  | .loop _ header body => .loop pos header body
  | .update _ target value => .update pos target value
  | .reduce _ op target value => .reduce pos op target value
  | .eval _ e => .eval pos e
  | .advance _ array => .advance pos array
  | .skip _ => .skip pos

end Command

/-- The program that is one statement. A declaration is then a top-level one. -/
def Program.ofStatement : SourceCommand → SourceProgram
  | .decl _ name ty => ⟨[⟨0, name, ty⟩], [], none⟩
  | cmd => ⟨[], [], some (cmd.moveTo 1)⟩

theorem spells_semicolon : Spells [';'] [.symbol .semicolon] :=
  spells_solo (s := .semicolon) rfl .nil

theorem parse_simple {text : String} {ts : List Token} {cmd : SourceCommand} {next : Nat}
    (spells : Spells text.toList ts) (form : CommandForm 1 ts cmd next)
    (simple : Parser.isSimple cmd = true) : parse text = .ok ⟨[], [], some cmd⟩ := by
  have ran := Parser.run_program_simple form simple (Parser.Reads.of_items spells)
  exact map_ok_iff.mpr ⟨_, ran, rfl⟩

/-- A declaration is read back as the only one of a program. -/
theorem parse_declText {number : Nat} {ts : List Token} {d : Decl} (lexable : ∀ t ∈ ts, t.Lexable)
    (form : BindingForm number ts d) :
    parse s!"decl {d.name}: {d.ty.text};" = .ok ⟨[⟨0, d.name, d.ty⟩], [], none⟩ := by
  cases form with
  | @mk _ ty name form =>
    obtain ⟨valid, lexable⟩ := List.forall_mem_cons.mp lexable
    obtain ⟨us, form, spelled⟩ := printed_of_tyForm (List.forall_mem_cons.mp lexable).2 form
    have text : (s!"decl {name}: {ty.text};").toList = Keyword.decl.text.toList ++
        (' ' :: (name.toList ++ (Symbol.colon.chars ++ (' ' :: (ty.text.toList ++ [';']))))) := by
      simp [toString, Keyword.text, Symbol.chars]
    have spells : Spells (s!"decl {name}: {ty.text};").toList
        (.keyword .decl :: .ident name :: .symbol .colon :: (us ++ [.symbol .semicolon])) := by
      rw [text]
      refine spells_keyword .decl (Ends.cons rfl).word (.blank ?_)
      refine spells_name valid (Ends.cons rfl).word (spells_symbol .colon (Ends.cons rfl).symbol ?_)
      exact .blank (spelled (.cons rfl) spells_semicolon)
    have ran := Parser.run_program_decl (.mk name form) (Parser.Reads.of_items spells)
    exact map_ok_iff.mpr ⟨_, ran, rfl⟩

section

variable {pos : Nat} {ts us : List Token} (name : String) {ty : Ty} {target value : Expr}

theorem parse_defineText (valid : IsName name) (init : Printed (ExprForm 0 · value) value.text) :
    parse (Command.define pos name none value).text = .ok ⟨[], [], some (.define 1 name none value)⟩ := by
  obtain ⟨ts, form, spelled⟩ := init
  have text : (Command.define pos name none value).text.toList = Keyword.let_.text.toList ++
      (' ' :: (name.toList ++ (' ' :: (Symbol.equals.chars ++ (' ' :: (value.text.toList ++ [';'])))))) := by
    simp [Command.text, toString, Keyword.text, Symbol.chars]
  refine parse_simple ?_ (.define name form) rfl
  rw [text]
  refine spells_keyword .let_ (Ends.cons rfl).word (.blank ?_)
  refine spells_name valid (Ends.cons rfl).word (.blank ?_)
  refine spells_symbol .equals (Ends.cons rfl).symbol (.blank ?_)
  exact spelled (.cons rfl) spells_semicolon

theorem parse_defineText_typed (valid : IsName name) (type : Printed (TyForm · ty) ty.text)
    (init : Printed (ExprForm 0 · value) value.text) :
    parse (Command.define pos name (some ty) value).text =
      .ok ⟨[], [], some (.define 1 name (some ty) value)⟩ := by
  obtain ⟨ts, tyForm, tySpelled⟩ := type
  obtain ⟨us, form, spelled⟩ := init
  have text : (Command.define pos name (some ty) value).text.toList = Keyword.let_.text.toList ++
      (' ' :: (name.toList ++ (Symbol.colon.chars ++ (' ' :: (ty.text.toList ++
        (' ' :: (Symbol.equals.chars ++ (' ' :: (value.text.toList ++ [';']))))))))) := by
    simp [Command.text, toString, Keyword.text, Symbol.chars]
  refine parse_simple ?_ (.defineTyped name tyForm form) rfl
  rw [text]
  refine spells_keyword .let_ (Ends.cons rfl).word (.blank ?_)
  refine spells_name valid (Ends.cons rfl).word (spells_symbol .colon (Ends.cons rfl).symbol ?_)
  refine .blank (tySpelled (.cons rfl) (.blank ?_))
  refine spells_symbol .equals (Ends.cons rfl).symbol (.blank ?_)
  exact spelled (.cons rfl) spells_semicolon

/-- A target, a mark and a value. -/
theorem spells_assignment {text : String} {mark : Symbol}
    (same : text.toList =
      target.text.toList ++ (' ' :: (mark.chars ++ (' ' :: (value.text.toList ++ [';'])))))
    (left : Spelled target.text ts) (right : Spelled value.text us) :
    Spells text.toList (ts ++ .symbol mark :: (us ++ [.symbol .semicolon])) := by
  rw [same]
  refine left (.cons rfl) (.blank (spells_symbol mark (Ends.cons rfl).symbol (.blank ?_)))
  exact right (.cons rfl) spells_semicolon

theorem parse_updateText (left : Printed (ExprForm 0 · target) target.text)
    (right : Printed (ExprForm 0 · value) value.text) :
    parse (Command.update pos target value).text = .ok ⟨[], [], some (.update 1 target value)⟩ := by
  obtain ⟨ts, leftForm, leftSpelled⟩ := left
  obtain ⟨us, rightForm, rightSpelled⟩ := right
  refine parse_simple (spells_assignment ?_ leftSpelled rightSpelled) (.update leftForm rightForm) rfl
  simp [Command.text, toString, Symbol.chars]

theorem parse_reduceText {mark : Symbol} {op : BinOp} (compound : ReductionForm mark op)
    (left : Printed (ExprForm 0 · target) target.text)
    (right : Printed (ExprForm 0 · value) value.text) :
    parse (Command.reduce pos op target value).text =
      .ok ⟨[], [], some (.reduce 1 op target value)⟩ := by
  obtain ⟨ts, leftForm, leftSpelled⟩ := left
  obtain ⟨us, rightForm, rightSpelled⟩ := right
  refine parse_simple (spells_assignment ?_ leftSpelled rightSpelled)
    (.reduce leftForm compound rightForm) rfl
  cases compound <;> simp [Command.text, toString, Symbol.chars, BinOp.symbol]

theorem parse_evalText (printed : Printed (ExprForm 0 · value) value.text) :
    parse (Command.eval pos value).text = .ok ⟨[], [], some (.eval 1 value)⟩ := by
  obtain ⟨ts, form, spelled⟩ := printed
  refine parse_simple ?_ (.eval form) rfl
  have text : (Command.eval pos value).text.toList = value.text.toList ++ [';'] := by
    simp [Command.text, toString]
  rw [text]
  exact spelled (.cons rfl) spells_semicolon

theorem parse_advanceText (valid : IsName name) :
    parse (Command.advance pos name).text = .ok ⟨[], [], some (.advance 1 name)⟩ := by
  refine parse_simple ?_ (.advance name) rfl
  have text : (Command.advance pos name).text.toList =
      Keyword.advance.text.toList ++ (' ' :: (name.toList ++ [';'])) := by
    simp [Command.text, toString, Keyword.text]
  rw [text]
  refine spells_keyword .advance (Ends.cons rfl).word (.blank ?_)
  exact spells_name valid (Ends.cons rfl).word spells_semicolon

end

/-- A derived statement of one line is read back from its text. -/
theorem parse_text_of_form {pos next : Nat} {ts : List Token} {cmd : SourceCommand}
    (lexable : ∀ t ∈ ts, t.Lexable) (form : CommandForm pos ts cmd next)
    (oneLine : cmd.isOneLine = true) : parse cmd.text = .ok (Program.ofStatement cmd) := by
  cases form with
  | decl binding => exact parse_declText (fun t member => lexable t (by simp [member])) binding
  | define name value =>
    exact parse_defineText name (lexable (.ident name) (by simp))
      (printed_of_exprForm (fun t member => lexable t (by simp [member])) value).1
  | defineTyped name form value =>
    exact parse_defineText_typed name (lexable (.ident name) (by simp))
      (printed_of_tyForm (fun t member => lexable t (by simp [member])) form)
      (printed_of_exprForm (fun t member => lexable t (by simp [member])) value).1
  | update left right =>
    exact parse_updateText (printed_of_exprForm (fun t member => lexable t (by simp [member])) left).1
      (printed_of_exprForm (fun t member => lexable t (by simp [member])) right).1
  | reduce left compound right =>
    exact parse_reduceText compound
      (printed_of_exprForm (fun t member => lexable t (by simp [member])) left).1
      (printed_of_exprForm (fun t member => lexable t (by simp [member])) right).1
  | eval form =>
    exact parse_evalText (printed_of_exprForm (fun t member => lexable t (by simp [member])) form).1
  | advance array => exact parse_advanceText array (lexable (.ident array) (by simp))
  | loop _ _ | branch _ _ _ => cases oneLine

/-! ### Statements inside a program -/

namespace Grammar

/-- Some of the tokens `ts` derive the command. -/
def DerivedWithin (ts : List Token) (cmd : SourceCommand) : Prop :=
  ∃ n us m, us ⊆ ts ∧ CommandForm n us cmd m

theorem DerivedWithin.mono {ts us : List Token} {cmd : SourceCommand} (derived : DerivedWithin ts cmd)
    (subset : ts ⊆ us) : DerivedWithin us cmd := by
  obtain ⟨n, vs, m, inside, form⟩ := derived
  exact ⟨n, vs, m, List.Subset.trans inside subset, form⟩

theorem mem_preorder_group {pos : Nat} {cmds : List SourceCommand} {cmd : SourceCommand}
    (member : cmd ∈ (group pos cmds).preorder) (statement : cmd.isStatement = true) :
    cmd ∈ Command.preorderSeq cmds := by
  unfold group at member
  split at member
  · simpa [Command.preorderSeq] using member
  · rcases List.mem_cons.mp member with rfl | inside
    · cases statement
    · exact inside

theorem derivedWithin_self {n m : Nat} {ts : List Token} {outer cmd : SourceCommand}
    (form : CommandForm n ts outer m) (member : cmd ∈ [outer]) : DerivedWithin ts cmd := by
  obtain rfl := List.mem_singleton.mp member
  exact ⟨n, ts, m, List.Subset.refl ts, form⟩

mutual

theorem CommandForm.derivedWithin {n m : Nat} {ts : List Token} {outer cmd : SourceCommand}
    (statement : cmd.isStatement = true) :
    CommandForm n ts outer m → cmd ∈ outer.preorder → DerivedWithin ts cmd
  | .decl binding, member => derivedWithin_self (.decl binding) member
  | .define name value, member => derivedWithin_self (.define name value) member
  | .defineTyped name form value, member => derivedWithin_self (.defineTyped name form value) member
  | .update left right, member => derivedWithin_self (.update left right) member
  | .reduce left compound right, member => derivedWithin_self (.reduce left compound right) member
  | .eval form, member => derivedWithin_self (.eval form) member
  | .advance array, member => derivedWithin_self (.advance array) member
  | .loop head block, member => by
    rcases List.mem_cons.mp member with rfl | inside
    · exact ⟨_, _, _, List.Subset.refl _, .loop head block⟩
    · exact (block.derivedWithin statement inside).mono (List.subset_append_right ..)
  | .branch condition block otherwise, member => by
    rcases List.mem_cons.mp member with rfl | inside
    · exact ⟨_, _, _, List.Subset.refl _, .branch condition block otherwise⟩
    · rcases List.mem_append.mp inside with yes | no
      · refine (block.derivedWithin statement yes).mono fun t among => ?_
        simp [among]
      · refine (otherwise.derivedWithin statement no).mono fun t among => ?_
        simp [among]

theorem ElseForm.derivedWithin {n m : Nat} {ts : List Token} {outer : Option SourceCommand}
    {cmd : SourceCommand} (statement : cmd.isStatement = true) :
    ElseForm n ts outer m → cmd ∈ Command.preorderElse outer → DerivedWithin ts cmd
  | .none, member => by cases member
  | .branch next, member => (next.derivedWithin statement member).mono (List.subset_cons_self ..)
  | .block body, member => (body.derivedWithin statement member).mono (List.subset_cons_self ..)

theorem BlockForm.derivedWithin {n m : Nat} {ts : List Token} {outer cmd : SourceCommand}
    (statement : cmd.isStatement = true) :
    BlockForm n ts outer m → cmd ∈ outer.preorder → DerivedWithin ts cmd
  | .empty, member => by
    obtain rfl := List.mem_singleton.mp member
    cases statement
  | .list _ commands, member => by
    refine (commands.derivedWithin statement (mem_preorder_group member statement)).mono fun t among => ?_
    simp [among]

theorem ListForm.derivedWithin {n m : Nat} {ts : List Token} {outer : List SourceCommand}
    {cmd : SourceCommand} (statement : cmd.isStatement = true) :
    ListForm n ts outer m → cmd ∈ Command.preorderSeq outer → DerivedWithin ts cmd
  | .nil, member => by cases member
  | .separator later, member => (later.derivedWithin statement member).mono (List.subset_cons_self ..)
  | .cons head tail, member => by
    rcases List.mem_append.mp member with first | later
    · exact (head.derivedWithin statement first).mono (List.subset_append_left ..)
    · exact (tail.derivedWithin statement later).mono (List.subset_append_right ..)

end

theorem Many.mem {α : Type} {form : Form α} {n m : Nat} {ts : List Token} {as : List α} {a : α}
    (many : Many form n ts as m) (member : a ∈ as) : ∃ k us l, us ⊆ ts ∧ form k us a l := by
  induction many with
  | nil => cases member
  | cons head _ ih =>
    rcases List.mem_cons.mp member with rfl | later
    · exact ⟨_, _, _, List.subset_append_left .., head⟩
    · obtain ⟨k, us, l, inside, form⟩ := ih later
      exact ⟨k, us, l, List.Subset.trans inside (List.subset_append_right ..), form⟩

theorem ProgramForm.derivedWithin {ts : List Token} {p : SourceProgram} {cmd : SourceCommand}
    (form : ProgramForm ts p) (member : cmd ∈ p.commands) (statement : cmd.isStatement = true) :
    DerivedWithin ts cmd := by
  obtain ⟨declarations, functions, commands⟩ := form
  rcases List.mem_append.mp member with inFunction | inBody
  · obtain ⟨f, defined, inside⟩ := List.mem_flatMap.mp inFunction
    obtain ⟨n, us, m, among, function⟩ := functions.mem defined
    obtain ⟨name, parameters, block⟩ := function
    refine (block.derivedWithin statement inside).mono fun t member => ?_
    have used : t ∈ _ := among (by simp [member])
    simp [used]
  · cases commands with
    | none => cases inBody
    | list commands =>
      refine (commands.derivedWithin statement (mem_preorder_group inBody statement)).mono fun t among => ?_
      simp [among]

end Grammar

/-- The tokens of a text can be cut from a text. -/
theorem lexable_of_items {source : String} {ts : List Token} {rest : List Lexeme.Item}
    (items : (lexemes source).map (·.item) = ts.map .token ++ rest) : ∀ t ∈ ts, t.Lexable := by
  intro t member
  have inside : Lexeme.Item.token t ∈ (lexemes source).map (·.item) := by
    rw [items]
    exact List.mem_append_left _ (List.mem_map_of_mem member)
  obtain ⟨l, found, same⟩ := List.mem_map.mp inside
  exact scan_lexable 0 0 source.toList l found t same

/-- Every one-line statement of a parsed program is read back from its text: as the only command
of a program, or as its only declaration. -/
theorem parse_text {source : String} {p : SourceProgram} (parsed : parse source = .ok p) :
    (∀ cmd ∈ p.commands, cmd.isOneLine = true → parse cmd.text = .ok (Program.ofStatement cmd)) ∧
      ∀ d ∈ p.decls, parse s!"decl {d.text};" = .ok ⟨[⟨0, d.name, d.ty⟩], [], none⟩ := by
  obtain ⟨ts, rest, reads, form, -⟩ := Parser.parse_reads parsed
  have lexable := lexable_of_items reads.items_eq
  refine ⟨fun cmd member oneLine => ?_, fun d member => ?_⟩
  · have statement : cmd.isStatement = true := by
      cases cmd <;> first | rfl | cases oneLine
    obtain ⟨n, us, m, among, derived⟩ := form.derivedWithin member statement
    exact parse_text_of_form (fun t inside => lexable t (among inside)) derived oneLine
  · obtain ⟨declarations, functions, commands⟩ := form
    obtain ⟨n, us, m, among, declared⟩ := declarations.mem member
    obtain ⟨binding⟩ := declared
    have same : s!"decl {d.text};" = s!"decl {d.name}: {d.ty.text};" := by
      simp [Decl.text, toString, String.append_assoc]
    rw [same]
    refine parse_declText (fun t inside => lexable t ?_) binding
    exact List.mem_append_left _ (among (by simp [inside]))

/-- Operators of several levels, a type with bank factors and a call. -/
def layered : String :=
  "decl a: ubit<8>[4 bank 2][3]; for (let i = 0..4) \x7b let x: bit<4> = (a[i][0] - (1 - i)) * 2; " ++
    "a[i][1] -= f(a, x) << 1; \x7d"

theorem parse_text_layered : ∃ p cmd, parse layered = .ok p ∧ cmd ∈ p.commands ∧
    cmd.text = "let x: bit<4> = (a[i][0] - (1 - i)) * 2;" ∧
    parse "let x: bit<4> = (a[i][0] - (1 - i)) * 2;" = .ok (Program.ofStatement cmd) := by
  have computed : ∃ p, parse layered = .ok p ∧ p.commands.map (fun cmd => (cmd.text, cmd.isOneLine)) =
      [("for (let i = 0..4)", false), ("\x7b 2 commands \x7d", false),
        ("let x: bit<4> = (a[i][0] - (1 - i)) * 2;", true), ("a[i][1] -= f(a, x) << 1;", true)] :=
    exists_ok_of_map (by decide +kernel)
  obtain ⟨p, parsed, texts⟩ := computed
  have listed : ("let x: bit<4> = (a[i][0] - (1 - i)) * 2;", true) ∈
      p.commands.map (fun cmd => (cmd.text, cmd.isOneLine)) := by
    rw [texts]
    decide
  obtain ⟨cmd, member, same⟩ := List.mem_map.mp listed
  obtain ⟨text, oneLine⟩ := Prod.mk.inj same
  have back := (parse_text parsed).1 cmd member oneLine
  rw [text] at back
  exact ⟨p, cmd, parsed, member, text, back⟩

end BankedLoops
