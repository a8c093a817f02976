import BankedLoops.Program
import BankedLoops.Token

/-!
# The grammar

What tokens write an expression, a type, a command or a program, as relations between token lists
and syntax trees. Statements are numbered in the order of the text, so a form of a statement also
says with which number it begins and with which number the text after it goes on.
-/

namespace BankedLoops

namespace BinOp

/-- How tightly an operator binds, from `||`, the loosest. -/
def level : BinOp → Nat
  | .or => 0
  | .and => 1
  | .lt | .le | .gt | .ge | .eq | .ne => 2
  | .shl | .shr | .bitAnd => 3
  | .add | .sub => 4
  | .mul => 5

/-- The loosest level of a left operand without parentheses. Comparisons do not associate. -/
def leftLevel (op : BinOp) : Nat := if op.isComparison then op.level + 1 else op.level

def mark : BinOp → Symbol
  | .add => .plus
  | .sub => .minus
  | .mul => .star
  | .lt => .lt
  | .le => .le
  | .gt => .gt
  | .ge => .ge
  | .eq => .eqEq
  | .ne => .notEq
  | .and => .andAnd
  | .or => .orOr
  | .shl => .shl
  | .shr => .shr
  | .bitAnd => .amp

end BinOp

namespace Grammar

variable {α : Type}

/-- Tokens that write a value, with the numbers of the first statement in it and of the first one
after it. -/
abbrev Form (α : Type) := Nat → List Token → α → Nat → Prop

/-- A form without statements. -/
def Unnumbered (form : List Token → α → Prop) : Form α :=
  fun first ts a next => next = first ∧ form ts a

/-- Items one after another. -/
inductive Many (form : Form α) : Nat → List Token → List α → Nat → Prop where
  | nil {n : Nat} : Many form n [] [] n
  | cons {n m l : Nat} {ts us : List Token} {a : α} {as : List α} (head : form n ts a m)
      (tail : Many form m us as l) : Many form n (ts ++ us) (a :: as) l

/-- One or more items with commas between them. -/
inductive Separated (form : Form α) : Nat → List Token → List α → Nat → Prop where
  | one {n m : Nat} {ts : List Token} {a : α} (only : form n ts a m) : Separated form n ts [a] m
  | cons {n m l : Nat} {ts us : List Token} {a : α} {as : List α} (head : form n ts a m)
      (tail : Separated form m us as l) :
      Separated form n (ts ++ .symbol .comma :: us) (a :: as) l

/-- Any number of items with commas between them. -/
inductive Listed (form : Form α) : Nat → List Token → List α → Nat → Prop where
  | none {n : Nat} : Listed form n [] [] n
  | some {n m : Nat} {ts : List Token} {as : List α} (items : Separated form n ts as m) :
      Listed form n ts as m

/-! ### Expressions -/

mutual

/-- `ts` writes `e` with no operator looser than level `k` outside parentheses. -/
inductive ExprForm : Nat → List Token → Expr → Prop where
  | int {k : Nat} (n : Nat) : ExprForm k [.int n] (.int n)
  | yes {k : Nat} : ExprForm k [.keyword .true_] (.bool true)
  | no {k : Nat} : ExprForm k [.keyword .false_] (.bool false)
  | var {k : Nat} (name : String) : ExprForm k [.ident name] (.var name)
  | access {k : Nat} {ts : List Token} {idxs : List Expr} (array : String) (some : idxs ≠ [])
      (indices : IndexForm ts idxs) : ExprForm k (.ident array :: ts) (.access array idxs)
  | app {k : Nat} {ts : List Token} {args : List Expr} (func : String)
      (arguments : ArgumentForm ts args) :
      ExprForm k (.ident func :: .symbol .lParen :: (ts ++ [.symbol .rParen])) (.app func args)
  | parens {k : Nat} {ts : List Token} {e : Expr} (inner : ExprForm 0 ts e) :
      ExprForm k (.symbol .lParen :: (ts ++ [.symbol .rParen])) e
  | binop {k : Nat} {ls rs : List Token} {lhs rhs : Expr} {op : BinOp} (tight : k ≤ op.level)
      (left : ExprForm op.leftLevel ls lhs) (right : ExprForm (op.level + 1) rs rhs) :
      ExprForm k (ls ++ .symbol op.mark :: rs) (.binop op lhs rhs)

/-- Each index in brackets of its own. -/
inductive IndexForm : List Token → List Expr → Prop where
  | nil : IndexForm [] []
  | cons {ts us : List Token} {idx : Expr} {idxs : List Expr} (head : ExprForm 0 ts idx)
      (tail : IndexForm us idxs) :
      IndexForm (.symbol .lBracket :: (ts ++ .symbol .rBracket :: us)) (idx :: idxs)

inductive ArgumentForm : List Token → List Expr → Prop where
  | none : ArgumentForm [] []
  | one {ts : List Token} {arg : Expr} (only : ExprForm 0 ts arg) : ArgumentForm ts [arg]
  | cons {ts us : List Token} {arg next : Expr} {args : List Expr} (head : ExprForm 0 ts arg)
      (tail : ArgumentForm us (next :: args)) :
      ArgumentForm (ts ++ .symbol .comma :: us) (arg :: next :: args)

end

/-- Looser operators may stand where tighter ones do. -/
theorem ExprForm.mono {j k : Nat} {ts : List Token} {e : Expr} (form : ExprForm k ts e)
    (looser : j ≤ k) : ExprForm j ts e := by
  cases form with
  | int n => exact .int n
  | yes => exact .yes
  | no => exact .no
  | var name => exact .var name
  | access array some indices => exact .access array some indices
  | app func arguments => exact .app func arguments
  | parens inner => exact .parens inner
  | binop tight left right => exact .binop (Nat.le_trans looser tight) left right

/-! ### Types -/

/-- A bit width is positive and a 32-bit word. -/
def IsWidth (width : Nat) : Prop := 0 < width ∧ Word.fits Word.widthBits width = true

inductive ScalarForm : List Token → Ty → Prop where
  | bool : ScalarForm [.keyword .bool] .bool
  | ubit {width : Nat} (valid : IsWidth width) :
      ScalarForm [.keyword .ubit, .symbol .lt, .int width, .symbol .gt] (.bit width false)
  | bit {width : Nat} (valid : IsWidth width) :
      ScalarForm [.keyword .bit, .symbol .lt, .int width, .symbol .gt] (.bit width true)
  | fix {width frac : Nat} (valid : IsWidth width) (validFrac : IsWidth frac) :
      ScalarForm [.keyword .fix, .symbol .lt, .int width, .symbol .comma, .int frac, .symbol .gt]
        (.fix width frac)

/-- A dimension; without a bank factor one memory holds it. -/
inductive DimForm : List Token → Dim → Prop where
  | whole (size : Nat) : DimForm [.symbol .lBracket, .int size, .symbol .rBracket] ⟨size, size⟩
  | banked (size bank : Nat) :
      DimForm [.symbol .lBracket, .int size, .keyword .bank, .int bank, .symbol .rBracket]
        ⟨size, bank⟩

inductive TyForm : List Token → Ty → Prop where
  | scalar {ts : List Token} {ty : Ty} (form : ScalarForm ts ty) : TyForm ts ty
  | array {n m : Nat} {ts us : List Token} {elem : Ty} {dims : List Dim}
      (scalar : ScalarForm ts elem) (some : dims ≠ [])
      (each : Many (Unnumbered DimForm) n us dims m) : TyForm (ts ++ us) (.array elem dims)

/-- A name and its type, for the statement numbered `pos`. -/
inductive BindingForm (pos : Nat) : List Token → Decl → Prop where
  | mk {ts : List Token} {ty : Ty} (name : String) (form : TyForm ts ty) :
      BindingForm pos (.ident name :: .symbol .colon :: ts) ⟨pos, name, ty⟩

/-! ### Commands -/

inductive HeaderForm : List Token → LoopHeader → Prop where
  | plain (iter : String) (start stop : Nat) :
      HeaderForm [.keyword .for_, .symbol .lParen, .keyword .let_, .ident iter, .symbol .equals,
        .int start, .symbol .dotDot, .int stop, .symbol .rParen] ⟨iter, start, stop, none⟩
  | unrolled (iter : String) (start stop copies : Nat) :
      HeaderForm [.keyword .for_, .symbol .lParen, .keyword .let_, .ident iter, .symbol .equals,
        .int start, .symbol .dotDot, .int stop, .symbol .rParen, .keyword .unroll, .int copies]
        ⟨iter, start, stop, some copies⟩

/-- A list of commands is a sequence, a single command stands for itself. -/
def group (pos : Nat) : List SourceCommand → SourceCommand
  | [cmd] => cmd
  | cmds => .seq pos cmds

/-- The operator of a compound assignment and its mark. -/
inductive ReductionForm : Symbol → BinOp → Prop where
  | add : ReductionForm .plusAssign .add
  | sub : ReductionForm .minusAssign .sub
  | mul : ReductionForm .starAssign .mul

mutual

inductive CommandForm : Nat → List Token → SourceCommand → Nat → Prop where
  | decl {pos : Nat} {ts : List Token} {d : Decl} (binding : BindingForm pos ts d) :
      CommandForm pos (.keyword .decl :: (ts ++ [.symbol .semicolon])) (.decl pos d.name d.ty)
        (pos + 1)
  | define {pos : Nat} {ts : List Token} {init : Expr} (name : String) (value : ExprForm 0 ts init) :
      CommandForm pos
        (.keyword .let_ :: .ident name :: .symbol .equals :: (ts ++ [.symbol .semicolon]))
        (.define pos name none init) (pos + 1)
  | defineTyped {pos : Nat} {ts us : List Token} {ty : Ty} {init : Expr} (name : String)
      (form : TyForm ts ty) (value : ExprForm 0 us init) :
      CommandForm pos
        (.keyword .let_ :: .ident name :: .symbol .colon ::
          (ts ++ .symbol .equals :: (us ++ [.symbol .semicolon])))
        (.define pos name (some ty) init) (pos + 1)
  | loop {pos next : Nat} {ts us : List Token} {header : LoopHeader} {body : SourceCommand}
      (head : HeaderForm ts header) (block : BlockForm (pos + 1) us body next) :
      CommandForm pos (ts ++ us) (.loop pos header body) next
  | branch {pos mid next : Nat} {ts us vs : List Token} {cond : Expr} {onTrue : SourceCommand}
      {onFalse : Option SourceCommand} (condition : ExprForm 0 ts cond)
      (block : BlockForm (pos + 1) us onTrue mid) (otherwise : ElseForm mid vs onFalse next) :
      CommandForm pos
        (.keyword .if_ :: .symbol .lParen :: (ts ++ .symbol .rParen :: (us ++ vs)))
        (.branch pos cond onTrue onFalse) next
  | update {pos : Nat} {ts us : List Token} {target value : Expr} (left : ExprForm 0 ts target)
      (right : ExprForm 0 us value) :
      CommandForm pos (ts ++ .symbol .assign :: (us ++ [.symbol .semicolon]))
        (.update pos target value) (pos + 1)
  | reduce {pos : Nat} {ts us : List Token} {mark : Symbol} {op : BinOp} {target value : Expr}
      (left : ExprForm 0 ts target) (compound : ReductionForm mark op)
      (right : ExprForm 0 us value) :
      CommandForm pos (ts ++ .symbol mark :: (us ++ [.symbol .semicolon]))
        (.reduce pos op target value) (pos + 1)
  | eval {pos : Nat} {ts : List Token} {e : Expr} (form : ExprForm 0 ts e) :
      CommandForm pos (ts ++ [.symbol .semicolon]) (.eval pos e) (pos + 1)
  | advance {pos : Nat} (array : String) :
      CommandForm pos [.keyword .advance, .ident array, .symbol .semicolon] (.advance pos array)
        (pos + 1)

/-- What follows the first block of a branch: nothing, another branch or a block. -/
inductive ElseForm : Nat → List Token → Option SourceCommand → Nat → Prop where
  | none {n : Nat} : ElseForm n [] none n
  | branch {n m : Nat} {ts : List Token} {cmd : SourceCommand}
      (next : CommandForm n (.keyword .if_ :: ts) cmd m) :
      ElseForm n (.keyword .else_ :: .keyword .if_ :: ts) (some cmd) m
  | block {n m : Nat} {ts : List Token} {cmd : SourceCommand} (body : BlockForm n ts cmd m) :
      ElseForm n (.keyword .else_ :: ts) (some cmd) m

/-- Commands between braces. An empty block and a list take a number of their own. -/
inductive BlockForm : Nat → List Token → SourceCommand → Nat → Prop where
  | empty {pos : Nat} : BlockForm pos [.symbol .lBrace, .symbol .rBrace] (.skip pos) (pos + 1)
  | list {pos next : Nat} {ts : List Token} {cmds : List SourceCommand} (some : ts ≠ [])
      (commands : ListForm (pos + 1) ts cmds next) :
      BlockForm pos (.symbol .lBrace :: (ts ++ [.symbol .rBrace])) (group pos cmds) next

/-- Commands one after another; separators may stand between them. -/
inductive ListForm : Nat → List Token → List SourceCommand → Nat → Prop where
  | nil {n : Nat} : ListForm n [] [] n
  | separator {n m : Nat} {ts : List Token} {cmds : List SourceCommand}
      (later : ListForm n ts cmds m) : ListForm n (.symbol .semicolon :: ts) cmds m
  | cons {n m l : Nat} {ts us : List Token} {cmd : SourceCommand} {cmds : List SourceCommand}
      (head : CommandForm n ts cmd m) (tail : ListForm m us cmds l) :
      ListForm n (ts ++ us) (cmd :: cmds) l

end

/-! ### Programs -/

inductive DeclForm : Nat → List Token → Decl → Nat → Prop where
  | mk {pos : Nat} {ts : List Token} {d : Decl} (binding : BindingForm pos ts d) :
      DeclForm pos (.keyword .decl :: (ts ++ [.symbol .semicolon])) d (pos + 1)

inductive ParamForm : Nat → List Token → Decl → Nat → Prop where
  | mk {pos : Nat} {ts : List Token} {d : Decl} (binding : BindingForm pos ts d) :
      ParamForm pos ts d (pos + 1)

inductive FunctionForm : Nat → List Token → Function (Option Ty) Expr → Nat → Prop where
  | mk {pos mid next : Nat} {ts us : List Token} {params : List Decl} {body : SourceCommand}
      (name : String) (parameters : Listed ParamForm (pos + 1) ts params mid)
      (block : BlockForm mid us body next) :
      FunctionForm pos
        (.keyword .def_ :: .ident name :: .symbol .lParen :: (ts ++ .symbol .rParen :: us))
        ⟨pos, name, params, body⟩ next

/-- The body of a program. -/
inductive BodyForm : Nat → List Token → Option SourceCommand → Nat → Prop where
  | none {n : Nat} : BodyForm n [] none n
  | list {pos next : Nat} {ts : List Token} {cmds : List SourceCommand}
      (commands : ListForm (pos + 1) ts cmds next) : BodyForm pos ts (some (group pos cmds)) next

/-- Declarations, functions, then the body. -/
inductive ProgramForm : List Token → SourceProgram → Prop where
  | mk {n m l : Nat} {ts us vs : List Token} {decls : List Decl}
      {defs : List (Function (Option Ty) Expr)} {body : Option SourceCommand}
      (declarations : Many DeclForm 0 ts decls n) (functions : Many FunctionForm n us defs m)
      (commands : BodyForm m vs body l) : ProgramForm (ts ++ (us ++ vs)) ⟨decls, defs, body⟩

end Grammar

end BankedLoops
