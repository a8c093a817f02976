import BankedLoops.Proofs.Parser.Acceptance

/-!
# Parentheses

Where an operand has to stand in parentheses follows from the tree alone: from how tightly its own
operator binds and on which side of the other it stands. `Rendering` writes a tree with at least
these parentheses and no levels. It is the stratified grammar in other words, so `expr` reads the
renderings, each up to a token that cannot go on with it, and reads nothing else.
-/

namespace BankedLoops

namespace Expr

/-- How tightly the outermost operator binds. Nothing binds tighter than what has none. -/
def level : Expr → Nat
  | .binop op _ _ => op.level
  | _ => 6

def isComparison : Expr → Bool
  | .binop op _ _ => op.isComparison
  | _ => false

mutual

/-- Every access has an index. -/
def Indexed : Expr → Prop
  | .binop _ lhs rhs => lhs.Indexed ∧ rhs.Indexed
  | .access _ idxs => idxs ≠ [] ∧ IndexedAll idxs
  | .app _ args => IndexedAll args
  | .int _ | .bool _ | .var _ => True

def IndexedAll : List Expr → Prop
  | [] => True
  | e :: es => e.Indexed ∧ IndexedAll es

end

end Expr

namespace Grammar

/-- A comparison is no operand of a comparison without parentheses. -/
def Compared (op : BinOp) (operand : Expr) : Prop :=
  op.isComparison = true ∧ operand.isComparison = true

/-- The left operands of `op` that stand in parentheses. -/
def EnclosedLeft (op : BinOp) (lhs : Expr) : Prop := lhs.level < op.level ∨ Compared op lhs

/-- The right operands of `op` that stand in parentheses. -/
def EnclosedRight (op : BinOp) (rhs : Expr) : Prop := rhs.level ≤ op.level ∨ Compared op rhs

mutual

/-- `ts` writes `e`, as a whole in parentheses or not. -/
inductive Rendering : (enclosed : Bool) → List Token → Expr → Prop where
  | int (n : Nat) : Rendering false [.int n] (.int n)
  | yes : Rendering false [.keyword .true_] (.bool true)
  | no : Rendering false [.keyword .false_] (.bool false)
  | var (name : String) : Rendering false [.ident name] (.var name)
  | access {ts : List Token} {idxs : List Expr} (array : String) (some : idxs ≠ [])
      (indices : IndexRendering ts idxs) : Rendering false (.ident array :: ts) (.access array idxs)
  | app {ts : List Token} {args : List Expr} (func : String) (arguments : ArgumentRendering ts args) :
      Rendering false (.ident func :: .symbol .lParen :: (ts ++ [.symbol .rParen])) (.app func args)
  | parens {enclosed : Bool} {ts : List Token} {e : Expr} (inner : Rendering enclosed ts e) :
      Rendering true (.symbol .lParen :: (ts ++ [.symbol .rParen])) e
  | binop {inLeft inRight : Bool} {ls rs : List Token} {lhs rhs : Expr} {op : BinOp}
      (left : Rendering inLeft ls lhs) (right : Rendering inRight rs rhs)
      (leftEnclosed : EnclosedLeft op lhs → inLeft = true)
      (rightEnclosed : EnclosedRight op rhs → inRight = true) :
      Rendering false (ls ++ .symbol op.mark :: rs) (.binop op lhs rhs)

/-- Each index in brackets of its own. -/
inductive IndexRendering : List Token → List Expr → Prop where
  | nil : IndexRendering [] []
  | cons {enclosed : Bool} {ts us : List Token} {idx : Expr} {idxs : List Expr}
      (head : Rendering enclosed ts idx) (tail : IndexRendering us idxs) :
      IndexRendering (.symbol .lBracket :: (ts ++ .symbol .rBracket :: us)) (idx :: idxs)

/-- Arguments with commas between them. -/
inductive ArgumentRendering : List Token → List Expr → Prop where
  | none : ArgumentRendering [] []
  | one {enclosed : Bool} {ts : List Token} {arg : Expr} (only : Rendering enclosed ts arg) :
      ArgumentRendering ts [arg]
  | cons {enclosed : Bool} {ts us : List Token} {arg next : Expr} {args : List Expr}
      (head : Rendering enclosed ts arg) (tail : ArgumentRendering us (next :: args)) :
      ArgumentRendering (ts ++ .symbol .comma :: us) (arg :: next :: args)

end

/-- `ts` writes `e`, with any number of further parentheses. -/
def Renders (ts : List Token) (e : Expr) : Prop := ∃ enclosed, Rendering enclosed ts e

mutual

/-- With parentheses around every operand a tree can always be written. -/
theorem exists_rendering : {e : Expr} → e.Indexed → ∃ ts, Rendering true ts e
  | .int n, _ => ⟨_, .parens (.int n)⟩
  | .bool true, _ => ⟨_, .parens .yes⟩
  | .bool false, _ => ⟨_, .parens .no⟩
  | .var name, _ => ⟨_, .parens (.var name)⟩
  | .binop op lhs rhs, ⟨inLeft, inRight⟩ => by
    obtain ⟨ls, left⟩ := exists_rendering inLeft
    obtain ⟨rs, right⟩ := exists_rendering inRight
    exact ⟨_, .parens (.binop left right (fun _ => rfl) fun _ => rfl)⟩
  | .access array idxs, ⟨many, inside⟩ => by
    obtain ⟨ts, indices⟩ := exists_indexRendering inside
    exact ⟨_, .parens (.access array many indices)⟩
  | .app func args, inside => by
    obtain ⟨ts, arguments⟩ := exists_argumentRendering inside
    exact ⟨_, .parens (.app func arguments)⟩

theorem exists_indexRendering : {idxs : List Expr} → Expr.IndexedAll idxs →
    ∃ ts, IndexRendering ts idxs
  | [], _ => ⟨_, .nil⟩
  | idx :: idxs, ⟨first, later⟩ => by
    obtain ⟨ts, head⟩ := exists_rendering first
    obtain ⟨us, tail⟩ := exists_indexRendering later
    exact ⟨_, .cons head tail⟩

theorem exists_argumentRendering : {args : List Expr} → Expr.IndexedAll args →
    ∃ ts, ArgumentRendering ts args
  | [], _ => ⟨_, .none⟩
  | [arg], ⟨first, _⟩ => by
    obtain ⟨ts, only⟩ := exists_rendering first
    exact ⟨ts, .one only⟩
  | arg :: next :: args, ⟨first, later⟩ => by
    obtain ⟨ts, head⟩ := exists_rendering first
    obtain ⟨us, tail⟩ : ∃ us, ArgumentRendering us (next :: args) := exists_argumentRendering later
    exact ⟨_, .cons head tail⟩

end

/-! ### The stratified grammar -/

section

variable {op : BinOp} {lhs rhs : Expr}

theorem level_of_isComparison (comparison : op.isComparison = true) : op.level = 2 := by
  cases op <;> first | rfl | cases comparison

theorem isComparison_of_level (level : op.level = 2) : op.isComparison = true := by
  cases op <;> first | rfl | cases level

theorem not_enclosedLeft_iff : ¬ EnclosedLeft op lhs ↔ op.leftLevel ≤ lhs.level := by
  unfold EnclosedLeft Compared BinOp.leftLevel
  by_cases comparison : op.isComparison = true
  · have level := level_of_isComparison comparison
    have compared : lhs.isComparison = true ↔ lhs.level = 2 := by
      cases lhs with
      | binop inner _ _ => exact ⟨level_of_isComparison, isComparison_of_level⟩
      | _ => exact ⟨nofun, nofun⟩
    simp only [comparison, true_and, compared, if_true, level]
    omega
  · simp only [comparison, false_and, or_false, if_false, Bool.false_eq_true]
    omega

theorem not_enclosedRight_iff : ¬ EnclosedRight op rhs ↔ op.level + 1 ≤ rhs.level := by
  unfold EnclosedRight Compared
  constructor
  · intro free
    exact Nat.lt_of_not_le fun looser => free (.inl looser)
  · rintro tighter (looser | ⟨comparison, compared⟩)
    · omega
    · cases rhs with
      | binop inner _ _ =>
        have level := level_of_isComparison comparison
        have innerLevel : inner.level = 2 := level_of_isComparison compared
        simp only [Expr.level] at tighter
        omega
      | _ => cases compared

end

mutual

/-- Where a rendering is not in parentheses, its operator is as tight as the level asks. -/
theorem exprForm_of_rendering {k : Nat} {enclosed : Bool} {ts : List Token} {e : Expr} :
    Rendering enclosed ts e → (enclosed = false → k ≤ e.level) → ExprForm k ts e
  | .int n, _ => .int n
  | .yes, _ => .yes
  | .no, _ => .no
  | .var name, _ => .var name
  | .access array many indices, _ => .access array many (indexForm_of_rendering indices)
  | .app func arguments, _ => .app func (argumentForm_of_rendering arguments)
  | .parens inner, _ => .parens (exprForm_of_rendering inner fun _ => Nat.zero_le _)
  | .binop left right leftEnclosed rightEnclosed, tight => by
    refine .binop (tight rfl) (exprForm_of_rendering left fun free => ?_)
      (exprForm_of_rendering right fun free => ?_)
    · exact not_enclosedLeft_iff.mp fun has => Bool.false_ne_true (free.symm.trans (leftEnclosed has))
    · exact not_enclosedRight_iff.mp fun has => Bool.false_ne_true (free.symm.trans (rightEnclosed has))

theorem indexForm_of_rendering {ts : List Token} {idxs : List Expr} :
    IndexRendering ts idxs → IndexForm ts idxs
  | .nil => .nil
  | .cons head tail =>
    .cons (exprForm_of_rendering head fun _ => Nat.zero_le _) (indexForm_of_rendering tail)

theorem argumentForm_of_rendering {ts : List Token} {args : List Expr} :
    ArgumentRendering ts args → ArgumentForm ts args
  | .none => .none
  | .one only => .one (exprForm_of_rendering only fun _ => Nat.zero_le _)
  | .cons head tail =>
    .cons (exprForm_of_rendering head fun _ => Nat.zero_le _) (argumentForm_of_rendering tail)

end

mutual

theorem rendering_of_exprForm {k : Nat} {ts : List Token} {e : Expr} (bounded : k ≤ 6) :
    ExprForm k ts e → ∃ enclosed, Rendering enclosed ts e ∧ (enclosed = false → k ≤ e.level)
  | .int n => ⟨false, .int n, fun _ => bounded⟩
  | .yes => ⟨false, .yes, fun _ => bounded⟩
  | .no => ⟨false, .no, fun _ => bounded⟩
  | .var name => ⟨false, .var name, fun _ => bounded⟩
  | .access array many indices =>
    ⟨false, .access array many (indexRendering_of_form indices), fun _ => bounded⟩
  | .app func arguments => ⟨false, .app func (argumentRendering_of_form arguments), fun _ => bounded⟩
  | .parens inner => by
    obtain ⟨_, inner, -⟩ := rendering_of_exprForm (Nat.zero_le 6) inner
    exact ⟨true, .parens inner, nofun⟩
  | @ExprForm.binop _ _ _ _ _ op tight left right => by
    have small : op.leftLevel ≤ 6 ∧ op.level + 1 ≤ 6 := by cases op <;> decide
    obtain ⟨inLeft, left, leftLevel⟩ := rendering_of_exprForm small.1 left
    obtain ⟨inRight, right, rightLevel⟩ := rendering_of_exprForm small.2 right
    refine ⟨false, .binop left right (fun has => ?_) (fun has => ?_), fun _ => tight⟩
    · exact (Bool.eq_false_or_eq_true inLeft).resolve_right fun free =>
        not_enclosedLeft_iff.mpr (leftLevel free) has
    · exact (Bool.eq_false_or_eq_true inRight).resolve_right fun free =>
        not_enclosedRight_iff.mpr (rightLevel free) has

theorem indexRendering_of_form {ts : List Token} {idxs : List Expr} :
    IndexForm ts idxs → IndexRendering ts idxs
  | .nil => .nil
  | .cons head tail => by
    obtain ⟨_, head, -⟩ := rendering_of_exprForm (Nat.zero_le 6) head
    exact .cons head (indexRendering_of_form tail)

theorem argumentRendering_of_form {ts : List Token} {args : List Expr} :
    ArgumentForm ts args → ArgumentRendering ts args
  | .none => .none
  | .one only => by
    obtain ⟨_, only, -⟩ := rendering_of_exprForm (Nat.zero_le 6) only
    exact .one only
  | .cons head tail => by
    obtain ⟨_, head, -⟩ := rendering_of_exprForm (Nat.zero_le 6) head
    exact .cons head (argumentRendering_of_form tail)

end

/-- The renderings are what the loosest level of the grammar derives. -/
theorem renders_iff {ts : List Token} {e : Expr} : Renders ts e ↔ ExprForm 0 ts e := by
  constructor
  · rintro ⟨_, rendering⟩
    exact exprForm_of_rendering rendering fun _ => Nat.zero_le _
  · intro form
    obtain ⟨enclosed, rendering, -⟩ := rendering_of_exprForm (Nat.zero_le 6) form
    exact ⟨enclosed, rendering⟩

end Grammar

namespace Parser

open Grammar

/-! ### The text around an expression -/

/-- The tokens that cannot go on with an expression. -/
def Closes (t : Token) : Prop :=
  t ≠ .symbol .lParen ∧ t ≠ .symbol .lBracket ∧ ∀ op : BinOp, t ≠ .symbol op.mark

/-- Nothing stands here, or a token that cannot go on with an expression. -/
def ClosedAt : List Lexeme → Prop
  | [] => True
  | l :: _ => ∃ t, l.item = .token t ∧ Closes t

/-- The lexemes are the tokens `ts`, wherever in the text they stand. -/
def Lexemes (ls : List Lexeme) (ts : List Token) : Prop :=
  ls.map (·.item) = ts.map Lexeme.Item.token

section

variable {ls read rest : List Lexeme} {ts : List Token} {e : Expr} {pos : Nat} {s : State}

theorem ClosedAt.settled (closed : ClosedAt rest) : Settled rest := by
  match rest with
  | [] => trivial
  | ⟨start, stop, item⟩ :: rest =>
    obtain ⟨t, same, -⟩ := closed
    obtain rfl : item = .token t := same
    trivial

theorem ClosedAt.stops (closed : ClosedAt rest) : Stops 0 rest := by
  match rest with
  | [] => exact ⟨nofun, nofun, fun _ _ => nofun⟩
  | ⟨start, stop, item⟩ :: rest =>
    obtain ⟨t, same, call, index, operator⟩ := closed
    obtain rfl : item = .token t := same
    refine ⟨fun shows => call ?_, fun shows => index ?_, fun op _ shows => operator op ?_⟩ <;>
      exact Option.some.inj shows

theorem Reads.settled_front (reads : Reads ls ts rest) (settled : Settled rest) : Settled ls := by
  cases reads with
  | done => exact settled
  | token => trivial

theorem Lexemes.reads (lexemes : Lexemes read ts) (settled : Settled rest) :
    Reads (read ++ rest) ts rest := by
  induction ts generalizing read with
  | nil =>
    obtain rfl : read = [] := by simpa [Lexemes] using lexemes
    exact .done
  | cons t ts ih =>
    obtain ⟨⟨start, stop, item⟩, read, rfl, same, later⟩ := List.map_eq_cons_iff.mp lexemes
    obtain rfl : item = .token t := same
    exact .token ((ih later).settled_front settled) (ih later)

theorem Reads.lexemes (reads : Reads ls ts rest) : ∃ read, ls = read ++ rest ∧ Lexemes read ts := by
  induction reads with
  | done => exact ⟨[], rfl, rfl⟩
  | @token start stop t _ _ _ _ _ ih =>
    obtain ⟨read, rfl, later⟩ := ih
    exact ⟨⟨start, stop, .token t⟩ :: read, rfl, congrArg (Lexeme.Item.token t :: ·) later⟩

/-- No level of operators is read from text that is no token. -/
theorem settled_of_tier {inner : Parser Expr} (n : Nat)
    (ran : (atLevel.tier inner n).run ⟨ls, pos⟩ = .ok (e, s)) : Settled ls := by
  induction n generalizing e s with
  | zero =>
    unfold atLevel.tier primary at ran
    rw [run_bind_of_ok run_current] at ran
    match ls with
    | [] => trivial
    | ⟨_, _, .token _⟩ :: _ => trivial
    | ⟨_, _, .unexpected _⟩ :: _ => exact (run_unexpected_ok_iff.mp ran).elim
  | succ n ih =>
    unfold atLevel.tier at ran
    split at ran
    · obtain ⟨_, _, first, -⟩ := run_bind_ok_iff.mp ran
      exact ih first
    · obtain ⟨_, _, first, -⟩ := run_bind_ok_iff.mp ran
      exact ih first

theorem settled_of_expr (ran : expr.run ⟨ls, pos⟩ = .ok (e, s)) : Settled ls := by
  unfold expr at ran
  rw [run_bind_of_ok run_remaining] at ran
  cases depth : ls.length with
  | zero =>
    rw [List.length_eq_zero_iff.mp depth]
    trivial
  | succ depth' =>
    rw [depth, exprWithin, levels_eq_atLevel] at ran
    exact settled_of_tier _ ran

end

/-- An expression is parsed from exactly the tokens that render it. Every tree whose accesses have
an index can be rendered; every rendering in front of the end of the text or of a token that cannot
go on with it gives its tree and is read whole; and whatever is read is a rendering of the tree it
gives. -/
theorem expr_reads_renderings :
    (∀ {e : Expr}, e.Indexed → ∃ ts, Renders ts e) ∧
    (∀ {ts : List Token} {e : Expr} {read rest : List Lexeme} {pos : Nat}, Renders ts e →
      Lexemes read ts → ClosedAt rest → expr.run ⟨read ++ rest, pos⟩ = .ok (e, ⟨rest, pos⟩)) ∧
    ∀ {ls rest : List Lexeme} {pos next : Nat} {e : Expr},
      expr.run ⟨ls, pos⟩ = .ok (e, ⟨rest, next⟩) →
      next = pos ∧ ∃ read ts, ls = read ++ rest ∧ Lexemes read ts ∧ Renders ts e := by
  refine ⟨?_, ?_, ?_⟩
  · intro e indexed
    obtain ⟨ts, rendering⟩ := exists_rendering indexed
    exact ⟨ts, true, rendering⟩
  · intro ts e read rest pos renders lexemes closed
    exact accepts_expr (renders_iff.mp renders) closed.stops (lexemes.reads closed.settled)
  · intro ls rest pos next e ran
    obtain ⟨ts, reads, rfl, form⟩ := plain_expr pos _ (settled_of_expr ran) rfl ran
    obtain ⟨read, split, lexemes⟩ := reads.lexemes
    exact ⟨rfl, read, ts, split, lexemes, renders_iff.mpr form⟩

/-- An expression with parentheses of both kinds, and the semicolon behind it. -/
def enclosed : List Lexeme := lexemes "a - (b[i] - 1) == f((c));"

def enclosedTokens : List Token :=
  [.ident "a", .symbol .minus, .symbol .lParen, .ident "b", .symbol .lBracket, .ident "i",
    .symbol .rBracket, .symbol .minus, .int 1, .symbol .rParen, .symbol .eqEq, .ident "f",
    .symbol .lParen, .symbol .lParen, .ident "c", .symbol .rParen, .symbol .rParen]

def enclosedTree : Expr :=
  .binop .eq (.binop .sub (.var "a") (.binop .sub (.access "b" [.var "i"]) (.int 1)))
    (.app "f" [.var "c"])

theorem expr_reads_renderings_enclosed :
    (enclosedTree.Indexed ∧ ∃ ts, Renders ts enclosedTree) ∧
    (Renders enclosedTokens enclosedTree ∧ Lexemes (enclosed.take 17) enclosedTokens ∧
      ClosedAt (enclosed.drop 17) ∧
      expr.run ⟨enclosed.take 17 ++ enclosed.drop 17, 0⟩ = .ok (enclosedTree, ⟨enclosed.drop 17, 0⟩)) ∧
    ∃ read ts, enclosed = read ++ enclosed.drop 17 ∧ Lexemes read ts ∧ Renders ts enclosedTree := by
  have indexed : enclosedTree.Indexed := by
    simp [enclosedTree, Expr.Indexed, Expr.IndexedAll]
  have element : Rendering false _ (.access "b" [.var "i"]) := .access "b" nofun (.cons (.var "i") .nil)
  have inner : Rendering true _ (.binop .sub (.access "b" [.var "i"]) (.int 1)) :=
    .parens (.binop element (.int 1) nofun nofun)
  have difference : Rendering false _
      (.binop .sub (.var "a") (.binop .sub (.access "b" [.var "i"]) (.int 1))) :=
    .binop (.var "a") inner nofun fun _ => rfl
  have call : Rendering false _ (.app "f" [.var "c"]) := .app "f" (.one (.parens (.var "c")))
  have equation : Rendering false _ enclosedTree := .binop difference call nofun nofun
  have renders : Renders enclosedTokens enclosedTree := ⟨false, equation⟩
  have closed : ClosedAt (enclosed.drop 17) := ⟨.symbol .semicolon, by decide +kernel, nofun, nofun, nofun⟩
  have spelled : Lexemes (enclosed.take 17) enclosedTokens := by
    unfold Lexemes
    decide +kernel
  have ran : expr.run ⟨enclosed.take 17 ++ enclosed.drop 17, 0⟩ =
      .ok (enclosedTree, ⟨enclosed.drop 17, 0⟩) := expr_reads_renderings.2.1 renders spelled closed
  refine ⟨⟨indexed, expr_reads_renderings.1 indexed⟩, ⟨renders, spelled, closed, ran⟩, ?_⟩
  rw [List.take_append_drop] at ran
  exact (expr_reads_renderings.2.2 ran).2

end Parser

end BankedLoops
