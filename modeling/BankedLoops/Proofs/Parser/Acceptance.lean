import BankedLoops.Proofs.Parser.Derivation

/-!
# What is derived is accepted

The parsers of expressions and types read every derivation whole, up to a token that cannot go on
with it. A level of operators is read one operand after another, so its invariant says how far the
chain of operands has come: `Chains`.
-/

namespace BankedLoops

namespace Parser

open Grammar

variable {α β : Type}

/-! ### Steps of an accepting run -/

/-- The parser reads `ts` in front of `rest`, with the result `a`. -/
def Accepts (p : Parser α) (ts : List Token) (rest : List Lexeme) (a : α) : Prop :=
  ∀ ⦃ls : List Lexeme⦄ ⦃pos : Nat⦄, Reads ls ts rest → p.run ⟨ls, pos⟩ = .ok (a, ⟨rest, pos⟩)

/-- The token in front of which `ts` and then `rest` stand. -/
def shownBefore (ts : List Token) (rest : List Lexeme) : Option Token :=
  match ts with
  | [] => shown rest
  | t :: _ => some t

theorem Reads.shownBefore_eq {ls rest : List Lexeme} {ts : List Token} (reads : Reads ls ts rest) :
    shown ls = shownBefore ts rest := by
  cases reads <;> rfl

namespace Accepts

variable {p q : Parser β} {ts us : List Token} {t : Token} {rest : List Lexeme} {b : β}

theorem pure : Accepts (Pure.pure b) [] rest b := by
  intro ls pos reads
  cases reads
  rfl

theorem bind {p : Parser α} {f : α → Parser β} {a : α}
    (first : ∀ mid, shown mid = shownBefore us rest → Accepts p ts mid a)
    (second : Accepts (f a) us rest b) : Accepts (p >>= f) (ts ++ us) rest b := by
  intro ls pos reads
  obtain ⟨mid, early, late⟩ := reads.split
  rw [run_bind_of_ok (first mid late.shownBefore_eq early)]
  exact second late

/-- The last tokens are read by `p`. -/
theorem last {p : Parser α} {f : α → Parser β} {a : α} (first : Accepts p ts rest a)
    (second : Accepts (f a) [] rest b) : Accepts (p >>= f) ts rest b := by
  intro ls pos reads
  rw [run_bind_of_ok (first reads)]
  exact second .done

theorem token {p : Parser α} {f : α → Parser β} {a : α}
    (reads : ∀ {ls mid : List Lexeme} {pos : Nat}, Reads ls [t] mid → p.run ⟨ls, pos⟩ = .ok (a, ⟨mid, pos⟩))
    (later : Accepts (f a) ts rest b) : Accepts (p >>= f) (t :: ts) rest b := by
  have first (mid : List Lexeme) (_ : shown mid = shownBefore ts rest) : Accepts p [t] mid a :=
    fun _ _ early => reads early
  exact bind first later

theorem expect {f : Unit → Parser β} (later : Accepts (f ()) ts rest b) :
    Accepts (Parser.expect t >>= f) (t :: ts) rest b :=
  token (fun reads => run_expect_ok_iff.mpr ⟨_, reads, rfl⟩) later

theorem identifier {f : String → Parser β} {name : String} (later : Accepts (f name) ts rest b) :
    Accepts (Parser.identifier >>= f) (.ident name :: ts) rest b :=
  token (fun reads => run_identifier_ok_iff.mpr ⟨_, reads, rfl⟩) later

theorem integer {f : Nat → Parser β} {n : Nat} (later : Accepts (f n) ts rest b) :
    Accepts (Parser.integer >>= f) (.int n :: ts) rest b :=
  token (fun reads => run_integer_ok_iff.mpr ⟨_, reads, rfl⟩) later

theorem advance {f : Unit → Parser β} (later : Accepts (f ()) ts rest b) :
    Accepts (Parser.advance >>= f) (t :: ts) rest b :=
  token (fun reads => (run_advance_ok_iff reads.shown_eq).mpr ⟨_, reads, rfl⟩) later

theorem current {f : Option Token → Parser β} (later : Accepts (f (shownBefore ts rest)) ts rest b) :
    Accepts (Parser.current >>= f) ts rest b := by
  intro ls pos reads
  rw [run_bind_of_ok run_current, reads.shownBefore_eq]
  exact later reads

theorem remaining {f : Nat → Parser β}
    (each : ∀ n, ts.length + rest.length ≤ n → Accepts (f n) ts rest b) :
    Accepts (Parser.remaining >>= f) ts rest b := by
  intro ls pos reads
  rw [run_bind_of_ok run_remaining]
  exact each _ (Nat.le_of_eq reads.length_eq.symm) reads

theorem ifAt (yes : Accepts p (t :: ts) rest b) :
    Accepts (isAt t >>= fun found => if found = true then p else q) (t :: ts) rest b := by
  intro ls pos reads
  rw [run_bind_of_ok run_isAt, if_pos (beq_iff_eq.mpr reads.shown_eq)]
  exact yes reads

theorem ifNotAt (other : shownBefore ts rest ≠ some t) (no : Accepts q ts rest b) :
    Accepts (isAt t >>= fun found => if found = true then p else q) ts rest b := by
  intro ls pos reads
  rw [← reads.shownBefore_eq] at other
  rw [run_bind_of_ok run_isAt, if_neg (fun found => other (eq_of_beq found))]
  exact no reads

theorem ifEaten (yes : Accepts p ts rest b) :
    Accepts (eat t >>= fun ate => if ate = true then p else q) (t :: ts) rest b := by
  intro ls pos reads
  obtain ⟨mid, early, late⟩ := Reads.cons_iff.mp reads
  rw [run_bind_of_ok (run_eat_ok_iff.mpr (.inl ⟨rfl, mid, early, rfl⟩)), if_pos rfl]
  exact yes late

theorem ifNotEaten (other : shownBefore ts rest ≠ some t) (no : Accepts q ts rest b) :
    Accepts (eat t >>= fun ate => if ate = true then p else q) ts rest b := by
  intro ls pos reads
  rw [← reads.shownBefore_eq] at other
  rw [run_bind_of_ok (run_eat_ok_iff.mpr (.inr ⟨rfl, other, rfl⟩)), if_neg Bool.false_ne_true]
  exact no reads

end Accepts

/-! ### Levels of operators -/

/-- The expressions whose operators are of level `k` or tighter, over the given inner ones. -/
def atLevel (inner : Parser Expr) (k : Nat) : Parser Expr :=
  tier (6 - k)
where
  tier : Nat → Parser Expr
    | 0 => primary inner
    | n + 1 =>
      if n = 3 then comparison (tier n) else leftAssociative (tier n) (operators? (5 - n))

theorem levels_eq_atLevel (inner : Parser Expr) : levels inner = atLevel inner 0 := rfl

theorem atLevel_comparison (inner : Parser Expr) :
    atLevel inner 2 = comparison (atLevel inner 3) := rfl

theorem atLevel_leftAssociative (inner : Parser Expr) {k : Nat} (operator : k < 6)
    (associates : k ≠ 2) :
    atLevel inner k = leftAssociative (atLevel inner (k + 1)) (operators? k) := by
  match k with
  | 0 | 1 | 3 | 4 | 5 => rfl
  | 2 => exact absurd rfl associates
  | k + 6 => omega

/-- At `rest` no expression of level `k` goes on. -/
structure Stops (k : Nat) (rest : List Lexeme) : Prop where
  call : shown rest ≠ some (.symbol .lParen)
  index : shown rest ≠ some (.symbol .lBracket)
  operator : ∀ op : BinOp, k ≤ op.level → shown rest ≠ some (.symbol op.mark)

theorem Stops.mono {j k : Nat} {rest : List Lexeme} (stops : Stops j rest) (looser : j ≤ k) :
    Stops k rest :=
  ⟨stops.call, stops.index, fun op tight => stops.operator op (Nat.le_trans looser tight)⟩

theorem mark_inj {op other : BinOp} (same : op.mark = other.mark) : op = other := by
  cases op <;> cases other <;> first | rfl | cases same

theorem stops_operator {op : BinOp} {rest : List Lexeme} {k : Nat}
    (shows : shown rest = some (.symbol op.mark)) (looser : op.level < k) : Stops k rest := by
  refine ⟨?_, ?_, fun other tight same => ?_⟩
  · rw [shows]
    cases op <;> decide
  · rw [shows]
    cases op <;> decide
  · rw [shows, Option.some.injEq, Token.symbol.injEq] at same
    obtain rfl := mark_inj same
    omega

section

variable {operand inner : Parser Expr} {k rounds pos : Nat} {ls mid rest : List Lexeme}
  {ts us : List Token} {e left right : Expr} {op : BinOp}

theorem chain_stops (stops : Stops k rest) :
    (chain operand (operators? k) left rounds).run ⟨rest, pos⟩ = .ok (left, ⟨rest, pos⟩) := by
  cases rounds with
  | zero => rfl
  | succ rounds =>
    unfold chain
    rw [run_bind_of_ok run_current]
    split
    · next mark shows =>
      split
      · next op found =>
        obtain ⟨rfl, level⟩ := operators?_eq_some_iff.mp found
        exact absurd shows (stops.operator op (Nat.le_of_eq level.symm))
      · rfl
    · rfl

theorem chain_goes_on (reads : Reads ls [.symbol op.mark] mid)
    (operandRan : operand.run ⟨mid, pos⟩ = .ok (right, ⟨rest, pos⟩)) :
    (chain operand (operators? op.level) left (rounds + 1)).run ⟨ls, pos⟩ =
      (chain operand (operators? op.level) (.binop op left right) rounds).run ⟨rest, pos⟩ := by
  rw [chain, run_bind_of_ok run_current, reads.shown_eq]
  have found : operators? op.level op.mark = some op := operators?_eq_some_iff.mpr ⟨rfl, rfl⟩
  simp only [found]
  rw [run_bind_of_ok ((run_advance_ok_iff (u := ()) reads.shown_eq).mpr ⟨mid, reads, rfl⟩),
    run_bind_of_ok operandRan]

/-- An operand of level `k + 1` is read from `ls` on, and the chain of operands goes on from there
to `rest`, where it has put together `e`. -/
def Chains (inner : Parser Expr) (k pos : Nat) (ls rest : List Lexeme) (e : Expr) : Prop :=
  ∃ first mid, (atLevel inner (k + 1)).run ⟨ls, pos⟩ = .ok (first, ⟨mid, pos⟩) ∧
    ∀ rounds, mid.length ≤ rounds → ∃ left, rest.length ≤ left ∧
      (chain (atLevel inner (k + 1)) (operators? k) first rounds).run ⟨mid, pos⟩ =
        (chain (atLevel inner (k + 1)) (operators? k) e left).run ⟨rest, pos⟩

theorem Chains.stopped (operator : k < 6) (associates : k ≠ 2) (chains : Chains inner k pos ls rest e)
    (stops : Stops k rest) : (atLevel inner k).run ⟨ls, pos⟩ = .ok (e, ⟨rest, pos⟩) := by
  obtain ⟨first, mid, firstRan, goesOn⟩ := chains
  obtain ⟨left, -, same⟩ := goesOn mid.length (Nat.le_refl _)
  rw [atLevel_leftAssociative inner operator associates, leftAssociative,
    run_bind_of_ok firstRan, run_bind_of_ok run_remaining, same]
  exact chain_stops stops

theorem Chains.goesOn (chains : Chains inner op.level pos ls mid left)
    (reads : Reads mid (.symbol op.mark :: us) rest)
    (operand : Accepts (atLevel inner (op.level + 1)) us rest right) :
    Chains inner op.level pos ls rest (.binop op left right) := by
  obtain ⟨first, afterFirst, firstRan, goesOn⟩ := chains
  refine ⟨first, afterFirst, firstRan, fun rounds enough => ?_⟩
  obtain ⟨more, bound, same⟩ := goesOn rounds enough
  obtain ⟨afterMark, readMark, readRight⟩ := Reads.cons_iff.mp reads
  have lengths := reads.length_eq
  rw [List.length_cons] at lengths
  obtain ⟨more, rfl⟩ : ∃ fewer, more = fewer + 1 := ⟨more - 1, by omega⟩
  refine ⟨more, by omega, ?_⟩
  rw [same, chain_goes_on readMark (operand readRight)]

/-- The tokens `ts` of `e` are read at level `k`, alone or at the front of a chain. -/
structure Accepted (inner : Parser Expr) (k : Nat) (ts : List Token) (e : Expr) : Prop where
  whole : ∀ {rest : List Lexeme}, Stops k rest → Accepts (atLevel inner k) ts rest e
  chained : k < 6 → k ≠ 2 → ∀ {ls rest : List Lexeme} {pos : Nat}, Reads ls ts rest →
    Stops (k + 1) rest → Chains inner k pos ls rest e

theorem Accepted.of_chains (operator : k < 6) (associates : k ≠ 2)
    (chained : ∀ {ls rest : List Lexeme} {pos : Nat}, Reads ls ts rest → Stops (k + 1) rest →
      Chains inner k pos ls rest e) : Accepted inner k ts e where
  whole stops _ _ reads :=
    (chained reads (stops.mono (Nat.le_succ k))).stopped operator associates stops
  chained _ _ := chained

/-- What is read at one level is an operand of the next looser one. -/
theorem Accepted.loosen (accepted : Accepted inner (k + 1) ts e) (operator : k < 6) :
    Accepted inner k ts e := by
  by_cases associates : k = 2
  · subst associates
    refine ⟨fun stops ls pos reads => ?_, fun _ not => absurd rfl not⟩
    rw [atLevel_comparison, comparison,
      run_bind_of_ok (accepted.whole (stops.mono (Nat.le_succ 2)) reads)]
    exact chain_stops (k := 2) stops
  · refine .of_chains operator associates fun reads stops => ?_
    exact ⟨_, _, accepted.whole stops reads, fun rounds enough => ⟨rounds, enough, rfl⟩⟩

theorem Accepted.loosenTo {j : Nat} (accepted : Accepted inner k ts e) (looser : j ≤ k)
    (bounded : k ≤ 6) : Accepted inner j ts e := by
  induction looser with
  | refl => exact accepted
  | step _ ih => exact ih (accepted.loosen (by omega)) (by omega)

theorem Accepted.binop (first : Accepted inner op.leftLevel ts left)
    (second : Accepted inner (op.level + 1) us right) :
    Accepted inner op.level (ts ++ .symbol op.mark :: us) (.binop op left right) := by
  have bounded : op.level < 6 := by cases op <;> decide
  by_cases associates : op.level = 2
  · have leftLevel : op.leftLevel = 3 := by
      cases op <;> first | rfl | cases associates
    rw [leftLevel] at first
    rw [associates] at second ⊢
    refine ⟨fun stops ls pos reads => ?_, fun _ not => absurd rfl not⟩
    obtain ⟨mid, readLeft, reads⟩ := reads.split
    obtain ⟨afterMark, readMark, readRight⟩ := Reads.cons_iff.mp reads
    have stopsLeft : Stops 3 mid := stops_operator readMark.shown_eq (by omega)
    rw [atLevel_comparison, comparison, run_bind_of_ok (first.whole stopsLeft readLeft)]
    have step : (chain (atLevel inner 3) (operators? op.level) left 1).run ⟨mid, pos⟩ = _ :=
      chain_goes_on readMark (second.whole (stops.mono (Nat.le_succ 2)) readRight)
    rw [associates] at step
    exact step
  · rw [leftLevel_eq associates] at first
    refine .of_chains bounded associates fun reads stops => ?_
    obtain ⟨mid, readLeft, reads⟩ := reads.split
    have stopsLeft : Stops (op.level + 1) mid := stops_operator reads.shown_eq (Nat.lt_succ_self _)
    exact (first.chained bounded associates readLeft stopsLeft).goesOn reads (second.whole stops)

end

theorem accepted_of_primary {inner : Parser Expr} {k : Nat} {ts : List Token} {e : Expr} (bounded : k ≤ 6)
    (accepts : ∀ {rest : List Lexeme}, Stops 6 rest → Accepts (primary inner) ts rest e) :
    Accepted inner k ts e := by
  have atoms : Accepted inner 6 ts e := ⟨accepts, fun impossible => absurd impossible (by decide)⟩
  exact atoms.loosenTo bounded (Nat.le_refl 6)

/-! ### Expressions -/

/-- The tokens with which an expression begins. -/
def startsExpr : Token → Bool
  | .int _ | .ident _ | .keyword .true_ | .keyword .false_ | .symbol .lParen => true
  | _ => false

theorem exprForm_starts {k : Nat} {ts : List Token} {e : Expr} :
    ExprForm k ts e → ∃ t us, ts = t :: us ∧ startsExpr t = true
  | .int _ | .yes | .no | .var _ | .access _ _ _ | .app _ _ | .parens _ => ⟨_, _, rfl, rfl⟩
  | .binop _ left _ => by
    obtain ⟨t, us, rfl, starts⟩ := exprForm_starts left
    exact ⟨t, _, rfl, starts⟩

/-- The symbols behind which an expression does not go on. -/
def endsExpr : Symbol → Bool
  | .rParen | .rBracket | .comma | .semicolon | .assign | .plusAssign | .minusAssign | .starAssign => true
  | _ => false

theorem stops_of_shown {rest : List Lexeme} {mark : Symbol} (shows : shown rest = some (.symbol mark))
    (ends : endsExpr mark = true) (k : Nat) : Stops k rest := by
  refine ⟨?_, ?_, fun op _ => ?_⟩
  · rw [shows]
    rintro ⟨⟩
    cases ends
  · rw [shows]
    rintro ⟨⟩
    cases ends
  · rw [shows]
    rintro ⟨⟩
    cases op <;> cases ends

theorem accepts_exprWithin {depth : Nat} {ts : List Token} {e : Expr} {rest : List Lexeme}
    (form : ExprForm 0 ts e) (accepted : ∀ d, ts.length ≤ d + 1 → Accepted (exprWithin d) 0 ts e)
    (deep : ts.length ≤ depth) (stops : Stops 0 rest) : Accepts (exprWithin depth) ts rest e := by
  obtain ⟨t, us, rfl, -⟩ := exprForm_starts form
  obtain ⟨d, rfl⟩ : ∃ d, depth = d + 1 := by
    rw [List.length_cons] at deep
    exact ⟨depth - 1, by omega⟩
  rw [exprWithin, levels_eq_atLevel]
  exact (accepted d deep).whole stops

section

variable {inner : Parser Expr} {rest : List Lexeme} {ts us : List Token} {rounds : Nat}

theorem accepts_announced_none {item : Parser α} {mark : Token} (other : shown rest ≠ some mark) :
    Accepts (announced mark item rounds) [] rest [] := by
  cases rounds with
  | zero => exact .pure
  | succ rounds => exact .ifNotEaten other .pure

theorem accepts_announced_cons {item : Parser α} {mark : Token} {x : α} {xs : List α}
    (head : ∀ mid, shown mid = shownBefore us rest → Accepts item ts mid x)
    (tail : ∀ fewer, us.length ≤ fewer → Accepts (announced mark item fewer) us rest xs)
    (enough : ts.length + us.length < rounds) :
    Accepts (announced mark item rounds) (mark :: (ts ++ us)) rest (x :: xs) := by
  obtain ⟨rounds, rfl⟩ : ∃ fewer, rounds = fewer + 1 := ⟨rounds - 1, by omega⟩
  exact .ifEaten (.bind head (.last (tail rounds (by omega)) .pure))

/-- An index and the bracket behind it. -/
abbrev bracketed (inner : Parser Expr) : Parser Expr := do
  let idx ← inner
  expect (.symbol .rBracket)
  pure idx

theorem accepts_named_var (name : String) (stops : Stops 6 rest) :
    Accepts (named inner name) [] rest (.var name) :=
  .ifNotEaten stops.call (.remaining fun _ _ => .last (accepts_announced_none stops.index) .pure)

theorem accepts_named_access (name : String) {idxs : List Expr} (some_ : idxs ≠ [])
    (opens : shownBefore ts rest ≠ some (.symbol .lParen))
    (indices : ∀ rounds, ts.length ≤ rounds →
      Accepts (announced (.symbol .lBracket) (bracketed inner) rounds) ts rest idxs) :
    Accepts (named inner name) ts rest (.access name idxs) := by
  refine .ifNotEaten opens (.remaining fun n enough => .last (indices n (by omega)) ?_)
  cases idxs with
  | nil => exact absurd rfl some_
  | cons => exact .pure

theorem accepts_named_app (name : String) {args : List Expr}
    (arguments : Accepts (parenthesized inner) ts rest args) :
    Accepts (named inner name) (.symbol .lParen :: ts) rest (.app name args) :=
  .ifEaten (.last arguments .pure)

theorem accepts_arguments {args : List Expr} (form : ArgumentForm ts args)
    (items : args ≠ [] → ∀ {rounds : Nat} {mid : List Lexeme}, ts.length ≤ rounds →
      shown mid = some (.symbol .rParen) → Accepts (separated inner rounds) ts mid args) :
    Accepts (parenthesized inner) (ts ++ [.symbol .rParen]) rest args := by
  cases form with
  | none =>
    refine .ifAt ?_
    rw [pure_bind]
    exact .expect .pure
  | one only =>
    obtain ⟨t, us, rfl, starts⟩ := exprForm_starts only
    refine .ifNotAt ?_ (.remaining fun n enough => .bind (fun mid => items nofun ?_) (.expect .pure))
    · rintro ⟨⟩
      cases starts
    · rw [List.length_append] at enough
      omega
  | cons head tail =>
    obtain ⟨t, us, rfl, starts⟩ := exprForm_starts head
    refine .ifNotAt ?_ (.remaining fun n enough => .bind (fun mid => items nofun ?_) (.expect .pure))
    · rintro ⟨⟩
      cases starts
    · rw [List.length_append] at enough
      omega

end

mutual

theorem accepted_of_exprForm {k : Nat} {ts : List Token} {e : Expr} (bounded : k ≤ 6) (depth : Nat)
    (deep : ts.length ≤ depth + 1) : ExprForm k ts e → Accepted (exprWithin depth) k ts e
  | .int _ | .yes | .no => accepted_of_primary bounded fun _ => .current (.advance .pure)
  | .var name => accepted_of_primary bounded fun stops =>
      .current (.advance (accepts_named_var name stops))
  | .access name some_ indices => by
    refine accepted_of_primary bounded fun stops => .current (.advance ?_)
    refine accepts_named_access name some_ ?_ fun rounds enough =>
      accepts_indices depth (by simpa using deep) enough stops.index indices
    cases indices with
    | nil => exact absurd rfl some_
    | cons => exact nofun
  | .app name arguments => by
    simp only [List.length_cons, List.length_append] at deep
    refine accepted_of_primary bounded fun stops => .current (.advance (accepts_named_app name ?_))
    exact accepts_arguments arguments fun some_ =>
      accepts_separated depth (by omega) some_ arguments
  | .parens inner => by
    simp only [List.length_cons, List.length_append] at deep
    refine accepted_of_primary bounded fun stops => .current (.advance ?_)
    refine .bind (fun mid shows => ?_) (.expect .pure)
    exact accepts_exprWithin inner (fun d deep => accepted_of_exprForm (Nat.zero_le 6) d deep inner)
      (by omega) (stops_of_shown shows rfl 0)
  | @ExprForm.binop _ _ _ _ _ op tight left right => by
    have small : op.leftLevel ≤ 6 ∧ op.level + 1 ≤ 6 := by cases op <;> decide
    rw [List.length_append, List.length_cons] at deep
    have first := accepted_of_exprForm small.1 depth (by omega) left
    have second := accepted_of_exprForm small.2 depth (by omega) right
    exact (first.binop second).loosenTo tight (by omega)

theorem accepts_indices {ts : List Token} {idxs : List Expr} {rest : List Lexeme} {rounds : Nat}
    (depth : Nat) (deep : ts.length ≤ depth) (enough : ts.length ≤ rounds)
    (stops : shown rest ≠ some (.symbol .lBracket)) : IndexForm ts idxs →
    Accepts (announced (.symbol .lBracket) (bracketed (exprWithin depth)) rounds) ts rest idxs
  | .nil => accepts_announced_none stops
  | @IndexForm.cons us vs _ _ head tail => by
    simp only [List.length_cons, List.length_append] at deep enough
    have shape : Token.symbol .lBracket :: (us ++ .symbol .rBracket :: vs) =
        .symbol .lBracket :: ((us ++ [.symbol .rBracket]) ++ vs) := by simp
    rw [shape]
    refine accepts_announced_cons (fun mid shows => .bind (fun mid shows => ?_) (.expect .pure))
      (fun fewer enough => accepts_indices depth (by omega) enough stops tail) (by simp; omega)
    exact accepts_exprWithin head (fun d deep => accepted_of_exprForm (Nat.zero_le 6) d deep head)
      (by omega) (stops_of_shown shows rfl 0)

theorem accepts_separated {ts : List Token} {args : List Expr} {rest : List Lexeme} {rounds : Nat}
    (depth : Nat) (deep : ts.length ≤ depth) (some_ : args ≠ []) :
    ArgumentForm ts args → ts.length ≤ rounds → shown rest = some (.symbol .rParen) →
    Accepts (separated (exprWithin depth) rounds) ts rest args
  | .none, _, _ => absurd rfl some_
  | .one only, _, closes => by
    have first := accepts_exprWithin only
      (fun d deep => accepted_of_exprForm (Nat.zero_le 6) d deep only) deep (stops_of_shown closes rfl 0)
    cases rounds with
    | zero => exact .last first .pure
    | succ rounds =>
      refine .last first (.ifNotEaten ?_ .pure)
      rw [shownBefore, closes]
      exact nofun
  | .cons head tail, enough, closes => by
    rw [List.length_append, List.length_cons] at deep enough
    obtain ⟨rounds, rfl⟩ : ∃ fewer, rounds = fewer + 1 := ⟨rounds - 1, by omega⟩
    refine .bind (fun mid shows => ?_) (.ifEaten (.last
      (accepts_separated depth (by omega) (List.cons_ne_nil _ _) tail (by omega) closes) .pure))
    exact accepts_exprWithin head (fun d deep => accepted_of_exprForm (Nat.zero_le 6) d deep head)
      (by omega) (stops_of_shown shows rfl 0)

end

/-- An expression is read up to a token that does not go on with it. -/
theorem accepts_expr {ts : List Token} {e : Expr} {rest : List Lexeme} (form : ExprForm 0 ts e)
    (stops : Stops 0 rest) : Accepts expr ts rest e :=
  .remaining fun depth enough => accepts_exprWithin form
    (fun d deep => accepted_of_exprForm (Nat.zero_le 6) d deep form) (by omega) stops

/-! ### Types -/

section

variable {ts us : List Token} {rest : List Lexeme}

theorem Accepts.bitWidth {b : β} {f : Nat → Parser β} {width : Nat} (valid : IsWidth width)
    (later : Accepts (f width) ts rest b) : Accepts (Parser.bitWidth >>= f) (.int width :: ts) rest b := by
  unfold Parser.bitWidth
  rw [bind_assoc]
  refine .integer ?_
  rw [if_pos (by simpa [IsWidth] using valid), pure_bind]
  exact later

theorem accepts_scalarTy {ty : Ty} (form : ScalarForm ts ty) : Accepts scalarTy ts rest ty := by
  cases form with
  | bool => exact .current (.advance .pure)
  | ubit valid =>
    refine .current (.advance (.expect ?_))
    rw [bind_assoc]
    refine .bitWidth valid ?_
    rw [pure_bind]
    exact .expect .pure
  | bit valid =>
    refine .current (.advance (.expect ?_))
    rw [bind_assoc]
    refine .bitWidth valid ?_
    rw [pure_bind]
    exact .expect .pure
  | fix valid validFrac =>
    refine .current (.advance (.expect ?_))
    rw [bind_assoc]
    refine .bitWidth valid ?_
    rw [bind_assoc]
    refine .expect ?_
    rw [bind_assoc]
    refine .bitWidth validFrac ?_
    rw [pure_bind]
    exact .expect .pure

theorem accepts_dimension {d : Dim} (form : DimForm ts d) :
    ∃ us, ts = .symbol .lBracket :: us ∧ ∀ rest, Accepts dimension us rest d := by
  cases form with
  | whole size =>
    refine ⟨_, rfl, fun rest => .integer (.ifNotEaten nofun ?_)⟩
    rw [pure_bind]
    exact .expect .pure
  | banked size bank =>
    exact ⟨_, rfl, fun rest => .integer (.ifEaten (.integer (.expect .pure)))⟩

theorem accepts_dimensions {n m : Nat} {dims : List Dim}
    (many : Many (Unnumbered DimForm) n ts dims m) (stops : shown rest ≠ some (.symbol .lBracket)) :
    ∀ rounds, ts.length ≤ rounds →
      Accepts (announced (.symbol .lBracket) dimension rounds) ts rest dims := by
  induction many with
  | nil => exact fun _ _ => accepts_announced_none stops
  | cons head tail ih =>
    intro rounds enough
    obtain ⟨-, form⟩ := head
    obtain ⟨us, rfl, accepts⟩ := accepts_dimension form
    rw [List.length_append, List.length_cons] at enough
    exact accepts_announced_cons (fun mid _ => accepts mid) ih (by omega)

theorem accepts_type {ty : Ty} (form : TyForm ts ty) (stops : shown rest ≠ some (.symbol .lBracket)) :
    Accepts type ts rest ty := by
  cases form with
  | scalar form =>
    exact .last (accepts_scalarTy form) (.remaining fun _ _ => .last (accepts_announced_none stops) .pure)
  | @array _ _ ts us elem dims scalar some_ each =>
    refine .bind (fun _ _ => accepts_scalarTy scalar) (.remaining fun n enough => ?_)
    refine .last (accepts_dimensions each stops n (by omega)) ?_
    cases dims with
    | nil => exact absurd rfl some_
    | cons => exact .pure

theorem accepts_binding {number : Nat} {d : Decl} (form : BindingForm number ts d)
    (stops : shown rest ≠ some (.symbol .lBracket)) : Accepts (binding number) ts rest d := by
  cases form with
  | mk name form => exact .identifier (.expect (.last (accepts_type form stops) .pure))

/-! ### Statements -/

/-- `cmd` has no block and declares nothing. -/
def isSimple : SourceCommand → Bool
  | .define .. | .update .. | .reduce .. | .eval .. | .advance .. => true
  | _ => false

theorem accepts_letCommand {pos : Nat} {name : String} {init : Expr} (value : ExprForm 0 ts init) :
    Accepts (letCommand pos)
      (.keyword .let_ :: .ident name :: .symbol .equals :: (ts ++ [.symbol .semicolon])) rest
      (.define pos name none init) := by
  refine .advance (.identifier (.ifNotEaten nofun ?_))
  rw [pure_bind]
  refine .expect (.bind (fun mid shows => ?_) (.expect .pure))
  exact accepts_expr value (stops_of_shown shows rfl 0)

theorem accepts_letCommand_typed {pos : Nat} {name : String} {ty : Ty} {init : Expr}
    (form : TyForm ts ty) (value : ExprForm 0 us init) :
    Accepts (letCommand pos)
      (.keyword .let_ :: .ident name :: .symbol .colon ::
        (ts ++ .symbol .equals :: (us ++ [.symbol .semicolon]))) rest
      (.define pos name (some ty) init) := by
  refine .advance (.identifier (.ifEaten ?_))
  rw [map_eq_pure_bind, bind_assoc]
  refine .bind (fun mid shows => accepts_type form (by rw [shows]; exact nofun)) ?_
  rw [pure_bind]
  refine .expect (.bind (fun mid shows => ?_) (.expect .pure))
  exact accepts_expr value (stops_of_shown shows rfl 0)

theorem accepts_exprCommand_update {pos : Nat} {target value : Expr} (left : ExprForm 0 ts target)
    (right : ExprForm 0 us value) :
    Accepts (exprCommand pos) (ts ++ .symbol .assign :: (us ++ [.symbol .semicolon])) rest
      (.update pos target value) := by
  refine .bind (fun mid shows => accepts_expr left (stops_of_shown shows rfl 0)) ?_
  refine .current (.advance (.bind (fun mid shows => accepts_expr right (stops_of_shown shows rfl 0)) ?_))
  rw [pure_bind]
  exact .expect .pure

theorem accepts_exprCommand_reduce {pos : Nat} {mark : Symbol} {op : BinOp} {target value : Expr}
    (left : ExprForm 0 ts target) (compound : ReductionForm mark op) (right : ExprForm 0 us value) :
    Accepts (exprCommand pos) (ts ++ .symbol mark :: (us ++ [.symbol .semicolon])) rest
      (.reduce pos op target value) := by
  have ends : endsExpr mark = true := by cases compound <;> rfl
  refine .bind (fun mid shows => accepts_expr left (stops_of_shown shows ends 0)) (.current ?_)
  cases compound <;>
  · refine .advance (.bind (fun mid shows => accepts_expr right (stops_of_shown shows rfl 0)) ?_)
    rw [pure_bind]
    exact .expect .pure

theorem accepts_exprCommand_eval {pos : Nat} {e : Expr} (form : ExprForm 0 ts e) :
    Accepts (exprCommand pos) (ts ++ [.symbol .semicolon]) rest (.eval pos e) := by
  refine .bind (fun mid shows => accepts_expr form (stops_of_shown shows rfl 0)) (.current ?_)
  show Accepts (Pure.pure (Command.eval pos e) >>= _) _ _ _
  rw [pure_bind]
  exact .expect .pure

/-- A command that begins like an expression is read as one. -/
theorem run_commandOver_expr {inner : Parser SourceCommand} {ls : List Lexeme} {pos : Nat} {t : Token}
    (shows : shown ls = some t) (starts : startsExpr t = true) :
    (commandOver inner).run ⟨ls, pos⟩ = (exprCommand pos).run ⟨ls, pos + 1⟩ := by
  rw [commandOver, run_bind_of_ok run_freshPos, run_bind_of_ok run_current, shows]
  match t with
  | .int _ | .ident _ | .keyword .true_ | .keyword .false_ | .symbol .lParen => rfl

theorem run_commandOver_simple {inner : Parser SourceCommand} {ls : List Lexeme} {pos next : Nat}
    {cmd : SourceCommand} (form : CommandForm pos ts cmd next) (simple : isSimple cmd = true)
    (reads : Reads ls ts rest) :
    (commandOver inner).run ⟨ls, pos⟩ = .ok (cmd, ⟨rest, pos + 1⟩) := by
  cases form with
  | define name value =>
    rw [commandOver, run_bind_of_ok run_freshPos, run_bind_of_ok run_current, reads.shown_eq]
    exact accepts_letCommand value reads
  | defineTyped name form value =>
    rw [commandOver, run_bind_of_ok run_freshPos, run_bind_of_ok run_current, reads.shown_eq]
    exact accepts_letCommand_typed form value reads
  | update left right =>
    obtain ⟨t, us, rfl, starts⟩ := exprForm_starts left
    rw [run_commandOver_expr reads.shown_eq starts]
    exact accepts_exprCommand_update left right reads
  | reduce left compound right =>
    obtain ⟨t, us, rfl, starts⟩ := exprForm_starts left
    rw [run_commandOver_expr reads.shown_eq starts]
    exact accepts_exprCommand_reduce left compound right reads
  | eval form =>
    obtain ⟨t, us, rfl, starts⟩ := exprForm_starts form
    rw [run_commandOver_expr reads.shown_eq starts]
    exact accepts_exprCommand_eval form reads
  | advance array =>
    rw [commandOver, run_bind_of_ok run_freshPos, run_bind_of_ok run_current, reads.shown_eq]
    refine Accepts.advance ?_ reads
    exact .identifier (.expect .pure)
  | decl _ | loop _ _ | branch _ _ _ => cases simple

/-- The tokens with which such a command begins. -/
theorem commandForm_starts {pos next : Nat} {cmd : SourceCommand} (form : CommandForm pos ts cmd next)
    (simple : isSimple cmd = true) :
    ∃ t us, ts = t :: us ∧ (startsExpr t = true ∨ t = .keyword .let_ ∨ t = .keyword .advance) := by
  cases form with
  | define | defineTyped => exact ⟨_, _, rfl, .inr (.inl rfl)⟩
  | advance => exact ⟨_, _, rfl, .inr (.inr rfl)⟩
  | update left _ | reduce left _ _ | eval left =>
    obtain ⟨t, us, rfl, starts⟩ := exprForm_starts left
    exact ⟨t, _, rfl, .inl starts⟩
  | decl _ | loop _ _ | branch _ _ _ => cases simple

/-! ### Programs of one statement -/

theorem run_commands_simple {ls : List Lexeme} {pos next : Nat} {cmd : SourceCommand}
    (form : CommandForm (pos + 1) ts cmd next) (simple : isSimple cmd = true) (reads : Reads ls ts []) :
    (commands command).run ⟨ls, pos⟩ = .ok (cmd, ⟨[], pos + 2⟩) := by
  obtain ⟨t, us, rfl, starts⟩ := commandForm_starts form simple
  obtain ⟨rounds, length⟩ : ∃ rounds, ls.length = rounds + 1 := ⟨us.length, by simp [reads.length_eq]⟩
  have first : command.run ⟨ls, pos + 1⟩ = .ok (cmd, ⟨[], pos + 2⟩) := by
    rw [command, run_bind_of_ok run_remaining, length]
    exact run_commandOver_simple form simple reads
  have ended : (commandList command rounds).run ⟨[], pos + 2⟩ = .ok ([], ⟨[], pos + 2⟩) := by
    cases rounds <;> rfl
  have list : (commandList command (rounds + 1)).run ⟨ls, pos + 1⟩ = .ok ([cmd], ⟨[], pos + 2⟩) := by
    rw [commandList, run_bind_of_ok run_current, reads.shown_eq]
    split
    · next absent => cases absent
    · next closes =>
      cases closes
      simp [startsExpr] at starts
    · next separates =>
      cases separates
      simp [startsExpr] at starts
    · rw [run_bind_of_ok first, run_bind_of_ok ended]
      rfl
  rw [commands, run_bind_of_ok run_freshPos, run_bind_of_ok run_remaining, length,
    run_bind_of_ok list]
  rfl

theorem run_declarations_none {ls : List Lexeme} {rounds pos : Nat}
    (other : shown ls ≠ some (.keyword .decl)) :
    (declarations rounds).run ⟨ls, pos⟩ = .ok ([], ⟨ls, pos⟩) := by
  cases rounds with
  | zero => rfl
  | succ rounds =>
    rw [declarations, run_bind_of_ok run_isAt, if_neg (fun found => other (eq_of_beq found))]
    rfl

theorem run_functions_none {ls : List Lexeme} {rounds pos : Nat}
    (other : shown ls ≠ some (.keyword .def_)) :
    (functions rounds).run ⟨ls, pos⟩ = .ok ([], ⟨ls, pos⟩) := by
  cases rounds with
  | zero => rfl
  | succ rounds =>
    rw [functions, run_bind_of_ok run_isAt, if_neg (fun found => other (eq_of_beq found))]
    rfl

theorem run_program_simple {text : List Lexeme} {next : Nat} {cmd : SourceCommand}
    (form : CommandForm 1 ts cmd next) (simple : isSimple cmd = true) (reads : Reads text ts []) :
    (program text).run ⟨[], 0⟩ = .ok (⟨[], [], some cmd⟩, ⟨[], 2⟩) := by
  obtain ⟨t, us, rfl, starts⟩ := commandForm_starts form simple
  have shows := reads.shown_eq
  have other (k : Keyword) (header : k = .decl ∨ k = .def_) : shown text ≠ some (.keyword k) := by
    rw [shows]
    rintro ⟨⟩
    rcases header with rfl | rfl <;> simp [startsExpr] at starts
  rw [program, run_bind_of_ok (run_reach_ok_iff (u := ()).mpr ⟨settled_of_shown shows, rfl⟩),
    run_bind_of_ok run_remaining, run_bind_of_ok (run_declarations_none (other _ (.inl rfl))),
    run_bind_of_ok run_remaining, run_bind_of_ok (run_functions_none (other _ (.inr rfl))),
    run_bind_of_ok run_current, shows]
  dsimp only
  rw [run_bind_of_ok (run_commands_simple form simple reads)]
  rfl

theorem run_program_decl {text : List Lexeme} {d : Decl} (form : BindingForm 0 ts d)
    (reads : Reads text (.keyword .decl :: (ts ++ [.symbol .semicolon])) []) :
    (program text).run ⟨[], 0⟩ = .ok (⟨[d], [], none⟩, ⟨[], 1⟩) := by
  have shows := reads.shown_eq
  obtain ⟨rounds, length⟩ : ∃ rounds, text.length = rounds + 1 := ⟨_, reads.length_eq⟩
  have accepts : Accepts (declaration 0) (.keyword .decl :: (ts ++ [.symbol .semicolon])) [] d := by
    refine .advance (.bind (fun mid shows => accepts_binding form ?_) (.expect .pure))
    rw [shows]
    exact nofun
  have atEnd (t : Token) : shown [] ≠ some t := nofun
  have decls : (declarations text.length).run ⟨text, 0⟩ = .ok ([d], ⟨[], 1⟩) := by
    rw [length, declarations, run_bind_of_ok run_isAt, if_pos (beq_iff_eq.mpr shows),
      run_bind_of_ok run_freshPos, run_bind_of_ok (accepts reads),
      run_bind_of_ok (run_declarations_none (atEnd _))]
    rfl
  rw [program, run_bind_of_ok (run_reach_ok_iff (u := ()).mpr ⟨settled_of_shown shows, rfl⟩),
    run_bind_of_ok run_remaining, run_bind_of_ok decls, run_bind_of_ok run_remaining,
    run_bind_of_ok (run_functions_none (atEnd _))]
  rfl

end

end Parser

end BankedLoops
