import BankedLoops.Proofs.Parser.Cursor
import BankedLoops.Proofs.Parser.Grammar

/-!
# What is parsed is derived

Every parser reads tokens that its form derives, whatever stands after them. `Derives` follows a
parser from the front: after each step the rest of it has to derive what is left of the form.
-/

namespace BankedLoops

namespace Parser

open Grammar

variable {α β : Type}

/-! ### Derivations along a run -/

/-- From a settled cursor that shows `shows`, with statements numbered from `pos` on, the parser
reads tokens that derive its result. -/
def DerivesAt (shows : Option Token) (pos : Nat) (form : List Token → α → Nat → Prop)
    (p : Parser α) : Prop :=
  ∀ ⦃ls rest : List Lexeme⦄ ⦃next : Nat⦄ ⦃a : α⦄, Settled ls → shown ls = shows →
    p.run ⟨ls, pos⟩ = .ok (a, ⟨rest, next⟩) → ∃ ts, Reads ls ts rest ∧ form ts a next

def Derives (pos : Nat) (form : List Token → α → Nat → Prop) (p : Parser α) : Prop :=
  ∀ shows, DerivesAt shows pos form p

/-- A parser that numbers no statements. -/
def Plain (form : List Token → α → Prop) (p : Parser α) : Prop :=
  ∀ pos, Derives pos (Unnumbered form pos) p

theorem DerivesAt.of {shows : Option Token} {pos : Nat} {form : List Token → β → Nat → Prop}
    {p : Parser β} (derives : Derives pos form p) : DerivesAt shows pos form p :=
  derives shows

theorem DerivesAt.mono {shows : Option Token} {pos : Nat} {form weaker : List Token → β → Nat → Prop}
    {p : Parser β} (derives : DerivesAt shows pos form p)
    (implies : ∀ {ts b next}, form ts b next → weaker ts b next) : DerivesAt shows pos weaker p := by
  intro ls rest next b settled same ran
  obtain ⟨ts, reads, derived⟩ := derives settled same ran
  exact ⟨ts, reads, implies derived⟩

theorem DerivesAt.bind {shows : Option Token} {pos : Nat} {formed : List Token → α → Nat → Prop}
    {form : List Token → β → Nat → Prop} {p : Parser α} {f : α → Parser β}
    (first : DerivesAt shows pos formed p)
    (rest : ∀ {a : α} {ts : List Token} {mid : Nat}, formed ts a mid →
      Derives mid (fun us => form (ts ++ us)) (f a)) : DerivesAt shows pos form (p >>= f) := by
  intro ls after next b settled same ran
  obtain ⟨a, ⟨place, mid⟩, firstRan, ran⟩ := run_bind_ok_iff.mp ran
  obtain ⟨ts, reads, derived⟩ := first settled same firstRan
  obtain ⟨us, later, whole⟩ := rest derived _ (reads.settled settled) rfl ran
  exact ⟨ts ++ us, reads.append later, whole⟩

theorem DerivesAt.advance {t : Token} {pos : Nat} {form : List Token → β → Nat → Prop}
    {f : Unit → Parser β} (rest : Derives pos (fun ts => form (t :: ts)) (f ())) :
    DerivesAt (some t) pos form (advance >>= f) := by
  intro ls after next b settled shows ran
  obtain ⟨_, _, advanced, ran⟩ := run_bind_ok_iff.mp ran
  obtain ⟨mid, readToken, rfl⟩ := (run_advance_ok_iff shows).mp advanced
  obtain ⟨ts, reads, derived⟩ := rest _ (readToken.settled settled) rfl ran
  exact ⟨t :: ts, readToken.cons reads, derived⟩

namespace Derives

variable {pos : Nat} {form : List Token → β → Nat → Prop}

theorem pure {b : β} (derived : form [] b pos) : Derives pos form (Pure.pure b) := by
  intro _ ls rest next a _ _ ran
  obtain ⟨rfl, same⟩ := run_pure_ok_iff.mp ran
  cases same
  exact ⟨[], .done, derived⟩

theorem bind {formed : List Token → α → Nat → Prop} {p : Parser α} {f : α → Parser β}
    (first : Derives pos formed p)
    (rest : ∀ {a : α} {ts : List Token} {mid : Nat}, formed ts a mid →
      Derives mid (fun us => form (ts ++ us)) (f a)) : Derives pos form (p >>= f) :=
  fun shows => (first shows).bind rest

theorem unexpected {wanted : Expected} :
    Derives pos form (Parser.unexpected wanted : Parser β) := by
  intro _ ls rest next a _ _ ran
  exact (run_unexpected_ok_iff.mp ran).elim

theorem throw {e : CompileError} : Derives pos form (MonadExcept.throw e : Parser β) := by
  intro _ ls rest next a _ _ ran
  exact (run_throw_ok_iff.mp ran).elim

theorem current {f : Option Token → Parser β}
    (each : ∀ shows, DerivesAt shows pos form (f shows)) :
    Derives pos form (Parser.current >>= f) := by
  intro shows ls rest next a settled same ran
  rw [run_bind_of_ok run_current, same] at ran
  exact each shows settled same ran

theorem remaining {f : Nat → Parser β} (each : ∀ n, Derives pos form (f n)) :
    Derives pos form (Parser.remaining >>= f) := by
  intro shows ls rest next a settled same ran
  rw [run_bind_of_ok run_remaining] at ran
  exact each _ shows settled same ran

theorem freshPos {f : Nat → Parser β} (rest : Derives (pos + 1) form (f pos)) :
    Derives pos form (Parser.freshPos >>= f) := by
  intro shows ls after next a settled same ran
  rw [run_bind_of_ok run_freshPos] at ran
  exact rest shows settled same ran

theorem ifAt {t : Token} {p q : Parser β} (yes : DerivesAt (some t) pos form p)
    (no : ∀ shows, shows ≠ some t → DerivesAt shows pos form q) :
    Derives pos form (isAt t >>= fun found => if found = true then p else q) := by
  intro shows ls rest next a settled same ran
  rw [run_bind_of_ok run_isAt, same] at ran
  split at ran
  · next found =>
    obtain rfl := eq_of_beq found
    exact yes settled same ran
  · next other =>
    refine no shows ?_ settled same ran
    rintro rfl
    exact other (beq_self_eq_true _)

theorem ifEat {t : Token} {p q : Parser β} (yes : Derives pos (fun ts => form (t :: ts)) p)
    (no : Derives pos form q) :
    Derives pos form (eat t >>= fun ate => if ate = true then p else q) := by
  intro shows ls rest next a settled same ran
  obtain ⟨ate, _, eaten, ran⟩ := run_bind_ok_iff.mp ran
  rcases run_eat_ok_iff.mp eaten with ⟨rfl, mid, readToken, rfl⟩ | ⟨rfl, -, rfl⟩
  · obtain ⟨ts, reads, derived⟩ := yes _ (readToken.settled settled) rfl ran
    exact ⟨t :: ts, readToken.cons reads, derived⟩
  · exact no shows settled same ran

/-- After a parser that reads one token the rest derives what the form wants behind it. -/
theorem token {p : Parser α} {f : α → Parser β} {t : α → Token}
    (reads : ∀ {ls : List Lexeme} {a : α} {s : State}, p.run ⟨ls, pos⟩ = .ok (a, s) →
      ∃ rest, Reads ls [t a] rest ∧ s = ⟨rest, pos⟩)
    (rest : ∀ a, Derives pos (fun ts => form (t a :: ts)) (f a)) :
    Derives pos form (p >>= f) := by
  intro shows ls after next b settled same ran
  obtain ⟨a, s, first, ran⟩ := run_bind_ok_iff.mp ran
  obtain ⟨mid, readToken, rfl⟩ := reads first
  obtain ⟨ts, later, derived⟩ := rest a _ (readToken.settled settled) rfl ran
  exact ⟨t a :: ts, readToken.cons later, derived⟩

theorem expect {t : Token} {f : Unit → Parser β}
    (rest : Derives pos (fun ts => form (t :: ts)) (f ())) :
    Derives pos form (Parser.expect t >>= f) :=
  token (t := fun _ => t) run_expect_ok_iff.mp fun _ => rest

theorem identifier {f : String → Parser β}
    (rest : ∀ name, Derives pos (fun ts => form (.ident name :: ts)) (f name)) :
    Derives pos form (Parser.identifier >>= f) :=
  token run_identifier_ok_iff.mp rest

theorem integer {f : Nat → Parser β}
    (rest : ∀ n, Derives pos (fun ts => form (.int n :: ts)) (f n)) :
    Derives pos form (Parser.integer >>= f) :=
  token run_integer_ok_iff.mp rest

end Derives

theorem Plain.bind {formed : List Token → α → Prop} {pos : Nat}
    {form : List Token → β → Nat → Prop} {p : Parser α} {f : α → Parser β} (first : Plain formed p)
    (rest : ∀ {a : α} {ts : List Token}, formed ts a → Derives pos (fun us => form (ts ++ us)) (f a)) :
    Derives pos form (p >>= f) := by
  refine (first pos).bind ?_
  rintro a ts mid ⟨rfl, derived⟩
  exact rest derived

/-! ### Repetition -/

section

variable {form : Form α} {item : Parser α}

theorem derives_announced {mark : Token} (each : ∀ pos, Derives pos (form pos) item)
    (rounds pos : Nat) :
    Derives pos (Many (fun n ts a m => ∃ us, ts = mark :: us ∧ form n us a m) pos)
      (announced mark item rounds) := by
  induction rounds generalizing pos with
  | zero => exact .pure .nil
  | succ rounds ih =>
    refine .ifEat ?_ (.pure .nil)
    refine (each pos).bind fun head => (ih _).bind fun tail => .pure ?_
    rw [List.append_nil]
    exact .cons ⟨_, rfl, head⟩ tail

theorem derives_separated (each : ∀ pos, Derives pos (form pos) item) (rounds pos : Nat) :
    Derives pos (Separated form pos) (separated item rounds) := by
  induction rounds generalizing pos with
  | zero =>
    refine (each pos).bind fun head => .pure ?_
    rw [List.append_nil]
    exact .one head
  | succ rounds ih =>
    refine (each pos).bind fun head => .ifEat ?_ (.pure ?_)
    · refine (ih _).bind fun tail => .pure ?_
      rw [List.append_nil]
      exact .cons head tail
    · rw [List.append_nil]
      exact .one head

theorem derives_parenthesized (each : ∀ pos, Derives pos (form pos) item) (pos : Nat) :
    Derives pos (fun ts as m => ∃ us, ts = us ++ [.symbol .rParen] ∧ Listed form pos us as m)
      (parenthesized item) := by
  refine .ifAt ?_ fun shows _ => ?_
  · rw [pure_bind]
    exact .of (.expect (.pure ⟨[], rfl, .none⟩))
  · refine .of (.remaining fun _ => (derives_separated each _ _).bind fun items => ?_)
    exact .expect (.pure ⟨_, rfl, .some items⟩)

end

/-! ### Expressions -/

/-- The operators of each level by their marks. -/
def operators? : Nat → Symbol → Option BinOp
  | 0 => disjunction?
  | 1 => conjunction?
  | 2 => comparison?
  | 3 => bitwise?
  | 4 => additive?
  | 5 => multiplicative?
  | _ => fun _ => none

theorem operators?_eq_some_iff {k : Nat} {mark : Symbol} {op : BinOp} :
    operators? k mark = some op ↔ mark = op.mark ∧ op.level = k := by
  constructor
  · intro found
    match k with
    | 0 | 1 | 2 | 3 | 4 | 5 => cases mark <;> cases found <;> exact ⟨rfl, rfl⟩
    | _ + 6 => cases found
  · rintro ⟨rfl, rfl⟩
    cases op <;> rfl

theorem leftLevel_eq {op : BinOp} (associates : op.level ≠ 2) : op.leftLevel = op.level := by
  cases op <;> first | rfl | exact absurd rfl associates

section

variable {operand inner : Parser Expr} {k : Nat}

theorem derives_chain (each : Plain (ExprForm (k + 1)) operand) (associates : k ≠ 2)
    (rounds pos : Nat) (left : Expr) :
    Derives pos
      (Unnumbered (fun us e => ∀ ts, ExprForm k ts left → ExprForm k (ts ++ us) e) pos)
      (chain operand (operators? k) left rounds) := by
  induction rounds generalizing left with
  | zero =>
    refine .pure ⟨rfl, fun ts form => ?_⟩
    rwa [List.append_nil]
  | succ rounds ih =>
    have stop : Derives pos
        (Unnumbered (fun us e => ∀ ts, ExprForm k ts left → ExprForm k (ts ++ us) e) pos)
        (pure left) := by
      refine .pure ⟨rfl, fun ts form => ?_⟩
      rwa [List.append_nil]
    refine .current fun shows => ?_
    split
    · next mark =>
      split
      · next op found =>
        obtain ⟨rfl, rfl⟩ := operators?_eq_some_iff.mp found
        refine .advance (each.bind fun {right rs} rightForm => ?_)
        intro shows ls rest next e settled same ran
        obtain ⟨us, reads, rfl, later⟩ := ih (.binop op left right) shows settled same ran
        refine ⟨us, reads, rfl, fun ts form => ?_⟩
        have both : ExprForm op.level (ts ++ .symbol op.mark :: rs) (.binop op left right) :=
          .binop (Nat.le_refl _) (leftLevel_eq associates ▸ form) rightForm
        simpa using later _ both
      · exact .of stop
    · exact .of stop

theorem plain_leftAssociative (each : Plain (ExprForm (k + 1)) operand) (associates : k ≠ 2) :
    Plain (ExprForm k) (leftAssociative operand (operators? k)) := by
  intro pos
  refine each.bind fun {left ts} form => .remaining fun rounds => ?_
  intro shows ls rest next e settled same ran
  obtain ⟨us, reads, rfl, later⟩ := derives_chain each associates rounds pos left shows settled same ran
  exact ⟨us, reads, rfl, later ts (form.mono (Nat.le_succ k))⟩

theorem plain_comparison (each : Plain (ExprForm 3) operand) :
    Plain (ExprForm 2) (comparison operand) := by
  intro pos
  refine each.bind fun {left ts} form => .current fun shows => ?_
  have stop : Derives pos (fun us => Unnumbered (ExprForm 2) pos (ts ++ us)) (pure left) := by
    refine .pure ⟨rfl, ?_⟩
    rw [List.append_nil]
    exact form.mono (by decide)
  split
  · next mark =>
    split
    · next op found =>
      obtain ⟨rfl, level⟩ := operators?_eq_some_iff (k := 2).mp found
      refine .advance (each.bind fun {right rs} rightForm => .pure ⟨rfl, ?_⟩)
      rw [List.append_nil]
      refine .binop (Nat.le_of_eq level.symm) ?_ (level ▸ rightForm)
      have leftLevel : op.leftLevel = 3 := by
        cases op <;> first | rfl | cases level
      exact leftLevel ▸ form
    · exact .of stop
  · exact .of stop

/-- Each index stands in brackets of its own. -/
theorem indexForm_of_many {n m : Nat} {ts : List Token} {idxs : List Expr}
    (many : Many (fun n ts e m => ∃ us, ts = .symbol .lBracket :: us ∧
      Unnumbered (fun us e => ∃ vs, us = vs ++ [.symbol .rBracket] ∧ ExprForm 0 vs e) n us e m)
      n ts idxs m) : m = n ∧ IndexForm ts idxs := by
  induction many with
  | nil => exact ⟨rfl, .nil⟩
  | cons head tail ih =>
    obtain ⟨_, rfl, rfl, vs, rfl, form⟩ := head
    obtain ⟨rfl, rest⟩ := ih
    refine ⟨rfl, ?_⟩
    simpa using IndexForm.cons form rest

theorem argumentForm_of_separated {n m : Nat} {ts : List Token} {args : List Expr}
    (separated : Separated (Unnumbered (ExprForm 0)) n ts args m) : m = n ∧ ArgumentForm ts args := by
  induction separated with
  | one only =>
    obtain ⟨rfl, form⟩ := only
    exact ⟨rfl, .one form⟩
  | cons head tail ih =>
    obtain ⟨rfl, form⟩ := head
    obtain ⟨rfl, rest⟩ := ih
    refine ⟨rfl, ?_⟩
    cases tail with
    | one => exact .cons form rest
    | cons => exact .cons form rest

theorem argumentForm_of_listed {n m : Nat} {ts : List Token} {args : List Expr}
    (listed : Listed (Unnumbered (ExprForm 0)) n ts args m) : m = n ∧ ArgumentForm ts args := by
  cases listed with
  | none => exact ⟨rfl, .none⟩
  | some items => exact argumentForm_of_separated items

theorem plain_named (each : Plain (ExprForm 0) inner) (name : String) :
    Plain (fun ts e => ExprForm k (.ident name :: ts) e) (named inner name) := by
  intro pos
  refine .ifEat ?_ (.remaining fun rounds => ?_)
  · refine (derives_parenthesized each pos).bind ?_
    rintro args _ mid ⟨ts, rfl, listed⟩
    obtain ⟨rfl, arguments⟩ := argumentForm_of_listed listed
    refine .pure ⟨rfl, ?_⟩
    rw [List.append_nil]
    exact .app name arguments
  · have index : Plain (fun ts e => ∃ us, ts = us ++ [.symbol .rBracket] ∧ ExprForm 0 us e) (do
        let idx ← inner
        expect (.symbol .rBracket)
        pure idx) :=
      fun pos => each.bind fun form => .expect (.pure ⟨rfl, _, rfl, form⟩)
    refine (derives_announced index rounds pos).bind fun {idxs ts mid} many => ?_
    obtain ⟨rfl, indices⟩ := indexForm_of_many many
    split
    · cases indices
      exact .pure ⟨rfl, .var name⟩
    · next some_ =>
      refine .pure ⟨rfl, ?_⟩
      rw [List.append_nil]
      exact .access name some_ indices

theorem plain_primary (each : Plain (ExprForm 0) inner) : Plain (ExprForm k) (primary inner) := by
  intro pos
  refine .current fun shows => ?_
  split
  · exact .advance (.pure ⟨rfl, .int _⟩)
  · exact .advance (.pure ⟨rfl, .yes⟩)
  · exact .advance (.pure ⟨rfl, .no⟩)
  · exact .advance (each.bind fun form => .expect (.pure ⟨rfl, .parens form⟩))
  · exact .advance (plain_named each _ pos)
  · exact .of .unexpected

theorem plain_exprWithin (depth : Nat) : Plain (ExprForm 0) (exprWithin depth) := by
  induction depth with
  | zero => exact fun _ => .unexpected
  | succ depth ih =>
    have product : Plain (ExprForm 5) (leftAssociative (primary (exprWithin depth)) (operators? 5)) :=
      plain_leftAssociative (plain_primary ih) (by decide)
    have sum := plain_leftAssociative (k := 4) product (by decide)
    have bits := plain_leftAssociative (k := 3) sum (by decide)
    have conjunction := plain_leftAssociative (k := 1) (plain_comparison bits) (by decide)
    exact plain_leftAssociative conjunction (by decide)

theorem plain_expr : Plain (ExprForm 0) expr :=
  fun pos => .remaining fun depth => plain_exprWithin depth pos

end

/-! ### Types -/

theorem plain_bitWidth : Plain (fun ts width => ts = [.int width] ∧ IsWidth width) bitWidth := by
  intro pos
  refine .integer fun width => ?_
  split
  · next valid => exact .pure ⟨rfl, rfl, by simpa [IsWidth] using valid⟩
  · exact .throw

theorem plain_bits (signed : Bool) :
    Plain (fun ts (ty : Ty) => ∃ width, ts = [.int width] ∧ IsWidth width ∧ ty = .bit width signed)
      (do return .bit (← bitWidth) signed) := by
  intro pos
  refine plain_bitWidth.bind ?_
  rintro width _ ⟨rfl, valid⟩
  exact .pure ⟨rfl, width, rfl, valid, rfl⟩

theorem plain_fixed :
    Plain (fun ts (ty : Ty) => ∃ width frac, ts = [.int width, .symbol .comma, .int frac] ∧
      IsWidth width ∧ IsWidth frac ∧ ty = .fix width frac)
      (do
        let width ← bitWidth
        expect (.symbol .comma)
        return .fix width (← bitWidth)) := by
  intro pos
  refine plain_bitWidth.bind ?_
  rintro width _ ⟨rfl, valid⟩
  refine .expect (plain_bitWidth.bind ?_)
  rintro frac _ ⟨rfl, validFrac⟩
  exact .pure ⟨rfl, width, frac, rfl, valid, validFrac, rfl⟩

theorem derivesAt_angled {form : List Token → Ty → Prop} {inner : Parser Ty} {t : Token} {pos : Nat}
    (each : Plain form inner) :
    DerivesAt (some t) pos
      (Unnumbered (fun ts ty => ∃ us, ts = t :: .symbol .lt :: (us ++ [.symbol .gt]) ∧ form us ty) pos)
      (angled inner) :=
  .advance (.expect (each.bind fun derived => .expect (.pure ⟨rfl, _, rfl, derived⟩)))

theorem plain_scalarTy : Plain ScalarForm scalarTy := by
  intro pos
  refine .current fun shows => ?_
  split
  · exact .advance (.pure ⟨rfl, .bool⟩)
  · refine (derivesAt_angled (plain_bits false)).mono ?_
    rintro _ _ _ ⟨rfl, _, rfl, width, rfl, valid, rfl⟩
    exact ⟨rfl, .ubit valid⟩
  · refine (derivesAt_angled (plain_bits true)).mono ?_
    rintro _ _ _ ⟨rfl, _, rfl, width, rfl, valid, rfl⟩
    exact ⟨rfl, .bit valid⟩
  · refine (derivesAt_angled plain_fixed).mono ?_
    rintro _ _ _ ⟨rfl, _, rfl, width, frac, rfl, valid, validFrac, rfl⟩
    exact ⟨rfl, .fix valid validFrac⟩
  · exact .of .unexpected

theorem plain_dimension : Plain (fun ts d => DimForm (.symbol .lBracket :: ts) d) dimension := by
  intro pos
  refine .integer fun size => .ifEat (.integer fun bank => ?_) ?_
  · exact .expect (.pure ⟨rfl, .banked size bank⟩)
  · rw [pure_bind]
    exact .expect (.pure ⟨rfl, .whole size⟩)

theorem dims_of_many {n m : Nat} {ts : List Token} {dims : List Dim}
    (many : Many (fun n ts d m => ∃ us, ts = .symbol .lBracket :: us ∧
      Unnumbered (fun us d => DimForm (.symbol .lBracket :: us) d) n us d m) n ts dims m) :
    m = n ∧ Many (Unnumbered DimForm) n ts dims n := by
  induction many with
  | nil => exact ⟨rfl, .nil⟩
  | cons head tail ih =>
    obtain ⟨us, rfl, rfl, form⟩ := head
    obtain ⟨rfl, rest⟩ := ih
    exact ⟨rfl, .cons ⟨rfl, form⟩ rest⟩

theorem plain_type : Plain TyForm type := by
  intro pos
  refine plain_scalarTy.bind fun {scalar ts} form => .remaining fun rounds => ?_
  refine (derives_announced plain_dimension rounds pos).bind fun {dims us mid} many => ?_
  obtain ⟨rfl, each⟩ := dims_of_many many
  split
  · cases each
    refine .pure ⟨rfl, ?_⟩
    rw [List.append_nil]
    exact .scalar (by simpa using form)
  · next some_ =>
    refine .pure ⟨rfl, ?_⟩
    rw [List.append_nil]
    exact .array form some_ each

theorem plain_binding (number : Nat) : Plain (BindingForm number) (binding number) := by
  intro pos
  refine .identifier fun name => .expect (plain_type.bind fun form => .pure ⟨rfl, ?_⟩)
  rw [List.append_nil]
  exact .mk name form

/-! ### Commands -/

section

variable {inner : Parser SourceCommand}

theorem derives_commandList (each : ∀ pos, Derives pos (CommandForm pos) inner) (rounds pos : Nat) :
    Derives pos (ListForm pos) (commandList inner rounds) := by
  induction rounds generalizing pos with
  | zero => exact .pure .nil
  | succ rounds ih =>
    refine .current fun shows => ?_
    split
    · exact .of (.pure .nil)
    · exact .of (.pure .nil)
    · refine .advance fun shows => (ih pos shows).mono fun form => .separator form
    · refine .of ((each pos).bind fun head => (ih _).bind fun tail => .pure ?_)
      rw [List.append_nil]
      exact .cons head tail

theorem derives_commands (each : ∀ pos, Derives pos (CommandForm pos) inner) (pos : Nat) :
    Derives pos (fun ts cmd next => ∃ cmds, cmd = group pos cmds ∧ ListForm (pos + 1) ts cmds next)
      (commands inner) := by
  refine .freshPos (.remaining fun rounds => (derives_commandList each rounds _).bind ?_)
  intro cmds ts mid form
  split
  · next cmd =>
    refine .pure ⟨[cmd], rfl, ?_⟩
    rwa [List.append_nil]
  · next several =>
    refine .pure ⟨cmds, ?_, ?_⟩
    · unfold group
      split
      · next cmd => exact absurd rfl (several cmd)
      · rfl
    · rwa [List.append_nil]

theorem derives_block (each : ∀ pos, Derives pos (CommandForm pos) inner) (pos : Nat) :
    Derives pos (BlockForm pos) (block inner) := by
  refine .expect (.ifAt ?_ fun shows other => ?_)
  · refine .of (.freshPos ?_)
    rw [pure_bind]
    exact .expect (.pure .empty)
  · intro ls rest next cmd settled same ran
    obtain ⟨body, ⟨mid, _⟩, listRan, ran⟩ := run_bind_ok_iff.mp ran
    obtain ⟨_, _, closed, ran⟩ := run_bind_ok_iff.mp ran
    obtain ⟨after, readClose, rfl⟩ := run_expect_ok_iff.mp closed
    obtain ⟨rfl, final⟩ := run_pure_ok_iff.mp ran
    cases final
    obtain ⟨ts, reads, cmds, rfl, form⟩ := derives_commands each pos _ settled rfl listRan
    refine ⟨ts ++ [.symbol .rBrace], reads.append readClose, .list ?_ form⟩
    rintro rfl
    cases reads
    exact other (same.symm.trans readClose.shown_eq)

theorem reductionForm_of_eq_some {mark : Symbol} {op : BinOp} (found : reduction? mark = some op) :
    ReductionForm mark op := by
  unfold reduction? at found
  split at found <;> cases found
  · exact .add
  · exact .sub
  · exact .mul

theorem derives_exprCommand (pos : Nat) :
    Derives (pos + 1) (CommandForm pos) (exprCommand pos) := by
  refine plain_expr.bind fun {target ts} left => .current fun shows => ?_
  have alone : Derives (pos + 1) (fun us => CommandForm pos (ts ++ us)) (do
      let cmd ← pure (.eval pos target)
      expect (.symbol .semicolon)
      pure cmd) := by
    rw [pure_bind]
    exact .expect (.pure (.eval left))
  split
  · refine .advance (plain_expr.bind fun right => ?_)
    rw [pure_bind]
    exact .expect (.pure (.update left right))
  · next mark _ =>
    split
    · next op found =>
      refine .advance (plain_expr.bind fun right => ?_)
      rw [pure_bind]
      exact .expect (.pure (.reduce left (reductionForm_of_eq_some found) right))
    · exact .of alone
  · exact .of alone

theorem derivesAt_declCommand (pos : Nat) :
    DerivesAt (some (.keyword .decl)) (pos + 1) (CommandForm pos) (declCommand pos) :=
  .advance ((plain_binding pos).bind fun form => .expect (.pure (.decl form)))

theorem derivesAt_letCommand (pos : Nat) :
    DerivesAt (some (.keyword .let_)) (pos + 1) (CommandForm pos) (letCommand pos) := by
  refine .advance (.identifier fun name => .ifEat ?_ ?_)
  · rw [map_eq_pure_bind, bind_assoc]
    refine plain_type.bind fun form => ?_
    rw [pure_bind]
    exact .expect (plain_expr.bind fun value => .expect (.pure (.defineTyped name form value)))
  · rw [pure_bind]
    exact .expect (plain_expr.bind fun value => .expect (.pure (.define name value)))

theorem derivesAt_loopHeader {pos : Nat} :
    DerivesAt (some (.keyword .for_)) pos (Unnumbered HeaderForm pos) loopHeader := by
  refine .advance (.expect (.expect (.identifier fun iter => .expect (.integer fun start =>
    .expect (.integer fun stop => .expect (.ifEat ?_ ?_))))))
  · rw [map_eq_pure_bind, bind_assoc]
    refine .integer fun copies => ?_
    rw [pure_bind]
    exact .pure ⟨rfl, .unrolled iter start stop copies⟩
  · rw [pure_bind]
    exact .pure ⟨rfl, .plain iter start stop⟩

theorem derivesAt_advanceCommand (pos : Nat) :
    DerivesAt (some (.keyword .advance)) (pos + 1) (CommandForm pos) (advanceCommand pos) :=
  .advance (.identifier fun array => .expect (.pure (.advance array)))

theorem commandForm_ne_nil {n m : Nat} {ts : List Token} {cmd : SourceCommand}
    (form : CommandForm n ts cmd m) : ts ≠ [] := by
  cases form with
  | loop head _ => cases head <;> exact nofun
  | _ => simp

/-- What follows `else`. -/
theorem derives_otherwise (each : ∀ pos, Derives pos (CommandForm pos) inner) (pos : Nat) :
    Derives pos (fun ts => ElseForm pos (.keyword .else_ :: ts))
      (some <$> (do if ← isAt (.keyword .if_) then inner else block inner)) := by
  have next : Derives pos (fun ts cmd => ElseForm pos (.keyword .else_ :: ts) (some cmd))
      (do if ← isAt (.keyword .if_) then inner else block inner) := by
    refine .ifAt ?_ fun shows _ => ?_
    · intro ls rest next cmd settled same ran
      obtain ⟨ts, reads, form⟩ := each pos _ settled rfl ran
      cases ts with
      | nil => exact absurd rfl (commandForm_ne_nil form)
      | cons t ts =>
        cases same.symm.trans reads.shown_eq
        exact ⟨_, reads, .branch form⟩
    · exact (derives_block each pos shows).mono fun form => .block form
  rw [map_eq_pure_bind]
  refine next.bind fun form => .pure ?_
  rwa [List.append_nil]

theorem derives_commandOver (each : ∀ pos, Derives pos (CommandForm pos) inner) (pos : Nat) :
    Derives pos (CommandForm pos) (commandOver inner) := by
  refine .freshPos (.current fun shows => ?_)
  split
  · exact derivesAt_declCommand pos
  · exact derivesAt_letCommand pos
  · refine derivesAt_loopHeader.bind ?_
    rintro header ts _ ⟨rfl, head⟩
    refine (derives_block each _).bind fun block => .pure ?_
    rw [List.append_nil]
    exact .loop head block
  · refine .advance (.expect (plain_expr.bind fun condition => .expect ?_))
    refine (derives_block each _).bind fun block => .ifEat ?_ ?_
    · refine (derives_otherwise each _).bind fun otherwise => .pure ?_
      rw [List.append_nil]
      exact .branch condition block otherwise
    · rw [pure_bind]
      exact .pure (.branch condition block .none)
  · exact derivesAt_advanceCommand pos
  · exact .of (derives_exprCommand pos)

end

theorem derives_commandWithin (depth pos : Nat) :
    Derives pos (CommandForm pos) (commandWithin depth) := by
  induction depth generalizing pos with
  | zero => exact .unexpected
  | succ depth ih => exact derives_commandOver ih pos

theorem derives_command (pos : Nat) : Derives pos (CommandForm pos) command :=
  .remaining fun depth => derives_commandWithin depth pos

/-! ### Programs -/

theorem derives_declarations (rounds pos : Nat) :
    Derives pos (Many DeclForm pos) (declarations rounds) := by
  induction rounds generalizing pos with
  | zero => exact .pure .nil
  | succ rounds ih =>
    refine .ifAt ?_ fun _ _ => .of (.pure .nil)
    intro ls rest next decls settled same ran
    rw [run_bind_of_ok run_freshPos] at ran
    have first : DerivesAt (some (.keyword .decl)) (pos + 1) (DeclForm pos) (declaration pos) :=
      .advance ((plain_binding pos).bind fun form => .expect (.pure (.mk form)))
    refine DerivesAt.bind first (fun head => (ih _).bind fun tail => .pure ?_) settled same ran
    rw [List.append_nil]
    exact .cons head tail

theorem derives_parameter (pos : Nat) : Derives pos (ParamForm pos) parameter := by
  refine .freshPos fun shows => (plain_binding pos (pos + 1) shows).mono ?_
  rintro _ _ _ ⟨rfl, form⟩
  exact .mk form

theorem derives_function (pos : Nat) : Derives pos (FunctionForm pos) function := by
  refine .freshPos (.expect (.identifier fun name => .expect ?_))
  refine (derives_parenthesized derives_parameter _).bind ?_
  rintro params _ mid ⟨ts, rfl, parameters⟩
  refine (derives_block derives_command mid).bind fun block => .pure ?_
  simpa using FunctionForm.mk name parameters block

theorem derives_functions (rounds pos : Nat) :
    Derives pos (Many FunctionForm pos) (functions rounds) := by
  induction rounds generalizing pos with
  | zero => exact .pure .nil
  | succ rounds ih =>
    refine .ifAt (.of ?_) fun _ _ => .of (.pure .nil)
    refine (derives_function pos).bind fun head => (ih _).bind fun tail => .pure ?_
    rw [List.append_nil]
    exact .cons head tail

end Parser

end BankedLoops
