import BankedLoops.Proofs.Parser.Written
import BankedLoops.Proofs.Typing.Erasure

/-!
# Checked programs can be written

The checker only annotates, so it invents no number: where the literals of a program are words, so are
those of its typed form, and with them the values of all its folded operations.
-/

namespace BankedLoops

mutual

/-- Every literal is a word, and no memory is named yet. -/
def TypedExpr.Written : TypedExpr → Prop
  | .int _ n => IsWord n
  | .bool .. | .var .. | .app .. => True
  | .binop _ _ lhs rhs => lhs.Written ∧ rhs.Written
  | .access _ _ idxs => WrittenAll idxs
  | .mem .. | .muxRead .. => False

def TypedExpr.WrittenAll : List TypedExpr → Prop
  | [] => True
  | e :: es => e.Written ∧ WrittenAll es

end

mutual

theorem TypedExpr.written_of_erase? : {typed : TypedExpr} → {e : Expr} → typed.erase? = some e →
    e.Written → typed.Written
  | .int _ n, _, erased, written => by
    cases erased
    exact written
  | .bool .., _, _, _ => trivial
  | .var .., _, _, _ => trivial
  | .binop _ op lhs rhs, _, erased, written => by
    simp only [erase?, Option.bind_eq_bind, Option.bind_eq_some_iff] at erased
    obtain ⟨_, left, _, right, same⟩ := erased
    cases same
    exact ⟨written_of_erase? left written.1, written_of_erase? right written.2⟩
  | .access _ array idxs, _, erased, written => by
    simp only [erase?, Option.bind_eq_bind, Option.bind_eq_some_iff] at erased
    obtain ⟨_, all, same⟩ := erased
    cases same
    exact writtenAll_of_eraseAll? all written
  | .app .., _, _, _ => trivial
  | .mem .., _, erased, _ => by cases erased
  | .muxRead .., _, erased, _ => by cases erased

theorem TypedExpr.writtenAll_of_eraseAll? : {typed : List TypedExpr} → {es : List Expr} →
    TypedExpr.eraseAll? typed = some es → Expr.WrittenAll es → TypedExpr.WrittenAll typed
  | [], _, _, _ => trivial
  | e :: typed, _, erased, written => by
    simp only [eraseAll?, Option.bind_eq_bind, Option.bind_eq_some_iff] at erased
    obtain ⟨_, first, _, others, same⟩ := erased
    cases same
    exact ⟨written_of_erase? first written.1, writtenAll_of_eraseAll? others written.2⟩

end

namespace Typing

/-- A typed command that can be written. -/
abbrev WrittenCommand (cmd : TypedCommand) : Prop := cmd.Written TypedExpr.Written

mutual

theorem Annotates.written : {cmd : SourceCommand} → {typed : TypedCommand} → Annotates cmd typed →
    cmd.Written Expr.Written → WrittenCommand typed
  | _, _, .decl .., written => written
  | _, _, .define _ _ _ value, written => TypedExpr.written_of_erase? value written
  | _, _, .seq _ each, written => each.written written
  | _, _, .branch _ value first second, written =>
    ⟨TypedExpr.written_of_erase? value written.1, first.written written.2.1,
      second.written written.2.2⟩
  | _, _, .loop _ _ inner, written => ⟨written.1, written.2.1, inner.written written.2.2⟩
  | _, _, .update _ place read, written =>
    ⟨TypedExpr.written_of_erase? place written.1, TypedExpr.written_of_erase? read written.2⟩
  | _, _, .reduce _ _ place read, written =>
    ⟨written.1, TypedExpr.written_of_erase? place written.2.1,
      TypedExpr.written_of_erase? read written.2.2⟩
  | _, _, .eval _ value, written => TypedExpr.written_of_erase? value written
  | _, _, .advance .., _ => trivial
  | _, _, .skip .., _ => trivial

theorem AnnotatesSeq.written : {cmds : List SourceCommand} → {typed : List TypedCommand} →
    AnnotatesSeq cmds typed → Command.WrittenSeq Expr.Written cmds →
    Command.WrittenSeq TypedExpr.Written typed
  | _, _, .nil, _ => trivial
  | _, _, .cons first others, written => ⟨first.written written.1, others.written written.2⟩

theorem AnnotatesElse.written : {cmd : Option SourceCommand} → {typed : Option TypedCommand} →
    AnnotatesElse cmd typed → Command.WrittenElse Expr.Written cmd →
    Command.WrittenElse TypedExpr.Written typed
  | _, _, .none, _ => trivial
  | _, _, .some inner, written => inner.written written

end

end Typing

theorem Program.check_written {p : SourceProgram} {typed : TypedProgram}
    (written : p.Written Expr.Written) (checked : p.check.result = .ok typed) :
    typed.Written TypedExpr.Written := by
  obtain ⟨decls, defs, body⟩ := Typing.annotates_of_check checked
  have source {g : Function Ty TypedExpr} (member : g ∈ typed.defs) :
      ∃ f ∈ p.defs, Typing.AnnotatesFunction f g :=
    exists_mem_of_related defs member
  refine ⟨decls ▸ written.decls, fun g member d param => ?_, fun g member => ?_,
    body.written written.body⟩
  · obtain ⟨f, defined, annotates⟩ := source member
    exact written.params f defined d (annotates.params ▸ param)
  · obtain ⟨f, defined, annotates⟩ := source member
    exact annotates.body.written (written.functions f defined)

/-! ### Folded operations -/

theorem foldStatic_word {op : BinOp} {a b n : Nat} (left : IsWord a)
    (value : foldStatic op a b = some n) : IsWord n := by
  have wide : 0 < Word.capacity Word.sizeBits := by decide
  unfold IsWord at *
  cases op <;> simp only [foldStatic, Option.ite_none_right_eq_some, Option.some.injEq,
    Word.fits_iff, reduceCtorEq] at value
  case add => omega
  case sub => omega
  case mul => omega
  case shl =>
    rw [← value.2]
    exact Nat.mod_lt _ wide
  case shr =>
    rw [← value.2]
    exact Nat.lt_of_le_of_lt (Nat.div_le_self _ _) left
  case bitAnd =>
    rw [← value]
    exact Nat.lt_of_le_of_lt Nat.and_le_left left

namespace Typing

/-- The value of a folded operation is a word. -/
theorem CheckedExpr.word_of_static {ctx : Context} {env : Env} (formed : WellFormed env) :
    (e : TypedExpr) → CheckedExpr ctx env e → e.Written → ∀ n, e.ty = .static n → IsWord n
  | .binop ty op lhs rhs, checked, written, n, same => by
    cases checked with
    | binop left right typed =>
      cases same
      generalize leftTy : lhs.ty = l at typed
      generalize rhs.ty = r at typed
      cases binopType_cases typed with
      | folded _ isLeft _ value =>
        exact foldStatic_word
          (left.word_of_static formed lhs written.1 _ (leftTy.trans isLeft)) value
      | numeric _ _ joined =>
        rcases numericJoin_cases joined with ⟨_, _, _, _, _, same⟩ | ⟨_, _, same⟩ <;> cases same
  | .int _ m, checked, written, n, same => by
    cases checked
    cases same
    exact written
  | .bool .., checked, _, _, same => by
    cases checked
    cases same
  | .var .., checked, _, n, same => by
    cases checked with
    | scalar bound =>
      cases same
      cases formed _ _ bound with
      | scalar storable => exact absurd storable (not_storable_static n)
    | iterator bound =>
      cases same
      cases formed _ _ bound
  | .access .., checked, _, n, same => by
    cases checked with
    | access bound =>
      cases same
      exact absurd (formed.array bound).1 (not_storable_static n)
  | .app .., checked, _, _, _ => by cases checked
  | .mem .., checked, _, _, _ => by cases checked
  | .muxRead .., checked, _, _, _ => by cases checked

end Typing

end BankedLoops
