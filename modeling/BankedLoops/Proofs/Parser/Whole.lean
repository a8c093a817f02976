import BankedLoops.Proofs.Parser.Derivation

/-!
# How much of a text is read

A program is read up to the end of its text or up to a closing brace that closes nothing. So where
every closing brace closes an opened one the whole text is cut into tokens and derived.
-/

namespace BankedLoops

namespace Grammar

/-! ### Braces -/

/-- How many braces are open after the items, if none was closed that was not open. -/
def openAfter : Nat → List Lexeme.Item → Option Nat
  | opened, [] => some opened
  | opened, .token (.symbol .lBrace) :: items => openAfter (opened + 1) items
  | 0, .token (.symbol .rBrace) :: _ => none
  | opened + 1, .token (.symbol .rBrace) :: items => openAfter opened items
  | opened, _ :: items => openAfter opened items

/-- Every closing brace closes an opened one. -/
def ClosesOpened (items : List Lexeme.Item) : Prop := (openAfter 0 items).isSome = true

instance (items : List Lexeme.Item) : Decidable (ClosesOpened items) :=
  inferInstanceAs (Decidable (_ = true))

/-- Every brace among the tokens has its partner among them. -/
def Paired (ts : List Token) : Prop :=
  ∀ opened items, openAfter opened (ts.map .token ++ items) = openAfter opened items

def isBrace : Token → Bool
  | .symbol .lBrace | .symbol .rBrace => true
  | _ => false

namespace Paired

variable {ts us : List Token} {t : Token}

theorem nil : Paired [] := fun _ _ => rfl

theorem append (first : Paired ts) (second : Paired us) : Paired (ts ++ us) := by
  intro opened items
  rw [List.map_append, List.append_assoc, first, second]

theorem cons (other : isBrace t = false) (rest : Paired ts) : Paired (t :: ts) := by
  have skipped (opened : Nat) (items : List Lexeme.Item) :
      openAfter opened (.token t :: items) = openAfter opened items := by
    cases t with
    | symbol mark => cases mark <;> cases other <;> cases opened <;> rfl
    | _ => cases opened <;> rfl
  intro opened items
  exact (skipped opened _).trans (rest opened items)

theorem one (other : isBrace t = false) : Paired [t] := nil.cons other

theorem block (inner : Paired ts) : Paired (.symbol .lBrace :: (ts ++ [.symbol .rBrace])) := by
  intro opened items
  simp only [List.map_cons, List.map_append, List.cons_append, List.append_assoc]
  rw [openAfter, inner]
  rfl

end Paired

theorem isBrace_mark (op : BinOp) : isBrace (.symbol op.mark) = false := by
  cases op <;> rfl

theorem ReductionForm.isBrace {mark : Symbol} {op : BinOp} (form : ReductionForm mark op) :
    isBrace (.symbol mark) = false := by
  cases form <;> rfl

theorem HeaderForm.paired {ts : List Token} {header : LoopHeader} (form : HeaderForm ts header) :
    Paired ts := by
  cases form <;> exact fun _ _ => rfl

mutual

theorem ExprForm.paired {k : Nat} {ts : List Token} {e : Expr} : ExprForm k ts e → Paired ts
  | .int _ | .yes | .no | .var _ => .one rfl
  | .access _ _ indices => .cons rfl indices.paired
  | .app _ arguments => .cons rfl (.cons rfl (arguments.paired.append (.one rfl)))
  | .parens inner => .cons rfl (inner.paired.append (.one rfl))
  | .binop _ left right => left.paired.append (.cons (isBrace_mark _) right.paired)

theorem IndexForm.paired {ts : List Token} {idxs : List Expr} : IndexForm ts idxs → Paired ts
  | .nil => .nil
  | .cons head tail => .cons rfl (head.paired.append (.cons rfl tail.paired))

theorem ArgumentForm.paired {ts : List Token} {args : List Expr} : ArgumentForm ts args → Paired ts
  | .none => .nil
  | .one only => only.paired
  | .cons head tail => head.paired.append (.cons rfl tail.paired)

end

theorem Many.paired {α : Type} {form : Form α} {n m : Nat} {ts : List Token} {as : List α}
    (many : Many form n ts as m) (each : ∀ {n ts a m}, form n ts a m → Paired ts) : Paired ts := by
  induction many with
  | nil => exact .nil
  | cons head _ ih => exact (each head).append ih

theorem Listed.paired {α : Type} {form : Form α} {n m : Nat} {ts : List Token} {as : List α}
    (listed : Listed form n ts as m) (each : ∀ {n ts a m}, form n ts a m → Paired ts) : Paired ts := by
  cases listed with
  | none => exact .nil
  | some items =>
    induction items with
    | one only => exact each only
    | cons head _ ih => exact (each head).append (.cons rfl ih)

theorem ScalarForm.paired {ts : List Token} {ty : Ty} (form : ScalarForm ts ty) : Paired ts := by
  cases form <;> exact fun _ _ => rfl

theorem TyForm.paired {ts : List Token} {ty : Ty} (form : TyForm ts ty) : Paired ts := by
  cases form with
  | scalar form => exact form.paired
  | array scalar _ each =>
    refine scalar.paired.append (each.paired ?_)
    rintro n ts d m ⟨-, form⟩
    cases form <;> exact fun _ _ => rfl

theorem BindingForm.paired {pos : Nat} {ts : List Token} {d : Decl} :
    BindingForm pos ts d → Paired ts
  | .mk _ form => .cons rfl (.cons rfl form.paired)

mutual

theorem CommandForm.paired {n m : Nat} {ts : List Token} {cmd : SourceCommand} :
    CommandForm n ts cmd m → Paired ts
  | .decl binding => .cons rfl (binding.paired.append (.one rfl))
  | .define _ value => .cons rfl (.cons rfl (.cons rfl (value.paired.append (.one rfl))))
  | .defineTyped _ form value =>
    .cons rfl (.cons rfl (.cons rfl (form.paired.append (.cons rfl (value.paired.append (.one rfl))))))
  | .loop head block => head.paired.append block.paired
  | .branch condition block otherwise =>
    .cons rfl (.cons rfl (condition.paired.append (.cons rfl (block.paired.append otherwise.paired))))
  | .update left right => left.paired.append (.cons rfl (right.paired.append (.one rfl)))
  | .reduce left compound right =>
    left.paired.append (.cons compound.isBrace (right.paired.append (.one rfl)))
  | .eval form => form.paired.append (.one rfl)
  | .advance _ => .cons rfl (.cons rfl (.one rfl))

theorem ElseForm.paired {n m : Nat} {ts : List Token} {cmd : Option SourceCommand} :
    ElseForm n ts cmd m → Paired ts
  | .none => .nil
  | .branch next => .cons rfl next.paired
  | .block body => .cons rfl body.paired

theorem BlockForm.paired {n m : Nat} {ts : List Token} {cmd : SourceCommand} :
    BlockForm n ts cmd m → Paired ts
  | .empty => .block .nil
  | .list _ commands => .block commands.paired

theorem ListForm.paired {n m : Nat} {ts : List Token} {cmds : List SourceCommand} :
    ListForm n ts cmds m → Paired ts
  | .nil => .nil
  | .separator later => .cons rfl later.paired
  | .cons head tail => head.paired.append tail.paired

end

theorem ProgramForm.paired {ts : List Token} {p : SourceProgram} (form : ProgramForm ts p) :
    Paired ts := by
  obtain ⟨declarations, functions, commands⟩ := form
  refine .append (declarations.paired ?_) (.append (functions.paired ?_) ?_)
  · rintro n ts d m ⟨binding⟩
    exact .cons rfl (binding.paired.append (.one rfl))
  · rintro n ts f m ⟨name, parameters, block⟩
    have params := parameters.paired fun ⟨binding⟩ => binding.paired
    exact .cons rfl (.cons rfl (.cons rfl (params.append (.cons rfl block.paired))))
  · cases commands with
    | none => exact .nil
    | list commands => exact commands.paired

end Grammar

namespace Parser

open Grammar

/-! ### The end of the text -/

/-- A list of commands goes on until the text ends or a brace closes. -/
theorem commandList_stops {ls rest : List Lexeme} {rounds pos next : Nat} {cmds : List SourceCommand}
    (settled : Settled ls) (enough : ls.length ≤ rounds)
    (ran : (commandList command rounds).run ⟨ls, pos⟩ = .ok (cmds, ⟨rest, next⟩)) :
    shown rest = none ∨ shown rest = some (.symbol .rBrace) := by
  induction rounds generalizing ls pos cmds with
  | zero =>
    obtain rfl : ls = [] := List.length_eq_zero_iff.mp (Nat.le_zero.mp enough)
    cases ran
    exact .inl rfl
  | succ rounds ih =>
    unfold commandList at ran
    rw [run_bind_of_ok run_current] at ran
    split at ran
    · next stops =>
      cases ran
      exact .inl stops
    · next stops =>
      cases ran
      exact .inr stops
    · next shows =>
      obtain ⟨_, _, advanced, ran⟩ := run_bind_ok_iff.mp ran
      obtain ⟨mid, reads, rfl⟩ := (run_advance_ok_iff shows).mp advanced
      have shorter := reads.length_eq
      exact ih (reads.settled settled) (by simp at shorter; omega) ran
    · obtain ⟨cmd, ⟨mid, _⟩, first, ran⟩ := run_bind_ok_iff.mp ran
      obtain ⟨others, ⟨final, _⟩, later, ran⟩ := run_bind_ok_iff.mp ran
      cases ran
      obtain ⟨ts, reads, form⟩ := derives_command pos _ settled rfl first
      have shorter := reads.length_eq
      have some_ := List.length_pos_iff.mpr (commandForm_ne_nil form)
      exact ih (reads.settled settled) (by omega) later

theorem program_derives {text : List Lexeme} {p : SourceProgram} {s : State}
    (ran : (program text).run ⟨[], 0⟩ = .ok (p, s)) :
    ∃ ts, Reads text ts s.lexemes ∧ ProgramForm ts p ∧
      (s.lexemes = [] ∨ shown s.lexemes = some (.symbol .rBrace)) := by
  obtain ⟨_, _, reached, ran⟩ := run_bind_ok_iff.mp ran
  obtain ⟨settled, rfl⟩ := run_reach_ok_iff.mp reached
  rw [run_bind_of_ok run_remaining] at ran
  obtain ⟨decls, ⟨afterDecls, n⟩, declsRan, ran⟩ := run_bind_ok_iff.mp ran
  obtain ⟨ts, readDecls, declarations⟩ := derives_declarations _ 0 _ settled rfl declsRan
  have settledDecls := readDecls.settled settled
  rw [run_bind_of_ok run_remaining] at ran
  obtain ⟨defs, ⟨afterDefs, m⟩, defsRan, ran⟩ := run_bind_ok_iff.mp ran
  obtain ⟨us, readDefs, functions⟩ := derives_functions _ n _ settledDecls rfl defsRan
  have settledDefs := readDefs.settled settledDecls
  rw [run_bind_of_ok run_current] at ran
  split at ran
  · next stops =>
    cases ran
    have reads := readDecls.append (readDefs.append .done)
    exact ⟨_, reads, ⟨declarations, functions, .none⟩, .inl (settledDefs.eq_nil stops)⟩
  · obtain ⟨body, ⟨afterBody, l⟩, bodyRan, ran⟩ := run_bind_ok_iff.mp ran
    cases ran
    obtain ⟨vs, readBody, cmds, rfl, form⟩ := derives_commands derives_command m _ settledDefs rfl bodyRan
    have reads := readDecls.append (readDefs.append readBody)
    refine ⟨_, reads, ⟨declarations, functions, .list form⟩, ?_⟩
    unfold commands at bodyRan
    rw [run_bind_of_ok run_freshPos, run_bind_of_ok run_remaining] at bodyRan
    obtain ⟨found, ⟨final, _⟩, listRan, bodyRan⟩ := run_bind_ok_iff.mp bodyRan
    have stops := commandList_stops settledDefs (Nat.le_refl _) listRan
    obtain rfl : final = afterBody := by
      split at bodyRan <;> exact congrArg State.lexemes (run_pure_ok_iff.mp bodyRan).2
    exact stops.imp_left (readBody.settled settledDefs).eq_nil

theorem parse_reads {source : String} {p : SourceProgram} (parsed : parse source = .ok p) :
    ∃ ts rest, Reads (lexemes source) ts rest ∧ ProgramForm ts p ∧
      (rest = [] ∨ shown rest = some (.symbol .rBrace)) := by
  obtain ⟨⟨_, s⟩, ran, rfl⟩ := map_ok_iff.mp parsed
  obtain ⟨ts, reads, form, ends⟩ := program_derives ran
  exact ⟨ts, s.lexemes, reads, form, ends⟩

end Parser

open Grammar in
/-- A parsed text begins with tokens that derive the program. Behind them stands nothing, or a
closing brace that closes nothing; so a text whose closing braces all close an opened one is cut
into tokens without a rest, and all of them are in the derivation. -/
theorem parse_derives {source : String} {p : SourceProgram} (parsed : parse source = .ok p) :
    ∃ ts rest, (lexemes source).map (·.item) = ts.map .token ++ rest ∧ ProgramForm ts p ∧
      (rest = [] ∨ ∃ unread, rest = .token (.symbol .rBrace) :: unread) ∧
      (rest = [] ↔ ClosesOpened ((lexemes source).map (·.item))) := by
  obtain ⟨ts, rest, reads, form, ends⟩ := Parser.parse_reads parsed
  have items := reads.items_eq
  have opened : openAfter 0 ((lexemes source).map (·.item)) = openAfter 0 (rest.map (·.item)) := by
    rw [items, form.paired]
  refine ⟨ts, rest.map (·.item), items, form, ?_, ?_⟩
  · exact ends.imp (fun ended => by rw [ended]; rfl) Parser.items_of_shown
  · unfold ClosesOpened
    rw [opened]
    rcases ends with ended | stray
    · simp [ended, openAfter]
    · obtain ⟨unread, rest⟩ := Parser.items_of_shown stray
      simp [rest, openAfter]

/-- Separators too many, empty blocks and a chain of branches. -/
def chained : String :=
  "decl a: ubit<8>[4 bank 2]; def f() \x7b\x7d ;; if (true) \x7b ; \x7d " ++
    "else if (a[0] < 1) \x7b\x7d a[1] := 2;"

theorem parse_derives_chained : ∃ p ts, parse chained = .ok p ∧
    (lexemes chained).map (·.item) = ts.map .token ∧ Grammar.ProgramForm ts p := by
  obtain ⟨p, parsed⟩ := exists_ok_of_isOk (x := parse chained) (by decide +kernel)
  obtain ⟨ts, rest, items, form, -, ended⟩ := parse_derives parsed
  obtain rfl := ended.mpr (by decide +kernel)
  exact ⟨p, ts, parsed, by simpa using items, form⟩

-- What stands behind a closing brace too many is not even cut into tokens.
example : (parse "let x = 1; \x7d $").isOk = true := by decide +kernel

end BankedLoops
