import BankedLoops.Parser.Command
import BankedLoops.Proofs.Success

/-!
# What a run of the cursor reads

A parser that succeeds has read the tokens between the place where it started and the place where
it stopped. `Reads` relates two such places, and the lemmas below say of each primitive of the
cursor when it succeeds and what it has read then.
-/

namespace BankedLoops

namespace Parser

variable {α β : Type}

/-! ### Runs -/

theorem run_bind_ok_iff {p : Parser α} {f : α → Parser β} {s s' : State} {b : β} :
    (p >>= f).run s = .ok (b, s') ↔
      ∃ a mid, p.run s = .ok (a, mid) ∧ (f a).run mid = .ok (b, s') := by
  rw [StateT.run_bind, bind_ok_iff]
  constructor
  · rintro ⟨⟨a, mid⟩, first, rest⟩
    exact ⟨a, mid, first, rest⟩
  · rintro ⟨a, mid, first, rest⟩
    exact ⟨(a, mid), first, rest⟩

theorem run_bind_of_ok {p : Parser α} {s s' : State} {a : α} (first : p.run s = .ok (a, s'))
    (f : α → Parser β) : (p >>= f).run s = (f a).run s' := by
  rw [StateT.run_bind, first]
  rfl

theorem run_pure_ok_iff {a b : α} {s s' : State} :
    (pure a : Parser α).run s = .ok (b, s') ↔ a = b ∧ s = s' := by
  rw [StateT.run_pure, pure_ok_iff, Prod.mk.injEq]

theorem run_throw_ok_iff {e : CompileError} {a : α} {s s' : State} :
    (throw e : Parser α).run s = .ok (a, s') ↔ False := by
  constructor
  · exact nofun
  · exact nofun

/-! ### Places -/

/-- The cursor does not stand before text that is no token. -/
def Settled : List Lexeme → Prop
  | ⟨_, _, .unexpected _⟩ :: _ => False
  | _ => True

/-- The token at the front, none at the end of the text. -/
def shown : List Lexeme → Option Token
  | ⟨_, _, .token t⟩ :: _ => some t
  | _ => none

/-- The cursor goes from one place to another over the tokens `ts`. -/
inductive Reads : List Lexeme → List Token → List Lexeme → Prop where
  | done {ls : List Lexeme} : Reads ls [] ls
  | token {start stop : Nat} {t : Token} {ls rest : List Lexeme} {ts : List Token}
      (settled : Settled ls) (later : Reads ls ts rest) :
      Reads (⟨start, stop, .token t⟩ :: ls) (t :: ts) rest

theorem settled_of_shown {ls : List Lexeme} {t : Token} (shows : shown ls = some t) : Settled ls := by
  unfold shown at shows
  split at shows
  · trivial
  · cases shows

theorem items_of_shown {ls : List Lexeme} {t : Token} (shows : shown ls = some t) :
    ∃ items, ls.map (·.item) = .token t :: items := by
  unfold shown at shows
  split at shows
  · cases shows
    exact ⟨_, rfl⟩
  · cases shows

/-- Before a settled cursor stands nothing or a token. -/
theorem Settled.eq_nil {ls : List Lexeme} (settled : Settled ls) (shows : shown ls = none) :
    ls = [] := by
  unfold shown at shows
  split at shows
  · cases shows
  · next noToken =>
    match ls with
    | [] => rfl
    | ⟨start, stop, .token t⟩ :: ls => exact absurd rfl (noToken start stop t ls)
    | ⟨_, _, .unexpected _⟩ :: _ => exact settled.elim

namespace Reads

variable {ls mid rest : List Lexeme} {ts us : List Token} {t : Token}

theorem settled (reads : Reads ls ts rest) (start : Settled ls) : Settled rest := by
  induction reads with
  | done => exact start
  | token settled _ ih => exact ih settled

theorem append (first : Reads ls ts mid) (second : Reads mid us rest) : Reads ls (ts ++ us) rest := by
  induction first with
  | done => exact second
  | token settled _ ih => exact .token settled (ih second)

theorem split (ts : List Token) (reads : Reads ls (ts ++ us) rest) :
    ∃ mid, Reads ls ts mid ∧ Reads mid us rest := by
  induction ts generalizing ls with
  | nil => exact ⟨ls, .done, reads⟩
  | cons t ts ih =>
    cases reads with
    | token settled later =>
      obtain ⟨mid, first, second⟩ := ih later
      exact ⟨mid, .token settled first, second⟩

theorem cons (first : Reads ls [t] mid) (second : Reads mid ts rest) : Reads ls (t :: ts) rest :=
  append first second

theorem cons_iff : Reads ls (t :: ts) rest ↔ ∃ mid, Reads ls [t] mid ∧ Reads mid ts rest :=
  ⟨split [t], fun ⟨_, first, second⟩ => first.append second⟩

theorem shown_eq (reads : Reads ls (t :: ts) rest) : shown ls = some t := by
  cases reads
  rfl

theorem length_eq (reads : Reads ls ts rest) : ls.length = ts.length + rest.length := by
  induction reads with
  | done => simp
  | token _ _ ih => simp only [List.length_cons, ih]; omega

theorem items_eq (reads : Reads ls ts rest) :
    ls.map (·.item) = ts.map Lexeme.Item.token ++ rest.map (·.item) := by
  induction reads with
  | done => rfl
  | token _ _ ih => simp [ih]

/-- Lexemes that are all tokens can be read to the end. -/
theorem of_items {ls : List Lexeme} {ts : List Token}
    (items : ls.map (·.item) = ts.map Lexeme.Item.token) : Reads ls ts [] := by
  induction ts generalizing ls with
  | nil =>
    obtain rfl : ls = [] := by simpa using items
    exact .done
  | cons t ts ih =>
    obtain ⟨⟨start, stop, item⟩, ls, rfl, same, later⟩ := List.map_eq_cons_iff.mp items
    obtain rfl : item = .token t := same
    have reads := ih later
    refine .token ?_ reads
    cases reads <;> trivial

end Reads

/-! ### Primitives -/

section

variable {ls : List Lexeme} {pos : Nat} {s : State} {t : Token}

@[simp]
theorem run_current : current.run ⟨ls, pos⟩ = .ok (shown ls, ⟨ls, pos⟩) := by
  match ls with
  | [] => rfl
  | ⟨_, _, .token _⟩ :: _ => rfl
  | ⟨_, _, .unexpected _⟩ :: _ => rfl

@[simp]
theorem run_remaining : remaining.run ⟨ls, pos⟩ = .ok (ls.length, ⟨ls, pos⟩) := rfl

@[simp]
theorem run_freshPos : freshPos.run ⟨ls, pos⟩ = .ok (pos, ⟨ls, pos + 1⟩) := rfl

@[simp]
theorem run_isAt : (isAt t).run ⟨ls, pos⟩ = .ok (shown ls == some t, ⟨ls, pos⟩) := by
  unfold isAt
  rw [run_bind_of_ok run_current]
  rfl

theorem run_reach_ok_iff {ahead : List Lexeme} {u : Unit} :
    (reach ahead).run ⟨ls, pos⟩ = .ok (u, s) ↔ Settled ahead ∧ s = ⟨ahead, pos⟩ := by
  unfold reach
  split
  · constructor
    · exact nofun
    · rintro ⟨impossible, -⟩
      exact impossible.elim
  · next noText =>
    have settled : Settled ahead := by
      unfold Settled
      split
      · next start stop text ls => exact noText start stop text ls rfl
      · trivial
    constructor
    · intro ran
      cases ran
      exact ⟨settled, rfl⟩
    · rintro ⟨-, rfl⟩
      rfl

theorem run_advance_ok_iff {u : Unit} (shows : shown ls = some t) :
    advance.run ⟨ls, pos⟩ = .ok (u, s) ↔ ∃ rest, Reads ls [t] rest ∧ s = ⟨rest, pos⟩ := by
  unfold shown at shows
  split at shows
  · next start stop t' rest =>
    cases shows
    unfold advance
    rw [run_bind_of_ok (a := ⟨_, pos⟩) rfl]
    rw [run_reach_ok_iff]
    constructor
    · rintro ⟨settled, rfl⟩
      exact ⟨rest, .token settled .done, rfl⟩
    · rintro ⟨_, reads, rfl⟩
      cases reads with
      | token settled later =>
        cases later
        exact ⟨settled, rfl⟩
  · cases shows

theorem run_advance_pure_ok_iff {a b : α} (shows : shown ls = some t) :
    (do
      advance
      pure a : Parser α).run ⟨ls, pos⟩ = .ok (b, s) ↔
      a = b ∧ ∃ rest, Reads ls [t] rest ∧ s = ⟨rest, pos⟩ := by
  rw [run_bind_ok_iff]
  constructor
  · rintro ⟨_, mid, advanced, ran⟩
    obtain ⟨rfl, rfl⟩ := run_pure_ok_iff.mp ran
    exact ⟨rfl, (run_advance_ok_iff shows).mp advanced⟩
  · rintro ⟨rfl, read⟩
    exact ⟨(), s, (run_advance_ok_iff shows).mpr read, rfl⟩

theorem run_unexpected_ok_iff {wanted : Expected} {a : α} {s' : State} :
    (unexpected wanted : Parser α).run s = .ok (a, s') ↔ False := by
  refine iff_false_intro fun ran => ?_
  obtain ⟨_, _, _, ran⟩ := run_bind_ok_iff.mp ran
  split at ran <;> cases ran

theorem run_expect_ok_iff {u : Unit} :
    (expect t).run ⟨ls, pos⟩ = .ok (u, s) ↔ ∃ rest, Reads ls [t] rest ∧ s = ⟨rest, pos⟩ := by
  unfold expect
  rw [run_bind_of_ok run_isAt]
  split
  · next at_ => exact run_advance_ok_iff (eq_of_beq at_)
  · next notAt =>
    rw [run_unexpected_ok_iff, false_iff]
    rintro ⟨rest, reads, -⟩
    exact notAt (beq_iff_eq.mpr reads.shown_eq)

theorem run_eat_ok_iff {ate : Bool} :
    (eat t).run ⟨ls, pos⟩ = .ok (ate, s) ↔
      (ate = true ∧ ∃ rest, Reads ls [t] rest ∧ s = ⟨rest, pos⟩) ∨
        ate = false ∧ shown ls ≠ some t ∧ s = ⟨ls, pos⟩ := by
  unfold eat
  rw [run_bind_of_ok run_isAt]
  split
  · next at_ =>
    have shows := eq_of_beq at_
    rw [run_advance_pure_ok_iff shows]
    constructor
    · rintro ⟨rfl, read⟩
      exact .inl ⟨rfl, read⟩
    · rintro (⟨rfl, read⟩ | ⟨-, notShown, -⟩)
      · exact ⟨rfl, read⟩
      · exact absurd shows notShown
  · next notAt =>
    have notShown : shown ls ≠ some t := fun shows => notAt (beq_iff_eq.mpr shows)
    rw [run_pure_ok_iff]
    constructor
    · rintro ⟨rfl, rfl⟩
      exact .inr ⟨rfl, notShown, rfl⟩
    · rintro (⟨-, rest, reads, -⟩ | ⟨rfl, -, rfl⟩)
      · exact absurd reads.shown_eq notShown
      · exact ⟨rfl, rfl⟩

theorem run_identifier_ok_iff {name : String} :
    identifier.run ⟨ls, pos⟩ = .ok (name, s) ↔
      ∃ rest, Reads ls [.ident name] rest ∧ s = ⟨rest, pos⟩ := by
  unfold identifier
  rw [run_bind_of_ok run_current]
  split
  · next found shows =>
    rw [run_advance_pure_ok_iff shows]
    constructor
    · rintro ⟨rfl, read⟩
      exact read
    · rintro ⟨rest, reads, rfl⟩
      cases shows.symm.trans reads.shown_eq
      exact ⟨rfl, rest, reads, rfl⟩
  · next noName =>
    rw [run_unexpected_ok_iff, false_iff]
    rintro ⟨rest, reads, -⟩
    exact noName name reads.shown_eq

theorem run_integer_ok_iff {n : Nat} :
    integer.run ⟨ls, pos⟩ = .ok (n, s) ↔ ∃ rest, Reads ls [.int n] rest ∧ s = ⟨rest, pos⟩ := by
  unfold integer
  rw [run_bind_of_ok run_current]
  split
  · next found shows =>
    rw [run_advance_pure_ok_iff shows]
    constructor
    · rintro ⟨rfl, read⟩
      exact read
    · rintro ⟨rest, reads, rfl⟩
      cases shows.symm.trans reads.shown_eq
      exact ⟨rfl, rest, reads, rfl⟩
  · next noNumber =>
    rw [run_unexpected_ok_iff, false_iff]
    rintro ⟨rest, reads, -⟩
    exact noNumber n reads.shown_eq

end

end Parser

end BankedLoops
