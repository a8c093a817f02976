import BankedLoops.Error
import BankedLoops.Token.Lexer

/-!
# The parser's cursor

A parser reads the lexemes from the front and numbers the statements it meets. Text that is no
token fails when the cursor reaches it, before anything is said about the token it follows. The
loops count down the lexemes that are left, of which every round takes at least one.
-/

namespace BankedLoops

namespace Parser

structure State where
  lexemes : List Lexeme
  /-- The next position; it stays below 2^32 in a text of fewer characters (`pos_le_length`). -/
  nextPos : Nat

end Parser

abbrev Parser := StateT Parser.State (Except CompileError)

namespace Parser

variable {α : Type}

def current : Parser (Option Token) := do
  match (← get).lexemes with
  | ⟨_, _, .token t⟩ :: _ => pure (some t)
  | _ => pure none

/-- Puts the cursor before `lexemes`. -/
def reach (lexemes : List Lexeme) : Parser Unit := do
  match lexemes with
  | ⟨start, _, .unexpected text⟩ :: _ => throw (.lexical start text)
  | _ => modify fun s => { s with lexemes := lexemes }

def advance : Parser Unit := do
  reach (← get).lexemes.tail

/-- The number of lexemes from the cursor on. -/
def remaining : Parser Nat := do
  return (← get).lexemes.length

def unexpected (wanted : Expected) : Parser α := do
  match (← get).lexemes with
  | ⟨start, _, .token t⟩ :: _ => throw (.parse (.expected wanted (some (t, start))))
  | _ => throw (.parse (.expected wanted none))

def isAt (t : Token) : Parser Bool := do
  return (← current) == some t

def eat (t : Token) : Parser Bool := do
  if ← isAt t then
    advance
    pure true
  else
    pure false

def expect (t : Token) : Parser Unit := do
  if ← isAt t then advance else unexpected (.token t)

def identifier : Parser String := do
  match ← current with
  | some (.ident name) =>
    advance
    pure name
  | _ => unexpected .identifier

def integer : Parser Nat := do
  match ← current with
  | some (.int n) =>
    advance
    pure n
  | _ => unexpected .integer

def freshPos : Parser Nat := do
  let s ← get
  set { s with nextPos := s.nextPos + 1 }
  pure s.nextPos

/-- Items one after another, each announced by `mark`. -/
def announced (mark : Token) (item : Parser α) : Nat → Parser (List α)
  | 0 => pure []
  | rounds + 1 => do
    if ← eat mark then
      let x ← item
      return x :: (← announced mark item rounds)
    else
      pure []

/-- One or more items with commas between them. -/
def separated (item : Parser α) : Nat → Parser (List α)
  | 0 => do return [← item]
  | rounds + 1 => do
    let x ← item
    if ← eat (.symbol .comma) then
      return x :: (← separated item rounds)
    else
      pure [x]

/-- Items with commas between them, in parentheses of which the first is already read. -/
def parenthesized (item : Parser α) : Parser (List α) := do
  let items ← if ← isAt (.symbol .rParen) then pure [] else separated item (← remaining)
  expect (.symbol .rParen)
  pure items

end Parser

end BankedLoops
