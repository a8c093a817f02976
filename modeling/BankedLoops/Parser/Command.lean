import BankedLoops.Parser.Expr

/-!
# Reading commands and programs

Every declaration, function, parameter and command takes the next position when it begins. A list
of commands and an empty block take one too.
-/

namespace BankedLoops

namespace Parser

/-- A bit width: positive and a 32-bit word. -/
def bitWidth : Parser Nat := do
  let width ← integer
  if 0 < width && Word.fits Word.widthBits width then
    pure width
  else
    throw (.parse (.bitWidth width))

def angled (inner : Parser Ty) : Parser Ty := do
  advance
  expect (.symbol .lt)
  let ty ← inner
  expect (.symbol .gt)
  pure ty

def scalarTy : Parser Ty := do
  match ← current with
  | some (.keyword .bool) =>
    advance
    pure .bool
  | some (.keyword .ubit) => angled do return .bit (← bitWidth) false
  | some (.keyword .bit) => angled do return .bit (← bitWidth) true
  | some (.keyword .fix) =>
    angled do
      let width ← bitWidth
      expect (.symbol .comma)
      return .fix width (← bitWidth)
  | _ => unexpected .type

/-- A dimension, of which the opening bracket is already read. -/
def dimension : Parser Dim := do
  let size ← integer
  let bank ← if ← eat (.keyword .bank) then integer else pure size
  expect (.symbol .rBracket)
  pure ⟨size, bank⟩

def type : Parser Ty := do
  let scalar ← scalarTy
  match ← announced (.symbol .lBracket) dimension (← remaining) with
  | [] => pure scalar
  | dims => pure (.array scalar dims)

/-- A name and its type, for the statement at `pos`. -/
def binding (pos : Nat) : Parser Decl := do
  let name ← identifier
  expect (.symbol .colon)
  return ⟨pos, name, ← type⟩

/-- Commands up to a closing brace or the end of the text; separators may stand between them. -/
def commandList (command : Parser SourceCommand) : Nat → Parser (List SourceCommand)
  | 0 => pure []
  | rounds + 1 => do
    match ← current with
    | none => pure []
    | some (.symbol .rBrace) => pure []
    | some (.symbol .semicolon) =>
      advance
      commandList command rounds
    | some _ =>
      let cmd ← command
      return cmd :: (← commandList command rounds)

def commands (command : Parser SourceCommand) : Parser SourceCommand := do
  let pos ← freshPos
  match ← commandList command (← remaining) with
  | [cmd] => pure cmd
  | cmds => pure (.seq pos cmds)

def block (command : Parser SourceCommand) : Parser SourceCommand := do
  expect (.symbol .lBrace)
  let body ←
    if ← isAt (.symbol .rBrace) then
      let pos ← freshPos
      pure (.skip pos)
    else
      commands command
  expect (.symbol .rBrace)
  pure body

def reduction? : Symbol → Option BinOp
  | .plusAssign => some .add
  | .minusAssign => some .sub
  | .starAssign => some .mul
  | _ => none

def exprCommand (pos : Nat) : Parser SourceCommand := do
  let target ← expr
  let cmd ← match ← current with
    | some (.symbol .assign) =>
      advance
      pure (.update pos target (← expr))
    | some (.symbol mark) =>
      match reduction? mark with
      | some op =>
        advance
        pure (.reduce pos op target (← expr))
      | none => pure (.eval pos target)
    | _ => pure (.eval pos target)
  expect (.symbol .semicolon)
  pure cmd

def declCommand (pos : Nat) : Parser SourceCommand := do
  advance
  let d ← binding pos
  expect (.symbol .semicolon)
  pure (.decl pos d.name d.ty)

def letCommand (pos : Nat) : Parser SourceCommand := do
  advance
  let name ← identifier
  let ty ← if ← eat (.symbol .colon) then some <$> type else pure none
  expect (.symbol .equals)
  let init ← expr
  expect (.symbol .semicolon)
  pure (.define pos name ty init)

def loopHeader : Parser LoopHeader := do
  advance
  expect (.symbol .lParen)
  expect (.keyword .let_)
  let iter ← identifier
  expect (.symbol .equals)
  let start ← integer
  expect (.symbol .dotDot)
  let stop ← integer
  expect (.symbol .rParen)
  let unroll ← if ← eat (.keyword .unroll) then some <$> integer else pure none
  pure ⟨iter, start, stop, unroll⟩

def advanceCommand (pos : Nat) : Parser SourceCommand := do
  advance
  let array ← identifier
  expect (.symbol .semicolon)
  pure (.advance pos array)

def commandOver (inner : Parser SourceCommand) : Parser SourceCommand := do
  let pos ← freshPos
  match ← current with
  | some (.keyword .decl) => declCommand pos
  | some (.keyword .let_) => letCommand pos
  | some (.keyword .for_) =>
    let header ← loopHeader
    return .loop pos header (← block inner)
  | some (.keyword .if_) =>
    advance
    expect (.symbol .lParen)
    let cond ← expr
    expect (.symbol .rParen)
    let onTrue ← block inner
    let onFalse ←
      if ← eat (.keyword .else_) then
        some <$> (do if ← isAt (.keyword .if_) then inner else block inner)
      else
        pure none
    pure (.branch pos cond onTrue onFalse)
  | some (.keyword .advance) => advanceCommand pos
  | _ => exprCommand pos

/-- A command whose blocks nest at most `depth` deep. -/
def commandWithin : Nat → Parser SourceCommand
  | 0 => unexpected .expression
  | depth + 1 => commandOver (commandWithin depth)

/-- A command. It cannot nest deeper than there are lexemes left. -/
def command : Parser SourceCommand := do
  commandWithin (← remaining)

def declaration (pos : Nat) : Parser Decl := do
  advance
  let d ← binding pos
  expect (.symbol .semicolon)
  pure d

def declarations : Nat → Parser (List Decl)
  | 0 => pure []
  | rounds + 1 => do
    if ← isAt (.keyword .decl) then
      let pos ← freshPos
      let d ← declaration pos
      return d :: (← declarations rounds)
    else
      pure []

def parameter : Parser Decl := do
  binding (← freshPos)

def function : Parser (Function (Option Ty) Expr) := do
  let pos ← freshPos
  expect (.keyword .def_)
  let name ← identifier
  expect (.symbol .lParen)
  let params ← parenthesized parameter
  return ⟨pos, name, params, ← block command⟩

def functions : Nat → Parser (List (Function (Option Ty) Expr))
  | 0 => pure []
  | rounds + 1 => do
    if ← isAt (.keyword .def_) then
      let f ← function
      return f :: (← functions rounds)
    else
      pure []

/-- Declarations, functions, then the body. A closing brace without an opening one ends the
program; what stands after it is not read. -/
def program (text : List Lexeme) : Parser SourceProgram := do
  reach text
  let decls ← declarations (← remaining)
  let defs ← functions (← remaining)
  match ← current with
  | none => pure ⟨decls, defs, none⟩
  | some _ => return ⟨decls, defs, some (← commands command)⟩

end Parser

def parse (source : String) : Except CompileError SourceProgram :=
  (Parser.program (lexemes source)).run' ⟨[], 0⟩

end BankedLoops
