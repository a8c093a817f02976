/-!
# Tokens

The tokens of the language with their spellings, and the lexemes a source text is cut into.
-/

namespace BankedLoops

inductive Keyword where
  | decl | let_ | def_ | for_ | unroll | if_ | else_ | advance | bank | true_ | false_
  | bool | ubit | bit | fix
  deriving DecidableEq

namespace Keyword

def text : Keyword → String
  | .decl => "decl"
  | .let_ => "let"
  | .def_ => "def"
  | .for_ => "for"
  | .unroll => "unroll"
  | .if_ => "if"
  | .else_ => "else"
  | .advance => "advance"
  | .bank => "bank"
  | .true_ => "true"
  | .false_ => "false"
  | .bool => "bool"
  | .ubit => "ubit"
  | .bit => "bit"
  | .fix => "fix"

def all : List Keyword :=
  [.decl, .let_, .def_, .for_, .unroll, .if_, .else_, .advance, .bank, .true_, .false_, .bool,
    .ubit, .bit, .fix]

def ofText? (word : String) : Option Keyword :=
  all.find? (·.text == word)

end Keyword

inductive Symbol where
  | assign | plusAssign | minusAssign | starAssign | dotDot
  | eqEq | notEq | le | ge | shl | shr | andAnd | orOr
  | plus | minus | star | lt | gt | amp | equals
  | lParen | rParen | lBracket | rBracket | lBrace | rBrace | comma | semicolon | colon
  deriving DecidableEq

namespace Symbol

def chars : Symbol → List Char
  | .assign => [':', '=']
  | .plusAssign => ['+', '=']
  | .minusAssign => ['-', '=']
  | .starAssign => ['*', '=']
  | .dotDot => ['.', '.']
  | .eqEq => ['=', '=']
  | .notEq => ['!', '=']
  | .le => ['<', '=']
  | .ge => ['>', '=']
  | .shl => ['<', '<']
  | .shr => ['>', '>']
  | .andAnd => ['&', '&']
  | .orOr => ['|', '|']
  | .plus => ['+']
  | .minus => ['-']
  | .star => ['*']
  | .lt => ['<']
  | .gt => ['>']
  | .amp => ['&']
  | .equals => ['=']
  | .lParen => ['(']
  | .rParen => [')']
  | .lBracket => ['[']
  | .rBracket => [']']
  | .lBrace => ['{']
  | .rBrace => ['}']
  | .comma => [',']
  | .semicolon => [';']
  | .colon => [':']

def text (s : Symbol) : String := String.ofList s.chars

/-- All symbols, two-character ones before one-character ones. -/
def all : List Symbol :=
  [.assign, .plusAssign, .minusAssign, .starAssign, .dotDot, .eqEq, .notEq, .le, .ge, .shl, .shr,
    .andAnd, .orOr, .plus, .minus, .star, .lt, .gt, .amp, .equals, .lParen, .rParen, .lBracket,
    .rBracket, .lBrace, .rBrace, .comma, .semicolon, .colon]

def longest? (cs : List Char) : Option Symbol :=
  all.find? (·.chars.isPrefixOf cs)

end Symbol

inductive Token where
  | int (value : Nat)
  | ident (name : String)
  | keyword (word : Keyword)
  | symbol (mark : Symbol)
  deriving DecidableEq

/-- A number is shown by its value, so leading zeros are dropped. -/
def Token.text : Token → String
  | .int n => toString n
  | .ident name => name
  | .keyword word => word.text
  | .symbol mark => mark.text

namespace Lexeme

inductive Item where
  | token (t : Token)
  /-- Text that is no token: a single character, or a number too large for a word. -/
  | unexpected (text : String)
  deriving DecidableEq

end Lexeme

structure Lexeme where
  start : Nat
  stop : Nat
  item : Lexeme.Item
  deriving DecidableEq

end BankedLoops
