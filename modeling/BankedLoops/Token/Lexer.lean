import BankedLoops.Token
import BankedLoops.Word

/-!
# Cutting a source text into lexemes

At each place the longest token wins, and a keyword wins over an identifier of the same length.
Blanks and line comments belong to no lexeme; a character that starts nothing is a lexeme of its
own, after which the scan goes on.
-/

namespace BankedLoops

namespace Lexer

def isBlank (c : Char) : Bool :=
  c == ' ' || c == '\t' || c == '\n' || c == '\r'

def isWordStart (c : Char) : Bool :=
  c.isAlpha || c == '_'

def isWordRest (c : Char) : Bool :=
  c.isAlphanum || c == '_'

def digitsValue (digits : List Char) : Nat :=
  digits.foldl (fun n d => 10 * n + (d.toNat - '0'.toNat)) 0

/-- The number written by `digits`, if it fits in a word. -/
def number (digits : List Char) : Lexeme.Item :=
  let n := digitsValue digits
  if Word.fits Word.sizeBits n then .token (.int n) else .unexpected (String.ofList digits)

def word (name : String) : Token :=
  match Keyword.ofText? name with
  | some k => .keyword k
  | none => .ident name

/-- What the next characters are: `covered` is the text taken, `item` is absent for skipped text. -/
structure Match where
  covered : List Char
  item : Option Lexeme.Item

/-- The match at the front of `c :: cs`, by the rules that the generated lexer is taken to follow: the
longest match wins, of two that are equally long a keyword wins over an identifier, and where no
pattern matches one character is an error and the scan goes on behind it. A number that does not fit in a
word is an error as long as its digits. -/
def next (c : Char) (cs : List Char) : Match :=
  if isBlank c then ⟨c :: cs.takeWhile isBlank, none⟩
  else if c == '/' && cs.head? == some '/' then ⟨c :: cs.takeWhile (· != '\n'), none⟩
  else if c.isDigit then
    let digits := c :: cs.takeWhile Char.isDigit
    ⟨digits, some (number digits)⟩
  else if isWordStart c then
    let name := c :: cs.takeWhile isWordRest
    ⟨name, some (.token (word (String.ofList name)))⟩
  else
    match Symbol.longest? (c :: cs) with
    | some s => ⟨s.chars, some (.token (.symbol s))⟩
    | none => ⟨[c], some (.unexpected (String.ofList [c]))⟩

def byteSize : List Char → Nat
  | [] => 0
  | c :: cs => c.utf8Size + byteSize cs

/-- The lexemes of a text that begins at byte `offset`, of which the first `owed` characters are
already covered. -/
def scan (owed offset : Nat) : List Char → List Lexeme
  | [] => []
  | c :: cs =>
    match owed with
    | owed + 1 => scan owed (offset + c.utf8Size) cs
    | 0 =>
      let found := next c cs
      let rest := scan (found.covered.length - 1) (offset + c.utf8Size) cs
      match found.item with
      | none => rest
      | some item => ⟨offset, offset + byteSize found.covered, item⟩ :: rest

end Lexer

def lexemes (source : String) : List Lexeme :=
  Lexer.scan 0 0 source.toList

end BankedLoops
