/-!
# TOML settings

Reads the part of TOML in which settings can be written: keys, tables, strings, booleans and empty
arrays. Text with anything else in it has no reading here, since no setting takes a number, a date
or a filled array.
-/

namespace BankedLoops

namespace Toml

/-- How a table came about, which decides whether it may still be extended. -/
inductive Origin where
  /-- Written in braces, and complete. -/
  | literal
  /-- Made by dotted keys. -/
  | dotted
  /-- Above the table of a header. -/
  | implied
  /-- Opened by a header of its own. -/
  | header
  deriving DecidableEq

inductive Value where
  | string (text : String)
  | boolean (value : Bool)
  | emptyArray
  | table (origin : Origin) (entries : List (String × Value))

abbrev Entries := List (String × Value)

/-! ### Characters -/

def isBlank (c : Char) : Bool := c == ' ' || c == '\t'

/-- A character that comments and one-line strings may hold. -/
def isPlain (c : Char) : Bool := c == '\t' || (32 ≤ c.toNat && c.toNat != 127)

def isBare (c : Char) : Bool := c.isAlphanum || c == '_' || c == '-'

/-- The delimiter of strings without escapes. -/
def apostrophe : Char := Char.ofNat 39

def skipBlanks (cs : List Char) : List Char := cs.dropWhile isBlank

def lineBreak? : List Char → Option (List Char)
  | '\n' :: cs => some cs
  | '\r' :: '\n' :: cs => some cs
  | _ => none

/-- The text after the blanks and the comment that may end a line, and its line break. -/
def lineEnd? (cs : List Char) : Option (List Char) :=
  let rest := match skipBlanks cs with
    | '#' :: cs => cs.dropWhile isPlain
    | cs => cs
  match rest with
  | [] => some []
  | rest => lineBreak? rest

/-- The text after blanks and line breaks. -/
def skipLayout : List Char → List Char
  | [] => []
  | '\n' :: cs => skipLayout cs
  | '\r' :: '\n' :: cs => skipLayout cs
  | c :: cs => if isBlank c then skipLayout cs else c :: cs

/-- The text after blanks, line breaks and comments. -/
def skipRemarks (inComment : Bool) : List Char → List Char
  | [] => []
  | '\n' :: cs => skipRemarks false cs
  | '\r' :: '\n' :: cs => skipRemarks false cs
  | c :: cs =>
    if inComment then
      if isPlain c then skipRemarks true cs else c :: cs
    else if c == '#' then skipRemarks true cs
    else if isBlank c then skipRemarks false cs
    else c :: cs

/-! ### Strings -/

def hexDigit? (c : Char) : Option Nat :=
  if c.isDigit then some (c.toNat - '0'.toNat)
  else if 'a' ≤ c ∧ c ≤ 'f' then some (c.toNat - 'a'.toNat + 10)
  else if 'A' ≤ c ∧ c ≤ 'F' then some (c.toNat - 'A'.toNat + 10)
  else none

/-- The character with the given number in hexadecimal digits. -/
def scalar? (digits : List Char) : Option Char := do
  let n ← digits.foldlM (fun n c => do return 16 * n + (← hexDigit? c)) 0
  if n.isValidChar then some (Char.ofNat n) else none

def escape? : List Char → Option (Char × List Char)
  | 'b' :: cs => some (Char.ofNat 8, cs)
  | 't' :: cs => some ('\t', cs)
  | 'n' :: cs => some ('\n', cs)
  | 'f' :: cs => some (Char.ofNat 12, cs)
  | 'r' :: cs => some ('\r', cs)
  | '"' :: cs => some ('"', cs)
  | '\\' :: cs => some ('\\', cs)
  | 'u' :: cs => if 4 ≤ cs.length then (scalar? (cs.take 4)).map (·, cs.drop 4) else none
  | 'U' :: cs => if 8 ≤ cs.length then (scalar? (cs.take 8)).map (·, cs.drop 8) else none
  | _ => none

/-- What a piece of text reads as, and the text after it. -/
abbrev Reading (α : Type) := Option (α × List Char)

def Reading.prepend (c : Char) (r : Reading (List Char)) : Reading (List Char) :=
  r.map fun (s, rest) => (c :: s, rest)

/-- The rest of a string in quotes. -/
def basicBody : (rounds : Nat) → List Char → Reading (List Char)
  | 0, _ => none
  | rounds + 1, cs =>
    match cs with
    | [] => none
    | '"' :: cs => some ([], cs)
    | '\\' :: cs =>
      match escape? cs with
      | some (c, cs) => (basicBody rounds cs).prepend c
      | none => none
    | c :: cs => if isPlain c then (basicBody rounds cs).prepend c else none

/-- Closes a string of several lines: up to two more delimiters belong to the string. -/
def closeBlock (delimiter : Char) (cs : List Char) : Reading (List Char) :=
  let extra := (cs.takeWhile (· == delimiter)).take 2
  some (extra, cs.drop extra.length)

/-- The rest of a string of several lines in tripled quotes. A backslash at the end of a line takes
the line break and the blanks after it away. -/
def blockBody : (rounds : Nat) → List Char → Reading (List Char)
  | 0, _ => none
  | rounds + 1, cs =>
    match cs with
    | [] => none
    | '"' :: '"' :: '"' :: cs => closeBlock '"' cs
    | '\\' :: cs =>
      match lineBreak? (skipBlanks cs) with
      | some cs => blockBody rounds (skipLayout cs)
      | none =>
        match escape? cs with
        | some (c, cs) => (blockBody rounds cs).prepend c
        | none => none
    | '\n' :: cs => (blockBody rounds cs).prepend '\n'
    | '\r' :: '\n' :: cs => (blockBody rounds cs).prepend '\n'
    | c :: cs => if isPlain c then (blockBody rounds cs).prepend c else none

/-- The rest of a string in apostrophes, which has no escapes. -/
def literalBody (cs : List Char) : Reading (List Char) :=
  let s := cs.takeWhile fun c => isPlain c && c != apostrophe
  match cs.drop s.length with
  | c :: cs => if c == apostrophe then some (s, cs) else none
  | [] => none

/-- The rest of a string of several lines in tripled apostrophes. -/
def literalBlockBody : List Char → Reading (List Char)
  | [] => none
  | '\r' :: '\n' :: cs => (literalBlockBody cs).prepend '\n'
  | c :: cs =>
    if (c :: cs).take 3 == [apostrophe, apostrophe, apostrophe] then
      closeBlock apostrophe (cs.drop 2)
    else if isPlain c || c == '\n' then
      (literalBlockBody cs).prepend c
    else
      none

/-- A string of several lines does not begin with the line break after its delimiter. -/
def afterFirstBreak (cs : List Char) : List Char := (lineBreak? cs).getD cs

def string? (cs : List Char) : Reading String :=
  let body := match cs with
    | '"' :: '"' :: '"' :: cs => blockBody (cs.length + 1) (afterFirstBreak cs)
    | '"' :: cs => basicBody (cs.length + 1) cs
    | c :: cs =>
      if c != apostrophe then none
      else if cs.take 2 == [apostrophe, apostrophe] then
        literalBlockBody (afterFirstBreak (cs.drop 2))
      else literalBody cs
    | [] => none
  body.map fun (s, rest) => (String.ofList s, rest)

/-! ### Keys and tables -/

/-- A key without dots: bare, or a one-line string. -/
def simpleKey? (cs : List Char) : Reading String :=
  let name := match cs with
    | '"' :: cs => basicBody (cs.length + 1) cs
    | c :: cs =>
      if c == apostrophe then literalBody cs
      else if isBare c then some (c :: cs.takeWhile isBare, cs.dropWhile isBare)
      else none
    | [] => none
  name.map fun (s, rest) => (String.ofList s, rest)

/-- Keys with dots between them, and the blanks after them. -/
def key? : (rounds : Nat) → List Char → Reading (List String)
  | 0, _ => none
  | rounds + 1, cs =>
    match simpleKey? cs with
    | none => none
    | some (name, cs) =>
      match skipBlanks cs with
      | '.' :: cs => (key? rounds (skipBlanks cs)).map fun (names, rest) => (name :: names, rest)
      | cs => some ([name], cs)

def replace (entries : Entries) (key : String) (value : Value) : Entries :=
  entries.map fun entry => if entry.1 == key then (key, value) else entry

/-- Gives a new key its value; dotted keys lead through tables that only they make. -/
def assign (value : Value) : List String → Entries → Option Entries
  | [], _ => none
  | [key], entries =>
    match entries.lookup key with
    | none => some (entries ++ [(key, value)])
    | some _ => none
  | key :: path, entries =>
    match entries.lookup key with
    | none => (assign value path []).map fun sub => entries ++ [(key, .table .dotted sub)]
    | some (.table .dotted sub) =>
      (assign value path sub).map fun sub => replace entries key (.table .dotted sub)
    | some _ => none

/-- Opens the table of a header, which no header or key may have made before. -/
def openTable : List String → Entries → Option Entries
  | [], _ => none
  | [key], entries =>
    match entries.lookup key with
    | none => some (entries ++ [(key, .table .header [])])
    | some (.table .implied sub) => some (replace entries key (.table .header sub))
    | some _ => none
  | key :: path, entries =>
    match entries.lookup key with
    | none => (openTable path []).map fun sub => entries ++ [(key, .table .implied sub)]
    | some (.table .literal _) => none
    | some (.table origin sub) =>
      (openTable path sub).map fun sub => replace entries key (.table origin sub)
    | some _ => none

/-- Gives a key its value in the table that the header `here` opened. -/
def assignUnder (value : Value) (path : List String) :
    (here : List String) → Entries → Option Entries
  | [], entries => assign value path entries
  | key :: here, entries =>
    match entries.lookup key with
    | some (.table origin sub) =>
      (assignUnder value path here sub).map fun sub => replace entries key (.table origin sub)
    | _ => none

/-! ### Values and documents -/

mutual

def value? : (rounds : Nat) → List Char → Reading Value
  | 0, _ => none
  | rounds + 1, cs =>
    match cs with
    | 't' :: 'r' :: 'u' :: 'e' :: cs => some (.boolean true, cs)
    | 'f' :: 'a' :: 'l' :: 's' :: 'e' :: cs => some (.boolean false, cs)
    | '[' :: cs =>
      match skipRemarks false cs with
      | ']' :: cs => some (.emptyArray, cs)
      | _ => none
    | '{' :: cs =>
      match skipBlanks cs with
      | '}' :: cs => some (.table .literal [], cs)
      | cs => inlineEntries? rounds [] cs
    | cs => (string? cs).map fun (s, rest) => (.string s, rest)

/-- The rest of a table in braces, which has at least one more entry. -/
def inlineEntries? : (rounds : Nat) → Entries → List Char → Option (Value × List Char)
  | 0, _, _ => none
  | rounds + 1, entries, cs => do
    let (path, cs) ← key? (cs.length + 1) cs
    match cs with
    | '=' :: cs =>
      let (value, cs) ← value? rounds (skipBlanks cs)
      let entries ← assign value path entries
      match skipBlanks cs with
      | ',' :: cs => inlineEntries? rounds entries (skipBlanks cs)
      | '}' :: cs => some (.table .literal entries, cs)
      | _ => none
    | _ => none

end

/-- A document so far: its entries and the header under which keys stand. -/
structure Document where
  entries : Entries := []
  here : List String := []

def header? (doc : Document) (cs : List Char) : Option (Document × List Char) := do
  let (path, cs) ← key? (cs.length + 1) (skipBlanks cs)
  match cs with
  | ']' :: cs =>
    let entries ← openTable path doc.entries
    return (⟨entries, path⟩, ← lineEnd? cs)
  | _ => none

def keyValue? (doc : Document) (cs : List Char) : Option (Document × List Char) := do
  let (path, cs) ← key? (cs.length + 1) cs
  match cs with
  | '=' :: cs =>
    let (value, cs) ← value? (cs.length + 1) (skipBlanks cs)
    let entries ← assignUnder value path doc.here doc.entries
    return ({ doc with entries }, ← lineEnd? cs)
  | _ => none

def lines? (doc : Document) : (rounds : Nat) → List Char → Option Document
  | 0, _ => none
  | rounds + 1, cs =>
    match skipBlanks cs with
    | [] => some doc
    | '#' :: cs => do lines? doc rounds (← lineEnd? ('#' :: cs))
    | '\n' :: cs => lines? doc rounds cs
    | '\r' :: '\n' :: cs => lines? doc rounds cs
    | '[' :: cs => do
      let (doc, cs) ← header? doc cs
      lines? doc rounds cs
    | cs => do
      let (doc, cs) ← keyValue? doc cs
      lines? doc rounds cs

/-- The entries of a document. A byte order mark may stand in front. -/
def parse? (text : String) : Option Entries :=
  let cs := text.toList
  let cs := if cs.head? == some (Char.ofNat 0xFEFF) then cs.tail else cs
  (lines? {} (cs.length + 1) cs).map (·.entries)

end Toml

end BankedLoops
