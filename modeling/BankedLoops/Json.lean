/-!
# JSON text

JSON documents and their indented text: two blanks for each level, a blank after the colon, and
empty arrays and objects on one line.
-/

namespace BankedLoops

inductive Json where
  | null
  | bool (value : Bool)
  | num (value : Nat)
  | str (value : String)
  | arr (items : List Json)
  /-- Fields in the order in which they are written. -/
  | obj (fields : List (String × Json))

namespace Json

def hex4 (n : Nat) : String :=
  let digits := String.ofList (Nat.toDigits 16 n)
  "".pushn '0' (4 - digits.length) ++ digits

/-- A character inside quotes: quotes, backslashes and control characters are escaped. -/
def escapeChar (c : Char) : String :=
  if c == '"' then "\\\""
  else if c == '\\' then "\\\\"
  else if c == '\n' then "\\n"
  else if c == '\r' then "\\r"
  else if c == '\t' then "\\t"
  else if c.toNat == 8 then "\\b"
  else if c.toNat == 12 then "\\f"
  else if c.toNat < 32 then "\\u" ++ hex4 c.toNat
  else String.singleton c

def quote (s : String) : String :=
  let body := String.join (s.toList.map escapeChar)
  s!"\"{body}\""

mutual

/-- The text of a document whose first line is already indented and stands at `indent`. -/
def prettyAt (indent : Nat) : Json → String
  | .null => "null"
  | .bool value => toString value
  | .num value => toString value
  | .str value => quote value
  | .arr [] => "[]"
  | .arr items =>
    let margin := "".pushn ' ' indent
    s!"[\n{prettyItems (indent + 2) items}\n{margin}]"
  | .obj [] => "\x7b\x7d"
  | .obj fields =>
    let margin := "".pushn ' ' indent
    s!"\x7b\n{prettyFields (indent + 2) fields}\n{margin}\x7d"

def prettyItems (indent : Nat) : List Json → String
  | [] => ""
  | [item] => "".pushn ' ' indent ++ prettyAt indent item
  | item :: items =>
    let margin := "".pushn ' ' indent
    s!"{margin}{prettyAt indent item},\n{prettyItems indent items}"

def prettyFields (indent : Nat) : List (String × Json) → String
  | [] => ""
  | [(key, value)] =>
    let margin := "".pushn ' ' indent
    s!"{margin}{quote key}: {prettyAt indent value}"
  | (key, value) :: fields =>
    let margin := "".pushn ' ' indent
    s!"{margin}{quote key}: {prettyAt indent value},\n{prettyFields indent fields}"

end

def pretty (doc : Json) : String := prettyAt 0 doc

def ofOption {α : Type} (f : α → Json) : Option α → Json
  | none => .null
  | some a => f a

end Json

end BankedLoops
