import BankedLoops.Netlist.Basic

/-!
# The text of a netlist
-/

namespace BankedLoops

def Prototype.text : Prototype → String
  | .primitive name params =>
    let args := String.intercalate ", " (params.map toString)
    s!"{name}({args})"
  | .component name => s!"{name}()"

def Cell.text (c : Cell) : String :=
  let external := if c.isExternal then "@external " else ""
  let reference := if c.isReference then "ref " else ""
  s!"{external}{reference}{c.name} = {c.prototype.text};"

def Atom.text : Atom → String
  | .pin p => p.text
  | .const width value => s!"{width}'d{value}"

def Guard.text : Guard → String
  | .always => ""
  | .pin p => p.text
  | .cycle k => s!"%{k}"
  | .and l r => s!"{l.text} & {r.text}"

def Assignment.text (a : Assignment) : String :=
  match a.guard with
  | .always => s!"{a.dst.text} = {a.src.text};"
  | guard => s!"{a.dst.text} = {guard.text} ? {a.src.text};"

def Group.text (g : Group) : String :=
  let kind := match g.latency with
    | some cycles => s!"static<{cycles}> group"
    | none => "comb group"
  let assignments := String.join (g.assignments.map fun a => s!"      {a.text}\n")
  s!"    {kind} {g.name} \x7b\n{assignments}    \x7d\n"

def positionText : Option Nat → String
  | some pos => s!"@pos({pos}) "
  | none => ""

def conditionText : Option String → String
  | some cond => s!" with {cond}"
  | none => ""

namespace Control

mutual

/-- The lines of a control, indented by `indent` blanks. -/
def textAt (indent : Nat) : Control → String
  | .empty => ""
  | .enable group pos =>
    let margin := "".pushn ' ' indent
    s!"{margin}{positionText pos}{group};\n"
  | .seq items =>
    let margin := "".pushn ' ' indent
    s!"{margin}seq \x7b\n{textOfSeq (indent + 2) items}{margin}\x7d\n"
  | .loop pin cond body bound =>
    let margin := "".pushn ' ' indent
    let trips := match bound with
      | some bound => s!"@bound({bound}) "
      | none => ""
    s!"{margin}{trips}while {pin.text}{conditionText cond} \x7b\n" ++
      s!"{textAt (indent + 2) body}{margin}\x7d\n"
  | .branch pin cond onTrue onFalse =>
    let margin := "".pushn ' ' indent
    let taken :=
      s!"{margin}if {pin.text}{conditionText cond} \x7b\n{textAt (indent + 2) onTrue}{margin}\x7d"
    if onFalse.isEmpty then
      s!"{taken}\n"
    else
      s!"{taken} else \x7b\n{textAt (indent + 2) onFalse}{margin}\x7d\n"
  | .invoke cell refs pos =>
    let margin := "".pushn ' ' indent
    let bindings := String.intercalate ", " (refs.map fun ref => s!"{ref.1}={ref.2}")
    s!"{margin}{positionText pos}invoke {cell}[{bindings}]()();\n"

def textOfSeq (indent : Nat) : List Control → String
  | [] => ""
  | c :: cs => textAt indent c ++ textOfSeq indent cs

end

end Control

def Component.text (c : Component) : String :=
  let cells := String.join (c.cells.map fun cell => s!"    {cell.text}\n")
  let groups := String.join (c.groups.map Group.text)
  let control := c.control.textAt 4
  s!"component {c.name}() -> () \x7b\n" ++
    s!"  cells \x7b\n{cells}  \x7d\n" ++
    s!"  wires \x7b\n{groups}  \x7d\n" ++
    s!"  control \x7b\n{control}  \x7d\n\x7d\n"

/-- The metadata table, left out when it is empty. -/
def metadataText (metadata : Table Nat String) : String :=
  if metadata.isEmpty then
    ""
  else
    let lines := String.join (metadata.entries.map fun entry => s!"  {entry.1}: {entry.2}\n")
    s!"metadata #\x7b\n{lines}\x7d#\n"

def Netlist.text (n : Netlist) : String :=
  "import \"primitives/core.futil\";\n" ++ String.join (n.components.map Component.text)
    ++ metadataText n.metadata

end BankedLoops
