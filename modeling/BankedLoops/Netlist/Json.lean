import BankedLoops.Netlist.Basic
import BankedLoops.Json

/-!
# Netlists as JSON

A value of a type with several forms is an object whose one key names the form; a form without
data is the name alone.
-/

namespace BankedLoops

def Json.form (name : String) (data : Json) : Json := .obj [(name, data)]

def Prototype.toJson : Prototype → Json
  | .primitive name params =>
    .form "Primitive" (.obj [("name", .str name), ("params", .arr (params.map .num))])
  | .component name => .form "Component" (.str name)

def Cell.toJson (c : Cell) : Json :=
  .obj [("name", .str c.name), ("prototype", c.prototype.toJson), ("external", .bool c.isExternal),
    ("reference", .bool c.isReference)]

def Pin.toJson : Pin → Json
  | .cell owner pin => .form "Cell" (.obj [("cell", .str owner), ("port", .str pin)])
  | .hole group pin => .form "Hole" (.obj [("group", .str group), ("port", .str pin)])

def Atom.toJson : Atom → Json
  | .pin p => .form "Port" p.toJson
  | .const width value => .form "Const" (.obj [("width", .num width), ("value", .num value)])

def Guard.toJson : Guard → Json
  | .always => .str "True"
  | .pin p => .form "Port" p.toJson
  | .cycle k => .form "Cycle" (.num k)
  | .and l r => .form "And" (.arr [l.toJson, r.toJson])

def Assignment.toJson (a : Assignment) : Json :=
  .obj [("dst", a.dst.toJson), ("src", a.src.toJson), ("guard", a.guard.toJson)]

def Group.toJson (g : Group) : Json :=
  .obj [("name", .str g.name), ("latency", .ofOption .num g.latency),
    ("assignments", .arr (g.assignments.map Assignment.toJson))]

namespace Control

mutual

def toJson : Control → Json
  | .empty => .str "Empty"
  | .enable group pos =>
    .form "Enable" (.obj [("group", .str group), ("pos", .ofOption .num pos)])
  | .seq items => .form "Seq" (.arr (seqToJson items))
  | .loop pin cond body bound =>
    .form "While" (.obj [("port", pin.toJson), ("cond", .ofOption .str cond),
      ("body", toJson body), ("bound", .ofOption .num bound)])
  | .branch pin cond onTrue onFalse =>
    .form "If" (.obj [("port", pin.toJson), ("cond", .ofOption .str cond),
      ("then_branch", toJson onTrue), ("else_branch", toJson onFalse)])
  | .invoke cell refs pos =>
    .form "Invoke" (.obj [("cell", .str cell),
      ("refs", .arr (refs.map fun ref => .arr [.str ref.1, .str ref.2])),
      ("pos", .ofOption .num pos)])

def seqToJson : List Control → List Json
  | [] => []
  | c :: cs => toJson c :: seqToJson cs

end

end Control

def Component.toJson (c : Component) : Json :=
  .obj [("name", .str c.name), ("cells", .arr (c.cells.map Cell.toJson)),
    ("groups", .arr (c.groups.map Group.toJson)), ("control", c.control.toJson)]

def Netlist.toJson (n : Netlist) : Json :=
  .obj [("components", .arr (n.components.map Component.toJson)),
    ("memories", .obj (n.memories.entries.map fun entry => (entry.1, .arr (entry.2.map .str)))),
    ("metadata", .obj (n.metadata.entries.map fun entry => (toString entry.1, .str entry.2)))]

end BankedLoops
