import BankedLoops.Proofs.Netlist.Library
import BankedLoops.Word
import Mathlib.Data.List.Forall2
import Mathlib.Logic.Relation

/-!
# Legal components

What it takes for a component to be hardware. `WellWired` is about the drivers inside a group,
`WidthsAgree` about the ports at both ends of a wire, and `Closed` about the names that a component
uses and the groups that its control schedules.
-/

namespace BankedLoops

open Library (Part)

def Pin.cellName? : Pin → Option String
  | .cell name _ => some name
  | .hole .. => none

def Atom.pins : Atom → List Pin
  | .pin p => [p]
  | .const .. => []

def Guard.pins : Guard → List Pin
  | .always | .cycle _ => []
  | .pin p => [p]
  | .and l r => l.pins ++ r.pins

theorem Guard.pins_both (g h : Guard) : (g.both h).pins = g.pins ++ h.pins := by
  unfold both
  split
  · rfl
  · rw [pins, List.append_nil]
  · rfl

/-- The pins that the value of an assignment depends on. -/
def Assignment.reads (a : Assignment) : List Pin := a.src.pins ++ a.guard.pins

namespace Control

mutual

/-- The pins that a control tests, each with the group that computes it. -/
def conditions : Control → List (Pin × Option String)
  | .empty | .enable .. | .invoke .. => []
  | .seq items => conditionsOfSeq items
  | .loop pin cond body _ => (pin, cond) :: conditions body
  | .branch pin cond onTrue onFalse => (pin, cond) :: (conditions onTrue ++ conditions onFalse)

def conditionsOfSeq : List Control → List (Pin × Option String)
  | [] => []
  | c :: cs => conditions c ++ conditionsOfSeq cs

end

mutual

/-- The cells that a control names to invoke them or to pass them on. -/
def invoked : Control → List String
  | .empty | .enable .. => []
  | .seq items => invokedOfSeq items
  | .loop _ _ body _ => invoked body
  | .branch _ _ onTrue onFalse => invoked onTrue ++ invoked onFalse
  | .invoke cell refs _ => cell :: refs.map Prod.snd

def invokedOfSeq : List Control → List String
  | [] => []
  | c :: cs => invoked c ++ invokedOfSeq cs

end

/-- The groups that compute conditions. -/
def conds (c : Control) : List String := c.conditions.filterMap Prod.snd

end Control

/-! ### Drivers -/

namespace Group

variable (cells : List Cell) (g : Group)

def drivers (p : Pin) : List Assignment :=
  g.assignments.filter (·.dst = p)

/-- Whether `src` drives `dst` in every cycle. -/
def Connects (dst src : Pin) : Prop :=
  ⟨dst, .pin src, .always⟩ ∈ g.assignments

/-- Whether `p` is an output of a part that, if it is combinational, has all its inputs driven by
the group. -/
def Supplied (p : Pin) : Prop :=
  ∃ name port part, p = .cell name port ∧ partOf? cells name = some part ∧
    port ∈ part.outputs.map Prod.fst ∧
    (part.isCombinational = true → ∀ input ∈ part.inputs, ∃ src, g.Connects (.cell name input.1) src)

/-- Whether the guard of `a` holds only where a comparison finds that `select` carries `number`. -/
def Selects (select : Pin) (a : Assignment) (number : Nat) : Prop :=
  ∃ eq const width, .out eq ∈ a.guard.pins ∧ partOf? cells eq = some (.operator .eq width) ∧
    g.Connects (.cell eq "left") select ∧ g.Connects (.cell eq "right") (.out const) ∧
    partOf? cells const = some (.constant width number)

/-- Whether `p` belongs to the register into which a read of several memories captures, and one
select tells its drivers apart. -/
def Multiplexed (p : Pin) : Prop :=
  ∃ reg width select numbers, partOf? cells reg = some (.register width) ∧
    (p = .cell reg "in" ∨ p = .cell reg "write_en") ∧
    (∀ a ∈ g.drivers (.cell reg "in"), ∃ mem elem sizes widths,
      a.src = .pin (.cell mem "read_data") ∧ partOf? cells mem = some (.memory elem sizes widths)) ∧
    numbers.Nodup ∧ List.Forall₂ (g.Selects cells select) (g.drivers p) numbers

/-- Whether the value of one pin depends on that of another within a cycle. -/
inductive Feeds : Pin → Pin → Prop where
  | assigned {a : Assignment} {p : Pin} (member : a ∈ g.assignments) (read : p ∈ a.reads) :
      Feeds p a.dst
  | computed {name : String} {part : Part} {input output : String × Nat}
      (found : partOf? cells name = some part) (combinational : part.isCombinational = true)
      (read : input ∈ part.inputs) (driven : output ∈ part.outputs) :
      Feeds (.cell name input.1) (.cell name output.1)

end Group

namespace Component

structure WellWired (c : Component) (g : Group) : Prop where
  single : ∀ p, (g.drivers p).length ≤ 1 ∨ g.Multiplexed c.cells p
  supplied : ∀ a ∈ g.assignments, ∀ p ∈ a.reads, g.Supplied c.cells p
  condition : ∀ p, (p, some g.name) ∈ c.control.conditions → g.Supplied c.cells p
  acyclic : ∀ p, ¬ Relation.TransGen (g.Feeds c.cells) p p

/-! ### Widths -/

/-- The width of a pin that wiring drives. -/
def inputWidth? (c : Component) : Pin → Option Nat
  | .cell name port => (partOf? c.cells name).bind (·.inputs.lookup port)
  | .hole _ port => if port = "done" then some 1 else none

/-- The width of a pin that wiring reads. -/
def outputWidth? (c : Component) : Pin → Option Nat
  | .cell name port => (partOf? c.cells name).bind (·.outputs.lookup port)
  | .hole .. => none

def sourceWidth? (c : Component) : Atom → Option Nat
  | .pin p => c.outputWidth? p
  | .const width value => if value < Word.capacity width then some width else none

structure WidthsAgree (c : Component) : Prop where
  wires : ∀ g ∈ c.groups, ∀ a ∈ g.assignments,
    ∃ width, c.inputWidth? a.dst = some width ∧ c.sourceWidth? a.src = some width
  guards : ∀ g ∈ c.groups, ∀ a ∈ g.assignments, ∀ p ∈ a.guard.pins, c.outputWidth? p = some 1
  conditions : ∀ entry ∈ c.control.conditions, c.outputWidth? entry.1 = some 1
  constants : ∀ cell ∈ c.cells, ∀ width value, cell.part? = some (.constant width value) →
    value < Word.capacity width

/-! ### Names and schedule -/

def cellNames (c : Component) : List String := c.cells.map (·.name)

structure Closed (c : Component) : Prop where
  distinct : (c.cellNames ++ c.groups.map (·.name)).Nodup
  wires : ∀ g ∈ c.groups, ∀ a ∈ g.assignments, ∀ p ∈ a.dst :: a.reads, ∀ name ∈ p.cellName?,
    name ∈ c.cellNames
  tests : ∀ entry ∈ c.control.conditions, ∀ name ∈ entry.1.cellName?, name ∈ c.cellNames
  invocations : ∀ name ∈ c.control.invoked, name ∈ c.cellNames
  holes : ∀ g ∈ c.groups, ∀ a ∈ g.assignments, ∀ p ∈ a.dst :: a.reads, ∀ group hole,
    p = .hole group hole → p = .done g.name
  static : ∀ g ∈ c.groups, g.isStatic = true → c.control.enables.count g.name = 1
  enabled : ∀ name ∈ c.control.enables, ∃ g ∈ c.groups, g.name = name ∧ g.isStatic = true
  combinational : ∀ g ∈ c.groups, g.isStatic = false → c.control.conds.count g.name = 1
  tested : ∀ name ∈ c.control.conds, ∃ g ∈ c.groups, g.name = name ∧ g.isStatic = false

end Component

end BankedLoops
