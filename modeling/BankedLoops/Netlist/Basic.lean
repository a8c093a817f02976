import BankedLoops.Netlist.Control
import BankedLoops.Table

/-!
# Netlists

A netlist is a list of components. A component has cells, groups of guarded assignments between
their pins, and a control that schedules the groups.
-/

namespace BankedLoops

inductive Prototype where
  /-- A library primitive such as `std_reg(32)`. -/
  | primitive (name : String) (params : List Nat)
  | component (name : String)
  deriving DecidableEq

structure Cell where
  name : String
  prototype : Prototype
  /-- Whether the cell is a memory that the design exposes. -/
  isExternal : Bool := false
  /-- Whether the cell stands for a memory given by the caller. -/
  isReference : Bool := false
  deriving DecidableEq

def Cell.primitive? (c : Cell) : Option String :=
  match c.prototype with
  | .primitive name _ => some name
  | .component _ => none

/-- The source of an assignment. -/
inductive Atom where
  | pin (p : Pin)
  | const (width value : Nat)
  deriving DecidableEq

namespace Atom

def high : Atom := .const 1 1

end Atom

inductive Guard where
  | always
  | pin (p : Pin)
  /-- High only in the given cycle of a static group. -/
  | cycle (k : Nat)
  | and (l r : Guard)
  deriving DecidableEq

namespace Guard

def both : Guard → Guard → Guard
  | .always, g => g
  | g, .always => g
  | g, h => .and g h

end Guard

structure Assignment where
  dst : Pin
  src : Atom
  guard : Guard := .always
  deriving DecidableEq

/-- A unit of wiring. A static group takes a fixed number of cycles, a combinational one only
computes a condition and has no latency. -/
structure Group where
  name : String
  latency : Option Nat
  assignments : List Assignment
  deriving DecidableEq

def Group.isStatic (g : Group) : Bool := g.latency.isSome

structure Component where
  name : String
  cells : List Cell := []
  groups : List Group := []
  control : Control := .empty

namespace Component

def cell? (c : Component) (name : String) : Option Cell :=
  c.cells.find? (·.name == name)

def group? (c : Component) (name : String) : Option Group :=
  c.groups.find? (·.name == name)

def cellsOf (c : Component) (primitive : String) : List Cell :=
  c.cells.filter (·.primitive? == some primitive)

end Component

structure Netlist where
  components : List Component
  /-- The external memories that hold each top-level array. -/
  memories : Table String (List String)
  /-- The statement behind each position in the control. -/
  metadata : Table Nat String

namespace Netlist

def component? (n : Netlist) (name : String) : Option Component :=
  n.components.find? (·.name == name)

end Netlist

end BankedLoops
