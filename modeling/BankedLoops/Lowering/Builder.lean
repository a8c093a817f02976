import BankedLoops.Lowering.Names
import BankedLoops.Netlist.Basic
import BankedLoops.Scope
import BankedLoops.Statements
import BankedLoops.Log

/-!
# Building a component

The workspace in which a component grows: cells and groups are only ever added, and every name
comes from the component's supply.
-/

namespace BankedLoops

namespace Lowering

/-- The storage behind a memory name. -/
structure Memory where
  cell : String
  sizes : List Nat
  width : Nat

inductive Store where
  | register (cell : String) (width : Nat)
  /-- The register of a loop, which also holds the exit value; `slice` narrows it to the `width`
  bits of the iterator. -/
  | iterator (cell : String) (slice : Option String) (width : Nat)
  | memory (m : Memory)

abbrev Env := Scope Store

/-- What stays fixed for all components. -/
structure Setting where
  /-- The memory parameters of each function. -/
  signatures : List (String × List String)
  statements : Statements
  emitPositions : Bool
  /-- Whether the statements that are annotated are quoted. -/
  emitMetadata : Bool

namespace Setting

/-- The annotation for a statement at `pos`. -/
def position (s : Setting) (pos : Nat) : Option Nat :=
  if s.emitPositions then some pos else none

def enable (s : Setting) (group : String) (pos : Nat) : Control :=
  .enable group (s.position pos)

/-- The quotes with that of the statement at `pos`, if annotated statements are quoted. -/
def quote (s : Setting) (pos : Nat) (quotes : Statements) : Statements :=
  if s.emitPositions && s.emitMetadata then quotes.insertNew pos (s.statements.describe pos)
  else quotes

end Setting

/-- A component under construction. -/
structure Workspace where
  cells : List Cell := []
  groups : List Group := []
  names : Names := {}
  /-- The cell of each constant, by width and value. -/
  consts : List ((Nat × Nat) × String) := []
  instances : List (String × String) := []
  /-- The statements quoted so far, also by the components before this one. -/
  quotes : Statements := {}

abbrev Build := StateT Workspace (Except Failure)

variable {α : Type}

def throwInternal (fault : InternalFault) : Build α :=
  throw (.error (.internal fault))

def freshName (stem : String) : Build String := do
  let (name, names) ← liftM ((← get).names.freshWord stem)
  modify fun w => { w with names }
  pure name

def uniqueName (base : String) : Build String := do
  let (name, names) := (← get).names.unique base
  modify fun w => { w with names }
  pure name

def addCell (c : Cell) : Build Unit :=
  modify fun w => { w with cells := w.cells ++ [c] }

def addGroup (name : String) (latency : Option Nat) (assignments : List Assignment) :
    Build Unit :=
  modify fun w => { w with groups := w.groups ++ [⟨name, latency, assignments⟩] }

/-- Adds a cell of a standard primitive under the next name of the family `stem0`, … -/
def addPrimitive (stem primitive : String) (params : List Nat) : Build String := do
  let name ← freshName stem
  addCell { name, prototype := .primitive primitive params }
  pure name

def addRegister (base : String) (width : Nat) : Build String := do
  let name ← uniqueName base
  addCell { name, prototype := .primitive "std_reg" [width] }
  pure name

def addFreshRegister (stem : String) (width : Nat) : Build String :=
  addPrimitive stem "std_reg" [width]

/-- The pin of a constant; equal constants of a component share a cell. -/
def constant (width value : Nat) : Build Pin := do
  if width < Word.sizeBits ∧ Word.capacity width ≤ value then
    throwInternal (.wideConstant value width)
  match (← get).consts.lookup (width, value) with
  | some cell => pure (.out cell)
  | none =>
    let cell ← addPrimitive "const" "std_const" [width, value]
    modify fun w => { w with consts := ((width, value), cell) :: w.consts }
    pure (.out cell)

/-- The cell that instantiates a function; a component has at most one. -/
def instanceOf (func : String) : Build String := do
  match (← get).instances.lookup func with
  | some cell => pure cell
  | none =>
    let cell ← freshName func
    addCell { name := cell, prototype := .component func }
    modify fun w => { w with instances := (func, cell) :: w.instances }
    pure cell

def quote (s : Setting) (pos : Nat) : Build Unit :=
  modify fun w => { w with quotes := s.quote pos w.quotes }

/-- Schedules a group for the statement at `pos`. -/
def enableGroup (s : Setting) (group : String) (pos : Nat) : Build Control := do
  quote s pos
  pure (s.enable group pos)

/-- The assignments of a group in the making, and the control that must run before it. -/
structure Wiring where
  assigns : List Assignment := []
  before : List Control := []

namespace Wiring

/-- Adds an assignment, unless the same one is already there. -/
def assign (w : Wiring) (dst : Pin) (src : Atom) (guard : Guard := .always) : Wiring :=
  let a : Assignment := ⟨dst, src, guard⟩
  if w.assigns.contains a then w else { w with assigns := w.assigns ++ [a] }

def connect (w : Wiring) (dst src : Pin) : Wiring := w.assign dst (.pin src)

end Wiring

def memoryOf (env : Env) (name : String) : Build Memory :=
  match env.get? name with
  | some (.memory m) => pure m
  | _ => throwInternal (.notMemory name)

/-- The cell and the width of an assignable register. -/
def registerOf (env : Env) (name : String) : Build (String × Nat) :=
  match env.get? name with
  | some (.register cell width) => pure (cell, width)
  | _ => throwInternal (.notRegister name)

end Lowering

end BankedLoops
