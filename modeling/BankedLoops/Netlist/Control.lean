/-!
# Pins and control

The names that wiring refers to, and the tree that schedules the groups of a component.
-/

namespace BankedLoops

/-- A pin of a cell, or a hole of a group such as its `done` signal. -/
inductive Pin where
  | cell (cell pin : String)
  | hole (group pin : String)
  deriving DecidableEq

/-- The hole that says a group is done. -/
def Pin.done (group : String) : Pin := .hole group "done"

/-- The output of a register or an operator. -/
def Pin.out (cell : String) : Pin := .cell cell "out"

def Pin.text : Pin → String
  | .cell owner pin => s!"{owner}.{pin}"
  | .hole group pin => s!"{group}[{pin}]"

/-- The schedule of a component. -/
inductive Control where
  | empty
  | enable (group : String) (pos : Option Nat)
  | seq (items : List Control)
  /-- Runs `body` while `pin` is high; `cond` drives the pin and `bound` is the trip count. -/
  | loop (pin : Pin) (cond : Option String) (body : Control) (bound : Option Nat)
  | branch (pin : Pin) (cond : Option String) (onTrue onFalse : Control)
  /-- Runs an instance; `refs` pairs its parameters with the memories given for them. -/
  | invoke (cell : String) (refs : List (String × String)) (pos : Option Nat)

namespace Control

def isEmpty : Control → Bool
  | .empty => true
  | _ => false

/-- What a control contributes to a sequence: a sequence its items, an empty control nothing. -/
def items : Control → List Control
  | .empty => []
  | .seq items => items
  | c => [c]

/-- The controls one after another, without empty controls and directly nested sequences. -/
def sequence (cs : List Control) : Control :=
  match cs.flatMap items with
  | [] => .empty
  | [c] => c
  | flat => .seq flat

mutual

/-- The groups enabled in a control, in the order of the schedule. -/
def enables : Control → List String
  | .empty => []
  | .enable group _ => [group]
  | .seq items => enablesOfSeq items
  | .loop _ _ body _ => enables body
  | .branch _ _ onTrue onFalse => enables onTrue ++ enables onFalse
  | .invoke .. => []

def enablesOfSeq : List Control → List String
  | [] => []
  | c :: cs => enables c ++ enablesOfSeq cs

end

end Control

end BankedLoops
