/-!
# Tables

A table is a list of entries in strictly ascending key order. It is what a netlist publishes, so
the order of its entries is the order in which they are written.
-/

namespace BankedLoops

structure Table (κ α : Type) where
  entries : List (κ × α) := []
  deriving DecidableEq

namespace Table

variable {κ α : Type} [Ord κ]

/-- Sets the value at `key`; a later value replaces an earlier one. -/
def insertInto (key : κ) (value : α) : List (κ × α) → List (κ × α)
  | [] => [(key, value)]
  | entry :: rest =>
    match compare key entry.1 with
    | .lt => (key, value) :: entry :: rest
    | .eq => (key, value) :: rest
    | .gt => entry :: insertInto key value rest

def insert (t : Table κ α) (key : κ) (value : α) : Table κ α :=
  ⟨insertInto key value t.entries⟩

def ofList (entries : List (κ × α)) : Table κ α :=
  entries.foldl (fun t entry => t.insert entry.1 entry.2) {}

def get? (t : Table κ α) (key : κ) : Option α :=
  (t.entries.find? fun entry => compare key entry.1 == .eq).map Prod.snd

/-- Sets the value at `key`, unless there is one. -/
def insertNew (t : Table κ α) (key : κ) (value : α) : Table κ α :=
  if (t.get? key).isSome then t else t.insert key value

def size (t : Table κ α) : Nat := t.entries.length

def isEmpty (t : Table κ α) : Bool := t.entries.isEmpty

end Table

end BankedLoops
