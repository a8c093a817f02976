/-!
# Scopes

A persistent environment of nested scopes. Every operation returns a new environment, so leaving a
scope is dropping the extended value, and an outer binding of a shadowed name is visible again.
-/

namespace BankedLoops

/-- The bindings of the innermost scope, newest first, and those of the scopes around it. -/
structure Scope (α : Type) where
  inner : List (String × α) := []
  outer : List (List (String × α)) := []

namespace Scope

variable {α : Type}

def enter (s : Scope α) : Scope α := ⟨[], s.inner :: s.outer⟩

/-- Binds `name` in the innermost scope, in place of a binding it may already have there. -/
def rebind (s : Scope α) (name : String) (value : α) : Scope α :=
  { s with inner := (name, value) :: s.inner }

/-- Binds `name` in the innermost scope, unless it is already bound there. -/
def bind? (s : Scope α) (name : String) (value : α) : Option (Scope α) :=
  match s.inner.lookup name with
  | some _ => none
  | none => some (s.rebind name value)

def get? (s : Scope α) (name : String) : Option α :=
  (s.inner :: s.outer).findSome? (List.lookup name)

def contains (s : Scope α) (name : String) : Bool := (s.get? name).isSome

def names (s : Scope α) : List String :=
  (s.inner :: s.outer).flatten.map Prod.fst

@[simp]
theorem get?_empty (name : String) : (({} : Scope α).get? name) = none := rfl

@[simp]
theorem get?_enter (s : Scope α) (name : String) : s.enter.get? name = s.get? name := rfl

/-- A binding hides the others of its name and no other name. -/
theorem get?_rebind (s : Scope α) (name : String) (value : α) (other : String) :
    (s.rebind name value).get? other = if other = name then some value else s.get? other := by
  simp only [get?, rebind, List.findSome?_cons, List.lookup_cons]
  by_cases same : other = name
  · simp [same]
  · simp [same, beq_false_of_ne same]

@[simp]
theorem get?_rebind_self (s : Scope α) (name : String) (value : α) :
    (s.rebind name value).get? name = some value := by
  rw [get?_rebind, if_pos rfl]

theorem eq_rebind_of_bind? {s t : Scope α} {name : String} {value : α}
    (bound : s.bind? name value = some t) : t = s.rebind name value := by
  unfold bind? at bound
  cases taken : s.inner.lookup name <;> simp_all

end Scope

end BankedLoops
