import BankedLoops.Program
import BankedLoops.Scope
import BankedLoops.Proofs.Success
import BankedLoops.Proofs.Semantics.Value

/-!
# Runs of programs

One interpreter for programs over logical arrays and for programs over physical memories. Storage is
allocated when a declaration runs, and a call passes references to arrays. A run stops where an
index leaves its dimension and where an operation inside an index wraps the width of its type.
-/

namespace BankedLoops

namespace Semantics

/-- The element at each tuple of indices. -/
abbrev Contents := List Nat → Nat

structure Memory where
  dims : List Dim
  contents : Contents

/-- What a name stands for; storage is a location in the store. -/
inductive Slot where
  | scalar (loc : Nat)
  | iterator (value : Nat)
  | array (loc : Nat)

abbrev Env := Scope Slot

/-- The store: scalars and arrays, each in the order of their allocation. -/
structure State where
  scalars : List Nat := []
  memories : List Memory := []

/-- What a run leaves open: the product of fixed-point values, and the contents with which the
storage at each location begins. -/
structure Machine where
  product : FixedProduct
  scalar : Nat → Nat
  memory : Nat → Contents

/-- All storage begins at zero. -/
def Machine.zero : Machine := ⟨fun _ _ _ _ => 0, fun _ => 0, fun _ _ => 0⟩

/-- Why a run ends early. -/
inductive Stop where
  /-- An index leaves its dimension, or an operation inside an index wraps. -/
  | index
  /-- The program means nothing: a name, an argument or a command has no place here. -/
  | stuck
  deriving DecidableEq

def orStuck {α : Type} : Option α → Except Stop α
  | some a => .ok a
  | none => .error .stuck

@[simp]
theorem orStuck_ok_iff {α : Type} {x : Option α} {a : α} : orStuck x = .ok a ↔ x = some a := by
  cases x <;> simp [orStuck]

@[simp]
theorem orStuck_some {α : Type} (a : α) : orStuck (some a) = .ok a := rfl

/-- Whether there is one index for each dimension, inside of it. -/
def inside : List Dim → List Nat → Bool
  | [], [] => true
  | d :: ds, i :: is => decide (i < d.size) && inside ds is
  | _, _ => false

/-- A place in the store. -/
inductive Place where
  | scalar (loc : Nat)
  | element (loc : Nat) (idxs : List Nat)
  deriving DecidableEq

namespace State

def pushScalar (s : State) (v : Nat) : State := { s with scalars := s.scalars ++ [v] }

def pushMemory (s : State) (a : Memory) : State := { s with memories := s.memories ++ [a] }

def get? (s : State) : Place → Option Nat
  | .scalar loc => s.scalars[loc]?
  | .element loc idxs => (s.memories[loc]?).map (·.contents idxs)

def set (s : State) (v : Nat) : Place → State
  | .scalar loc => { s with scalars := s.scalars.set loc v }
  | .element loc idxs =>
    { s with memories := s.memories.modify loc fun a =>
      { a with contents := fun is => if is = idxs then v else a.contents is } }

/-- The dimensions of the arrays in the store. -/
def shapes (s : State) : List (List Dim) := s.memories.map (·.dims)

/-- A write changes the place that it names and no other. -/
theorem get?_set (s : State) (v : Nat) (place other : Place) :
    (s.set v place).get? other =
      if other = place then (s.get? other).map fun _ => v else s.get? other := by
  cases place with
  | scalar loc =>
    cases other with
    | scalar loc' => grind [set, get?]
    | element loc' is => simp [set, get?]
  | element loc idxs =>
    cases other with
    | scalar loc' => simp [set, get?]
    | element loc' is =>
      simp only [set, get?, List.getElem?_modify, Option.map_map, Place.element.injEq]
      by_cases array : loc = loc'
      · by_cases element : is = idxs
        · cases s.memories[loc']? <;> simp [array, element]
        · cases s.memories[loc']? <;> simp [array, element]
      · cases s.memories[loc']? <;> simp [array, Ne.symm array]

theorem shapes_set (s : State) (v : Nat) (place : Place) : (s.set v place).shapes = s.shapes := by
  cases place with
  | scalar loc => rfl
  | element loc idxs =>
    apply List.ext_getElem?
    intro k
    simp only [set, shapes, List.getElem?_map, List.getElem?_modify]
    split <;> cases s.memories[k]? <;> rfl

end State

def arrayOf? (env : Env) (name : String) : Option Nat :=
  match env.get? name with
  | some (.array loc) => some loc
  | _ => none

/-- The value of a scalar name. -/
def scalarOf? (env : Env) (s : State) (name : String) : Option Nat :=
  match env.get? name with
  | some (.scalar loc) => s.scalars[loc]?
  | some (.iterator v) => some v
  | _ => none

/-- The element of an array at indices inside of its dimensions. -/
def elementAt (env : Env) (s : State) (array : String) (idxs : List Nat) : Except Stop Place := do
  let loc ← orStuck (arrayOf? env array)
  let a ← orStuck s.memories[loc]?
  if inside a.dims idxs then .ok (.element loc idxs) else .error .index

mutual

/-- The value of an expression; `index` says whether it stands inside an index. -/
def eval (m : Machine) (env : Env) (s : State) (index : Bool) : TypedExpr → Except Stop Nat
  | .int _ n => .ok n
  | .bool _ b => .ok b.toNat
  | .var _ name => orStuck (scalarOf? env s name)
  | .binop ty op lhs rhs => do
    let a ← eval m env s index lhs
    let b ← eval m env s index rhs
    if index && wraps op ty lhs.ty rhs.ty a b then
      .error .index
    else
      .ok (operation m.product op ty lhs.ty rhs.ty a b)
  | .access _ array idxs => do
    let is ← evalIndices m env s idxs
    let place ← elementAt env s array is
    orStuck (s.get? place)
  | .mem _ mem addr => do
    let is ← evalIndices m env s addr
    let place ← elementAt env s mem is
    orStuck (s.get? place)
  | .muxRead _ banks select addr => do
    let k ← eval m env s true select
    let bank ← orStuck banks[k]?
    let is ← evalIndices m env s addr
    let place ← elementAt env s bank is
    orStuck (s.get? place)
  | .app .. => .error .stuck

def evalIndices (m : Machine) (env : Env) (s : State) :
    List TypedExpr → Except Stop (List Nat)
  | [] => .ok []
  | idx :: idxs => do
    let i ← eval m env s true idx
    let is ← evalIndices m env s idxs
    .ok (i :: is)

end

/-- What an expression is worth inside an index, it is worth anywhere. -/
theorem eval_of_index {m : Machine} {env : Env} {s : State} :
    (e : TypedExpr) → {v : Nat} → eval m env s true e = .ok v → eval m env s false e = .ok v
  | .int _ _, _, value => value
  | .bool _ _, _, value => value
  | .var _ _, _, value => value
  | .binop ty op lhs rhs, v, value => by
    simp only [eval, bind_ok_iff] at value ⊢
    obtain ⟨a, left, b, right, value⟩ := value
    refine ⟨a, eval_of_index lhs left, b, eval_of_index rhs right, ?_⟩
    split at value
    · cases value
    · simpa using value
  | .access _ _ _, _, value => value
  | .app _ _ _, _, value => value
  | .mem _ _ _, _, value => value
  | .muxRead _ _ _ _, _, value => value

/-- An index has the value that the expression has anywhere, unless one of its operations wraps. -/
theorem eval_index {m : Machine} {env : Env} {s : State} :
    (e : TypedExpr) → {v : Nat} → eval m env s false e = .ok v →
      eval m env s true e = .ok v ∨ eval m env s true e = .error .index
  | .int _ _, _, value => .inl value
  | .bool _ _, _, value => .inl value
  | .var _ _, _, value => .inl value
  | .binop ty op lhs rhs, v, value => by
    simp only [eval, bind_ok_iff] at value
    obtain ⟨a, left, b, right, value⟩ := value
    rcases eval_index lhs left with left | wrapped
    · rcases eval_index rhs right with right | wrapped
      · rw [eval, left, ok_bind, right, ok_bind]
        by_cases wrapped : wraps op ty lhs.ty rhs.ty a b = true
        · exact .inr (if_pos (by simpa using wrapped))
        · refine .inl ?_
          rw [if_neg (by simpa using wrapped)]
          simpa using value
      · rw [eval, left, ok_bind, wrapped]
        exact .inr rfl
    · rw [eval, wrapped]
      exact .inr rfl
  | .access _ _ _, _, value => .inl value
  | .app _ _ _, _, value => .inl value
  | .mem _ _ _, _, value => .inl value
  | .muxRead _ _ _ _, _, value => .inl value

/-- The place that the target of an assignment names. -/
def placeOf (m : Machine) (env : Env) (s : State) : TypedExpr → Except Stop Place
  | .var _ name =>
    match env.get? name with
    | some (.scalar loc) => .ok (.scalar loc)
    | _ => .error .stuck
  | .access _ array idxs => do elementAt env s array (← evalIndices m env s idxs)
  | .mem _ mem addr => do elementAt env s mem (← evalIndices m env s addr)
  | _ => .error .stuck

/-- A function that runs on the arrays given for its parameters. -/
abbrev Procedure := List Nat → State → Except Stop State

/-- The arrays that a call passes. -/
def arraysOf? (env : Env) : List String → Option (List Nat)
  | [] => some []
  | arg :: args => do
    let loc ← arrayOf? env arg
    let locs ← arraysOf? env args
    some (loc :: locs)

/-- Runs a declaration. -/
def allocate (m : Machine) (env : Env) (s : State) (name : String) : Ty → Env × State
  | .array _ dims =>
    (env.rebind name (.array s.memories.length), s.pushMemory ⟨dims, m.memory s.memories.length⟩)
  | _ =>
    (env.rebind name (.scalar s.scalars.length), s.pushScalar (m.scalar s.scalars.length))

mutual

/-- Runs a command. The result is the environment of the commands after it and the store. -/
def exec (m : Machine) (procs : List (String × Procedure)) (env : Env) (s : State) :
    TypedCommand → Except Stop (Env × State)
  | .decl _ name ty => .ok (allocate m env s name ty)
  | .define _ name _ init => do
    let v ← eval m env s false init
    .ok (env.rebind name (.scalar s.scalars.length), s.pushScalar v)
  | .seq _ cmds => execSeq m procs env s cmds
  | .branch _ cond onTrue onFalse => do
    let v ← eval m env s false cond
    if v ≠ 0 then
      (exec m procs env.enter s onTrue).map fun r => (env, r.2)
    else
      (execElse m procs env.enter s onFalse).map fun s => (env, s)
  | .loop _ header body => do
    let s ← (List.range' header.start (header.stop - header.start)).foldlM (fun s i =>
      (exec m procs (env.enter.rebind header.iter (.iterator i)) s body).map Prod.snd) s
    .ok (env, s)
  | .update _ target value => do
    let place ← placeOf m env s target
    let v ← eval m env s false value
    .ok (env, s.set v place)
  | .reduce _ op target value => do
    let place ← placeOf m env s target
    let old ← orStuck (s.get? place)
    let v ← eval m env s false value
    .ok (env, s.set (operation m.product op target.ty target.ty value.ty old v) place)
  | .eval _ (.app _ func args) => do
    let proc ← orStuck (procs.lookup func)
    let locs ← orStuck (arraysOf? env args)
    let s ← proc locs s
    .ok (env, s)
  | .eval _ e => do
    let _ ← eval m env s false e
    .ok (env, s)
  | .advance _ _ => .error .stuck
  | .skip _ => .ok (env, s)

def execSeq (m : Machine) (procs : List (String × Procedure)) (env : Env) (s : State) :
    List TypedCommand → Except Stop (Env × State)
  | [] => .ok (env, s)
  | cmd :: cmds => do
    let r ← exec m procs env s cmd
    execSeq m procs r.1 r.2 cmds

def execElse (m : Machine) (procs : List (String × Procedure)) (env : Env) (s : State) :
    Option TypedCommand → Except Stop State
  | none => .ok s
  | some cmd => (exec m procs env s cmd).map Prod.snd

end

/-- An expression on its own is a call or is evaluated for nothing. -/
theorem exec_eval {m : Machine} {procs : List (String × Procedure)} {env : Env} {s : State}
    {pos : Nat} {e : TypedExpr} (value : ∀ ty func args, e ≠ .app ty func args) :
    exec m procs env s (.eval pos e) = (eval m env s false e).map fun _ => (env, s) := by
  cases e with
  | app ty func args => exact absurd rfl (value ty func args)
  | _ =>
    rw [exec]
    · rfl
    · simp

/-- Binds parameters to the arrays given for them. -/
def bindParams (env : Env) : List Decl → List Nat → Option Env
  | [], [] => some env
  | d :: ds, loc :: locs => bindParams (env.rebind d.name (.array loc)) ds locs
  | _, _ => none

/-- Runs a function that may call `procs`. -/
def procedure (m : Machine) (procs : List (String × Procedure)) (f : Function Ty TypedExpr) :
    Procedure := fun args s => do
  let env ← orStuck (bindParams {} f.params args)
  (exec m procs env s f.body).map Prod.snd

/-- The procedures of functions, each of which may call those before it. -/
def link (m : Machine) (procs : List (String × Procedure)) :
    List (Function Ty TypedExpr) → List (String × Procedure)
  | [] => procs
  | f :: fs => link m ((f.name, procedure m procs f) :: procs) fs

def allocateAll (m : Machine) (env : Env) (s : State) : List Decl → Env × State
  | [] => (env, s)
  | d :: ds =>
    let (env, s) := allocate m env s d.name d.ty
    allocateAll m env s ds

/-- Runs a program: its declarations, then its body. -/
def runProgram (m : Machine) (p : TypedProgram) : Except Stop (Env × State) :=
  let r := allocateAll m {} {} p.decls
  match p.body with
  | none => .ok r
  | some body => exec m (link m [] p.defs) r.1 r.2 body

end Semantics

end BankedLoops
