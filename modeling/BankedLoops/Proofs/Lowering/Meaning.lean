import BankedLoops.Proofs.Lowering.Parts
import BankedLoops.Proofs.Lowering.Physical
import BankedLoops.Proofs.Lowering.Arithmetic

/-!
# What commands write

The meaning of expressions and of the commands that write, over what the cells of a component hold.
Every operator is computed at its annotated width. There is no value where an address leaves its
dimension or a select leaves its banks.
-/

namespace BankedLoops

namespace Execution

/-- A register, or an element of a memory. -/
inductive Place where
  | register (cell : String)
  | element (cell : String) (idxs : List Nat)
  deriving DecidableEq

def Place.cell : Place → String
  | .register cell => cell
  | .element cell _ => cell

namespace State

def get (σ : State) : Place → Nat
  | .register cell => σ.regs cell
  | .element cell idxs => σ.mems cell idxs

def set (σ : State) (x : Nat) : Place → State
  | .register cell => { σ with regs := Function.update σ.regs cell x }
  | .element cell idxs =>
    { σ with mems := Function.update σ.mems cell (Function.update (σ.mems cell) idxs x) }

theorem get_set_self (σ : State) (x : Nat) (place : Place) : (σ.set x place).get place = x := by
  cases place <;> simp [get, set]

theorem get_set_of_ne (σ : State) (x : Nat) {place other : Place} (different : other ≠ place) :
    (σ.set x place).get other = σ.get other := by
  cases place with
  | register cell =>
    cases other with
    | register cell' =>
      exact Function.update_of_ne (fun same => different (congrArg _ same)) _ _
    | element => rfl
  | element cell idxs =>
    cases other with
    | register => rfl
    | element cell' idxs' =>
      by_cases same : cell' = cell
      · subst same
        have apart : idxs' ≠ idxs := fun same => different (congrArg _ same)
        simp [get, set, apart]
      · simp [get, set, same]

end State

/-- The same contents of the given registers and memories. -/
def Agree (names : Set String) (σ τ : State) : Prop :=
  ∀ name ∈ names, σ.regs name = τ.regs name ∧ σ.mems name = τ.mems name

namespace Agree

variable {names others : Set String} {σ τ υ : State}

theorem refl (names : Set String) (σ : State) : Agree names σ σ := fun _ _ => ⟨rfl, rfl⟩

theorem trans (first : Agree names σ τ) (second : Agree names τ υ) : Agree names σ υ :=
  fun name member => ⟨(first name member).1.trans (second name member).1,
    (first name member).2.trans (second name member).2⟩

theorem mono (agree : Agree names σ τ) (fewer : others ⊆ names) : Agree others σ τ :=
  fun name member => agree name (fewer member)

/-- Writing to a place outside does not show. -/
theorem set_of_not_mem (agree : Agree names σ τ) {place : Place} (outside : place.cell ∉ names)
    (x : Nat) : Agree names σ (τ.set x place) := by
  intro name member
  have different : name ≠ place.cell := fun same => outside (same ▸ member)
  obtain ⟨regs, mems⟩ := agree name member
  cases place with
  | register cell => exact ⟨regs.trans (Function.update_of_ne different _ _).symm, mems⟩
  | element cell idxs => exact ⟨regs, mems.trans (Function.update_of_ne different _ _).symm⟩

theorem set (agree : Agree names σ τ) (x : Nat) {place : Place} :
    Agree names (σ.set x place) (τ.set x place) := by
  intro name member
  obtain ⟨regs, mems⟩ := agree name member
  cases place with
  | register cell =>
    refine ⟨?_, mems⟩
    by_cases same : name = cell
    · simp [State.set, same]
    · simp [State.set, same, regs]
  | element cell idxs =>
    refine ⟨regs, ?_⟩
    by_cases same : name = cell
    · subst same
      simp [State.set, mems]
    · simp [State.set, same, mems]

theorem get (agree : Agree names σ τ) {place : Place} (member : place.cell ∈ names) :
    σ.get place = τ.get place := by
  cases place with
  | register cell => exact (agree cell member).1
  | element cell idxs => exact congrFun (agree cell member).2 idxs

end Agree

end Execution

namespace Lowering

open Semantics (FixedProduct operation operation_lt pattern pattern_lt resized resized_of_toInt toInt)
open Execution (Place State Agree)

/-! ### Expressions -/

/-- The number that an index of type `ty` stands for, if it is below `bound`. -/
def index? (ty : Ty) (bound v : Nat) : Option Nat :=
  let n := toInt ty.isSigned ty.width v
  if 0 ≤ n ∧ n < bound then some n.toNat else none

def scalarOf? (env : Env) (σ : State) (name : String) : Option Nat :=
  match env.get? name with
  | some (.register cell width) => some (pattern width (σ.regs cell))
  | some (.iterator cell _ width) => some (pattern width (σ.regs cell))
  | _ => none

def memoryOf? (env : Env) (name : String) : Option Memory :=
  match env.get? name with
  | some (.memory m) => some m
  | _ => none

mutual

def value (product : FixedProduct) (env : Env) (σ : State) : TypedExpr → Option Nat
  | .int _ n => some n
  | .bool _ b => some b.toNat
  | .var _ name => scalarOf? env σ name
  | .binop ty op lhs rhs => do
    let a ← value product env σ lhs
    let b ← value product env σ rhs
    some (operation product op ty lhs.ty rhs.ty a b)
  | .mem _ mem addr => do
    let m ← memoryOf? env mem
    let idxs ← offsets product env σ addr m.sizes
    some (pattern m.width (σ.mems m.cell idxs))
  | .muxRead _ banks select addr => do
    let v ← value product env σ select
    let k ← index? select.ty banks.length v
    let bank ← banks[k]?
    let m ← memoryOf? env bank
    let idxs ← offsets product env σ addr m.sizes
    some (pattern m.width (σ.mems m.cell idxs))
  | .access .. | .app .. => none

/-- The element that addresses name, one for each dimension. -/
def offsets (product : FixedProduct) (env : Env) (σ : State) :
    List TypedExpr → List Nat → Option (List Nat)
  | [], [] => some []
  | e :: es, size :: sizes => do
    let v ← value product env σ e
    let i ← index? e.ty size v
    let is ← offsets product env σ es sizes
    some (i :: is)
  | _, _ => none

end

/-! ### Commands -/

/-- The place that a target names. -/
def placeOf? (product : FixedProduct) (env : Env) (σ : State) : TypedExpr → Option Place
  | .var _ name =>
    match env.get? name with
    | some (.register cell _) => some (.register cell)
    | _ => none
  | .mem _ mem addr => do
    let m ← memoryOf? env mem
    let idxs ← offsets product env σ addr m.sizes
    some (.element m.cell idxs)
  | _ => none

/-- What a command writes and where; `later` are the names after the command, in which a new register
is found. -/
def written? (product : FixedProduct) (env later : Env) (σ : State) :
    TypedCommand → Option (Place × Nat)
  | .define _ name ty init => do
    let v ← value product env σ init
    let place ← placeOf? product later σ (.var ty name)
    some (place, v)
  | .update _ target e => do
    let v ← value product env σ e
    let place ← placeOf? product env σ target
    some (place, v)
  | .reduce _ op target e => do
    let old ← value product env σ target
    let v ← value product env σ e
    let place ← placeOf? product env σ target
    some (place, operation product op target.ty target.ty e.ty old v)
  | _ => none

/-! ### Small facts -/

theorem index?_eq_some {ty : Ty} {bound v i : Nat} (found : index? ty bound v = some i) :
    toInt ty.isSigned ty.width v = i ∧ i < bound := by
  unfold index? at found
  dsimp only at found
  split at found
  · next inside =>
    cases found
    exact ⟨(Int.toNat_of_nonneg inside.1).symm, by omega⟩
  · cases found

theorem memoryOf?_eq_some {env : Env} {name : String} {m : Memory}
    (found : memoryOf? env name = some m) : env.get? name = some (.memory m) := by
  unfold memoryOf? at found
  split at found
  · next stored =>
    cases found
    exact stored
  · cases found

/-- An index inside of its dimension keeps its number at the width of the address. -/
theorem resized_of_index? {ty : Ty} {bound v i : Nat} (found : index? ty bound v = some i) :
    resized (bitsNeeded (bound - 1)) ty v = i := by
  obtain ⟨number, lt⟩ := index?_eq_some found
  refine resized_of_toInt number (Nat.lt_of_le_of_lt (Nat.le_sub_one_of_lt lt) ?_)
  exact lt_capacity_bitsNeeded _

section

variable {product : FixedProduct} {env : Env} {names : Set String} {σ τ : State}

/-- Every cell behind a name is one of the given ones. -/
def Sees (env : Env) (names : Set String) : Prop :=
  ∀ name store, env.get? name = some store → ∀ cell ∈ store.cells, cell ∈ names

theorem scalarOf?_congr (sees : Sees env names) (agree : Agree names σ τ) (name : String) :
    scalarOf? env σ name = scalarOf? env τ name := by
  unfold scalarOf?
  split
  · next found =>
    rw [(agree _ (sees name _ found _ List.mem_cons_self)).1]
  · next found =>
    rw [(agree _ (sees name _ found _ List.mem_cons_self)).1]
  · rfl

theorem mems_congr (sees : Sees env names) (agree : Agree names σ τ) {name : String} {m : Memory}
    (found : memoryOf? env name = some m) : σ.mems m.cell = τ.mems m.cell :=
  (agree _ (sees name _ (memoryOf?_eq_some found) _ List.mem_cons_self)).2

mutual

/-- Values depend only on the cells behind the names. -/
theorem value_congr (sees : Sees env names) (agree : Agree names σ τ) :
    (e : TypedExpr) → value product env σ e = value product env τ e
  | .int _ _ => rfl
  | .bool _ _ => rfl
  | .var _ name => scalarOf?_congr sees agree name
  | .binop ty op lhs rhs => by
    rw [value, value, value_congr sees agree lhs, value_congr sees agree rhs]
  | .mem _ mem addr => by
    rw [value, value]
    refine Option.bind_congr fun m found => ?_
    rw [offsets_congr sees agree addr, mems_congr sees agree found]
  | .muxRead _ banks select addr => by
    rw [value, value, value_congr sees agree select]
    refine Option.bind_congr fun v _ => Option.bind_congr fun k _ => Option.bind_congr fun bank _ =>
      Option.bind_congr fun m found => ?_
    rw [offsets_congr sees agree addr, mems_congr sees agree found]
  | .access _ _ _ => rfl
  | .app _ _ _ => rfl

theorem offsets_congr (sees : Sees env names) (agree : Agree names σ τ) :
    (es : List TypedExpr) → (sizes : List Nat) →
      offsets product env σ es sizes = offsets product env τ es sizes
  | [], [] => rfl
  | [], _ :: _ => rfl
  | _ :: _, [] => rfl
  | e :: es, size :: sizes => by
    rw [offsets, offsets, value_congr sees agree e]
    refine Option.bind_congr fun v _ => Option.bind_congr fun i _ => ?_
    rw [offsets_congr sees agree es]

end

/-! ### Typed values -/

variable {slots : Slots}

theorem Matches.memoryOf? (matched : Matches slots env) {name : String} {elem : Ty} {sizes : List Nat}
    (slot : slots.get? name = some (.memory elem sizes)) {m : Memory}
    (found : Lowering.memoryOf? env name = some m) : m.width = elem.width ∧ m.sizes = sizes := by
  obtain ⟨store, visible, fits⟩ := matched name _ slot
  rw [memoryOf?_eq_some found] at visible
  cases visible
  cases fits
  exact ⟨rfl, rfl⟩

/-- A value has the bits of its type. -/
theorem Physical.value_lt (matched : Matches slots env) {e : TypedExpr} (typed : Physical slots e)
    {x : Nat} (computed : value product env σ e = some x) : x < Word.capacity e.ty.width := by
  cases typed with
  | int =>
    cases computed
    exact lt_capacity_bitsNeeded _
  | bool b =>
    cases computed
    exact Bool.toNat_lt b
  | scalar bound =>
    obtain ⟨store, visible, fits⟩ := matched _ _ bound
    cases fits
    rw [value, scalarOf?, visible] at computed
    cases computed
    exact pattern_lt _ _
  | iterator unroll found =>
    obtain ⟨store, visible, fits⟩ := matched _ _ found
    cases fits
    rw [value, scalarOf?, visible] at computed
    cases computed
    exact pattern_lt _ _
  | binop =>
    simp only [value, Option.bind_eq_bind, Option.bind_eq_some_iff, Option.some.injEq] at computed
    obtain ⟨a, _, b, _, rfl⟩ := computed
    exact operation_lt ..
  | mem found =>
    simp only [value, Option.bind_eq_bind, Option.bind_eq_some_iff, Option.some.injEq] at computed
    obtain ⟨m, isMemory, idxs, _, rfl⟩ := computed
    rw [TypedExpr.ty, ← (matched.memoryOf? found isMemory).1]
    exact pattern_lt _ _
  | muxRead found =>
    simp only [value, Option.bind_eq_bind, Option.bind_eq_some_iff, Option.some.injEq] at computed
    obtain ⟨_, _, k, _, bank, listed, m, isMemory, idxs, _, rfl⟩ := computed
    rw [TypedExpr.ty, ← (matched.memoryOf? (found bank (List.mem_of_getElem? listed)) isMemory).1]
    exact pattern_lt _ _

/-- The type of a compile-time expression tells its value. -/
theorem Physical.value_of_static {e : TypedExpr} (typed : Physical slots e) {n : Nat}
    (static : e.ty = .static n) : value product env σ e = some n := by
  match e, typed with
  | .int _ _, .int _ =>
    cases static
    rfl
  | .bool _ _, .bool _ => cases static
  | .var _ _, .scalar _ storable => exact absurd (static ▸ storable) (Typing.not_storable_static n)
  | .var _ _, .iterator _ _ => cases static
  | .binop ty op lhs rhs, .binop left right operates =>
    obtain rfl : ty = .static n := static
    cases operates with
    | folded isLeft isRight folded word =>
      rw [value, left.value_of_static isLeft, right.value_of_static isRight, isLeft, isRight]
      exact congrArg some (operation_folded product folded word)
    | checked _ computed => exact absurd rfl (computed n)
  | .mem _ _ _, .mem _ _ storable => exact absurd (static ▸ storable) (Typing.not_storable_static n)
  | .muxRead _ _ _ _, .muxRead _ _ _ storable =>
    exact absurd (static ▸ storable) (Typing.not_storable_static n)

end

end Lowering

end BankedLoops
